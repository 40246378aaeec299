-- SUMMARY: The array-list blocking queue: push, pop, close and the update of its limit, as critical sections.
import Mathlib.Algebra.Order.Monoid.Unbundled.WithTop
import BoomPar.Platform
import BoomPar.Monitor.Channel

/-!
# `sync_queue`

Each operation is the critical section of `sync_queue.c` that its caller runs
under `q_lock`. A section that ends in a condition wait returns `none`; the rest
of the operation runs when the thread resumes, from the same loop test.
-/

namespace BoomPar

open Monitor

/-- `max_capacity` and the capacities it is compared with are `cy_uint`s, of
    which `UNBOUNDED_SYNC_QUEUE` is the largest: here `⊤`. -/
structure SyncQueue (α : Type*) where
  qEmptyWait : CondVar
  qFullWait : CondVar
  qEmptyWaitThreadCount : ℕ
  qFullWaitThreadCount : ℕ
  maxCapacity : WithTop ℕ
  qp : Arraylist α
  isClosed : Bool
  deriving DecidableEq

namespace SyncQueue

variable {α : Type*}

def init (maxCapacity : WithTop ℕ) : SyncQueue α where
  qEmptyWait := ∅
  qFullWait := ∅
  qEmptyWaitThreadCount := 0
  qFullWaitThreadCount := 0
  maxCapacity := maxCapacity
  qp := .init
  isClosed := false

def hasCapacityCrossedMaxCapacityLimits (sq : SyncQueue α) : Bool :=
  -- an unbounded queue never reaches its limit
  if sq.maxCapacity = ⊤ then false else decide (sq.maxCapacity ≤ (sq.qp.capacity : WithTop ℕ))

def getMaxCapacity (sq : SyncQueue α) : WithTop ℕ := sq.maxCapacity

def updateMaxCapacity (sq : SyncQueue α) (newMaxCapacity : WithTop ℕ) : SyncQueue α :=
  { sq with
    maxCapacity := newMaxCapacity
    -- if the limit increased, wake up the pushers waiting for the queue being full
    qFullWait :=
      sq.qFullWait.broadcastIf
        (sq.qp.isFull && 0 < sq.qFullWaitThreadCount && sq.maxCapacity < newMaxCapacity) }

def isFull (sq : SyncQueue α) : Bool := sq.qp.isFull

def isEmpty (sq : SyncQueue α) : Bool := sq.qp.isEmpty

/-- The test of the loop in which a pusher waits, without the wait error. -/
def pushMustWait (sq : SyncQueue α) : Bool :=
  !sq.isClosed && sq.qp.isFull && sq.hasCapacityCrossedMaxCapacityLimits

/-- The array list after the attempt of `push_sync_queue` to make room in it. -/
def expandForPush (sq : SyncQueue α) (o : Outcome) : Arraylist α :=
  if sq.qp.isFull = true ∧ sq.hasCapacityCrossedMaxCapacityLimits = false then
    sq.qp.expand o.capacity else sq.qp

/-- `push_sync_queue` after its wait loop. -/
def pushAfterWait (sq : SyncQueue α) (d : α) (o : Outcome) : SyncQueue α × Bool :=
  if sq.isClosed then (sq, false)
  else
    let pushed := (sq.expandForPush o).pushBack d
    ({ sq with
        qp := pushed.1
        qEmptyWait := sq.qEmptyWait.signalIf (pushed.2 && 0 < sq.qEmptyWaitThreadCount) o.woken },
      pushed.2)

/-- `push_sync_queue` from the test of its wait loop, for thread `t`. A wait with
    the timeout `nonBlocking` returns its error at once. -/
def push (sq : SyncQueue α) (t : ℕ) (d : α) (timeout : ℕ) (waitError : Bool) (o : Outcome) :
    SyncQueue α × Option Bool :=
  if sq.pushMustWait = true ∧ waitError = false ∧ timeout ≠ nonBlocking then
    ({ sq with
        qFullWaitThreadCount := sq.qFullWaitThreadCount + 1
        qFullWait := sq.qFullWait.wait t }, none)
  else
    let r := sq.pushAfterWait d o
    (r.1, some r.2)

/-- The rest of `push_sync_queue` when thread `t` resumes from its wait. -/
def pushResume (sq : SyncQueue α) (t : ℕ) (d : α) (timeout : ℕ) (o : Outcome) :
    SyncQueue α × Option Bool :=
  { sq with qFullWaitThreadCount := sq.qFullWaitThreadCount - 1 }.push t d
    (leftOf timeout o.remaining) o.waitError o

/-- The array list after the attempt of `pop_sync_queue` to shrink it, when it
    occupies more than thrice the needed space. -/
def shrinkAfterPop (qp : Arraylist α) (o : Outcome) : Arraylist α :=
  if 3 * qp.elementCount < qp.capacity then qp.shrink o.capacity else qp

/-- `pop_sync_queue` after its wait loop. -/
def popAfterWait (sq : SyncQueue α) (o : Outcome) : SyncQueue α × Option α :=
  let popped := sq.qp.popFront
  ({ sq with
      qFullWait := sq.qFullWait.signalIf
        (!sq.isClosed && popped.2 && 0 < sq.qFullWaitThreadCount) o.woken
      qp := shrinkAfterPop popped.1 o },
    if popped.2 = true then sq.qp.getFront else none)

/-- `pop_sync_queue` from the test of its wait loop, for thread `t`. -/
def pop (sq : SyncQueue α) (t : ℕ) (timeout : ℕ) (waitError : Bool) (o : Outcome) :
    SyncQueue α × Option (Option α) :=
  if (!sq.isClosed && sq.qp.isEmpty) = true ∧ waitError = false ∧ timeout ≠ nonBlocking then
    ({ sq with
        qEmptyWaitThreadCount := sq.qEmptyWaitThreadCount + 1
        qEmptyWait := sq.qEmptyWait.wait t }, none)
  else
    let r := sq.popAfterWait o
    (r.1, some r.2)

/-- The rest of `pop_sync_queue` when thread `t` resumes from its wait. -/
def popResume (sq : SyncQueue α) (t : ℕ) (timeout : ℕ) (o : Outcome) :
    SyncQueue α × Option (Option α) :=
  { sq with qEmptyWaitThreadCount := sq.qEmptyWaitThreadCount - 1 }.pop t
    (leftOf timeout o.remaining) o.waitError o

def close (sq : SyncQueue α) : SyncQueue α :=
  { sq with
    qFullWait := sq.qFullWait.broadcastIf (!sq.isClosed && 0 < sq.qFullWaitThreadCount)
    qEmptyWait := sq.qEmptyWait.broadcastIf (!sq.isClosed && 0 < sq.qEmptyWaitThreadCount)
    isClosed := true }

def getThreadsWaitingOnEmpty (sq : SyncQueue α) : ℕ := sq.qEmptyWaitThreadCount

def getThreadsWaitingOnFull (sq : SyncQueue α) : ℕ := sq.qFullWaitThreadCount

/-! ## The queue as a channel -/

/-- What the queue is to its users, without capacities. -/
def channel (sq : SyncQueue α) : Channel α where
  contents := sq.qp.contents
  closed := sq.isClosed
  emptyWait := sq.qEmptyWait
  emptyCount := sq.qEmptyWaitThreadCount
  fullWait := sq.qFullWait
  fullCount := sq.qFullWaitThreadCount

@[simp] theorem channel_contents (sq : SyncQueue α) : sq.channel.contents = sq.qp.contents := rfl
@[simp] theorem channel_closed (sq : SyncQueue α) : sq.channel.closed = sq.isClosed := rfl

@[simp] theorem contents_expandForPush (sq : SyncQueue α) (o : Outcome) :
    (sq.expandForPush o).contents = sq.qp.contents := by
  unfold expandForPush
  split <;> simp

@[simp] theorem contents_shrinkAfterPop (qp : Arraylist α) (o : Outcome) :
    (shrinkAfterPop qp o).contents = qp.contents := by
  unfold shrinkAfterPop
  split <;> simp

theorem pushAfterWait_channel (sq : SyncQueue α) (t : ℕ) (d : α) (o : Outcome) :
    sq.channel.Push t d (sq.pushAfterWait d o).1.channel (some (sq.pushAfterWait d o).2) := by
  unfold pushAfterWait
  split
  · exact .refuse
  · rename_i hopen
    obtain ⟨hp, hcontents⟩ | ⟨hp, hsame⟩ := (sq.expandForPush o).pushBack_cases d
    · rw [contents_expandForPush] at hcontents
      simp only [channel, hp, hcontents, Bool.true_and]
      exact .accept o.woken (by simpa using hopen)
    · simp only [channel, hp, hsame, contents_expandForPush, Bool.false_and,
        CondVar.signalIf_false]
      exact .refuse

theorem push_channel (sq : SyncQueue α) (t : ℕ) (d : α) (timeout : ℕ) (waitError : Bool)
    (o : Outcome) :
    sq.channel.Push t d (sq.push t d timeout waitError o).1.channel
      (sq.push t d timeout waitError o).2 := by
  unfold push
  split
  · rename_i hwait
    simp only [pushMustWait, Bool.and_eq_true, Bool.not_eq_true'] at hwait
    exact .wait hwait.1.1.1
  · exact sq.pushAfterWait_channel t d o

theorem pushResume_channel (sq : SyncQueue α) (t : ℕ) (d : α) (timeout : ℕ) (o : Outcome) :
    sq.channel.resumeFull.Push t d (sq.pushResume t d timeout o).1.channel
      (sq.pushResume t d timeout o).2 :=
  push_channel { sq with qFullWaitThreadCount := sq.qFullWaitThreadCount - 1 } t d _ _ o

theorem popAfterWait_channel (sq : SyncQueue α) (t : ℕ) (quit : Bool) (o : Outcome)
    (h : sq.isClosed = true ∨ sq.qp.contents ≠ [] ∨ quit = true) :
    sq.channel.Pop t quit (sq.popAfterWait o).1.channel (some (sq.popAfterWait o).2) := by
  unfold popAfterWait
  obtain ⟨d, rest, hcons, hp, hrest, -⟩ | ⟨hnil, hp, hsame⟩ := sq.qp.popFront_cases
  · simp only [channel, hp, hrest, contents_shrinkAfterPop, Bool.and_true, if_true,
      Arraylist.getFront, hcons, List.head?_cons]
    exact hcons ▸ .take d rest o.woken hcons
  · simp only [channel, hp, hsame, contents_shrinkAfterPop, Bool.and_false, Bool.false_and,
      CondVar.signalIf_false]
    exact .nothing hnil (by simpa [hnil] using h)

theorem pop_channel (sq : SyncQueue α) (t : ℕ) (timeout : ℕ) (waitError : Bool) (o : Outcome) :
    sq.channel.Pop t (waitError || timeout == nonBlocking)
      (sq.pop t timeout waitError o).1.channel (sq.pop t timeout waitError o).2 := by
  unfold pop
  split
  · rename_i hwait
    obtain ⟨hwait, herror, htimeout⟩ := hwait
    simp only [Bool.and_eq_true, Bool.not_eq_true', Arraylist.isEmpty, List.isEmpty_iff] at hwait
    exact .wait hwait.1 hwait.2 (by simp [herror, htimeout])
  · rename_i hgo
    refine sq.popAfterWait_channel t _ o ?_
    simp only [Bool.and_eq_true, Bool.not_eq_true', Arraylist.isEmpty, List.isEmpty_iff] at hgo
    grind

theorem popResume_channel (sq : SyncQueue α) (t : ℕ) (timeout : ℕ) (o : Outcome) :
    sq.channel.resumeEmpty.Pop t (o.waitError || leftOf timeout o.remaining == nonBlocking)
      (sq.popResume t timeout o).1.channel (sq.popResume t timeout o).2 :=
  pop_channel { sq with qEmptyWaitThreadCount := sq.qEmptyWaitThreadCount - 1 } t _ _ o

/-- An update of the limit wakes all pushers or none. -/
theorem updateMaxCapacity_channel (sq : SyncQueue α) (n : WithTop ℕ) :
    ∃ b, (sq.updateMaxCapacity n).channel =
      { sq.channel with fullWait := sq.channel.fullWait.broadcastIf b } :=
  ⟨_, rfl⟩

theorem close_channel (sq : SyncQueue α) : sq.close.channel = sq.channel.close := rfl

end SyncQueue

end BoomPar
