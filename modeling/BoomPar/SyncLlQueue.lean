-- SUMMARY: The linked-list blocking queue: push, pop and close, as critical sections.
import BoomPar.Platform
import BoomPar.Monitor.Channel

/-!
# `sync_ll_queue`

The unbounded sibling of `sync_queue`: a push never waits, so there is one
condition variable only.
-/

namespace BoomPar

open Monitor

structure SyncLlQueue (α : Type*) where
  qEmptyWait : CondVar
  qEmptyWaitThreadCount : ℕ
  qp : Singlylist α
  isClosed : Bool
  deriving DecidableEq

namespace SyncLlQueue

variable {α : Type*}

def init : SyncLlQueue α where
  qEmptyWait := ∅
  qEmptyWaitThreadCount := 0
  qp := .init
  isClosed := false

def isEmpty (sq : SyncLlQueue α) : Bool := sq.qp.isEmpty

def push [DecidableEq α] (sq : SyncLlQueue α) (d : α) (o : Outcome) : SyncLlQueue α × Bool :=
  if sq.isClosed then (sq, false)
  else
    let pushed := sq.qp.insertTail d
    ({ sq with
        qp := pushed.1
        qEmptyWait := sq.qEmptyWait.signalIf (pushed.2 && 0 < sq.qEmptyWaitThreadCount) o.woken },
      pushed.2)

/-- `pop_sync_ll_queue` after its wait loop. -/
def popAfterWait (sq : SyncLlQueue α) : SyncLlQueue α × Option α :=
  let popped := sq.qp.removeHead
  ({ sq with qp := popped.1 }, if popped.2 = true then sq.qp.getHead else none)

/-- `pop_sync_ll_queue` from the test of its wait loop, for thread `t`. -/
def pop (sq : SyncLlQueue α) (t : ℕ) (timeout : ℕ) (waitError : Bool) :
    SyncLlQueue α × Option (Option α) :=
  if (!sq.isClosed && sq.qp.isEmpty) = true ∧ waitError = false ∧ timeout ≠ nonBlocking then
    ({ sq with
        qEmptyWaitThreadCount := sq.qEmptyWaitThreadCount + 1
        qEmptyWait := sq.qEmptyWait.wait t }, none)
  else
    let r := sq.popAfterWait
    (r.1, some r.2)

/-- The rest of `pop_sync_ll_queue` when thread `t` resumes from its wait. -/
def popResume (sq : SyncLlQueue α) (t : ℕ) (timeout : ℕ) (o : Outcome) :
    SyncLlQueue α × Option (Option α) :=
  { sq with qEmptyWaitThreadCount := sq.qEmptyWaitThreadCount - 1 }.pop t
    (leftOf timeout o.remaining) o.waitError

def close (sq : SyncLlQueue α) : SyncLlQueue α :=
  { sq with
    qEmptyWait := sq.qEmptyWait.broadcastIf (!sq.isClosed && 0 < sq.qEmptyWaitThreadCount)
    isClosed := true }

def getThreadsWaitingOnEmpty (sq : SyncLlQueue α) : ℕ := sq.qEmptyWaitThreadCount

/-! ## The queue as a channel -/

/-- What the queue is to its users: a channel that no sender waits for. -/
def channel (sq : SyncLlQueue α) : Channel α where
  contents := sq.qp.contents
  closed := sq.isClosed
  emptyWait := sq.qEmptyWait
  emptyCount := sq.qEmptyWaitThreadCount
  fullWait := ∅
  fullCount := 0

theorem push_channel [DecidableEq α] (sq : SyncLlQueue α) (t : ℕ) (d : α) (o : Outcome) :
    sq.channel.Push t d (sq.push d o).1.channel (some (sq.push d o).2) := by
  unfold push
  split
  · exact .refuse
  · rename_i hopen
    simp only [Singlylist.insertTail]
    split
    · exact .refuse
    · exact .accept o.woken (by simpa [channel] using hopen)

theorem popAfterWait_channel (sq : SyncLlQueue α) (t : ℕ) (quit : Bool)
    (h : sq.isClosed = true ∨ sq.qp.contents ≠ [] ∨ quit = true) :
    sq.channel.Pop t quit sq.popAfterWait.1.channel (some sq.popAfterWait.2) := by
  unfold popAfterWait
  obtain ⟨d, rest, hcons, hp, hrest⟩ | ⟨hnil, hp, hsame⟩ := sq.qp.removeHead_cases
  · have htake : sq.channel.Pop t quit _ _ := .take d rest 0 hcons
    simpa [channel, hp, hrest, Singlylist.getHead, hcons] using htake
  · simp only [channel, hp, hsame]
    exact .nothing hnil (by simpa [hnil] using h)

theorem pop_channel (sq : SyncLlQueue α) (t : ℕ) (timeout : ℕ) (waitError : Bool) :
    sq.channel.Pop t (waitError || timeout == nonBlocking)
      (sq.pop t timeout waitError).1.channel (sq.pop t timeout waitError).2 := by
  unfold pop
  split
  · rename_i hwait
    obtain ⟨hwait, herror, htimeout⟩ := hwait
    simp only [Bool.and_eq_true, Bool.not_eq_true', Singlylist.isEmpty, List.isEmpty_iff] at hwait
    exact .wait hwait.1 hwait.2 (by simp [herror, htimeout])
  · rename_i hgo
    refine sq.popAfterWait_channel t _ ?_
    simp only [Bool.and_eq_true, Bool.not_eq_true', Singlylist.isEmpty, List.isEmpty_iff] at hgo
    grind

theorem popResume_channel (sq : SyncLlQueue α) (t : ℕ) (timeout : ℕ) (o : Outcome) :
    sq.channel.resumeEmpty.Pop t (o.waitError || leftOf timeout o.remaining == nonBlocking)
      (sq.popResume t timeout o).1.channel (sq.popResume t timeout o).2 :=
  pop_channel { sq with qEmptyWaitThreadCount := sq.qEmptyWaitThreadCount - 1 } t _ _

theorem close_channel (sq : SyncLlQueue α) : sq.close.channel = sq.channel.close := by
  simp only [close, channel, Channel.close, CondVar.broadcastIf_empty]
  rfl

end SyncLlQueue

end BoomPar
