-- SUMMARY: The job queue: one of the two blocking queues behind a common interface, and both as a channel.
import BoomPar.SyncQueue
import BoomPar.SyncLlQueue

/-!
# `job_queue`

A tagged union of the two blocking queues. Every operation dispatches on the
type; what only the array list has (a limit, threads waiting for room) is given
a fixed answer for the linked list.
-/

namespace BoomPar

open Monitor

/-- A `job_queue`, by its `type`. -/
inductive JobQueue (α : Type*) where
  | linkedlist (lsq : SyncLlQueue α)
  | arraylist (sq : SyncQueue α)
  deriving DecidableEq

namespace JobQueue

variable {α : Type*}

/-- `JOB_QUEUE_AS_LINKEDLIST`. -/
def asLinkedlist : WithTop ℕ := (0 : ℕ)

def init (maxCapacity : WithTop ℕ) : JobQueue α :=
  if maxCapacity = asLinkedlist then .linkedlist .init else .arraylist (.init maxCapacity)

def getMaxCapacity : JobQueue α → WithTop ℕ
  | .linkedlist _ => ⊤
  | .arraylist sq => sq.getMaxCapacity

def updateMaxCapacity (jq : JobQueue α) (newMaxCapacity : WithTop ℕ) : JobQueue α :=
  match jq with
  | .linkedlist lsq => .linkedlist lsq
  | .arraylist sq => .arraylist (sq.updateMaxCapacity newMaxCapacity)

def isFull : JobQueue α → Bool
  | .linkedlist _ => false
  | .arraylist sq => sq.isFull

def isEmpty : JobQueue α → Bool
  | .linkedlist lsq => lsq.isEmpty
  | .arraylist sq => sq.isEmpty

def push [DecidableEq α] (jq : JobQueue α) (t : ℕ) (d : α) (timeout : ℕ) (waitError : Bool)
    (o : Outcome) : JobQueue α × Option Bool :=
  match jq with
  | .linkedlist lsq => let r := lsq.push d o; (.linkedlist r.1, some r.2)
  | .arraylist sq => let r := sq.push t d timeout waitError o; (.arraylist r.1, r.2)

/-- The rest of a push whose thread resumes from its wait; no push of a linked
    list waits. -/
def pushResume [DecidableEq α] (jq : JobQueue α) (t : ℕ) (d : α) (timeout : ℕ) (o : Outcome) :
    JobQueue α × Option Bool :=
  match jq with
  | .linkedlist lsq => let r := lsq.push d o; (.linkedlist r.1, some r.2)
  | .arraylist sq => let r := sq.pushResume t d timeout o; (.arraylist r.1, r.2)

def pop (jq : JobQueue α) (t : ℕ) (timeout : ℕ) (waitError : Bool) (o : Outcome) :
    JobQueue α × Option (Option α) :=
  match jq with
  | .linkedlist lsq => let r := lsq.pop t timeout waitError; (.linkedlist r.1, r.2)
  | .arraylist sq => let r := sq.pop t timeout waitError o; (.arraylist r.1, r.2)

def popResume (jq : JobQueue α) (t : ℕ) (timeout : ℕ) (o : Outcome) :
    JobQueue α × Option (Option α) :=
  match jq with
  | .linkedlist lsq => let r := lsq.popResume t timeout o; (.linkedlist r.1, r.2)
  | .arraylist sq => let r := sq.popResume t timeout o; (.arraylist r.1, r.2)

def close : JobQueue α → JobQueue α
  | .linkedlist lsq => .linkedlist lsq.close
  | .arraylist sq => .arraylist sq.close

def getThreadsWaitingOnEmpty : JobQueue α → ℕ
  | .linkedlist lsq => lsq.getThreadsWaitingOnEmpty
  | .arraylist sq => sq.getThreadsWaitingOnEmpty

def getThreadsWaitingOnFull : JobQueue α → ℕ
  | .linkedlist _ => 0
  | .arraylist sq => sq.getThreadsWaitingOnFull

/-- A thread blocked for an element wakes without a signal. -/
def wakeEmpty (jq : JobQueue α) (t : ℕ) : JobQueue α :=
  match jq with
  | .linkedlist lsq => .linkedlist { lsq with qEmptyWait := lsq.qEmptyWait.erase t }
  | .arraylist sq => .arraylist { sq with qEmptyWait := sq.qEmptyWait.erase t }

/-- A thread blocked for room wakes without a signal. -/
def wakeFull (jq : JobQueue α) (t : ℕ) : JobQueue α :=
  match jq with
  | .linkedlist lsq => .linkedlist lsq
  | .arraylist sq => .arraylist { sq with qFullWait := sq.qFullWait.erase t }

/-! ## The queue as a channel -/

/-- What the queue is to its users, whichever representation it has. -/
def channel : JobQueue α → Channel α
  | .linkedlist lsq => lsq.channel
  | .arraylist sq => sq.channel

theorem channel_init (m : WithTop ℕ) : (init m : JobQueue α).channel = .empty := by
  unfold init
  split <;> rfl

theorem isEmpty_iff {jq : JobQueue α} : jq.isEmpty = true ↔ jq.channel.contents = [] := by
  cases jq with
  | linkedlist lsq =>
    simp [isEmpty, SyncLlQueue.isEmpty, Singlylist.isEmpty, channel, SyncLlQueue.channel]
  | arraylist sq => simp [isEmpty, SyncQueue.isEmpty, Arraylist.isEmpty, channel]

theorem getThreadsWaitingOnEmpty_eq (jq : JobQueue α) :
    jq.getThreadsWaitingOnEmpty = jq.channel.emptyCount := by
  cases jq <;> rfl

theorem push_channel [DecidableEq α] (jq : JobQueue α) (t : ℕ) (d : α) (timeout : ℕ)
    (waitError : Bool) (o : Outcome) :
    jq.channel.Push t d (jq.push t d timeout waitError o).1.channel
      (jq.push t d timeout waitError o).2 := by
  cases jq with
  | linkedlist lsq => exact lsq.push_channel t d o
  | arraylist sq => exact sq.push_channel t d timeout waitError o

theorem pushResume_channel [DecidableEq α] (jq : JobQueue α) (t : ℕ) (d : α) (timeout : ℕ)
    (o : Outcome) :
    jq.channel.resumeFull.Push t d (jq.pushResume t d timeout o).1.channel
      (jq.pushResume t d timeout o).2 := by
  cases jq with
  | linkedlist lsq => exact lsq.push_channel t d o
  | arraylist sq => exact sq.pushResume_channel t d timeout o

theorem pop_channel (jq : JobQueue α) (t : ℕ) (timeout : ℕ) (waitError : Bool) (o : Outcome) :
    jq.channel.Pop t (waitError || timeout == nonBlocking)
      (jq.pop t timeout waitError o).1.channel (jq.pop t timeout waitError o).2 := by
  cases jq with
  | linkedlist lsq => exact lsq.pop_channel t timeout waitError
  | arraylist sq => exact sq.pop_channel t timeout waitError o

theorem popResume_channel (jq : JobQueue α) (t : ℕ) (timeout : ℕ) (o : Outcome) :
    jq.channel.resumeEmpty.Pop t (o.waitError || leftOf timeout o.remaining == nonBlocking)
      (jq.popResume t timeout o).1.channel (jq.popResume t timeout o).2 := by
  cases jq with
  | linkedlist lsq => exact lsq.popResume_channel t timeout o
  | arraylist sq => exact sq.popResume_channel t timeout o

theorem updateMaxCapacity_channel (jq : JobQueue α) (n : WithTop ℕ) :
    ∃ b, (jq.updateMaxCapacity n).channel =
      { jq.channel with fullWait := jq.channel.fullWait.broadcastIf b } := by
  cases jq with
  | linkedlist lsq => exact ⟨false, rfl⟩
  | arraylist sq => exact sq.updateMaxCapacity_channel n

theorem close_channel (jq : JobQueue α) : jq.close.channel = jq.channel.close := by
  cases jq with
  | linkedlist lsq => exact lsq.close_channel
  | arraylist sq => exact sq.close_channel

theorem wakeEmpty_channel (jq : JobQueue α) (t : ℕ) :
    (jq.wakeEmpty t).channel = { jq.channel with emptyWait := jq.channel.emptyWait.erase t } := by
  cases jq <;> rfl

theorem wakeFull_channel (jq : JobQueue α) (t : ℕ) :
    (jq.wakeFull t).channel = { jq.channel with fullWait := jq.channel.fullWait.erase t } := by
  cases jq <;> rfl

end JobQueue

end BoomPar
