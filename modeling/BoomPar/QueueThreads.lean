-- SUMMARY: Any number of threads on one job queue: the system of their critical sections and its invariants.
import BoomPar.JobQueue
import BoomPar.Monitor.ChannelThreads

/-!
# Threads on a job queue

The clients of one queue of either representation. A call of an operation is a
thread; between its critical sections it is blocked in, or woken from, the wait
of a push or a pop. The history of the elements is kept beside the queue, in the
order in which the lock was held.
-/

namespace BoomPar

open Monitor

variable {α : Type*}

inductive QueueCall (α : Type*) where
  | push (d : α) (timeout : ℕ)
  | pop (timeout : ℕ)
  | close
  | updateMaxCapacity (newMaxCapacity : WithTop ℕ)
  | isFull
  | isEmpty
  | getMaxCapacity
  | getThreadsWaitingOnEmpty
  | getThreadsWaitingOnFull
  deriving DecidableEq

inductive QueueResult (α : Type*) where
  | void
  | pushed (isPushed : Bool)
  | popped (d : Option α)
  | flag (b : Bool)
  | number (n : WithTop ℕ)
  deriving DecidableEq

/-- Where a call is: before its first critical section, waiting for room or for
    an element with what is left of its timeout, or returned. -/
inductive QueuePc (α : Type*) where
  | called (k : QueueCall α)
  | fullWait (d : α) (timeout : ℕ)
  | emptyWait (timeout : ℕ)
  | returned (k : QueueCall α) (r : QueueResult α)
  deriving DecidableEq

/-- The queue, the elements whose push returned 1 and those that a pop returned. -/
structure QueueState (α : Type*) where
  queue : JobQueue α
  pushed : List α
  popped : List α
  deriving DecidableEq

abbrev QueueConfig (α : Type*) := Config (QueueState α) (QueuePc α)

/-- A push left its section: it blocked, or returns whether `d` was pushed. -/
def QueueState.afterPush (s : QueueState α) (d : α) (timeout : ℕ) :
    JobQueue α × Option Bool → QueueState α × QueuePc α × List (QueuePc α)
  | (q, none) => ({ s with queue := q }, .fullWait d timeout, [])
  | (q, some isPushed) =>
    ({ s with queue := q, pushed := s.pushed ++ if isPushed then [d] else [] },
      .returned (.push d timeout) (.pushed isPushed), [])

/-- A pop left its section: it blocked, or returns an element or NULL. -/
def QueueState.afterPop (s : QueueState α) (timeout : ℕ) :
    JobQueue α × Option (Option α) → QueueState α × QueuePc α × List (QueuePc α)
  | (q, none) => ({ s with queue := q }, .emptyWait timeout, [])
  | (q, some d) =>
    ({ s with queue := q, popped := s.popped ++ d.toList },
      .returned (.pop timeout) (.popped d), [])

@[simp] theorem afterPush_queue (s : QueueState α) (d : α) (timeout : ℕ)
    (r : JobQueue α × Option Bool) : (s.afterPush d timeout r).1.queue = r.1 := by
  obtain ⟨q, _ | b⟩ := r <;> rfl

@[simp] theorem afterPop_queue (s : QueueState α) (timeout : ℕ)
    (r : JobQueue α × Option (Option α)) : (s.afterPop timeout r).1.queue = r.1 := by
  obtain ⟨q, _ | d⟩ := r <;> rfl

def queueStep [DecidableEq α] (s : QueueState α) (t : ℕ) :
    QueuePc α → Outcome → Option (QueueState α × QueuePc α × List (QueuePc α))
  | .called (.push d timeout), o => some (s.afterPush d timeout (s.queue.push t d timeout false o))
  | .fullWait d timeout, o =>
    if t ∈ s.queue.channel.fullWait then none
    else some (s.afterPush d (leftOf timeout o.remaining) (s.queue.pushResume t d timeout o))
  | .called (.pop timeout), o => some (s.afterPop timeout (s.queue.pop t timeout false o))
  | .emptyWait timeout, o =>
    if t ∈ s.queue.channel.emptyWait then none
    else some (s.afterPop (leftOf timeout o.remaining) (s.queue.popResume t timeout o))
  | .called .close, _ => some ({ s with queue := s.queue.close }, .returned .close .void, [])
  | .called (.updateMaxCapacity n), _ =>
    some ({ s with queue := s.queue.updateMaxCapacity n },
      .returned (.updateMaxCapacity n) .void, [])
  | .called .isFull, _ => some (s, .returned .isFull (.flag s.queue.isFull), [])
  | .called .isEmpty, _ => some (s, .returned .isEmpty (.flag s.queue.isEmpty), [])
  | .called .getMaxCapacity, _ =>
    some (s, .returned .getMaxCapacity (.number s.queue.getMaxCapacity), [])
  | .called .getThreadsWaitingOnEmpty, _ =>
    some (s, .returned .getThreadsWaitingOnEmpty (.number s.queue.getThreadsWaitingOnEmpty), [])
  | .called .getThreadsWaitingOnFull, _ =>
    some (s, .returned .getThreadsWaitingOnFull (.number s.queue.getThreadsWaitingOnFull), [])
  | .returned _ _, _ => none

/-- A blocked thread wakes by its timeout or spuriously. -/
def queueWake (s : QueueState α) (t : ℕ) : QueuePc α → Option (QueueState α)
  | .fullWait _ _ =>
    if t ∈ s.queue.channel.fullWait then some { s with queue := s.queue.wakeFull t } else none
  | .emptyWait _ =>
    if t ∈ s.queue.channel.emptyWait then some { s with queue := s.queue.wakeEmpty t } else none
  | _ => none

def queueSystem (α : Type*) [DecidableEq α] :
    System (QueueState α) (QueuePc α) (QueueCall α) Outcome where
  start _ := .called
  step := queueStep
  wake := queueWake

/-- A queue that no thread has used yet. -/
def queueInit (q : JobQueue α) : QueueConfig α := ⟨⟨q, [], []⟩, []⟩

/-- The queues as their initialization leaves them. -/
inductive JobQueue.Fresh : JobQueue α → Prop
  | linkedlist : Fresh (.linkedlist .init)
  | arraylist (maxCapacity : WithTop ℕ) : Fresh (.arraylist (.init maxCapacity))

/-- The configurations that any interleaving of any calls leads to. -/
def QueueReach [DecidableEq α] (q : JobQueue α) : QueueConfig α → Prop :=
  (queueSystem α).Reach (fun _ _ => True) (queueInit q)

/-- The transition in which the call `k` of thread `t` returns `r`. -/
def QueueReturns [DecidableEq α] (c : QueueConfig α) (a : Act (QueueCall α) Outcome)
    (c' : QueueConfig α) (t : ℕ) (k : QueueCall α) (r : QueueResult α) : Prop :=
  (queueSystem α).next c a = some c' ∧ c.pc? t ≠ some (.returned k r) ∧
    c'.pc? t = some (.returned k r)

namespace QueuePc

def waitsForElement : QueuePc α → Bool
  | .emptyWait _ => true
  | _ => false

def waitsForRoom : QueuePc α → Bool
  | .fullWait _ _ => true
  | _ => false

end QueuePc

def QueueState.emptyWait (s : QueueState α) : CondVar := s.queue.channel.emptyWait
def QueueState.fullWait (s : QueueState α) : CondVar := s.queue.channel.fullWait

/-! ## What a step does -/

/-- The steps of the system, by what they do to the queue seen as a channel. -/
inductive QueueMove (s : QueueState α) (t : ℕ) (o : Outcome) :
    QueuePc α → QueueState α → QueuePc α → Prop
  | push (d : α) (timeout : ℕ) (q : JobQueue α) (r : Option Bool) :
      s.queue.channel.Push t d q.channel r →
      QueueMove s t o (.called (.push d timeout)) (s.afterPush d timeout (q, r)).1
        (s.afterPush d timeout (q, r)).2.1
  | pushResume (d : α) (timeout : ℕ) (q : JobQueue α) (r : Option Bool) :
      t ∉ s.fullWait → s.queue.channel.resumeFull.Push t d q.channel r →
      QueueMove s t o (.fullWait d timeout)
        (s.afterPush d (leftOf timeout o.remaining) (q, r)).1
        (s.afterPush d (leftOf timeout o.remaining) (q, r)).2.1
  | pop (timeout : ℕ) (q : JobQueue α) (r : Option (Option α)) :
      s.queue.channel.Pop t (timeout == nonBlocking) q.channel r →
      QueueMove s t o (.called (.pop timeout)) (s.afterPop timeout (q, r)).1
        (s.afterPop timeout (q, r)).2.1
  | popResume (timeout : ℕ) (q : JobQueue α) (r : Option (Option α)) :
      t ∉ s.emptyWait →
      s.queue.channel.resumeEmpty.Pop t (o.waitError || leftOf timeout o.remaining == nonBlocking)
        q.channel r →
      QueueMove s t o (.emptyWait timeout)
        (s.afterPop (leftOf timeout o.remaining) (q, r)).1
        (s.afterPop (leftOf timeout o.remaining) (q, r)).2.1
  | close :
      QueueMove s t o (.called .close) { s with queue := s.queue.close } (.returned .close .void)
  | updateMaxCapacity (n : WithTop ℕ) :
      QueueMove s t o (.called (.updateMaxCapacity n))
        { s with queue := s.queue.updateMaxCapacity n } (.returned (.updateMaxCapacity n) .void)
  | query (k : QueueCall α) (r : QueueResult α) :
      (∀ b, r ≠ .pushed b) → (∀ d, r ≠ .popped d) →
      QueueMove s t o (.called k) s (.returned k r)

theorem queueStep_cases [DecidableEq α] {s s' : QueueState α} {t : ℕ} {pc pc' : QueuePc α}
    {new : List (QueuePc α)} {o : Outcome} (h : queueStep s t pc o = some (s', pc', new)) :
    new = [] ∧ QueueMove s t o pc s' pc' := by
  have hpush : ∀ d timeout q r, s.afterPush d timeout (q, r) = (s', pc', new) →
      new = [] ∧ s' = (s.afterPush d timeout (q, r)).1 ∧
        pc' = (s.afterPush d timeout (q, r)).2.1 := by
    intro d timeout q r he
    rw [he]
    cases r <;> simp only [QueueState.afterPush, Prod.mk.injEq] at he
    · exact ⟨he.2.2.symm, rfl, rfl⟩
    · exact ⟨he.2.2.symm, rfl, rfl⟩
  have hpop : ∀ timeout q r, s.afterPop timeout (q, r) = (s', pc', new) →
      new = [] ∧ s' = (s.afterPop timeout (q, r)).1 ∧
        pc' = (s.afterPop timeout (q, r)).2.1 := by
    intro timeout q r he
    rw [he]
    cases r <;> simp only [QueueState.afterPop, Prod.mk.injEq] at he
    · exact ⟨he.2.2.symm, rfl, rfl⟩
    · exact ⟨he.2.2.symm, rfl, rfl⟩
  cases pc with
  | returned k r => cases h
  | fullWait d timeout =>
    simp only [queueStep] at h
    split at h
    · cases h
    · rename_i hwoken
      obtain ⟨rfl, rfl, rfl⟩ := hpush _ _ _ _ (Option.some.inj h)
      exact ⟨rfl, .pushResume d timeout _ _ hwoken (s.queue.pushResume_channel t d timeout o)⟩
  | emptyWait timeout =>
    simp only [queueStep] at h
    split at h
    · cases h
    · rename_i hwoken
      obtain ⟨rfl, rfl, rfl⟩ := hpop _ _ _ (Option.some.inj h)
      exact ⟨rfl, .popResume timeout _ _ hwoken (s.queue.popResume_channel t timeout o)⟩
  | called k =>
    cases k with
    | push d timeout =>
      obtain ⟨rfl, rfl, rfl⟩ := hpush _ _ _ _ (Option.some.inj h)
      exact ⟨rfl, .push d timeout _ _ (s.queue.push_channel t d timeout false o)⟩
    | pop timeout =>
      obtain ⟨rfl, rfl, rfl⟩ := hpop _ _ _ (Option.some.inj h)
      exact ⟨rfl, .pop timeout _ _ (s.queue.pop_channel t timeout false o)⟩
    | close => cases h; exact ⟨rfl, .close⟩
    | updateMaxCapacity n => cases h; exact ⟨rfl, .updateMaxCapacity n⟩
    | isFull => cases h; exact ⟨rfl, .query _ _ nofun nofun⟩
    | isEmpty => cases h; exact ⟨rfl, .query _ _ nofun nofun⟩
    | getMaxCapacity => cases h; exact ⟨rfl, .query _ _ nofun nofun⟩
    | getThreadsWaitingOnEmpty => cases h; exact ⟨rfl, .query _ _ nofun nofun⟩
    | getThreadsWaitingOnFull => cases h; exact ⟨rfl, .query _ _ nofun nofun⟩

theorem queueWake_cases {s s' : QueueState α} {t : ℕ} {pc : QueuePc α}
    (h : queueWake s t pc = some s') :
    s' = { s with queue := s.queue.wakeFull t } ∨ s' = { s with queue := s.queue.wakeEmpty t } := by
  cases pc with
  | called k => cases h
  | returned k r => cases h
  | fullWait d timeout =>
    simp only [queueWake, Option.ite_none_right_eq_some, Option.some.injEq] at h
    exact .inl h.2.symm
  | emptyWait timeout =>
    simp only [queueWake, Option.ite_none_right_eq_some, Option.some.injEq] at h
    exact .inr h.2.symm

/-! ## The queue as a channel of the threads -/

theorem QueueMove.channel {s s' : QueueState α} {t : ℕ} {o : Outcome} {pc pc' : QueuePc α}
    (h : QueueMove s t o pc s' pc') :
    s.queue.channel.Move t pc.waitsForElement pc.waitsForRoom s'.queue.channel
      pc'.waitsForElement pc'.waitsForRoom := by
  cases h with
  | push d timeout q r hch => cases r <;> exact .push d _ _ hch
  | pushResume d timeout q r hnot hch => cases r <;> exact .pushResume d _ _ hnot hch
  | pop timeout q r hch => cases r <;> exact .pop _ _ _ hch
  | popResume timeout q r hnot hch => cases r <;> exact .popResume _ _ _ hnot hch
  | close => exact s.queue.close_channel ▸ .close
  | updateMaxCapacity n =>
    obtain ⟨b, hb⟩ := s.queue.updateMaxCapacity_channel n
    exact hb ▸ .broadcastFull b
  | query k r _ _ => exact .idle

theorem queueSystem_uses [DecidableEq α] :
    Channel.Uses (queueSystem α) (fun s => s.queue.channel) QueuePc.waitsForElement
      QueuePc.waitsForRoom where
  start _ _ := ⟨rfl, rfl⟩
  step h := (queueStep_cases h).2.channel
  new h pc hpc := by
    rw [(queueStep_cases h).1] at hpc
    cases hpc
  wake {s t pc s'} h := by
    obtain rfl | rfl := queueWake_cases h
    · exact ⟨_, Finset.Subset.rfl, _, Finset.erase_subset _ _, s.queue.wakeFull_channel t⟩
    · exact ⟨_, Finset.erase_subset _ _, _, Finset.Subset.rfl, s.queue.wakeEmpty_channel t⟩

/-- The invariant of the threads on a queue. -/
abbrev QueueInv (c : QueueConfig α) : Prop :=
  Channel.Sound (fun s : QueueState α => s.queue.channel) QueuePc.waitsForElement
    QueuePc.waitsForRoom c

theorem JobQueue.Fresh.channel_eq {q : JobQueue α} (h : q.Fresh) : q.channel = .empty := by
  cases h <;> rfl

theorem queue_invariant [DecidableEq α] {q : JobQueue α} (hq : q.Fresh) {c : QueueConfig α}
    (h : QueueReach q c) : QueueInv c :=
  h.invariant (.init hq.channel_eq rfl rfl) fun _ _ _ _ hc _ hn => queueSystem_uses.next hc hn

end BoomPar
