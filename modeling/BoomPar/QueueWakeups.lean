-- SUMMARY: No popper of a job queue misses a wake-up, in either representation.
import BoomPar.QueueThreads

/-!
# Wake-ups of poppers

The count a push reads before it signals includes threads that are already
woken. What the channel invariant says of the elements and the wake-ups still
pending is read off here for the threads on a job queue.
-/

namespace BoomPar

open Monitor

variable {α : Type*}

/-- The poppers blocked on `q_empty_wait`. -/
def blockedPoppers (c : QueueConfig α) : Finset ℕ :=
  System.blocked QueueState.emptyWait QueuePc.waitsForElement c

/-- The poppers woken from `q_empty_wait` that have not re-acquired the lock. -/
def wokenPoppers (c : QueueConfig α) : Finset ℕ :=
  System.woken QueueState.emptyWait QueuePc.waitsForElement c

/-- `q_empty_wait_thread_count` counts the poppers blocked and those woken; a
    popper stays blocked on an open queue only while the elements are covered by
    the woken ones, and on a closed queue not at all. -/
theorem poppers_not_lost [DecidableEq α] {q : JobQueue α} (hq : q.Fresh) {c : QueueConfig α}
    (h : QueueReach q c) :
    c.shared.queue.getThreadsWaitingOnEmpty = (blockedPoppers c).card + (wokenPoppers c).card ∧
    (c.shared.queue.channel.closed = false → (blockedPoppers c).Nonempty →
      c.shared.queue.channel.contents.length ≤ (wokenPoppers c).card) ∧
    (c.shared.queue.channel.closed = true → blockedPoppers c = ∅) := by
  have hinv := queue_invariant hq h
  have hcount : c.shared.queue.channel.emptyWait.card + (wokenPoppers c).card =
      c.count QueuePc.waitsForElement := hinv.emptyWait.card_add_card_woken
  have hblocked : blockedPoppers c = c.shared.queue.channel.emptyWait := hinv.emptyWait.blocked_eq
  rw [hinv.emptyCount] at hcount
  rw [JobQueue.getThreadsWaitingOnEmpty_eq, hblocked]
  refine ⟨hcount.symm, ?_, hinv.awake.closed_empty⟩
  intro hopen hne
  have := hinv.awake.elements hopen hne
  omega

/-- Two poppers block, and a push wakes one of them. -/
def twoPoppers : QueueConfig ℕ :=
  (queueSystem ℕ).run (queueInit (.arraylist (.init ⊤)))
    [.call (.pop blocking) (.resize 1), .call (.pop blocking) (.resize 1),
      .call (.push 7 blocking) (.resize 1)] (by decide)

theorem poppers_not_lost_twoPoppers :
    (blockedPoppers twoPoppers).Nonempty ∧
      twoPoppers.shared.queue.channel.contents.length ≤ (wokenPoppers twoPoppers).card :=
  ⟨by decide, (poppers_not_lost (.arraylist ⊤) (.run _ _ _)).2.1 (by decide) (by decide)⟩

end BoomPar
