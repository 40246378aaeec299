-- SUMMARY: Condition variables of a monitor, as the finite set of the threads blocked on them.
import Mathlib.Data.Finset.Card
import Mathlib.Data.Finset.Max

/-!
# Condition variables

A thread is named by its position in the pool of threads, a natural number. A condition variable
is the set of the threads that are blocked on it and not yet woken; a thread
that was woken is out of the set, whether or not it has re-acquired the lock.
-/

namespace Monitor

/-- The threads blocked on a condition variable and not yet woken. -/
abbrev CondVar := Finset ℕ

namespace CondVar

/-- Thread `t` releases the lock and blocks. -/
def wait (cv : CondVar) (t : ℕ) : CondVar := insert t cv

/-- Wake the thread `u` of the scheduler's choice, or another one when `u` is
    not blocked: a signal never goes unheard while a thread is blocked. -/
def signal (cv : CondVar) (u : ℕ) : CondVar :=
  cv.erase (if u ∈ cv then u else cv.min.untopD u)

/-- Wake every blocked thread. -/
def broadcast (_ : CondVar) : CondVar := ∅

/-- Signal under a condition that the code tests first. -/
def signalIf (cv : CondVar) (b : Bool) (u : ℕ) : CondVar := if b then cv.signal u else cv

/-- Broadcast under a condition that the code tests first. -/
def broadcastIf (cv : CondVar) (b : Bool) : CondVar := if b then cv.broadcast else cv

@[simp] theorem mem_wait {cv : CondVar} {t u : ℕ} : u ∈ cv.wait t ↔ u = t ∨ u ∈ cv := by
  simp [wait]

@[simp] theorem broadcast_eq_empty (cv : CondVar) : cv.broadcast = ∅ := rfl

theorem mem_of_mem_signal {cv : CondVar} {u v : ℕ} (h : v ∈ cv.signal u) : v ∈ cv :=
  Finset.mem_of_mem_erase h

/-- A signal for `u` leaves `u` awake. -/
theorem notMem_signal {cv : CondVar} (u : ℕ) : u ∉ cv.signal u := by
  unfold signal
  split
  · exact Finset.notMem_erase u cv
  · rename_i hawake
    exact fun hu => hawake (Finset.mem_of_mem_erase hu)

@[simp] theorem signal_empty (u : ℕ) : signal ∅ u = ∅ := by
  simp [signal]

/-- The thread that a signal wakes is a blocked one. -/
theorem signal_target_mem {cv : CondVar} (u : ℕ) (h : cv.Nonempty) :
    (if u ∈ cv then u else cv.min.untopD u) ∈ cv := by
  split
  · assumption
  · obtain ⟨m, hm⟩ := Finset.min_of_nonempty h
    rw [hm]
    exact Finset.mem_of_min hm

theorem card_signal {cv : CondVar} (u : ℕ) (h : cv.Nonempty) :
    (cv.signal u).card + 1 = cv.card :=
  Finset.card_erase_add_one (signal_target_mem u h)

theorem card_signal_le (cv : CondVar) (u : ℕ) : (cv.signal u).card ≤ cv.card :=
  Finset.card_erase_le

@[simp] theorem signalIf_true (cv : CondVar) (u : ℕ) : cv.signalIf true u = cv.signal u := rfl
@[simp] theorem signalIf_false (cv : CondVar) (u : ℕ) : cv.signalIf false u = cv := rfl
@[simp] theorem broadcastIf_true (cv : CondVar) : cv.broadcastIf true = ∅ := rfl
@[simp] theorem broadcastIf_false (cv : CondVar) : cv.broadcastIf false = cv := rfl

@[simp] theorem signalIf_empty (b : Bool) (u : ℕ) : signalIf ∅ b u = ∅ := by
  cases b <;> simp

@[simp] theorem broadcastIf_empty (b : Bool) : broadcastIf ∅ b = ∅ := by
  cases b <;> rfl

theorem mem_of_mem_signalIf {cv : CondVar} {b : Bool} {u v : ℕ} (h : v ∈ cv.signalIf b u) :
    v ∈ cv := by
  cases b with
  | false => exact h
  | true => exact mem_of_mem_signal h

theorem mem_of_mem_broadcastIf {cv : CondVar} {b : Bool} {v : ℕ} (h : v ∈ cv.broadcastIf b) :
    v ∈ cv := by
  cases b with
  | false => exact h
  | true => exact absurd h (Finset.notMem_empty v)

end CondVar

end Monitor
