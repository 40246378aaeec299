-- SUMMARY: Streams through a buffer: what went in and what came out, over stretches of a log.
import Mathlib.Data.List.Basic

/-!
# Streams

A buffer takes the first elements of what it is offered and gives out its first
elements. A stretch of transfers carries the buffer from one content to another
exactly if what came out, followed by what is left, is what was there, followed
by what went in.
-/

namespace Monitor

/-- One transfer of a buffer. -/
inductive Transfer (α : Type*) where
  /-- The first `n` of the elements went in. -/
  | put (offered : List α) (n : ℕ)
  | took (elements : List α)
  deriving DecidableEq

namespace Transfer

variable {α : Type*}

/-- The elements that went in. -/
def goesIn : Transfer α → List α
  | put offered n => offered.take n
  | took _ => []

/-- The elements that came out. -/
def comesOut : Transfer α → List α
  | put _ _ => []
  | took elements => elements

def isPut : Transfer α → Bool
  | put _ _ => true
  | took _ => false

/-- All that went in, in order. -/
def allIn (log : List (Transfer α)) : List α := log.flatMap goesIn

/-- All that came out, in order. -/
def allOut (log : List (Transfer α)) : List α := log.flatMap comesOut

@[simp] theorem allIn_append (log log' : List (Transfer α)) :
    allIn (log ++ log') = allIn log ++ allIn log' :=
  List.flatMap_append

@[simp] theorem allOut_append (log log' : List (Transfer α)) :
    allOut (log ++ log') = allOut log ++ allOut log' :=
  List.flatMap_append

@[simp] theorem allOut_took (elements : List α) : allOut [took elements] = elements :=
  List.append_nil elements

/-- How many times something was offered, taken or not. -/
def puts (log : List (Transfer α)) : ℕ := log.countP isPut

@[simp] theorem puts_append (log log' : List (Transfer α)) :
    puts (log ++ log') = puts log + puts log' :=
  List.countP_append

@[simp] theorem puts_put (offered : List α) (n : ℕ) : puts [put offered n] = 1 := rfl

@[simp] theorem puts_took (elements : List α) : puts [took elements] = 0 := rfl

/-- Nothing goes in where nothing is offered. -/
theorem allIn_of_puts {log : List (Transfer α)} (h : puts log = 0) : allIn log = [] := by
  apply List.flatMap_eq_nil_iff.mpr
  intro x hx
  have hnot := List.countP_eq_zero.mp h x hx
  cases x with
  | put offered n => exact absurd rfl hnot
  | took elements => rfl

/-- The transfers of `log` lead from the content `before` to the content `after`. -/
def Carries (before : List α) (log : List (Transfer α)) (after : List α) : Prop :=
  before ++ allIn log = allOut log ++ after

namespace Carries

variable {before mid after : List α} {log log' : List (Transfer α)}

theorem refl (content : List α) : Carries content [] content := List.append_nil content

theorem trans (h : Carries before log mid) (h' : Carries mid log' after) :
    Carries before (log ++ log') after := by
  unfold Carries at h h' ⊢
  calc before ++ allIn (log ++ log') = (before ++ allIn log) ++ allIn log' := by
        rw [allIn_append, List.append_assoc]
    _ = allOut log ++ (mid ++ allIn log') := by rw [h, List.append_assoc]
    _ = allOut (log ++ log') ++ after := by rw [h', allOut_append, List.append_assoc]

/-- A buffer takes the first elements of what it is offered. -/
theorem put (content offered : List α) (n : ℕ) :
    Carries content [.put offered n] (content ++ offered.take n) := by
  simp [Carries, allIn, allOut, goesIn, comesOut]

/-- A buffer gives out its first elements. -/
theorem took (elements rest : List α) : Carries (elements ++ rest) [.took elements] rest := by
  simp [Carries, allIn, allOut, goesIn, comesOut]

/-- When nothing goes in, what was there comes out or is left. -/
theorem of_nothing_in (h : Carries before log after) (hlog : allIn log = []) :
    before = allOut log ++ after := by
  rw [Carries, hlog, List.append_nil] at h
  exact h

end Carries

end Transfer

end Monitor
