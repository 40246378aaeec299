-- SUMMARY: What the queues take from the libraries under them: timeouts of condition waits, growable array lists and linked lists.
import Mathlib.Algebra.Group.Nat.Defs

/-!
# The libraries under BoomPar

The condition waits come from posixutils and the containers from cutlery. Both
are modelled by what the repository relies on: what an allocation or a wait
returns is not decided here, it is an argument of the operation.
-/

namespace BoomPar

/-! ## Timeouts -/

/-- The timeout that never waits. -/
def nonBlocking : ℕ := 0

/-- The timeout that waits forever: the largest `uint64_t`. -/
def blocking : ℕ := 2 ^ 64 - 1

/-- What is left of a timeout after a wait reported `remaining`: a wait lowers
    the timeout it is given, and does not touch `blocking`. -/
def leftOf (timeout remaining : ℕ) : ℕ :=
  if timeout = blocking then blocking else min remaining timeout

@[simp] theorem leftOf_blocking (remaining : ℕ) : leftOf blocking remaining = blocking := by
  simp [leftOf]

/-- `a - b` on `uint64_t`. -/
def uint64Sub (a b : ℕ) : ℕ := (a + 2 ^ 64 - b) % 2 ^ 64

/-- `a + b` on `uint64_t`. -/
def uint64Add (a b : ℕ) : ℕ := (a + b) % 2 ^ 64

/-- A difference that is no less than zero is exact. -/
theorem uint64Sub_of_le {a b : ℕ} (hle : b ≤ a) (ha : a ≤ blocking) : uint64Sub a b = a - b := by
  simp only [uint64Sub, blocking] at *
  omega

/-- A sum that fits is exact. -/
theorem uint64Add_of_le {a b : ℕ} (h : a + b ≤ blocking) : uint64Add a b = a + b := by
  simp only [uint64Add, blocking] at *
  omega

/-- What the environment decides in one operation on a queue. -/
structure Outcome where
  /-- The thread that a signal wakes. -/
  woken : ℕ
  /-- The condition wait that just ended returned an error. -/
  waitError : Bool
  /-- What that wait left of the timeout. -/
  remaining : ℕ
  /-- The capacity that a resize allocates, `none` when the allocation fails. -/
  capacity : Option ℕ
  deriving DecidableEq

/-- The outcome of an operation that resizes to `capacity` and sees no error. -/
def Outcome.resize (capacity : ℕ) : Outcome := ⟨0, false, blocking, some capacity⟩

/-! ## Array lists -/

/-- An array list: its elements in order, within the allocated capacity. -/
structure Arraylist (α : Type*) where
  contents : List α
  capacity : ℕ
  length_le : contents.length ≤ capacity
  deriving DecidableEq

namespace Arraylist

variable {α : Type*}

/-- `initialize_arraylist` with an initial capacity of 0. -/
def init : Arraylist α := ⟨[], 0, Nat.le_refl 0⟩

def isEmpty (al : Arraylist α) : Bool := al.contents.isEmpty

def isFull (al : Arraylist α) : Bool := al.contents.length == al.capacity

def elementCount (al : Arraylist α) : ℕ := al.contents.length

/-- The front element, `none` for the NULL of an empty list. -/
def getFront (al : Arraylist α) : Option α := al.contents.head?

/-- Append an element; fails on a full list. -/
def pushBack (al : Arraylist α) (d : α) : Arraylist α × Bool :=
  if h : al.contents.length < al.capacity then
    (⟨al.contents ++ [d], al.capacity, List.length_append.symm ▸ h⟩, true)
  else (al, false)

/-- Remove the front element; fails on an empty list. -/
def popFront (al : Arraylist α) : Arraylist α × Bool :=
  match al with
  | ⟨[], c, h⟩ => (⟨[], c, h⟩, false)
  | ⟨_ :: rest, c, h⟩ => (⟨rest, c, by simp at h; omega⟩, true)

/-- Move to a larger capacity of the allocator's choice, or fail and stay. -/
def expand (al : Arraylist α) : Option ℕ → Arraylist α
  | none => al
  | some c => if h : al.capacity < c then ⟨al.contents, c, by have := al.length_le; omega⟩ else al

/-- Move to a smaller capacity that holds the elements, or fail and stay. -/
def shrink (al : Arraylist α) : Option ℕ → Arraylist α
  | none => al
  | some c =>
    if h : al.contents.length ≤ c ∧ c < al.capacity then ⟨al.contents, c, h.1⟩ else al

@[simp] theorem contents_expand (al : Arraylist α) (o : Option ℕ) :
    (al.expand o).contents = al.contents := by
  cases o with
  | none => rfl
  | some c => simp only [expand]; split <;> rfl

@[simp] theorem contents_shrink (al : Arraylist α) (o : Option ℕ) :
    (al.shrink o).contents = al.contents := by
  cases o with
  | none => rfl
  | some c => simp only [shrink]; split <;> rfl

/-- An element was appended, or the list is full and stays as it is. -/
theorem pushBack_cases (al : Arraylist α) (d : α) :
    ((al.pushBack d).2 = true ∧ (al.pushBack d).1.contents = al.contents ++ [d]) ∨
      ((al.pushBack d).2 = false ∧ (al.pushBack d).1 = al) := by
  unfold pushBack
  split
  · exact .inl ⟨rfl, rfl⟩
  · exact .inr ⟨rfl, rfl⟩

@[simp] theorem capacity_pushBack (al : Arraylist α) (d : α) :
    (al.pushBack d).1.capacity = al.capacity := by
  unfold pushBack
  split <;> rfl

theorem length_pushBack (al : Arraylist α) (d : α) :
    (al.pushBack d).1.contents.length =
      if al.contents.length < al.capacity then al.contents.length + 1 else al.contents.length := by
  unfold pushBack
  split <;> simp

theorem capacity_expand (al : Arraylist α) (o : Option ℕ) :
    (al.expand o).capacity = max al.capacity (o.getD 0) := by
  cases o with
  | none => simp [expand]
  | some c =>
    simp only [expand, Option.getD_some]
    split
    · rename_i hlt
      exact (Nat.max_eq_right (Nat.le_of_lt hlt)).symm
    · rename_i hle
      exact (Nat.max_eq_left (Nat.le_of_not_lt hle)).symm

/-- The front element was removed, or the list is empty and stays as it is. -/
theorem popFront_cases (al : Arraylist α) :
    (∃ d rest, al.contents = d :: rest ∧ (al.popFront).2 = true ∧
        (al.popFront).1.contents = rest ∧ (al.popFront).1.capacity = al.capacity) ∨
      (al.contents = [] ∧ (al.popFront).2 = false ∧ (al.popFront).1 = al) := by
  obtain ⟨_ | ⟨d, rest⟩, c, h⟩ := al
  · exact .inr ⟨rfl, rfl, rfl⟩
  · exact .inl ⟨d, rest, rfl, rfl, rfl, rfl⟩

end Arraylist

/-! ## Linked lists -/

/-- A singly linked list over nodes embedded in its elements. -/
structure Singlylist (α : Type*) where
  contents : List α
  deriving DecidableEq

namespace Singlylist

variable {α : Type*}

def init : Singlylist α := ⟨[]⟩

def isEmpty (sl : Singlylist α) : Bool := sl.contents.isEmpty

/-- The head element, `none` for the NULL of an empty list. -/
def getHead (sl : Singlylist α) : Option α := sl.contents.head?

/-- Append an element; fails when its node is already linked. -/
def insertTail [DecidableEq α] (sl : Singlylist α) (d : α) : Singlylist α × Bool :=
  if d ∈ sl.contents then (sl, false) else (⟨sl.contents ++ [d]⟩, true)

/-- Remove the head element; fails on an empty list. -/
def removeHead (sl : Singlylist α) : Singlylist α × Bool :=
  match sl with
  | ⟨[]⟩ => (⟨[]⟩, false)
  | ⟨_ :: rest⟩ => (⟨rest⟩, true)

/-- The head element was removed, or the list is empty and stays as it is. -/
theorem removeHead_cases (sl : Singlylist α) :
    (∃ d rest, sl.contents = d :: rest ∧ sl.removeHead.2 = true ∧
        sl.removeHead.1.contents = rest) ∨
      (sl.contents = [] ∧ sl.removeHead.2 = false ∧ sl.removeHead.1 = sl) := by
  obtain ⟨_ | ⟨d, rest⟩⟩ := sl
  · exact .inr ⟨rfl, rfl, rfl⟩
  · exact .inl ⟨d, rest, rfl, rfl, rfl⟩

end Singlylist

end BoomPar
