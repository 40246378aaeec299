-- SUMMARY: What is assumed of cutlery's array list and linked list, and the sections of the two queues over any lawful ones.
import BoomPar.SyncLlQueue
import BoomPar.SyncQueue

/-!
# The containers under the queues

`arraylist` and `singlylist` come from a library. The queues are modelled over one
lawful implementation of each. Over any other, a section of the code does what the
section of the model does, for some capacity that the allocator gives.
-/

namespace BoomPar

variable {α δ : Type*}

/-! ## Array lists -/

/-- The functions of `arraylist` that `sync_queue.c` uses, over values of type `δ`. -/
structure ArraylistFunctions (α δ : Type*) where
  init : δ
  isEmpty : δ → Bool
  isFull : δ → Bool
  getCapacity : δ → ℕ
  getElementCount : δ → ℕ
  getFront : δ → Option α
  pushBack : δ → α → δ × Bool
  popFront : δ → δ × Bool
  /-- Expand, with what the allocator gives. -/
  expand : δ → Option ℕ → δ
  shrink : δ → Option ℕ → δ

/-- What `sync_queue.c` relies on: a list of elements within a capacity, `contents`. -/
structure ArraylistFunctions.Lawful (A : ArraylistFunctions α δ) (contents : δ → List α) :
    Prop where
  init : contents A.init = [] ∧ A.getCapacity A.init = 0
  length_le : ∀ al, (contents al).length ≤ A.getCapacity al
  empty : ∀ al, A.isEmpty al = true ↔ contents al = []
  full : ∀ al, A.isFull al = true ↔ (contents al).length = A.getCapacity al
  elementCount : ∀ al, A.getElementCount al = (contents al).length
  front : ∀ al, A.getFront al = (contents al).head?
  /-- An element is appended, or the list is full and keeps its contents. -/
  pushBack : ∀ al d, A.getCapacity (A.pushBack al d).1 = A.getCapacity al ∧
    if (contents al).length < A.getCapacity al then
      (A.pushBack al d).2 = true ∧ contents (A.pushBack al d).1 = contents al ++ [d]
    else (A.pushBack al d).2 = false ∧ contents (A.pushBack al d).1 = contents al
  /-- The front element is removed, if there is one. -/
  popFront : ∀ al, A.getCapacity (A.popFront al).1 = A.getCapacity al ∧
    (A.popFront al).2 = !(contents al).isEmpty ∧ contents (A.popFront al).1 = (contents al).tail
  /-- An expansion succeeds to a larger capacity, or changes nothing. -/
  expand : ∀ al o, A.expand al o = al ∨ (contents (A.expand al o) = contents al ∧
    A.getCapacity al < A.getCapacity (A.expand al o))
  /-- A shrinkage succeeds to a smaller capacity that holds the contents, or changes
      nothing. -/
  shrink : ∀ al o, A.shrink al o = al ∨ (contents (A.shrink al o) = contents al ∧
    (contents al).length ≤ A.getCapacity (A.shrink al o) ∧
    A.getCapacity (A.shrink al o) < A.getCapacity al)

namespace Arraylist

/-- The functions of the array list of the model. -/
def functions : ArraylistFunctions α (Arraylist α) where
  init := init
  isEmpty := isEmpty
  isFull := isFull
  getCapacity := capacity
  getElementCount := elementCount
  getFront := getFront
  pushBack := pushBack
  popFront := popFront
  expand := expand
  shrink := shrink

theorem lawful : (functions (α := α)).Lawful contents where
  init := ⟨rfl, rfl⟩
  length_le := length_le
  empty _ := List.isEmpty_iff
  full _ := beq_iff_eq
  elementCount _ := rfl
  front _ := rfl
  pushBack al d := by
    refine ⟨al.capacity_pushBack d, ?_⟩
    simp only [functions, pushBack]
    split
    · exact ⟨rfl, rfl⟩
    · exact ⟨rfl, rfl⟩
  popFront al := by
    obtain ⟨d, rest, hcons, hp, hrest, hcapacity⟩ | ⟨hnil, hp, hsame⟩ := al.popFront_cases
    · exact ⟨hcapacity, by rw [hcons]; exact hp, by rw [hcons]; exact hrest⟩
    · simp only [functions, hnil, hp, hsame]
      exact ⟨trivial, rfl, rfl⟩
  expand al o := by
    cases o with
    | none => exact .inl rfl
    | some c =>
      simp only [functions, expand]
      split
      · rename_i hlt
        exact .inr ⟨rfl, hlt⟩
      · exact .inl rfl
  shrink al o := by
    cases o with
    | none => exact .inl rfl
    | some c =>
      simp only [functions, shrink]
      split
      · rename_i hfits
        exact .inr ⟨rfl, hfits.1, hfits.2⟩
      · exact .inl rfl

end Arraylist

namespace SyncQueue

variable {A : ArraylistFunctions α δ} {contents : δ → List α} {sq : SyncQueue α} {al : δ}

/-- The queue of the model stands for one whose elements are in `al`. -/
structure Stores (A : ArraylistFunctions α δ) (contents : δ → List α) (sq : SyncQueue α)
    (al : δ) : Prop where
  contents_eq : sq.qp.contents = contents al
  capacity_eq : sq.qp.capacity = A.getCapacity al

theorem Stores.init (hA : A.Lawful contents) (maxCapacity : WithTop ℕ) :
    (init maxCapacity : SyncQueue α).Stores A contents A.init :=
  ⟨hA.init.1.symm, hA.init.2.symm⟩

/-- The tests of the wait loops read the same. -/
theorem Stores.tests (hA : A.Lawful contents) (h : sq.Stores A contents al) :
    sq.isFull = A.isFull al ∧ sq.isEmpty = A.isEmpty al ∧
      sq.qp.getFront = A.getFront al := by
  refine ⟨?_, ?_, ?_⟩
  · rw [Bool.eq_iff_iff, hA.full, ← h.contents_eq, ← h.capacity_eq]
    exact beq_iff_eq
  · rw [Bool.eq_iff_iff, hA.empty, ← h.contents_eq]
    exact List.isEmpty_iff
  · rw [hA.front, ← h.contents_eq]
    rfl

/-- Between two capacities of the same contents the allocator decides. -/
theorem Stores.expandForPush (hA : A.Lawful contents) (h : sq.Stores A contents al) (o : Outcome) :
    ∃ capacity,
      (sq.expandForPush { o with capacity := capacity }).contents = contents
        (if A.isFull al = true ∧ sq.hasCapacityCrossedMaxCapacityLimits = false then
          A.expand al o.capacity else al) ∧
      (sq.expandForPush { o with capacity := capacity }).capacity = A.getCapacity
        (if A.isFull al = true ∧ sq.hasCapacityCrossedMaxCapacityLimits = false then
          A.expand al o.capacity else al) := by
  have hfull : sq.qp.isFull = A.isFull al := (h.tests hA).1
  simp only [SyncQueue.expandForPush, hfull]
  split
  · obtain hsame | ⟨hcontents, hlt⟩ := hA.expand al o.capacity
    · refine ⟨none, ?_⟩
      rw [hsame]
      exact ⟨h.contents_eq, h.capacity_eq⟩
    · refine ⟨some (A.getCapacity (A.expand al o.capacity)), ?_, ?_⟩
      · rw [Arraylist.contents_expand, hcontents]
        exact h.contents_eq
      · rw [Arraylist.capacity_expand, h.capacity_eq]
        exact Nat.max_eq_right hlt.le
  · exact ⟨none, h.contents_eq, h.capacity_eq⟩

/-- `push_sync_queue` after its wait loop does with the array list what the model does
    with its own. -/
theorem Stores.pushAfterWait (hA : A.Lawful contents) (h : sq.Stores A contents al)
    (hopen : sq.isClosed = false) (d : α) (o : Outcome) :
    ∃ capacity,
      (sq.pushAfterWait d { o with capacity := capacity }).1.Stores A contents
        (A.pushBack (if A.isFull al = true ∧ sq.hasCapacityCrossedMaxCapacityLimits = false then
          A.expand al o.capacity else al) d).1 ∧
      (sq.pushAfterWait d { o with capacity := capacity }).2 =
        (A.pushBack (if A.isFull al = true ∧ sq.hasCapacityCrossedMaxCapacityLimits = false then
          A.expand al o.capacity else al) d).2 := by
  obtain ⟨capacity, hcontents, hcapacity⟩ := h.expandForPush hA o
  refine ⟨capacity, ?_⟩
  generalize (if A.isFull al = true ∧ sq.hasCapacityCrossedMaxCapacityLimits = false then
    A.expand al o.capacity else al) = al' at hcontents hcapacity ⊢
  obtain ⟨hsame, hpushed⟩ := hA.pushBack al' d
  rw [← hcontents, ← hcapacity] at hpushed
  simp only [SyncQueue.pushAfterWait, hopen, Bool.false_eq_true, if_false]
  generalize sq.expandForPush { o with capacity := capacity } = qp at hcontents hcapacity hpushed
  unfold Arraylist.pushBack
  split
  · rename_i hlt
    rw [if_pos hlt] at hpushed
    exact ⟨⟨hpushed.2.symm, hcapacity.trans hsame.symm⟩, hpushed.1.symm⟩
  · rename_i hle
    rw [if_neg hle] at hpushed
    exact ⟨⟨hpushed.2.symm, hcapacity.trans hsame.symm⟩, hpushed.1.symm⟩

/-- And `pop_sync_queue` after its wait loop. -/
theorem Stores.popAfterWait (hA : A.Lawful contents) (h : sq.Stores A contents al)
    (o : Outcome) :
    ∃ capacity,
      (sq.popAfterWait { o with capacity := capacity }).1.Stores A contents
        (if 3 * A.getElementCount (A.popFront al).1 < A.getCapacity (A.popFront al).1 then
          A.shrink (A.popFront al).1 o.capacity else (A.popFront al).1) ∧
      (sq.popAfterWait { o with capacity := capacity }).2 =
        if (A.popFront al).2 = true then A.getFront al else none := by
  obtain ⟨hcapacity, hpopped, hrest⟩ := hA.popFront al
  have hfront : sq.qp.getFront = A.getFront al := (h.tests hA).2.2
  have hpop : sq.qp.popFront.2 = (A.popFront al).2 ∧
      sq.qp.popFront.1.contents = contents (A.popFront al).1 ∧
      sq.qp.popFront.1.capacity = A.getCapacity (A.popFront al).1 := by
    rw [hpopped, hrest, hcapacity, ← h.contents_eq, ← h.capacity_eq]
    obtain ⟨d, rest, hcons, hp, hrest', hsame⟩ | ⟨hnil, hp, hsame⟩ := sq.qp.popFront_cases
    · rw [hcons]
      exact ⟨hp, hrest', hsame⟩
    · rw [hnil, hsame, hp]
      exact ⟨rfl, hnil, rfl⟩
  obtain ⟨hp, hcontents', hcapacity'⟩ := hpop
  simp only [SyncQueue.popAfterWait, hp, hfront, SyncQueue.shrinkAfterPop, Arraylist.elementCount,
    hA.elementCount, hcontents', hcapacity']
  generalize (A.popFront al).1 = al' at hcontents' hcapacity'
  generalize sq.qp.popFront.1 = qp at hcontents' hcapacity'
  split
  · obtain hsame | ⟨hkept, hle, hlt⟩ := hA.shrink al' o.capacity
    · refine ⟨none, ⟨?_, ?_⟩, trivial⟩
      · rw [hsame]
        exact hcontents'
      · rw [hsame]
        exact hcapacity'
    · refine ⟨some (A.getCapacity (A.shrink al' o.capacity)), ⟨?_, ?_⟩, trivial⟩
      · simp only [Arraylist.contents_shrink]
        exact hcontents'.trans hkept.symm
      · simp only [Arraylist.shrink]
        rw [dif_pos ⟨hcontents' ▸ hle, hcapacity' ▸ hlt⟩]
  · exact ⟨none, ⟨hcontents', hcapacity'⟩, trivial⟩

end SyncQueue

/-! ## Linked lists -/

/-- The functions of `singlylist` that `sync_ll_queue.c` uses, over values of type `δ`. -/
structure SinglylistFunctions (α δ : Type*) where
  init : δ
  isEmpty : δ → Bool
  getHead : δ → Option α
  insertTail : δ → α → δ × Bool
  removeHead : δ → δ × Bool

/-- What `sync_ll_queue.c` relies on: a list that no element is in twice. -/
structure SinglylistFunctions.Lawful [DecidableEq α] (L : SinglylistFunctions α δ)
    (contents : δ → List α) : Prop where
  init : contents L.init = []
  empty : ∀ sl, L.isEmpty sl = true ↔ contents sl = []
  head : ∀ sl, L.getHead sl = (contents sl).head?
  /-- An element is appended, unless its node is linked already. -/
  insertTail : ∀ sl d, (L.insertTail sl d).2 = !decide (d ∈ contents sl) ∧
    contents (L.insertTail sl d).1 = contents sl ++ if d ∈ contents sl then [] else [d]
  /-- The head element is removed, if there is one. -/
  removeHead : ∀ sl, (L.removeHead sl).2 = !(contents sl).isEmpty ∧
    contents (L.removeHead sl).1 = (contents sl).tail

namespace Singlylist

/-- The functions of the linked list of the model. -/
def functions [DecidableEq α] : SinglylistFunctions α (Singlylist α) where
  init := init
  isEmpty := isEmpty
  getHead := getHead
  insertTail := insertTail
  removeHead := removeHead

theorem lawful [DecidableEq α] : (functions (α := α)).Lawful contents where
  init := rfl
  empty _ := List.isEmpty_iff
  head _ := rfl
  insertTail sl d := by
    simp only [functions, insertTail]
    split
    · rename_i hlinked
      simp [hlinked]
    · rename_i hfree
      simp [hfree]
  removeHead sl := by
    obtain ⟨d, rest, hcons, hp, hrest⟩ | ⟨hnil, hp, hsame⟩ := sl.removeHead_cases
    · exact ⟨by rw [hcons]; exact hp, by rw [hcons]; exact hrest⟩
    · simp only [functions, hnil, hp, hsame]
      exact ⟨rfl, rfl⟩

end Singlylist

namespace SyncLlQueue

variable [DecidableEq α] {L : SinglylistFunctions α δ} {contents : δ → List α}
  {sq : SyncLlQueue α} {sl : δ}

theorem tests_of_contents (hL : L.Lawful contents) (h : sq.qp.contents = contents sl) :
    sq.isEmpty = L.isEmpty sl ∧ sq.qp.getHead = L.getHead sl := by
  refine ⟨?_, ?_⟩
  · rw [Bool.eq_iff_iff, hL.empty, ← h]
    exact List.isEmpty_iff
  · rw [hL.head, ← h]
    rfl

/-- `push_sync_ll_queue` does with the linked list what the model does with its own. -/
theorem push_of_contents (hL : L.Lawful contents) (h : sq.qp.contents = contents sl)
    (hopen : sq.isClosed = false) (d : α) (o : Outcome) :
    (sq.push d o).1.qp.contents = contents (L.insertTail sl d).1 ∧
      (sq.push d o).2 = (L.insertTail sl d).2 := by
  obtain ⟨hpushed, hcontents⟩ := hL.insertTail sl d
  simp only [push, hopen, Bool.false_eq_true, if_false, Singlylist.insertTail, hpushed, hcontents,
    ← h]
  split
  · rename_i hlinked
    simp [hlinked]
  · rename_i hfree
    simp [hfree]

/-- And `pop_sync_ll_queue` after its wait loop. -/
theorem popAfterWait_of_contents (hL : L.Lawful contents) (h : sq.qp.contents = contents sl) :
    sq.popAfterWait.1.qp.contents = contents (L.removeHead sl).1 ∧
      sq.popAfterWait.2 = if (L.removeHead sl).2 = true then L.getHead sl else none := by
  obtain ⟨hpopped, hrest⟩ := hL.removeHead sl
  rw [popAfterWait, hpopped, hrest, ← (tests_of_contents hL h).2, ← h]
  obtain ⟨d, rest, hcons, hp, hrest'⟩ | ⟨hnil, hp, hsame⟩ := sq.qp.removeHead_cases
  · simp [hcons, hp, hrest']
  · simp [hnil, hp, hsame]

end SyncLlQueue

end BoomPar
