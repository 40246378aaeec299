-- SUMMARY: Systems of threads over a shared state: transitions, runs and the sums over the pool of threads.
import Mathlib.Algebra.BigOperators.Ring.Finset
import Mathlib.Algebra.GroupWithZero.Nat
import Mathlib.Algebra.Order.BigOperators.Group.Finset
import Mathlib.Algebra.Order.BigOperators.Group.List
import Mathlib.Algebra.Order.Group.Nat
import BoomPar.Monitor.CondVar

/-!
# Systems of threads

A system is a shared state, a pool of threads with a control state each, and
the atomic steps of one thread: one critical section, from the acquisition of a
lock to its release or to a wait. Clients call operations at any moment; a call
is a new thread of the pool, which takes its first step at once and stays in the
pool after it returned, so that the pool is also the history of the calls.
-/

namespace Monitor

/-- The shared state and the pool of threads. -/
structure Config (σ τ : Type*) where
  shared : σ
  threads : List τ
  deriving DecidableEq

/-- One transition: a client calls an operation, a thread takes a step, or a
    thread blocked on a condition variable wakes without being signalled. The
    outcome `o` is what the environment decides in the step. -/
inductive Act (κ ο : Type*) where
  | call (k : κ) (o : ο)
  | step (t : ℕ) (o : ο)
  | wake (t : ℕ)
  deriving DecidableEq

/-- What the environment decides in a transition, if anything. -/
def Act.outcome? {κ ο : Type*} : Act κ ο → Option ο
  | .call _ o => some o
  | .step _ o => some o
  | .wake _ => none

/-- The control state a call starts in, the step of a thread, with the threads
    it creates, and the spurious or timed wake-up of a blocked thread. -/
structure System (σ τ κ ο : Type*) where
  start : ℕ → κ → τ
  step : σ → ℕ → τ → ο → Option (σ × τ × List τ)
  wake : σ → ℕ → τ → Option σ

/-- The result of a step that creates no thread. -/
def quietly {σ τ : Type*} (r : σ × τ) : Option (σ × τ × List τ) := some (r.1, r.2, [])

theorem quietly_inj {σ τ : Type*} {r : σ × τ} {s : σ} {pc : τ} {new : List τ}
    (h : quietly r = some (s, pc, new)) : r = (s, pc) ∧ new = [] := by
  cases h
  exact ⟨rfl, rfl⟩

/-! ## Configurations -/

namespace Config

variable {σ τ : Type*}

/-- The control state of a thread. -/
def pc? (c : Config σ τ) (t : ℕ) : Option τ := c.threads[t]?

/-- The pool with one more thread. -/
def push (c : Config σ τ) (pc : τ) : Config σ τ := { c with threads := c.threads ++ [pc] }

/-- Thread `t` moves to `pc`, leaves the shared state `s` and creates `new`. -/
def move (c : Config σ τ) (t : ℕ) (s : σ) (pc : τ) (new : List τ) : Config σ τ :=
  ⟨s, c.threads.set t pc ++ new⟩

/-- The sum of a weight over the pool. -/
def sumOver (c : Config σ τ) (w : τ → ℕ) : ℕ := (c.threads.map w).sum

/-- The threads whose control state satisfies `p`. -/
def those (c : Config σ τ) (p : τ → Bool) : Finset ℕ :=
  (Finset.range c.threads.length).filter fun t => (c.pc? t).any p = true

/-- How many threads have a control state that satisfies `p`. -/
def count (c : Config σ τ) (p : τ → Bool) : ℕ := c.sumOver fun pc => (p pc).toNat

@[simp] theorem push_shared (c : Config σ τ) (pc : τ) : (c.push pc).shared = c.shared := rfl

@[simp] theorem move_shared (c : Config σ τ) (t : ℕ) (s : σ) (pc : τ) (new : List τ) :
    (c.move t s pc new).shared = s := rfl

theorem pc?_lt {c : Config σ τ} {t : ℕ} {pc : τ} (h : c.pc? t = some pc) :
    t < c.threads.length :=
  (List.getElem?_eq_some_iff.mp h).1

theorem pc?_push_self (c : Config σ τ) (pc : τ) :
    (c.push pc).pc? c.threads.length = some pc := by
  simp [pc?, push]

theorem pc?_push_of_pc? {c : Config σ τ} {t : ℕ} {pc pc' : τ} (h : c.pc? t = some pc) :
    (c.push pc').pc? t = some pc := by
  simpa [pc?, push, List.getElem?_append_left (pc?_lt h)] using h

theorem pc?_push_cases {c : Config σ τ} {t : ℕ} {pc pc' : τ}
    (h : (c.push pc').pc? t = some pc) :
    c.pc? t = some pc ∨ (t = c.threads.length ∧ pc = pc') := by
  by_cases ht : t < c.threads.length
  · rw [pc?, push, List.getElem?_append_left ht] at h
    exact .inl h
  · have hlt := pc?_lt h
    simp only [push, List.length_append, List.length_singleton] at hlt
    obtain rfl : t = c.threads.length := by omega
    rw [pc?_push_self] at h
    exact .inr ⟨rfl, (Option.some.inj h).symm⟩

theorem pc?_move_self {c : Config σ τ} {t : ℕ} {pc : τ} (h : c.pc? t = some pc)
    (s : σ) (pc' : τ) (new : List τ) : (c.move t s pc' new).pc? t = some pc' := by
  have hlt := pc?_lt h
  simp [pc?, move, List.getElem?_append_left, hlt]

theorem pc?_move_of_ne {c : Config σ τ} {t u : ℕ} {pc : τ} (hne : u ≠ t)
    (h : c.pc? u = some pc) (s : σ) (pc' : τ) (new : List τ) :
    (c.move t s pc' new).pc? u = some pc := by
  have hlt := pc?_lt h
  rw [pc?, move, List.getElem?_append_left (by simpa using hlt), List.getElem?_set_ne hne.symm]
  exact h

/-- A thread of the pool after a move is the one that moved, another thread
    that stood still, or one that the move created. -/
theorem pc?_move_cases {c : Config σ τ} {t u : ℕ} {s : σ} {pc pc' : τ} {new : List τ}
    (h : (c.move t s pc' new).pc? u = some pc) :
    (u = t ∧ pc = pc') ∨ (u ≠ t ∧ c.pc? u = some pc) ∨
      (c.threads.length ≤ u ∧ pc ∈ new) := by
  simp only [pc?, move, List.getElem?_append, List.length_set] at h
  split at h
  · by_cases hut : u = t
    · subst hut
      rw [List.getElem?_set_self (by assumption)] at h
      exact .inl ⟨rfl, (Option.some.inj h).symm⟩
    · rw [List.getElem?_set_ne (Ne.symm hut)] at h
      exact .inr (.inl ⟨hut, h⟩)
  · exact .inr (.inr ⟨by omega, List.mem_of_getElem? h⟩)

/-! ## Sums over the pool -/

@[simp] theorem sumOver_push (c : Config σ τ) (pc : τ) (w : τ → ℕ) :
    (c.push pc).sumOver w = c.sumOver w + w pc := by
  simp [sumOver, push]

@[simp] theorem count_push (c : Config σ τ) (pc : τ) (p : τ → Bool) :
    (c.push pc).count p = c.count p + (p pc).toNat :=
  sumOver_push c pc _

private theorem sum_map_set {l : List τ} {i : ℕ} {x y : τ} (h : l[i]? = some x) (w : τ → ℕ) :
    ((l.set i y).map w).sum + w x = (l.map w).sum + w y := by
  induction l generalizing i with
  | nil => simp at h
  | cons z l ih =>
    cases i with
    | zero =>
      simp only [List.getElem?_cons_zero, Option.some.injEq] at h
      subst h
      simp only [List.set_cons_zero, List.map_cons, List.sum_cons]
      omega
    | succ i =>
      have := ih (by simpa using h)
      simp only [List.set_cons_succ, List.map_cons, List.sum_cons]
      omega

theorem sumOver_move {c : Config σ τ} {t : ℕ} {pc : τ} (h : c.pc? t = some pc)
    (s : σ) (pc' : τ) (new : List τ) (w : τ → ℕ) :
    (c.move t s pc' new).sumOver w + w pc = c.sumOver w + w pc' + (new.map w).sum := by
  have := sum_map_set (y := pc') h w
  simp only [sumOver, move, List.map_append, List.sum_append]
  omega

/-- Weights that agree on the threads of the pool have the same sum. -/
theorem sumOver_congr {c : Config σ τ} {w w' : τ → ℕ}
    (h : ∀ t pc, c.pc? t = some pc → w pc = w' pc) : c.sumOver w = c.sumOver w' := by
  unfold sumOver
  congr 1
  apply List.map_congr_left
  intro pc hmem
  obtain ⟨t, ht⟩ := List.getElem?_of_mem hmem
  exact h t pc ht

theorem le_sumOver {c : Config σ τ} {t : ℕ} {pc : τ} (h : c.pc? t = some pc) (w : τ → ℕ) :
    w pc ≤ c.sumOver w :=
  List.le_sum_of_mem (List.mem_map_of_mem (List.mem_of_getElem? h))

theorem mem_those {c : Config σ τ} {p : τ → Bool} {t : ℕ} :
    t ∈ c.those p ↔ ∃ pc, c.pc? t = some pc ∧ p pc = true := by
  simp only [those, Finset.mem_filter, Finset.mem_range, Option.any_eq_true, and_iff_right_iff_imp]
  rintro ⟨pc, hpc, -⟩
  exact pc?_lt hpc

theorem count_pos {c : Config σ τ} {p : τ → Bool} {t : ℕ} {pc : τ} (h : c.pc? t = some pc)
    (hp : p pc = true) : 0 < c.count p := by
  have := le_sumOver h fun pc => (p pc).toNat
  simp only [hp, Bool.toNat_true] at this
  exact this

theorem card_those (c : Config σ τ) (p : τ → Bool) : (c.those p).card = c.count p := by
  obtain ⟨s, l⟩ := c
  induction l using List.reverseRecOn with
  | nil => rfl
  | append_singleton l pc ih =>
    have hsub : (Config.mk s l).those p ⊆ (Config.mk s (l ++ [pc])).those p := by
      intro t ht
      obtain ⟨q, hq, hp⟩ := mem_those.mp ht
      exact mem_those.mpr ⟨q, pc?_push_of_pc? hq, hp⟩
    have hpush : (Config.mk s (l ++ [pc])).count p = (Config.mk s l).count p + (p pc).toNat :=
      sumOver_push (Config.mk s l) pc _
    have hnew : l.length ∉ (Config.mk s l).those p := by
      simp [those]
    cases hp : p pc with
    | false =>
      rw [hpush, hp, ← ih, Bool.toNat_false, Nat.add_zero]
      refine congrArg Finset.card (Finset.ext fun t => ?_)
      refine ⟨fun ht => ?_, fun ht => hsub ht⟩
      obtain ⟨q, hq, hpq⟩ := mem_those.mp ht
      obtain hq | ⟨-, rfl⟩ := pc?_push_cases (c := Config.mk s l) hq
      · exact mem_those.mpr ⟨q, hq, hpq⟩
      · simp [hp] at hpq
    | true =>
      rw [hpush, hp, ← ih, Bool.toNat_true, ← Finset.card_insert_of_notMem hnew]
      refine congrArg Finset.card (Finset.ext fun t => ?_)
      rw [Finset.mem_insert]
      constructor
      · intro ht
        obtain ⟨q, hq, hpq⟩ := mem_those.mp ht
        obtain hq | ⟨rfl, -⟩ := pc?_push_cases (c := Config.mk s l) hq
        · exact .inr (mem_those.mpr ⟨q, hq, hpq⟩)
        · exact .inl rfl
      · rintro (rfl | ht)
        · exact mem_those.mpr ⟨pc, pc?_push_self (Config.mk s l) pc, hp⟩
        · exact hsub ht

theorem count_mono {c : Config σ τ} {p q : τ → Bool} (h : ∀ pc, p pc = true → q pc = true) :
    c.count p ≤ c.count q := by
  rw [← card_those, ← card_those]
  refine Finset.card_le_card fun t ht => ?_
  obtain ⟨pc, hpc, hp⟩ := mem_those.mp ht
  exact mem_those.mpr ⟨pc, hpc, h pc hp⟩

/-- Counts of control states that exclude each other add up. -/
theorem count_add_le {c : Config σ τ} {p q r : τ → Bool}
    (h : ∀ pc, (p pc).toNat + (q pc).toNat ≤ (r pc).toNat) : c.count p + c.count q ≤ c.count r := by
  unfold count sumOver
  induction c.threads with
  | nil => exact Nat.zero_le _
  | cons pc l ih =>
    have hpc := h pc
    simp only [List.map_cons, List.sum_cons]
    omega

theorem count_eq_zero {c : Config σ τ} {p : τ → Bool} :
    c.count p = 0 ↔ ∀ t pc, c.pc? t = some pc → p pc = false := by
  constructor
  · intro h t pc hpc
    cases hp : p pc with
    | false => rfl
    | true =>
      have := count_pos hpc hp
      omega
  · intro h
    rw [← card_those, Finset.card_eq_zero, Finset.eq_empty_iff_forall_notMem]
    intro t ht
    obtain ⟨pc, hpc, hp⟩ := mem_those.mp ht
    rw [h t pc hpc] at hp
    cases hp

theorem exists_of_count_pos {c : Config σ τ} {p : τ → Bool} (h : 0 < c.count p) :
    ∃ t pc, c.pc? t = some pc ∧ p pc = true := by
  rw [← card_those] at h
  obtain ⟨t, ht⟩ := Finset.card_pos.mp h
  obtain ⟨pc, hpc, hp⟩ := mem_those.mp ht
  exact ⟨t, pc, hpc, hp⟩

/-- A count of at most one is that of a single thread. -/
theorem eq_of_count_le_one {c : Config σ τ} {p : τ → Bool} (h : c.count p ≤ 1) {t u : ℕ}
    {pc pc' : τ} (ht : c.pc? t = some pc) (hu : c.pc? u = some pc') (hp : p pc = true)
    (hp' : p pc' = true) : t = u := by
  rw [← card_those, Finset.card_le_one] at h
  exact h t (mem_those.mpr ⟨pc, ht, hp⟩) u (mem_those.mpr ⟨pc', hu, hp'⟩)

/-- Only thread `t` can be behind the count. -/
theorem count_le_one {c : Config σ τ} {p : τ → Bool} {t : ℕ}
    (h : ∀ u pc, c.pc? u = some pc → p pc = true → u = t) : c.count p ≤ 1 := by
  rw [← card_those, Finset.card_le_one_iff_subset_singleton]
  refine ⟨t, fun u hu => ?_⟩
  obtain ⟨pc, hpc, hp⟩ := mem_those.mp hu
  exact Finset.mem_singleton.mpr (h u pc hpc hp)

theorem count_move {c : Config σ τ} {t : ℕ} {pc : τ} {p : τ → Bool} (h : c.pc? t = some pc)
    (s : σ) (pc' : τ) {new : List τ} (hnew : ∀ q ∈ new, p q = false) :
    (c.move t s pc' new).count p + (p pc).toNat = c.count p + (p pc').toNat := by
  have hsum : (new.map fun pc => (p pc).toNat).sum = 0 := by
    rw [List.sum_eq_zero_iff]
    intro n hn
    obtain ⟨q, hq, rfl⟩ := List.mem_map.mp hn
    rw [hnew q hq]
    rfl
  have hmove := sumOver_move h s pc' new fun pc => (p pc).toNat
  rw [hsum] at hmove
  exact hmove

/-! ## Sums over the threads of a client -/

/-- The weight of thread `t`, 0 when there is no such thread. -/
def weightAt (c : Config σ τ) (w : τ → ℕ) (t : ℕ) : ℕ := (c.pc? t).elim 0 w

/-- The sum of a weight over the threads that satisfy `p`. -/
def sumIn (c : Config σ τ) (p : ℕ → Prop) [DecidablePred p] (w : τ → ℕ) : ℕ :=
  ∑ t ∈ (Finset.range c.threads.length).filter p, c.weightAt w t

theorem weightAt_of_pc? {c : Config σ τ} {t : ℕ} {pc : τ} (h : c.pc? t = some pc) (w : τ → ℕ) :
    c.weightAt w t = w pc := by
  rw [weightAt, h]
  rfl

theorem sumOver_eq_sum (c : Config σ τ) (w : τ → ℕ) :
    c.sumOver w = ∑ t ∈ Finset.range c.threads.length, c.weightAt w t := by
  obtain ⟨s, l⟩ := c
  induction l using List.reverseRecOn with
  | nil => rfl
  | append_singleton l pc ih =>
    have hpush : (Config.mk s (l ++ [pc])).sumOver w = (Config.mk s l).sumOver w + w pc :=
      sumOver_push (Config.mk s l) pc w
    have hlast : (Config.mk s (l ++ [pc])).weightAt w l.length = w pc :=
      weightAt_of_pc? (pc?_push_self (Config.mk s l) pc) w
    rw [hpush, ih, List.length_append, List.length_singleton, Finset.sum_range_succ, hlast]
    congr 1
    refine Finset.sum_congr rfl fun t ht => ?_
    simp only [weightAt, pc?, List.getElem?_append_left (Finset.mem_range.mp ht)]

/-- The sum over the pool is the sum over all clients. -/
theorem sumOver_eq_sum_sumIn {ι : Type*} [DecidableEq ι] (c : Config σ τ) (client : ℕ → ι)
    (w : τ → ℕ) {K : Finset ι} (hK : (Finset.range c.threads.length).image client ⊆ K) :
    c.sumOver w = ∑ k ∈ K, c.sumIn (client · = k) w := by
  rw [sumOver_eq_sum]
  refine (Finset.sum_fiberwise_of_maps_to (fun t ht => ?_) _).symm
  exact hK (Finset.mem_image_of_mem client ht)

/-- What one client has beyond a weight, all clients have together, if each covers
    that weight. -/
theorem sumOver_add_le {ι : Type*} [DecidableEq ι] {c : Config σ τ} {client : ℕ → ι}
    {w w' : τ → ℕ} (h : ∀ k, c.sumIn (client · = k) w ≤ c.sumIn (client · = k) w') {k : ι} {n : ℕ}
    (hk : c.sumIn (client · = k) w + n ≤ c.sumIn (client · = k) w') :
    c.sumOver w + n ≤ c.sumOver w' := by
  have hK := Finset.subset_insert k ((Finset.range c.threads.length).image client)
  rw [sumOver_eq_sum_sumIn c client w hK, sumOver_eq_sum_sumIn c client w' hK]
  rw [← Finset.add_sum_erase _ _ (Finset.mem_insert_self k _),
    ← Finset.add_sum_erase _ _ (Finset.mem_insert_self k _)]
  have hothers := Finset.sum_le_sum fun j (_ : j ∈ (insert k
    ((Finset.range c.threads.length).image client)).erase k) => h j
  omega

theorem sumIn_true (c : Config σ τ) (w : τ → ℕ) : c.sumIn (fun _ => True) w = c.sumOver w := by
  rw [sumIn, Finset.filter_true, sumOver_eq_sum]

theorem sumIn_push (c : Config σ τ) (pc : τ) (p : ℕ → Prop) [DecidablePred p] {w : τ → ℕ}
    (hw : w pc = 0) : (c.push pc).sumIn p w = c.sumIn p w := by
  have hlength : (c.push pc).threads.length = c.threads.length + 1 := by
    rw [push, List.length_append, List.length_singleton]
  rw [sumIn, sumIn, Finset.sum_filter, Finset.sum_filter, hlength, Finset.sum_range_succ,
    weightAt_of_pc? (pc?_push_self c pc), hw, ite_self, Nat.add_zero]
  refine Finset.sum_congr rfl fun t ht => ?_
  simp only [weightAt, pc?, push, List.getElem?_append_left (Finset.mem_range.mp ht)]

/-- A thread that moves from no weight adds the weight that it moves to. -/
theorem sumIn_move {c : Config σ τ} {t : ℕ} {pc : τ} (h : c.pc? t = some pc) (s : σ) (pc' : τ)
    (p : ℕ → Prop) [DecidablePred p] {w : τ → ℕ} (hw : w pc = 0) :
    (c.move t s pc' []).sumIn p w = c.sumIn p w + if p t then w pc' else 0 := by
  have hlength : (c.move t s pc' []).threads.length = c.threads.length := by
    rw [move, List.append_nil, List.length_set]
  have ht : t ∈ Finset.range c.threads.length := Finset.mem_range.mpr (pc?_lt h)
  rw [sumIn, sumIn, Finset.sum_filter, Finset.sum_filter, hlength,
    ← Finset.add_sum_erase _ _ ht, ← Finset.add_sum_erase (f := fun u => ite (p u) _ _) _ ht,
    weightAt_of_pc? (pc?_move_self h s pc' []), weightAt_of_pc? h, hw, ite_self, Nat.zero_add,
    Nat.add_comm]
  congr 1
  refine Finset.sum_congr rfl fun u hu => ?_
  have hne : t ≠ u := (Finset.ne_of_mem_erase hu).symm
  simp only [weightAt, pc?, move, List.append_nil, List.getElem?_set_ne hne]

end Config

/-! ## Transitions and runs -/

namespace System

variable {σ τ κ ο : Type*} (S : System σ τ κ ο)

/-- Thread `t` takes a step. -/
def stepAt (c : Config σ τ) (t : ℕ) (o : ο) : Option (Config σ τ) :=
  (c.pc? t).bind fun pc => (S.step c.shared t pc o).map fun (s, pc', new) => c.move t s pc' new

def next (c : Config σ τ) : Act κ ο → Option (Config σ τ)
  | .call k o => S.stepAt (c.push (S.start c.threads.length k)) c.threads.length o
  | .step t o => S.stepAt c t o
  | .wake t => (c.pc? t).bind fun pc => (S.wake c.shared t pc).map fun s => { c with shared := s }

/-- Where the thread stands whose step a transition takes, and what the
    environment decides in that step. -/
def runs? (c : Config σ τ) : Act κ ο → Option (τ × ο)
  | .call k o => some (S.start c.threads.length k, o)
  | .step t o => (c.pc? t).map fun pc => (pc, o)
  | .wake _ => none

/-- The configuration that a list of transitions leads to. -/
def exec (c : Config σ τ) : List (Act κ ο) → Option (Config σ τ)
  | [] => some c
  | a :: as => (S.next c a).bind fun c' => exec c' as

/-- The configuration after a run that does not get stuck. -/
def run (c : Config σ τ) (as : List (Act κ ο)) (h : (S.exec c as).isSome = true) : Config σ τ :=
  (S.exec c as).get h

/-- The run `as` from `c₀` passes through `c`. -/
def Visits (c₀ : Config σ τ) (as : List (Act κ ο)) (c : Config σ τ) : Prop :=
  ∃ pre, pre <+: as ∧ S.exec c₀ pre = some c

/-- The run `as` from `c₀` takes the transition `a` from `c` to `c'`. -/
def Takes (c₀ : Config σ τ) (as : List (Act κ ο)) (c : Config σ τ) (a : Act κ ο)
    (c' : Config σ τ) : Prop :=
  ∃ pre, pre ++ [a] <+: as ∧ S.exec c₀ pre = some c ∧ S.next c a = some c'

/-- The configurations reached from `c₀` by transitions that satisfy `ok`. -/
inductive Reach (ok : Config σ τ → Act κ ο → Prop) (c₀ : Config σ τ) : Config σ τ → Prop
  | refl : Reach ok c₀ c₀
  | tail {c c' : Config σ τ} {a : Act κ ο} :
      Reach ok c₀ c → ok c a → S.next c a = some c' → Reach ok c₀ c'

/-- Run a list of transitions as long as each satisfies `ok`. -/
def check (ok : Config σ τ → Act κ ο → Prop) [∀ c a, Decidable (ok c a)] (c : Config σ τ) :
    List (Act κ ο) → Option (Config σ τ)
  | [] => some c
  | a :: as => if ok c a then (S.next c a).bind fun c' => check ok c' as else none

/-- The configuration after a run that does not get stuck and is allowed. -/
def checkedRun (ok : Config σ τ → Act κ ο → Prop) [∀ c a, Decidable (ok c a)] (c : Config σ τ)
    (as : List (Act κ ο)) (h : (S.check ok c as).isSome = true) : Config σ τ :=
  (S.check ok c as).get h

variable {S}

theorem stepAt_cases {c c' : Config σ τ} {t : ℕ} {o : ο} (h : S.stepAt c t o = some c') :
    ∃ pc s pc' new, c.pc? t = some pc ∧ S.step c.shared t pc o = some (s, pc', new) ∧
      c' = c.move t s pc' new := by
  simp only [stepAt, Option.bind_eq_some_iff, Option.map_eq_some_iff] at h
  obtain ⟨pc, hpc, ⟨s, pc', new⟩, hstep, rfl⟩ := h
  exact ⟨pc, s, pc', new, hpc, hstep, rfl⟩

theorem next_wake_cases {c c' : Config σ τ} {t : ℕ}
    (h : S.next c (.wake t) = some c') :
    ∃ pc s, c.pc? t = some pc ∧ S.wake c.shared t pc = some s ∧ c' = { c with shared := s } := by
  simp only [next, Option.bind_eq_some_iff, Option.map_eq_some_iff] at h
  obtain ⟨pc, hpc, s, hs, rfl⟩ := h
  exact ⟨pc, s, hpc, hs, rfl⟩

theorem next_step {c : Config σ τ} {t : ℕ} {pc pc' : τ} {o : ο} {s : σ} {new : List τ}
    (hpc : c.pc? t = some pc) (h : S.step c.shared t pc o = some (s, pc', new)) :
    S.next c (.step t o) = some (c.move t s pc' new) := by
  simp [next, stepAt, hpc, h]

theorem next_call {c : Config σ τ} {k : κ} {pc' : τ} {o : ο} {s : σ} {new : List τ}
    (h : S.step c.shared c.threads.length (S.start c.threads.length k) o = some (s, pc', new)) :
    S.next c (.call k o) =
      some ((c.push (S.start c.threads.length k)).move c.threads.length s pc' new) := by
  simp [next, stepAt, Config.pc?_push_self, h]

theorem next_wake {c : Config σ τ} {t : ℕ} {pc : τ} {s : σ}
    (hpc : c.pc? t = some pc) (h : S.wake c.shared t pc = some s) :
    S.next c (.wake t) = some { c with shared := s } := by
  simp [next, hpc, h]

/-- A transition takes the step of the thread that it runs, or wakes one. -/
theorem next_runs_cases {c c' : Config σ τ} {a : Act κ ο} (h : S.next c a = some c') :
    (∃ t pc o pc' new, S.runs? c a = some (pc, o) ∧
      S.step c.shared t pc o = some (c'.shared, pc', new)) ∨
    ∃ t pc, c.pc? t = some pc ∧ S.wake c.shared t pc = some c'.shared := by
  cases a with
  | call k o =>
    obtain ⟨pc, s, pc', new, hpc, hs, rfl⟩ := stepAt_cases h
    rw [Config.pc?_push_self] at hpc
    cases hpc
    exact .inl ⟨_, _, o, pc', new, rfl, hs⟩
  | step t o =>
    obtain ⟨pc, s, pc', new, hpc, hs, rfl⟩ := stepAt_cases h
    exact .inl ⟨t, pc, o, pc', new, by rw [runs?, hpc]; rfl, hs⟩
  | wake t =>
    obtain ⟨pc, s, hpc, hs, rfl⟩ := next_wake_cases h
    exact .inr ⟨t, pc, hpc, hs⟩

/-- What a transition preserves, from what a new thread, a step and a wake-up preserve. -/
theorem next_induction {P : Config σ τ → Prop}
    (hpush : ∀ c k, P c → P (c.push (S.start c.threads.length k)))
    (hstep : ∀ c t pc o s pc' new, P c → c.pc? t = some pc →
      S.step c.shared t pc o = some (s, pc', new) → P (c.move t s pc' new))
    (hwake : ∀ c t pc s, P c → c.pc? t = some pc → S.wake c.shared t pc = some s →
      P { c with shared := s })
    {c c' : Config σ τ} {a : Act κ ο} (hc : P c) (h : S.next c a = some c') : P c' := by
  cases a with
  | call k o =>
    obtain ⟨pc, s, pc', new, hpc, hs, rfl⟩ := stepAt_cases h
    exact hstep _ _ _ _ _ _ _ (hpush c k hc) hpc hs
  | step t o =>
    obtain ⟨pc, s, pc', new, hpc, hs, rfl⟩ := stepAt_cases h
    exact hstep _ _ _ _ _ _ _ hc hpc hs
  | wake t =>
    obtain ⟨pc, s, hpc, hs, rfl⟩ := next_wake_cases h
    exact hwake _ _ _ _ hc hpc hs

/-- The thread whose control state a transition changed took the step of that
    transition, or was created in it. -/
theorem next_moved {c c' : Config σ τ} {a : Act κ ο} (h : S.next c a = some c') {t : ℕ} {pc' : τ}
    (hpc' : c'.pc? t = some pc') (hne : c.pc? t ≠ some pc') :
    (∃ pc o new, ((a = .step t o ∧ c.pc? t = some pc) ∨
        (∃ k, a = .call k o ∧ t = c.threads.length ∧ pc = S.start t k)) ∧
      S.step c.shared t pc o = some (c'.shared, pc', new)) ∨
    (∃ u pc o s pc₁ new, S.step c.shared u pc o = some (s, pc₁, new) ∧ pc' ∈ new) := by
  cases a with
  | call k o =>
    obtain ⟨pc, s, pc₁, new, hpc, hs, rfl⟩ := stepAt_cases h
    rw [Config.pc?_push_self] at hpc
    cases hpc
    obtain ⟨rfl, rfl⟩ | ⟨hu, hold⟩ | ⟨-, hmem⟩ := Config.pc?_move_cases hpc'
    · exact .inl ⟨_, o, new, .inr ⟨k, rfl, rfl, rfl⟩, hs⟩
    · obtain hold | ⟨rfl, -⟩ := Config.pc?_push_cases hold
      · exact absurd hold hne
      · exact absurd rfl hu
    · exact .inr ⟨_, _, o, s, pc₁, new, hs, hmem⟩
  | step u o =>
    obtain ⟨pc, s, pc₁, new, hpc, hs, rfl⟩ := stepAt_cases h
    obtain ⟨rfl, rfl⟩ | ⟨-, hold⟩ | ⟨-, hmem⟩ := Config.pc?_move_cases hpc'
    · exact .inl ⟨pc, o, new, .inl ⟨rfl, hpc⟩, hs⟩
    · exact absurd hold hne
    · exact .inr ⟨u, pc, o, s, pc₁, new, hs, hmem⟩
  | wake u =>
    obtain ⟨pc, s, -, -, rfl⟩ := next_wake_cases h
    exact absurd hpc' hne

/-- The same for a control state that no thread is created at. -/
theorem next_moved_of_notMem {c c' : Config σ τ} {a : Act κ ο} (h : S.next c a = some c') {t : ℕ}
    {pc' : τ} (hpc' : c'.pc? t = some pc') (hne : c.pc? t ≠ some pc')
    (hnew : ∀ {s u pc o s' pc₁ new}, S.step s u pc o = some (s', pc₁, new) → pc' ∉ new) :
    ∃ pc o new, ((a = .step t o ∧ c.pc? t = some pc) ∨
        (∃ k, a = .call k o ∧ t = c.threads.length ∧ pc = S.start t k)) ∧
      S.step c.shared t pc o = some (c'.shared, pc', new) := by
  obtain hmoved | ⟨u, pc, o, s, pc₁, new, hs, hmem⟩ := next_moved h hpc' hne
  · exact hmoved
  · exact absurd hmem (hnew hs)

/-- A thread that takes no step stays where it is. -/
theorem next_pc?_of_stuck {c c' : Config σ τ} {a : Act κ ο} {t : ℕ} {pc : τ}
    (h : S.next c a = some c') (hstuck : ∀ s o, S.step s t pc o = none)
    (hpc : c.pc? t = some pc) : c'.pc? t = some pc := by
  refine next_induction (P := fun c => c.pc? t = some pc) ?_ ?_ ?_ hpc h
  · exact fun c k hpc => Config.pc?_push_of_pc? hpc
  · intro c u q o s q' new hpc hq hs
    refine Config.pc?_move_of_ne ?_ hpc _ _ _
    rintro rfl
    rw [hpc] at hq
    cases hq
    rw [hstuck] at hs
    cases hs
  · exact fun c u q s hpc _ _ => hpc

/-- No thread leaves the pool. -/
theorem length_le_next {c c' : Config σ τ} {a : Act κ ο} (h : S.next c a = some c') :
    c.threads.length ≤ c'.threads.length := by
  refine next_induction (P := fun c' => c.threads.length ≤ c'.threads.length) ?_ ?_ ?_ le_rfl h
  · intro c' k hle
    simp only [Config.push, List.length_append]
    exact hle.trans (Nat.le_add_right _ _)
  · intro c' t pc o s pc' new hle _ _
    simp only [Config.move, List.length_append, List.length_set]
    exact hle.trans (Nat.le_add_right _ _)
  · exact fun _ _ _ _ hle _ _ => hle

theorem exec_append (c : Config σ τ) (as bs : List (Act κ ο)) :
    S.exec c (as ++ bs) = (S.exec c as).bind fun c' => S.exec c' bs := by
  induction as generalizing c with
  | nil => rfl
  | cons a as ih =>
    simp only [List.cons_append, exec, Option.bind_assoc]
    congr 1
    funext c'
    exact ih c'

theorem exec_snoc {c c' c'' : Config σ τ} {as : List (Act κ ο)} {a : Act κ ο}
    (h : S.exec c as = some c') (ha : S.next c' a = some c'') :
    S.exec c (as ++ [a]) = some c'' := by
  simp [exec_append, h, exec, ha]

theorem Reach.invariant {ok : Config σ τ → Act κ ο → Prop} {c₀ : Config σ τ}
    {P : Config σ τ → Prop} (h₀ : P c₀)
    (hnext : ∀ c a c', S.Reach ok c₀ c → P c → ok c a → S.next c a = some c' → P c')
    {c : Config σ τ} (h : S.Reach ok c₀ c) : P c := by
  induction h with
  | refl => exact h₀
  | tail hr hok hn ih => exact hnext _ _ _ hr ih hok hn

theorem Reach.mono {ok ok' : Config σ τ → Act κ ο → Prop} {c₀ c : Config σ τ}
    (h : S.Reach ok c₀ c) (hle : ∀ c a, ok c a → ok' c a) : S.Reach ok' c₀ c := by
  induction h with
  | refl => exact .refl
  | tail _ hok hn ih => exact ih.tail (hle _ _ hok) hn

theorem Reach.trans {ok : Config σ τ → Act κ ο → Prop} {c₀ c c' : Config σ τ}
    (h : S.Reach ok c₀ c) (h' : S.Reach ok c c') : S.Reach ok c₀ c' := by
  induction h' with
  | refl => exact h
  | tail _ hok hn ih => exact ih.tail hok hn

theorem Reach.length_le {ok : Config σ τ → Act κ ο → Prop} {c₀ c : Config σ τ}
    (h : S.Reach ok c₀ c) : c₀.threads.length ≤ c.threads.length :=
  h.invariant (P := fun c => c₀.threads.length ≤ c.threads.length) le_rfl
    fun _ _ _ _ hle _ hn => hle.trans (length_le_next hn)

theorem Reach.of_check {ok : Config σ τ → Act κ ο → Prop} [∀ c a, Decidable (ok c a)]
    {c₀ c : Config σ τ} {as : List (Act κ ο)} (h : S.check ok c₀ as = some c) :
    S.Reach ok c₀ c := by
  induction as generalizing c₀ with
  | nil => cases h; exact .refl
  | cons a as ih =>
    simp only [check] at h
    split at h
    · rename_i hok
      obtain ⟨c₁, hn, hc⟩ := Option.bind_eq_some_iff.mp h
      exact (Reach.refl.tail hok hn).trans (ih hc)
    · cases h

theorem Reach.of_exec {c₀ c : Config σ τ} {as : List (Act κ ο)} (h : S.exec c₀ as = some c) :
    S.Reach (fun _ _ => True) c₀ c := by
  induction as generalizing c₀ with
  | nil => cases h; exact .refl
  | cons a as ih =>
    obtain ⟨c₁, hn, hc⟩ := Option.bind_eq_some_iff.mp h
    exact (Reach.refl.tail trivial hn).trans (ih hc)

theorem Reach.run (c₀ : Config σ τ) (as : List (Act κ ο)) (h : (S.exec c₀ as).isSome = true) :
    S.Reach (fun _ _ => True) c₀ (S.run c₀ as h) :=
  .of_exec (Option.some_get h).symm

theorem Reach.checkedRun (ok : Config σ τ → Act κ ο → Prop) [∀ c a, Decidable (ok c a)]
    (c₀ : Config σ τ) (as : List (Act κ ο)) (h : (S.check ok c₀ as).isSome = true) :
    S.Reach ok c₀ (S.checkedRun ok c₀ as h) :=
  .of_check (Option.some_get h).symm

/-- A run whose transitions satisfy `ok` reaches every configuration it visits. -/
theorem Visits.reach {ok : Config σ τ → Act κ ο → Prop} {c₀ c : Config σ τ}
    {as : List (Act κ ο)} (hok : ∀ c a c', S.Takes c₀ as c a c' → ok c a)
    (h : S.Visits c₀ as c) : S.Reach ok c₀ c := by
  obtain ⟨pre, hpre, hexec⟩ := h
  induction pre using List.reverseRecOn generalizing c with
  | nil => cases hexec; exact .refl
  | append_singleton pre a ih =>
    rw [exec_append] at hexec
    obtain ⟨c₁, h₁, h₂⟩ := Option.bind_eq_some_iff.mp hexec
    have ha : S.next c₁ a = some c := by simpa [exec, Option.bind_eq_some_iff] using h₂
    exact (ih ((List.prefix_append pre [a]).trans hpre) h₁).tail
      (hok _ _ _ ⟨pre, hpre, h₁, ha⟩) ha

theorem Takes.visits {c₀ c c' : Config σ τ} {as : List (Act κ ο)} {a : Act κ ο}
    (h : S.Takes c₀ as c a c') : S.Visits c₀ as c := by
  obtain ⟨pre, hpre, hexec, -⟩ := h
  exact ⟨pre, (List.prefix_append pre [a]).trans hpre, hexec⟩

theorem Takes.visits_next {c₀ c c' : Config σ τ} {as : List (Act κ ο)} {a : Act κ ο}
    (h : S.Takes c₀ as c a c') : S.Visits c₀ as c' := by
  obtain ⟨pre, hpre, hexec, hn⟩ := h
  exact ⟨pre ++ [a], hpre, exec_snoc hexec hn⟩

theorem Takes.next {c₀ c c' : Config σ τ} {as : List (Act κ ο)} {a : Act κ ο}
    (h : S.Takes c₀ as c a c') : S.next c a = some c' := by
  obtain ⟨pre, -, -, hn⟩ := h
  exact hn

/-- A run that was checked takes allowed transitions only. -/
theorem Takes.of_check {ok : Config σ τ → Act κ ο → Prop} [∀ c a, Decidable (ok c a)]
    {c₀ c c' : Config σ τ} {as : List (Act κ ο)} {a : Act κ ο}
    (hcheck : (S.check ok c₀ as).isSome = true) (h : S.Takes c₀ as c a c') : ok c a := by
  obtain ⟨pre, ⟨post, rfl⟩, hexec, -⟩ := h
  induction pre generalizing c₀ with
  | nil =>
    cases hexec
    simp only [check, List.nil_append, List.cons_append] at hcheck
    split at hcheck
    · assumption
    · cases hcheck
  | cons b pre ih =>
    obtain ⟨c₁, hn, hexec⟩ := Option.bind_eq_some_iff.mp hexec
    simp only [check, List.cons_append] at hcheck
    split at hcheck
    · rw [hn] at hcheck
      exact ih hcheck hexec
    · cases hcheck

/-- When a step from a configuration with the property keeps it exactly if it is
    allowed, a run keeps the property in every configuration exactly if all its
    steps are allowed. -/
theorem forall_visits_iff {P : Config σ τ → Prop} {ok : Config σ τ → Act κ ο → Prop}
    {c₀ : Config σ τ} (h₀ : P c₀)
    (hnext : ∀ c a c', S.Reach (fun _ _ => True) c₀ c → P c → S.next c a = some c' →
      (P c' ↔ ok c a)) (as : List (Act κ ο)) :
    (∀ c, S.Visits c₀ as c → P c) ↔ ∀ c a c', S.Takes c₀ as c a c' → ok c a := by
  constructor
  · intro hvisits c a c' htakes
    have hreach : S.Reach (fun _ _ => True) c₀ c := htakes.visits.reach fun _ _ _ _ => trivial
    exact (hnext c a c' hreach (hvisits c htakes.visits) htakes.next).mp
      (hvisits c' htakes.visits_next)
  · intro htakes c ⟨pre, hpre, hexec⟩
    induction pre using List.reverseRecOn generalizing c with
    | nil => cases hexec; exact h₀
    | append_singleton pre a ih =>
      rw [exec_append] at hexec
      obtain ⟨c₁, h₁, h₂⟩ := Option.bind_eq_some_iff.mp hexec
      have ha : S.next c₁ a = some c := by simpa [exec, Option.bind_eq_some_iff] using h₂
      have hpre' : pre <+: as := (List.prefix_append pre [a]).trans hpre
      exact (hnext c₁ a c (.of_exec h₁) (ih c₁ hpre' h₁) ha).mpr
        (htakes c₁ a c ⟨pre, hpre, h₁, ha⟩)

end System

end Monitor
