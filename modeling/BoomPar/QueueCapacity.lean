-- SUMMARY: The allocated capacity of the array-list queue against its limit: when fullness agrees with push, and when the limit bounds the contents.
import BoomPar.QueueLimit

/-!
# Capacity and limit

`sync_queue` keeps two numbers: the capacity of its array list, which it
allocates lazily and shrinks after pops, and `max_capacity`. The fullness test
looks at the first only, the push at both, and the growth of the first does not
know the second.
-/

namespace BoomPar

open Monitor

variable {α : Type*}

/-- The thread runs a push, from its start or after a wait. -/
def QueuePc.pushes : QueuePc α → Bool
  | .called (.push _ _) => true
  | .fullWait _ _ => true
  | _ => false

section Environment

variable [DecidableEq α]

/-- A push that finds the array list full below its limit gets more room. -/
def pushesGrow (c : QueueConfig α) (a : Act (QueueCall α) Outcome) : Bool :=
  match c.shared.queue, (queueSystem α).runs? c a with
  | .arraylist sq, some (pc, o) =>
    !(pc.pushes && sq.isFull) || decide (sq.qp.capacity < o.capacity.getD 0)
  | _, _ => true

/-- An expansion of the array list fails or gives the capacity that `grown`
    chooses from the current one. -/
def growsBy (grown : ℕ → ℕ) (c : QueueConfig α) (a : Act (QueueCall α) Outcome) : Bool :=
  match c.shared.queue, (queueSystem α).runs? c a with
  | .arraylist sq, some (pc, o) =>
    !(pc.pushes && sq.isFull) || o.capacity == none || o.capacity == some (grown sq.qp.capacity)
  | _, _ => true

/-- An update of the limit does not lower it. -/
def keepsLimit (c : QueueConfig α) (a : Act (QueueCall α) Outcome) : Bool :=
  match c.shared.queue, (queueSystem α).runs? c a with
  | .arraylist sq, some (.called (.updateMaxCapacity n), _) => decide (sq.maxCapacity ≤ n)
  | _, _ => true

/-- The environment grows the array list by `grown` and never lowers the limit. -/
def GrowsAndKeeps (grown : ℕ → ℕ) (c : QueueConfig α) (a : Act (QueueCall α) Outcome) : Prop :=
  growsBy grown c a = true ∧ keepsLimit c a = true

instance (grown : ℕ → ℕ) (c : QueueConfig α) (a : Act (QueueCall α) Outcome) :
    Decidable (GrowsAndKeeps grown c a) :=
  inferInstanceAs (Decidable (_ ∧ _))

end Environment

namespace SyncQueue

/-! ## The fullness test -/

/-- The fullness test says 1 exactly when a push that does not wait, and whose
    allocation succeeds, returns 0. -/
def FullnessAgrees (sq : SyncQueue α) : Prop :=
  ∀ t d o, (sq.isFull = true → sq.qp.capacity < o.capacity.getD 0) →
    (sq.isFull = true ↔ (sq.push t d nonBlocking false o).2 = some false)

/-- The fullness test agrees with the push, so that it never reports a queue full
    and empty that has a limit, nor full one that has none. -/
def FullnessSound (sq : SyncQueue α) : Prop :=
  sq.FullnessAgrees ∧ (0 < sq.maxCapacity → ¬(sq.isFull = true ∧ sq.isEmpty = true)) ∧
    (sq.maxCapacity = ⊤ → (JobQueue.arraylist sq).isFull = false)

/-- A full array list has grown to the limit. -/
def FullAtLimit (sq : SyncQueue α) : Prop :=
  sq.qp.contents.length = sq.qp.capacity → sq.maxCapacity ≤ sq.qp.capacity

theorem fullAtLimit_iff {sq : SyncQueue α} :
    sq.FullAtLimit ↔ (sq.isFull = true → sq.atLimit = true) := by
  rw [atLimit_iff, isFull_iff, FullAtLimit]
  constructor
  · exact fun h hfull => ⟨hfull, h hfull⟩
  · exact fun h hfull => (h hfull).2

theorem push_nonBlocking (sq : SyncQueue α) (t : ℕ) (d : α) (o : Outcome) :
    (sq.push t d nonBlocking false o).2 = some (sq.pushAfterWait d o).2 := by
  simp [push]

/-- A push fails on an open queue exactly if the attempt to make room left none. -/
theorem pushAfterWait_snd {sq : SyncQueue α} (hopen : sq.isClosed = false) (d : α) (o : Outcome) :
    (sq.pushAfterWait d o).2 = false ↔
      (sq.expandForPush o).capacity ≤ sq.qp.contents.length := by
  simp only [pushAfterWait, hopen, Bool.false_eq_true, if_false, Arraylist.pushBack,
    contents_expandForPush]
  split
  · rename_i hlt
    simpa using hlt
  · rename_i hle
    simpa using hle

theorem capacity_expandForPush (sq : SyncQueue α) (o : Outcome) :
    (sq.expandForPush o).capacity =
      if sq.isFull = true ∧ sq.atLimit = false then max sq.qp.capacity (o.capacity.getD 0)
      else sq.qp.capacity := by
  unfold expandForPush atLimit isFull
  cases hfull : sq.qp.isFull <;> cases sq.hasCapacityCrossedMaxCapacityLimits <;>
    simp [Arraylist.capacity_expand]

/-- A push that does not wait, into an open queue whose growth succeeds, fails
    exactly at the limit. -/
theorem pushAfterWait_fails_iff {sq : SyncQueue α} (hopen : sq.isClosed = false) (d : α)
    {o : Outcome} (hgrow : sq.isFull = true → sq.qp.capacity < o.capacity.getD 0) :
    (sq.pushAfterWait d o).2 = false ↔ sq.atLimit = true := by
  have hle := sq.qp.length_le
  rw [pushAfterWait_snd hopen, capacity_expandForPush]
  cases hlimit : sq.atLimit with
  | true =>
    have hfull := (atLimit_iff.mp hlimit).1
    simp only [Bool.true_eq_false, and_false, if_false, iff_true]
    exact hfull.ge
  | false =>
    simp only [and_true, Bool.false_eq_true, iff_false, Nat.not_le]
    split
    · rename_i hfull
      exact hle.trans_lt (lt_max_of_lt_right (hgrow hfull))
    · rename_i hroom
      rw [isFull_iff] at hroom
      exact hle.lt_of_ne hroom

theorem fullnessAgrees_iff [Nonempty α] {sq : SyncQueue α} (hopen : sq.isClosed = false) :
    sq.FullnessAgrees ↔ sq.FullAtLimit := by
  rw [fullAtLimit_iff]
  constructor
  · intro hagrees hfull
    obtain ⟨d⟩ := ‹Nonempty α›
    have hgrow : sq.isFull = true →
        sq.qp.capacity < (Outcome.resize (sq.qp.capacity + 1)).capacity.getD 0 :=
      fun _ => Nat.lt_succ_self _
    have hfails := (hagrees 0 d _ hgrow).mp hfull
    rw [push_nonBlocking, Option.some.injEq] at hfails
    exact (pushAfterWait_fails_iff hopen d hgrow).mp hfails
  · intro hlimit t d o hgrow
    rw [push_nonBlocking, Option.some.injEq, pushAfterWait_fails_iff hopen d hgrow]
    exact ⟨hlimit, fun h => isFull_iff.mpr (atLimit_iff.mp h).1⟩

/-- A queue that is full and empty has no capacity, so its limit is 0. -/
theorem FullAtLimit.maxCapacity_eq_zero {sq : SyncQueue α} (h : sq.FullAtLimit)
    (hfull : sq.isFull = true) (hempty : sq.isEmpty = true) : sq.maxCapacity = 0 := by
  have hcapacity := isFull_iff.mp hfull
  have hlimit := h hcapacity
  have hnil : sq.qp.contents = [] := List.isEmpty_iff.mp hempty
  rw [← hcapacity, hnil] at hlimit
  exact le_antisymm hlimit bot_le

theorem FullAtLimit.isFull_of_unbounded {sq : SyncQueue α} (h : sq.FullAtLimit)
    (htop : sq.maxCapacity = ⊤) : sq.isFull = false := by
  rw [← Bool.not_eq_true]
  intro hfull
  have hlimit := h (isFull_iff.mp hfull)
  rw [htop, top_le_iff] at hlimit
  exact WithTop.coe_ne_top hlimit

end SyncQueue

section Fullness

variable [DecidableEq α]

/-- In every open queue that a run whose expansions succeed leads to, the
    fullness test is sound exactly if a full array list has grown to the limit. -/
theorem fullness_sound_iff [Nonempty α] {m : WithTop ℕ} {c : QueueConfig α}
    (h : (queueSystem α).Reach (fun c a => pushesGrow c a = true)
      (queueInit (.arraylist (.init m))) c) :
    ∃ sq, c.shared.queue = .arraylist sq ∧
      (sq.isClosed = false → (sq.FullnessSound ↔ sq.FullAtLimit)) := by
  obtain ⟨sq, hsq⟩ := arraylist_reach (h.mono fun _ _ _ => trivial)
  refine ⟨sq, hsq, fun hopen => ?_⟩
  constructor
  · exact fun hsound => (SyncQueue.fullnessAgrees_iff hopen).mp hsound.1
  · intro hlimit
    refine ⟨(SyncQueue.fullnessAgrees_iff hopen).mpr hlimit, ?_, ?_⟩
    · exact fun hpos hboth => hpos.ne' (hlimit.maxCapacity_eq_zero hboth.1 hboth.2)
    · exact fun htop => hlimit.isFull_of_unbounded htop

/-- Two pushes under a limit of 2: the second one grows the array list to the limit. -/
def fullUnderTwo : QueueConfig ℕ :=
  (queueSystem ℕ).checkedRun (fun c a => pushesGrow c a = true)
    (queueInit (.arraylist (.init (2 : ℕ))))
    [.call (.push 7 blocking) (.resize 1), .call (.push 8 blocking) (.resize 2)] (by decide)

theorem fullness_sound_iff_fullUnderTwo : ∃ sq : SyncQueue ℕ,
    fullUnderTwo.shared.queue = .arraylist sq ∧ sq.isFull = true ∧ sq.FullnessSound := by
  have hreach : (queueSystem ℕ).Reach (fun c a => pushesGrow c a = true)
      (queueInit (.arraylist (.init (2 : ℕ)))) fullUnderTwo := .checkedRun _ _ _ _
  obtain ⟨sq, hsq, hsound⟩ := fullness_sound_iff hreach
  cases hsq
  exact ⟨_, rfl, by decide, (hsound (by decide)).mpr fun _ => by decide⟩

/-- A new queue is full and empty at once, and accepts a push. -/
theorem fullness_not_sound : ∃ (c : QueueConfig ℕ) (sq : SyncQueue ℕ),
    (queueSystem ℕ).Reach (fun c a => pushesGrow c a = true)
      (queueInit (.arraylist (.init (3 : ℕ)))) c ∧
    c.shared.queue = .arraylist sq ∧ sq.isClosed = false ∧ ¬sq.FullnessSound := by
  refine ⟨_, .init (3 : ℕ), .refl, rfl, rfl, ?_⟩
  intro hsound
  exact hsound.2.1 (by decide) ⟨rfl, rfl⟩

end Fullness

/-! ## The limit as a bound -/

/-- The queue holds no more elements than its limit. -/
def WithinLimit (c : QueueConfig α) : Prop :=
  ∀ sq, c.shared.queue = .arraylist sq → (sq.qp.contents.length : WithTop ℕ) ≤ sq.maxCapacity

namespace SyncQueue

/-- Whenever the queue has to grow below its limit, the capacity that `grown`
    chooses is within that limit. -/
def GrowsWithinLimit (grown : ℕ → ℕ) (sq : SyncQueue α) : Prop :=
  sq.isClosed = false → sq.qp.contents.length = sq.qp.capacity →
    (sq.qp.capacity : WithTop ℕ) < sq.maxCapacity →
    (grown sq.qp.capacity : WithTop ℕ) ≤ sq.maxCapacity

@[simp] theorem pushAfterWait_maxCapacity (sq : SyncQueue α) (d : α) (o : Outcome) :
    (sq.pushAfterWait d o).1.maxCapacity = sq.maxCapacity := by
  unfold pushAfterWait
  split <;> rfl

theorem GrowsWithinLimit.pushAfterWait_capacity_le {grown : ℕ → ℕ} {sq : SyncQueue α}
    (hfits : sq.GrowsWithinLimit grown) (h : (sq.qp.capacity : WithTop ℕ) ≤ sq.maxCapacity)
    (d : α) {o : Outcome}
    (ho : sq.isFull = true → o.capacity = none ∨ o.capacity = some (grown sq.qp.capacity)) :
    ((sq.pushAfterWait d o).1.qp.capacity : WithTop ℕ) ≤ sq.maxCapacity := by
  unfold pushAfterWait
  split
  · exact h
  · rename_i hopen
    simp only [Arraylist.capacity_pushBack, capacity_expandForPush]
    split
    · rename_i hgrow
      obtain hnone | hsome := ho hgrow.1
      · rw [hnone, Option.getD_none, Nat.max_zero]
        exact h
      · have hfull := isFull_iff.mp hgrow.1
        have hbelow : ¬sq.maxCapacity ≤ sq.qp.capacity := by
          intro hle
          have hlimit := atLimit_iff.mpr ⟨hfull, hle⟩
          rw [hgrow.2] at hlimit
          cases hlimit
        have hgrown := hfits (by simpa using hopen) hfull (not_le.mp hbelow)
        rw [hsome, Option.getD_some]
        obtain hmax | hmax := max_choice sq.qp.capacity (grown sq.qp.capacity)
        · rw [hmax]
          exact h
        · rw [hmax]
          exact hgrown
    · exact h

theorem push_maxCapacity (sq : SyncQueue α) (t : ℕ) (d : α) (timeout : ℕ) (waitError : Bool)
    (o : Outcome) : (sq.push t d timeout waitError o).1.maxCapacity = sq.maxCapacity := by
  unfold push
  split
  · rfl
  · exact sq.pushAfterWait_maxCapacity d o

theorem GrowsWithinLimit.push_capacity_le {grown : ℕ → ℕ} {sq : SyncQueue α}
    (hfits : sq.GrowsWithinLimit grown) (h : (sq.qp.capacity : WithTop ℕ) ≤ sq.maxCapacity)
    (t : ℕ) (d : α) (timeout : ℕ) (waitError : Bool) {o : Outcome}
    (ho : sq.isFull = true → o.capacity = none ∨ o.capacity = some (grown sq.qp.capacity)) :
    ((sq.push t d timeout waitError o).1.qp.capacity : WithTop ℕ) ≤ sq.maxCapacity := by
  unfold push
  split
  · exact h
  · exact hfits.pushAfterWait_capacity_le h d ho

theorem pop_maxCapacity (sq : SyncQueue α) (t : ℕ) (timeout : ℕ) (waitError : Bool)
    (o : Outcome) : (sq.pop t timeout waitError o).1.maxCapacity = sq.maxCapacity := by
  unfold pop
  split <;> rfl

theorem capacity_popFront (al : Arraylist α) : al.popFront.1.capacity = al.capacity := by
  obtain ⟨d, rest, -, -, -, hcapacity⟩ | ⟨-, -, hsame⟩ := al.popFront_cases
  · exact hcapacity
  · rw [hsame]

theorem capacity_shrinkAfterPop_le (qp : Arraylist α) (o : Outcome) :
    (shrinkAfterPop qp o).capacity ≤ qp.capacity := by
  unfold shrinkAfterPop Arraylist.shrink
  split
  · split
    · exact le_rfl
    · split
      · rename_i hlt
        exact hlt.2.le
      · exact le_rfl
  · exact le_rfl

theorem pop_capacity_le (sq : SyncQueue α) (t : ℕ) (timeout : ℕ) (waitError : Bool)
    (o : Outcome) : (sq.pop t timeout waitError o).1.qp.capacity ≤ sq.qp.capacity := by
  unfold pop
  split
  · exact le_rfl
  · have hshrink := capacity_shrinkAfterPop_le sq.qp.popFront.1 o
    rwa [capacity_popFront] at hshrink

/-- The queue holds `n` elements within a capacity of `k`, open and under the limit `M`. -/
structure Holds (sq : SyncQueue α) (n k M : ℕ) : Prop where
  isOpen : sq.isClosed = false
  length : sq.qp.contents.length = n
  capacity : sq.qp.capacity = k
  limit : sq.maxCapacity = (M : WithTop ℕ)

theorem Holds.push {sq : SyncQueue α} {n k M r : ℕ} (h : sq.Holds n k M)
    (hroom : n < k ∨ (k < M ∧ k < r)) (hle : n ≤ k) (d : α) :
    (sq.pushAfterWait d (.resize r)).1.Holds (n + 1) (if n < k then k else r) M := by
  have hlimit : sq.atLimit = false := by
    rw [← Bool.not_eq_true]
    intro hat
    obtain ⟨hfull, hmax⟩ := atLimit_iff.mp hat
    rw [h.length, h.capacity] at hfull
    rw [h.capacity, h.limit] at hmax
    have hmax' : M ≤ k := WithTop.coe_le_coe.mp hmax
    omega
  have hcapacity : (sq.expandForPush (.resize r)).capacity = if n < k then k else r := by
    simp only [capacity_expandForPush, isFull_iff, h.length, h.capacity, hlimit, Outcome.resize,
      Option.getD_some, and_true]
    split <;> split <;> omega
  have hlt : n < (sq.expandForPush (.resize r)).capacity := by
    rw [hcapacity]
    split <;> omega
  refine ⟨by simpa using h.isOpen, ?_, ?_, by simpa using h.limit⟩
  · simp [pushAfterWait, h.isOpen, Arraylist.length_pushBack, h.length, hlt]
  · simp [pushAfterWait, h.isOpen, hcapacity]

end SyncQueue

/-- A step within the limit leaves the capacity within it, if each growth is. -/
theorem LimitMove.capacity_le {grown : ℕ → ℕ} {sq sq' : SyncQueue α} {t : ℕ} {o : Outcome}
    {pc : QueuePc α} (h : LimitMove sq t o pc sq')
    (hle : (sq.qp.capacity : WithTop ℕ) ≤ sq.maxCapacity)
    (hfits : pc.pushes = true → sq.GrowsWithinLimit grown)
    (ho : pc.pushes = true → sq.isFull = true →
      o.capacity = none ∨ o.capacity = some (grown sq.qp.capacity))
    (hkeeps : ∀ n, pc = .called (.updateMaxCapacity n) → sq.maxCapacity ≤ n) :
    (sq'.qp.capacity : WithTop ℕ) ≤ sq'.maxCapacity := by
  cases h with
  | push d timeout =>
    rw [SyncQueue.push_maxCapacity]
    exact (hfits rfl).push_capacity_le hle t d timeout false (ho rfl)
  | pushResume d timeout _ =>
    rw [SyncQueue.pushResume, SyncQueue.push_maxCapacity]
    have hresumed : SyncQueue.GrowsWithinLimit grown
        { sq with qFullWaitThreadCount := sq.qFullWaitThreadCount - 1 } := hfits rfl
    exact hresumed.push_capacity_le hle t d _ _ (ho rfl)
  | pop timeout =>
    rw [SyncQueue.pop_maxCapacity]
    exact (WithTop.coe_le_coe.mpr (sq.pop_capacity_le t timeout false o)).trans hle
  | popResume timeout =>
    rw [SyncQueue.popResume, SyncQueue.pop_maxCapacity]
    exact (WithTop.coe_le_coe.mpr (SyncQueue.pop_capacity_le _ t _ _ o)).trans hle
  | close => exact hle
  | updateMaxCapacity n => exact hle.trans (hkeeps n rfl)
  | query k => exact hle

section Bound

variable [DecidableEq α]

/-- A push that has to grow the array list grows it within the limit. -/
def GrowthFits (grown : ℕ → ℕ) (c : QueueConfig α) (a : Act (QueueCall α) Outcome) : Prop :=
  ∀ pc o sq, (queueSystem α).runs? c a = some (pc, o) → pc.pushes = true →
    c.shared.queue = .arraylist sq → sq.GrowsWithinLimit grown

theorem next_arraylist_cases {c c' : QueueConfig α} {a : Act (QueueCall α) Outcome}
    {sq : SyncQueue α} (hsq : c.shared.queue = .arraylist sq)
    (h : (queueSystem α).next c a = some c') :
    ∃ sq', c'.shared.queue = .arraylist sq' ∧
      ((∃ t pc o, (queueSystem α).runs? c a = some (pc, o) ∧ LimitMove sq t o pc sq') ∨
        (sq'.qp = sq.qp ∧ sq'.maxCapacity = sq.maxCapacity)) := by
  obtain ⟨t, pc, o, pc', new, hruns, hstep⟩ | ⟨t, pc, hpc, hwake⟩ := System.next_runs_cases h
  · obtain ⟨sq', hsq', hmove⟩ := queueStep_arraylist hsq hstep
    exact ⟨sq', hsq', .inl ⟨t, pc, o, hruns, hmove⟩⟩
  · obtain hshared | hshared := queueWake_cases hwake
    · exact ⟨{ sq with qFullWait := sq.qFullWait.erase t }, by rw [hshared, hsq]; rfl,
        .inr ⟨rfl, rfl⟩⟩
    · exact ⟨{ sq with qEmptyWait := sq.qEmptyWait.erase t }, by rw [hshared, hsq]; rfl,
        .inr ⟨rfl, rfl⟩⟩

/-- The array list keeps its capacity within the limit while every growth does. -/
theorem capacity_le_next {grown : ℕ → ℕ} {c c' : QueueConfig α} {a : Act (QueueCall α) Outcome}
    {sq : SyncQueue α} (hsq : c.shared.queue = .arraylist sq)
    (hle : (sq.qp.capacity : WithTop ℕ) ≤ sq.maxCapacity) (hok : GrowsAndKeeps grown c a)
    (hfits : GrowthFits grown c a) (h : (queueSystem α).next c a = some c') :
    ∃ sq', c'.shared.queue = .arraylist sq' ∧
      (sq'.qp.capacity : WithTop ℕ) ≤ sq'.maxCapacity := by
  obtain ⟨sq', hsq', ⟨t, pc, o, hruns, hmove⟩ | ⟨hqp, hmax⟩⟩ := next_arraylist_cases hsq h
  · have hgrows : pc.pushes = true → sq.isFull = true →
        o.capacity = none ∨ o.capacity = some (grown sq.qp.capacity) := by
      intro hpushes hfull
      simpa [growsBy, hsq, hruns, hpushes, hfull] using hok.1
    refine ⟨sq', hsq', hmove.capacity_le hle (hfits pc o sq hruns · hsq) hgrows ?_⟩
    rintro n rfl
    simpa [keepsLimit, hsq, hruns] using hok.2
  · exact ⟨sq', hsq', by rw [hqp, hmax]; exact hle⟩

/-- Runs whose growths are within the limit keep the contents within it. -/
theorem withinLimit_of_fits {grown : ℕ → ℕ} {m : WithTop ℕ} {c : QueueConfig α}
    (h : (queueSystem α).Reach (fun c a => GrowsAndKeeps grown c a ∧ GrowthFits grown c a)
      (queueInit (.arraylist (.init m))) c) : WithinLimit c := by
  have hcapacity : ∃ sq, c.shared.queue = .arraylist sq ∧
      (sq.qp.capacity : WithTop ℕ) ≤ sq.maxCapacity := by
    refine h.invariant (P := fun c => ∃ sq, c.shared.queue = .arraylist sq ∧
      (sq.qp.capacity : WithTop ℕ) ≤ sq.maxCapacity) ⟨_, rfl, bot_le⟩ ?_
    intro c a c' _ ⟨sq, hsq, hle⟩ hok hn
    exact capacity_le_next hsq hle hok.1 hok.2 hn
  obtain ⟨sq, hsq, hle⟩ := hcapacity
  intro sq' hsq'
  cases hsq.symm.trans hsq'
  exact (WithTop.coe_le_coe.mpr sq.qp.length_le).trans hle

/-! ### Past the limit -/

/-- A push that does not wait leaves the queue that its critical section computes. -/
theorem next_push (c : QueueConfig α) {sq : SyncQueue α} (hsq : c.shared.queue = .arraylist sq)
    (d : α) (o : Outcome) :
    ∃ c', (queueSystem α).next c (.call (.push d nonBlocking) o) = some c' ∧
      c'.shared.queue = .arraylist (sq.pushAfterWait d o).1 := by
  have hpush : sq.push c.threads.length d nonBlocking false o =
      ((sq.pushAfterWait d o).1, some (sq.pushAfterWait d o).2) := by
    simp [SyncQueue.push]
  refine ⟨_, System.next_call rfl, (afterPush_queue _ _ _ _).trans ?_⟩
  have hqueue : (c.shared.queue.push c.threads.length d nonBlocking false o).1 =
      .arraylist (sq.pushAfterWait d o).1 := by
    rw [hsq, JobQueue.push, hpush]
  exact hqueue

/-- From a full queue below its limit, pushes fill the capacity that the growth chooses. -/
theorem exists_filled [Nonempty α] {grown : ℕ → ℕ} {c₀ c : QueueConfig α}
    (hc : (queueSystem α).Reach (GrowsAndKeeps grown) c₀ c) {sq : SyncQueue α} {k M : ℕ}
    (hsq : c.shared.queue = .arraylist sq) (h : sq.Holds k k M) (hlimit : k < M)
    (hgrown : k < grown k) {n : ℕ} (hn : k + n < grown k) :
    ∃ c' sq', (queueSystem α).Reach (GrowsAndKeeps grown) c₀ c' ∧
      c'.shared.queue = .arraylist sq' ∧ sq'.Holds (k + n + 1) (grown k) M := by
  obtain ⟨d⟩ := ‹Nonempty α›
  have hok : ∀ c (sq : SyncQueue α), c.shared.queue = .arraylist sq →
      GrowsAndKeeps grown c (.call (.push d nonBlocking) (.resize (grown sq.qp.capacity))) := by
    intro c sq hsq
    refine ⟨?_, ?_⟩
    · simp [growsBy, System.runs?, hsq, Outcome.resize]
    · simp [keepsLimit, System.runs?, hsq, queueSystem]
  induction n with
  | zero =>
    obtain ⟨c', hnext, hsq'⟩ := next_push c hsq d (.resize (grown sq.qp.capacity))
    refine ⟨c', _, hc.tail (hok c sq hsq) hnext, hsq', ?_⟩
    have hpush := h.push (.inr ⟨hlimit, hgrown⟩) le_rfl d
    rw [if_neg (lt_irrefl k)] at hpush
    rwa [h.capacity]
  | succ n ih =>
    obtain ⟨c', sq', hc', hsq', h'⟩ := ih (by omega)
    obtain ⟨c'', hnext, hsq''⟩ := next_push c' hsq' d (.resize (grown sq'.qp.capacity))
    refine ⟨c'', _, hc'.tail (hok c' sq' hsq') hnext, hsq'', ?_⟩
    have hlt : k + n + 1 < grown k := hn
    have hpush := h'.push (r := grown sq'.qp.capacity) (.inl hlt) hlt.le d
    rwa [if_pos hlt] at hpush

/-- Every run whose growths are within the limit keeps the contents within it; and
    all runs do so exactly if no state is reached whose next growth passes the limit. -/
theorem within_limit_iff [Nonempty α] {grown : ℕ → ℕ} (hgrown : ∀ k, k < grown k) (m : ℕ) :
    (∀ c : QueueConfig α,
      (queueSystem α).Reach (fun c a => GrowsAndKeeps grown c a ∧ GrowthFits grown c a)
        (queueInit (.arraylist (.init m))) c → WithinLimit c) ∧
    ((∀ c : QueueConfig α,
        (queueSystem α).Reach (GrowsAndKeeps grown) (queueInit (.arraylist (.init m))) c →
        WithinLimit c) ↔
      ∀ c : QueueConfig α,
        (queueSystem α).Reach (GrowsAndKeeps grown) (queueInit (.arraylist (.init m))) c →
        ∀ sq, c.shared.queue = .arraylist sq → sq.GrowsWithinLimit grown) := by
  refine ⟨fun c hc => withinLimit_of_fits hc, ?_, ?_⟩
  · intro hwithin c hc sq hsq hopen hfull hbelow
    rw [← not_lt]
    intro hover
    -- the limit is a number, and the growth leaves room for one element more than it
    obtain ⟨M, hM⟩ := WithTop.ne_top_iff_exists.mp hover.ne_top
    rw [← hM] at hover hbelow
    have hover' : M < grown sq.qp.capacity := WithTop.coe_lt_coe.mp hover
    have hbelow' : sq.qp.capacity < M := WithTop.coe_lt_coe.mp hbelow
    obtain ⟨c', sq', hc', hsq', h'⟩ := exists_filled hc hsq ⟨hopen, hfull, rfl, hM.symm⟩ hbelow'
      (hgrown _) (n := M - sq.qp.capacity) (by omega)
    have hle := hwithin c' hc' sq' hsq'
    rw [h'.limit, h'.length] at hle
    have hle' : sq.qp.capacity + (M - sq.qp.capacity) + 1 ≤ M := WithTop.coe_le_coe.mp hle
    omega
  · intro hfits c hc
    have hmeets : (queueSystem α).Reach
        (fun c a => GrowsAndKeeps grown c a ∧ GrowthFits grown c a)
        (queueInit (.arraylist (.init m))) c := by
      induction hc with
      | refl => exact .refl
      | tail hr hok hn ih =>
        exact ih.tail ⟨hok, fun _ _ sq _ _ hsq => hfits _ hr sq hsq⟩ hn
    exact withinLimit_of_fits hmeets

/-- Doubling from a capacity of 1. -/
def doubled (k : ℕ) : ℕ := 2 * k + if k = 0 then 1 else 0

theorem lt_doubled (k : ℕ) : k < doubled k := by
  unfold doubled
  split <;> omega

/-- A queue with a limit of 5 whose capacity doubles: within its limit in runs whose
    growths fit, and in every run exactly if they always do. -/
theorem within_limit_iff_doubled :
    (∀ c : QueueConfig ℕ,
      (queueSystem ℕ).Reach (fun c a => GrowsAndKeeps doubled c a ∧ GrowthFits doubled c a)
        (queueInit (.arraylist (.init (5 : ℕ)))) c → WithinLimit c) ∧
    ((∀ c : QueueConfig ℕ,
        (queueSystem ℕ).Reach (GrowsAndKeeps doubled) (queueInit (.arraylist (.init (5 : ℕ)))) c →
        WithinLimit c) ↔
      ∀ c : QueueConfig ℕ,
        (queueSystem ℕ).Reach (GrowsAndKeeps doubled) (queueInit (.arraylist (.init (5 : ℕ)))) c →
        ∀ sq, c.shared.queue = .arraylist sq → sq.GrowsWithinLimit doubled) :=
  within_limit_iff lt_doubled 5

/-- Six pushes under a limit of 5: the fifth one doubles the capacity from 4 to 8. -/
def sixUnderFive : QueueConfig ℕ :=
  (queueSystem ℕ).checkedRun (GrowsAndKeeps doubled) (queueInit (.arraylist (.init (5 : ℕ))))
    [.call (.push 1 blocking) (.resize 1), .call (.push 2 blocking) (.resize 2),
      .call (.push 3 blocking) (.resize 4), .call (.push 4 blocking) (.resize 4),
      .call (.push 5 blocking) (.resize 8), .call (.push 6 blocking) (.resize 8)] (by decide)

/-- The sixth push succeeds, one past the limit. -/
theorem not_within_limit : ∃ c : QueueConfig ℕ,
    (queueSystem ℕ).Reach (GrowsAndKeeps doubled) (queueInit (.arraylist (.init (5 : ℕ)))) c ∧
      ¬WithinLimit c := by
  have hreach : (queueSystem ℕ).Reach (GrowsAndKeeps doubled)
      (queueInit (.arraylist (.init (5 : ℕ)))) sixUnderFive := .checkedRun _ _ _ _
  refine ⟨sixUnderFive, hreach, ?_⟩
  intro h
  obtain ⟨sq, hsq⟩ := arraylist_reach (hreach.mono fun _ _ _ => trivial)
  have hsix : sixUnderFive.shared.queue.channel.contents.length = 6 := by decide
  have hfive : sixUnderFive.shared.queue.getMaxCapacity = (5 : ℕ) := by decide
  rw [hsq] at hsix hfive
  have hle : ((6 : ℕ) : WithTop ℕ) ≤ (5 : ℕ) := hsix ▸ hfive ▸ h sq hsq
  revert hle
  decide

end Bound

end BoomPar
