-- SUMMARY: Infinite runs under a fair scheduler: what leads to what, and when a thread, or a whole pool of threads, gets done.
import BoomPar.Monitor.Rules
import Mathlib.Data.Stream.Init

/-!
# Fair runs

Safety speaks of every configuration that a run visits, progress of the runs
that go on for ever. A run is fair when the scheduler does not pass over a
thread that could take a step all the time. Clients may go on calling operations
and blocked threads may go on waking; neither is ever obliged to. What a thread
does between two sections is a step like the others, so in a fair run the functions
of the clients return. Where an object can be freed, a run is one of the object
while it lasts, or one that ends with the free.
-/

namespace Monitor

namespace System

variable {σ τ κ ο : Type*}

/-- Thread `t` has a step that is allowed. -/
def CanStep (S : System σ τ κ ο) (ok : Config σ τ → Act κ ο → Prop) (c : Config σ τ) (t : ℕ) :
    Prop :=
  ∃ o, ok c (.step t o) ∧ (S.next c (.step t o)).isSome = true

/-- A run for ever from `c₀`. At each moment a transition is taken, or none is; a
    thread that can step from some moment on takes a step after it. -/
structure FairRun (S : System σ τ κ ο) (ok : Config σ τ → Act κ ο → Prop) (c₀ : Config σ τ) where
  config : ℕ → Config σ τ
  act : ℕ → Option (Act κ ο)
  init : config 0 = c₀
  idle : ∀ {n}, act n = none → config (n + 1) = config n
  move : ∀ {n a}, act n = some a → ok (config n) a ∧ S.next (config n) a = some (config (n + 1))
  fair : ∀ t n, (∀ m, n ≤ m → CanStep S ok (config m) t) →
    ∃ m, n ≤ m ∧ ∃ o, act m = some (.step t o)

variable {S : System σ τ κ ο} {ok : Config σ τ → Act κ ο → Prop} {c₀ : Config σ τ}

theorem CanStep.of_isSome {c : Config σ τ} {t : ℕ} {pc : τ} {o : ο} (hpc : c.pc? t = some pc)
    (hok : ok c (.step t o)) (h : (S.step c.shared t pc o).isSome = true) : CanStep S ok c t := by
  obtain ⟨⟨s, pc', new⟩, hs⟩ := Option.isSome_iff_exists.mp h
  exact ⟨o, hok, by rw [next_step hpc hs]; rfl⟩

/-- No thread can step when all are returned or blocked. -/
theorem not_canStep (rests : σ → ℕ → τ → Bool)
    (hrests : ∀ {s t pc o}, rests s t pc = true → S.step s t pc o = none) {c : Config σ τ}
    (h : ∀ t < c.threads.length, ∀ pc ∈ c.pc? t, rests c.shared t pc = true) (t : ℕ) :
    ¬CanStep S ok c t := by
  rintro ⟨o, -, hsome⟩
  obtain ⟨c', hc'⟩ := Option.isSome_iff_exists.mp hsome
  obtain ⟨pc, s, pc', new, hpc, hs, -⟩ := stepAt_cases hc'
  rw [hrests (h t (Config.pc?_lt hpc) pc hpc)] at hs
  cases hs

/-- A transition that takes no step of thread `t` leaves it where it is; the shared
    state changes by the step of another thread or by a wake-up. -/
theorem next_other {c c' : Config σ τ} {a : Act κ ο} (h : S.next c a = some c') {t : ℕ} {pc : τ}
    (hpc : c.pc? t = some pc) (ha : ∀ o, a ≠ .step t o) :
    c'.pc? t = some pc ∧
      ((∃ u q o q' new, u ≠ t ∧ Moves S c a u q o ∧
          S.step c.shared u q o = some (c'.shared, q', new)) ∨
        ∃ u q, S.wake c.shared u q = some c'.shared) := by
  cases a with
  | call k o =>
    obtain ⟨q, s, q', new, hq, hs, rfl⟩ := stepAt_cases h
    rw [Config.pc?_push_self] at hq
    cases hq
    have hne : t ≠ c.threads.length := Nat.ne_of_lt (Config.pc?_lt hpc)
    refine ⟨Config.pc?_move_of_ne hne (Config.pc?_push_of_pc? hpc) _ _ _, .inl ?_⟩
    exact ⟨_, _, o, q', new, hne.symm, .inr ⟨k, rfl, rfl⟩, hs⟩
  | step u o =>
    obtain ⟨q, s, q', new, hq, hs, rfl⟩ := stepAt_cases h
    have hne : t ≠ u := by
      rintro rfl
      exact ha o rfl
    refine ⟨Config.pc?_move_of_ne hne hpc _ _ _, .inl ?_⟩
    exact ⟨u, q, o, q', new, hne.symm, .inl ⟨rfl, hq⟩, hs⟩
  | wake u =>
    obtain ⟨q, s, hq, hs, rfl⟩ := next_wake_cases h
    exact ⟨hpc, .inr ⟨u, q, hs⟩⟩

namespace FairRun

variable (r : FairRun S ok c₀)

/-- Whenever `P` holds, `Q` holds then or later. -/
def LeadsTo (P Q : Config σ τ → Prop) : Prop :=
  ∀ n, P (r.config n) → ∃ m, n ≤ m ∧ Q (r.config m)

/-- What the transitions that the run takes from moment `n` on keep holds from then on. -/
theorem keep {P : Config σ τ → Prop} {n m : ℕ}
    (hkeep : ∀ {l a}, n ≤ l → r.act l = some a → P (r.config l) → P (r.config (l + 1)))
    (hn : P (r.config n)) (h : n ≤ m) : P (r.config m) := by
  induction m, h using Nat.le_induction with
  | base => exact hn
  | succ m hnm ih =>
    cases hact : r.act m with
    | none =>
      rw [r.idle hact]
      exact ih
    | some a => exact hkeep hnm hact ih

theorem reach (n : ℕ) : S.Reach ok c₀ (r.config n) := by
  refine r.keep (fun _ hact hc => hc.tail (r.move hact).1 (r.move hact).2) ?_ (Nat.zero_le n)
  rw [r.init]
  exact .refl

theorem reach_le {n m : ℕ} (h : n ≤ m) : S.Reach ok (r.config n) (r.config m) :=
  r.keep (fun _ hact hc => hc.tail (r.move hact).1 (r.move hact).2) .refl h

/-- What every transition keeps holds from then on. -/
theorem stable {P : Config σ τ → Prop}
    (hkeep : ∀ {c a c'}, S.Reach ok c₀ c → P c → ok c a → S.next c a = some c' → P c')
    {n m : ℕ} (hn : P (r.config n)) (h : n ≤ m) : P (r.config m) :=
  r.keep (fun _ hact hc => hkeep (r.reach _) hc (r.move hact).1 (r.move hact).2) hn h

/-- A thread that has no step left stays where it is. -/
theorem pc?_of_stuck {t : ℕ} {pc : τ} (hstuck : ∀ s o, S.step s t pc o = none) {n m : ℕ}
    (h : (r.config n).pc? t = some pc) (hnm : n ≤ m) : (r.config m).pc? t = some pc :=
  r.stable (P := fun c => c.pc? t = some pc) (fun _ hpc _ hn => next_pc?_of_stuck hn hstuck hpc)
    h hnm

/-- A thread stays at control states that its steps from shared states in `R` do not
    leave, as long as the shared state stays in `R`. -/
theorem follow {R : σ → Prop} {P : τ → Prop}
    (hstep : ∀ {s t pc o s' pc' new}, S.step s t pc o = some (s', pc', new) → R s → P pc → P pc')
    {n m t : ℕ} {pc : τ} (hR : ∀ l, n ≤ l → R (r.config l).shared)
    (hpc : (r.config n).pc? t = some pc) (hP : P pc) (hnm : n ≤ m) :
    ∃ pc', (r.config m).pc? t = some pc' ∧ P pc' := by
  refine r.keep (P := fun c => ∃ pc', c.pc? t = some pc' ∧ P pc') ?_ ⟨pc, hpc, hP⟩ hnm
  rintro l a hnl hact ⟨q, hq, hPq⟩
  have hnext := (r.move hact).2
  by_cases ha : ∃ o, a = .step t o
  · obtain ⟨o, rfl⟩ := ha
    obtain ⟨pc₁, s, pc', new, hpc₁, hs, hmove⟩ := stepAt_cases hnext
    rw [hq] at hpc₁
    cases hpc₁
    rw [hmove]
    exact ⟨pc', Config.pc?_move_self hq _ _ _, hstep hs (hR l hnl) hPq⟩
  · exact ⟨q, (next_other hnext hq fun o ho => ha ⟨o, ho⟩).1, hPq⟩

end FairRun

/-! ## Objects that are freed -/

/-- The transitions that are allowed before the object is freed. Nothing is defined on
    it after that. -/
def BeforeFree (freed : Config σ τ → Prop) (ok : Config σ τ → Act κ ο → Prop) (c : Config σ τ)
    (a : Act κ ο) : Prop :=
  ¬freed c ∧ ok c a

instance (freed : Config σ τ → Prop) (ok : Config σ τ → Act κ ο → Prop) [DecidablePred freed]
    [∀ c a, Decidable (ok c a)] (c : Config σ τ) (a : Act κ ο) :
    Decidable (BeforeFree freed ok c a) :=
  inferInstanceAs (Decidable (_ ∧ _))

namespace FairRun

variable {freed : Config σ τ → Prop}

/-- The run ends with the free. -/
theorem config_of_freed (r : FairRun S (BeforeFree freed ok) c₀) {n m : ℕ}
    (hn : freed (r.config n)) (h : n ≤ m) : r.config m = r.config n := by
  refine r.keep (P := fun c => c = r.config n) ?_ rfl h
  intro l a _ hact heq
  rw [← heq] at hn
  exact absurd hn (r.move hact).1.1

theorem freed_stays (r : FairRun S (BeforeFree freed ok) c₀) {n m : ℕ} (hn : freed (r.config n))
    (h : n ≤ m) : freed (r.config m) := by
  rw [r.config_of_freed hn h]
  exact hn

/-- A run in which the object is not freed. -/
def neverFreed (r : FairRun S (BeforeFree freed ok) c₀) (h : ∀ n, ¬freed (r.config n)) :
    FairRun S ok c₀ where
  config := r.config
  act := r.act
  init := r.init
  idle := r.idle
  move hact := ⟨(r.move hact).1.2, (r.move hact).2⟩
  fair t n hcan := r.fair t n fun m hnm => by
    obtain ⟨o, hok, hsome⟩ := hcan m hnm
    exact ⟨o, ⟨h m, hok⟩, hsome⟩

theorem freed_or_never (r : FairRun S (BeforeFree freed ok) c₀) (n : ℕ) :
    (∃ m, n ≤ m ∧ freed (r.config m)) ∨ ∀ m, ¬freed (r.config m) := by
  by_cases hnever : ∀ m, ¬freed (r.config m)
  · exact .inr hnever
  · obtain ⟨m, hm⟩ : ∃ m, freed (r.config m) := by
      simpa only [not_forall, not_not] using hnever
    exact .inl ⟨max n m, le_max_left n m, r.freed_stays hm (le_max_right n m)⟩

end FairRun

/-! ## Progress by rank -/

/-- A rank that goes down until `Q` holds comes to `Q`. -/
theorem eventually_of_rank {P Q : ℕ → Prop} (rank : ℕ → ℕ)
    (h : ∀ n, P n → ∃ m, n ≤ m ∧ (Q m ∨ (P m ∧ rank m < rank n))) {n : ℕ} (hn : P n) :
    ∃ m, n ≤ m ∧ Q m := by
  -- the rank cannot go down for ever
  induction hk : rank n using Nat.strong_induction_on generalizing n with
  | _ k ih =>
    subst hk
    obtain ⟨m, hnm, hQ | ⟨hP, hlt⟩⟩ := h n hn
    · exact ⟨m, hnm, hQ⟩
    · obtain ⟨l, hml, hQ⟩ := ih _ hlt hP rfl
      exact ⟨l, hnm.trans hml, hQ⟩

/-- Thread `t` alone brings a run to `Q` from moment `n` on. As long as `P` holds and `Q`
    does not, it can step and its steps lower the rank or establish `Q`; the other
    transitions do not raise the rank. -/
theorem FairRun.eventually_by (r : FairRun S ok c₀) (t : ℕ) {P Q : Config σ τ → Prop}
    (rank : Config σ τ → ℕ) {n : ℕ}
    (hcan : ∀ {m}, n ≤ m → P (r.config m) → ¬Q (r.config m) → CanStep S ok (r.config m) t)
    (hstep : ∀ {m o}, n ≤ m → P (r.config m) → ¬Q (r.config m) → r.act m = some (.step t o) →
      Q (r.config (m + 1)) ∨
        (P (r.config (m + 1)) ∧ rank (r.config (m + 1)) < rank (r.config m)))
    (hother : ∀ {m a}, n ≤ m → P (r.config m) → ¬Q (r.config m) → r.act m = some a →
      (∀ o, a ≠ .step t o) → Q (r.config (m + 1)) ∨
        (P (r.config (m + 1)) ∧ rank (r.config (m + 1)) ≤ rank (r.config m)))
    (hn : P (r.config n)) : ∃ m, n ≤ m ∧ Q (r.config m) := by
  have hdown : ∀ m, n ≤ m ∧ P (r.config m) → ∃ l, m ≤ l ∧ (Q (r.config l) ∨
      ((n ≤ l ∧ P (r.config l)) ∧ rank (r.config l) < rank (r.config m))) := by
    rintro m ⟨hnm, hPm⟩
    by_contra hnever
    have hnot : ∀ l, m ≤ l → ¬Q (r.config l) := fun l hml hQ => hnever ⟨l, hml, .inl hQ⟩
    have hhigh : ∀ l, m ≤ l → P (r.config l) → ¬rank (r.config l) < rank (r.config m) :=
      fun l hml hP hlt => hnever ⟨l, hml, .inr ⟨⟨hnm.trans hml, hP⟩, hlt⟩⟩
    -- `t` has not moved, for its step would have lowered the rank
    have hstays : ∀ l, m ≤ l → P (r.config l) ∧ rank (r.config l) ≤ rank (r.config m) := by
      intro l hml
      refine r.keep (P := fun c => P c ∧ rank c ≤ rank (r.config m)) ?_ ⟨hPm, le_rfl⟩ hml
      rintro k a hmk hact ⟨hP, hle⟩
      have hQ := hnot (k + 1) (hmk.trans (Nat.le_succ k))
      by_cases ha : ∃ o, a = .step t o
      · obtain ⟨o, rfl⟩ := ha
        obtain ⟨hP', hlt⟩ := (hstep (hnm.trans hmk) hP (hnot k hmk) hact).resolve_left hQ
        exact ⟨hP', hlt.le.trans hle⟩
      · have hsame : ∀ o, a ≠ .step t o := fun o ho => ha ⟨o, ho⟩
        obtain ⟨hP', hle'⟩ := (hother (hnm.trans hmk) hP (hnot k hmk) hact hsame).resolve_left hQ
        exact ⟨hP', hle'.trans hle⟩
    obtain ⟨l, hml, o, hact⟩ := r.fair t m fun l hml =>
      hcan (hnm.trans hml) (hstays l hml).1 (hnot l hml)
    have hml' := hml.trans (Nat.le_succ l)
    rcases hstep (hnm.trans hml) (hstays l hml).1 (hnot l hml) hact with hQ | ⟨hP, hlt⟩
    · exact hnot (l + 1) hml' hQ
    · exact hhigh (l + 1) hml' hP (hlt.trans_le (hstays l hml).2)
  exact eventually_of_rank (fun m => rank (r.config m)) hdown ⟨le_rfl, hn⟩

/-- A step of thread `t` brings `Q` about, and the other transitions keep `P` or bring
    `Q` about as well. -/
theorem FairRun.leadsTo_by (r : FairRun S ok c₀) (t : ℕ) {P Q : Config σ τ → Prop}
    (hcan : ∀ {c}, S.Reach ok c₀ c → P c → CanStep S ok c t)
    (hstep : ∀ {c o c'}, S.Reach ok c₀ c → P c → S.next c (.step t o) = some c' → Q c')
    (hother : ∀ {c a c'}, S.Reach ok c₀ c → P c → (∀ o, a ≠ .step t o) → ok c a →
      S.next c a = some c' → Q c' ∨ P c') : r.LeadsTo P Q := by
  intro n hn
  refine r.eventually_by t (fun _ => 0) ?_ ?_ ?_ hn
  · exact fun _ hP _ => hcan (r.reach _) hP
  · exact fun _ hP _ hact => .inl (hstep (r.reach _) hP (r.move hact).2)
  · intro m a _ hP _ hact ha
    obtain ⟨hok, hnext⟩ := r.move hact
    exact (hother (r.reach m) hP ha hok hnext).imp_right fun hP' => ⟨hP', le_rfl⟩

/-- As long as `P` holds and `Q` does not, some thread helps. A helper can step, and
    its step lowers the rank or establishes `Q`; another transition does not raise the
    rank, and unless it lowers it every helper still helps. -/
structure Progress (S : System σ τ κ ο) (ok : Config σ τ → Act κ ο → Prop) (c₀ : Config σ τ)
    (P Q : Config σ τ → Prop) (rank : Config σ τ → ℕ) (helps : ℕ → Config σ τ → Prop) : Prop where
  helper : ∀ {c}, S.Reach ok c₀ c → P c → ¬Q c → ∃ t, helps t c
  can : ∀ {c t}, S.Reach ok c₀ c → P c → ¬Q c → helps t c → CanStep S ok c t
  step : ∀ {c t o c'}, S.Reach ok c₀ c → P c → ¬Q c → helps t c → ok c (.step t o) →
    S.next c (.step t o) = some c' → Q c' ∨ (P c' ∧ rank c' < rank c)
  keep : ∀ {c a c'}, S.Reach ok c₀ c → P c → ¬Q c → (∀ t o, a = .step t o → ¬helps t c) →
    ok c a → S.next c a = some c' →
    Q c' ∨ (P c' ∧ (rank c' < rank c ∨ (rank c' = rank c ∧ ∀ t, helps t c → helps t c')))

section Progress

variable {P Q : Config σ τ → Prop} {rank : Config σ τ → ℕ} {helps : ℕ → Config σ τ → Prop}

/-- The run comes to `Q`, or to `P` at a lower rank. -/
private def GoesDown (r : FairRun S ok c₀) (P Q : Config σ τ → Prop) (rank : Config σ τ → ℕ)
    (n : ℕ) : Prop :=
  ∃ m, n ≤ m ∧ (Q (r.config m) ∨ (P (r.config m) ∧ rank (r.config m) < rank (r.config n)))

/-- As long as the rank stays, the helper that has not moved still helps. -/
private theorem Progress.waits (hp : Progress S ok c₀ P Q rank helps) (r : FairRun S ok c₀)
    {n t : ℕ} (hP : P (r.config n)) (ht : helps t (r.config n)) {m : ℕ} (hnm : n ≤ m) :
    GoesDown r P Q rank n ∨
      (P (r.config m) ∧ rank (r.config m) = rank (r.config n) ∧ helps t (r.config m)) := by
  induction m, hnm using Nat.le_induction with
  | base => exact .inr ⟨hP, rfl, ht⟩
  | succ m hnm ih =>
    have hle : n ≤ m + 1 := hnm.trans (Nat.le_succ m)
    rcases ih with hdone | ⟨hPm, hrank, htm⟩
    · exact .inl hdone
    by_cases hQ : Q (r.config m)
    · exact .inl ⟨m, hnm, .inl hQ⟩
    cases hact : r.act m with
    | none =>
      rw [r.idle hact]
      exact .inr ⟨hPm, hrank, htm⟩
    | some a =>
      obtain ⟨hok, hnext⟩ := r.move hact
      by_cases hhelper : ∃ u o, a = .step u o ∧ helps u (r.config m)
      · obtain ⟨u, o, rfl, hu⟩ := hhelper
        refine .inl ⟨m + 1, hle, ?_⟩
        rw [← hrank]
        exact hp.step (r.reach m) hPm hQ hu hok hnext
      · have hnot : ∀ u o, a = .step u o → ¬helps u (r.config m) :=
          fun u o ha hu => hhelper ⟨u, o, ha, hu⟩
        rcases hp.keep (r.reach m) hPm hQ hnot hok hnext with hQ' | ⟨hP', hlt | ⟨heq, hkept⟩⟩
        · exact .inl ⟨m + 1, hle, .inl hQ'⟩
        · exact .inl ⟨m + 1, hle, .inr ⟨hP', hrank ▸ hlt⟩⟩
        · exact .inr ⟨hP', heq.trans hrank, hkept t htm⟩

/-- Fairness to a helper makes the run go down. -/
private theorem Progress.goesDown (hp : Progress S ok c₀ P Q rank helps) (r : FairRun S ok c₀)
    {n : ℕ} (hP : P (r.config n)) : GoesDown r P Q rank n := by
  by_contra hnever
  have hnot : ∀ m, n ≤ m → ¬Q (r.config m) := fun m hnm hQ => hnever ⟨m, hnm, .inl hQ⟩
  obtain ⟨t, ht⟩ := hp.helper (r.reach n) hP (hnot n le_rfl)
  have hwaits := fun m hnm => (hp.waits r hP ht (m := m) hnm).resolve_left hnever
  obtain ⟨m, hnm, o, hact⟩ := r.fair t n fun m hnm =>
    hp.can (r.reach m) (hwaits m hnm).1 (hnot m hnm) (hwaits m hnm).2.2
  obtain ⟨hPm, hrank, htm⟩ := hwaits m hnm
  obtain ⟨hok, hnext⟩ := r.move hact
  apply hnever
  refine ⟨m + 1, hnm.trans (Nat.le_succ m), ?_⟩
  rw [← hrank]
  exact hp.step (r.reach m) hPm (hnot m hnm) htm hok hnext

theorem Progress.leadsTo (hp : Progress S ok c₀ P Q rank helps) (r : FairRun S ok c₀) :
    r.LeadsTo P Q := fun _ hP =>
  eventually_of_rank (fun n => rank (r.config n)) (fun _ hP => hp.goesDown r hP) hP

end Progress

/-! ## A single thread -/

/-- While `P` lasts, each thread of some rank can step and lowers its rank by it, and
    no other thread raises it. -/
structure Returns (S : System σ τ κ ο) (ok : Config σ τ → Act κ ο → Prop) (c₀ : Config σ τ)
    (P : Config σ τ → Prop) (rank : σ → τ → ℕ) : Prop where
  keep : ∀ {c a c'}, S.Reach ok c₀ c → P c → ok c a → S.next c a = some c' → P c'
  can : ∀ {c t pc}, S.Reach ok c₀ c → P c → c.pc? t = some pc → 0 < rank c.shared pc →
    CanStep S ok c t
  step : ∀ {c t pc o s' pc' new}, S.Reach ok c₀ c → P c → c.pc? t = some pc →
    0 < rank c.shared pc → S.step c.shared t pc o = some (s', pc', new) →
    rank s' pc' < rank c.shared pc
  other : ∀ {c a u q o s' q' new}, S.Reach ok c₀ c → P c → Moves S c a u q o →
    S.step c.shared u q o = some (s', q', new) → ∀ pc, rank s' pc ≤ rank c.shared pc
  wake : ∀ {c u q s'}, S.Reach ok c₀ c → P c → S.wake c.shared u q = some s' →
    ∀ pc, rank s' pc ≤ rank c.shared pc

section Returns

variable {P : Config σ τ → Prop} {rank : σ → τ → ℕ} {t : ℕ}

/-- Every thread of the pool gets done. -/
theorem Returns.eventually (hr : Returns S ok c₀ P rank) (r : FairRun S ok c₀) {n : ℕ} {pc : τ}
    (hP : P (r.config n)) (hpc : (r.config n).pc? t = some pc) :
    ∃ m, n ≤ m ∧ P (r.config m) ∧
      ∃ pc', (r.config m).pc? t = some pc' ∧ rank (r.config m).shared pc' = 0 := by
  have hpos : ∀ {c pc}, P c → c.pc? t = some pc →
      ¬(P c ∧ ∃ pc', c.pc? t = some pc' ∧ rank c.shared pc' = 0) → 0 < rank c.shared pc :=
    fun hP hpc hnot => Nat.pos_of_ne_zero fun hz => hnot ⟨hP, _, hpc, hz⟩
  refine r.eventually_by (P := fun c => P c ∧ ∃ pc, c.pc? t = some pc)
    (Q := fun c => P c ∧ ∃ pc', c.pc? t = some pc' ∧ rank c.shared pc' = 0) t
    (fun c => c.weightAt (rank c.shared) t) ?_ ?_ ?_ ⟨hP, pc, hpc⟩
  · rintro m - ⟨hP, pc, hpc⟩ hnot
    exact hr.can (r.reach m) hP hpc (hpos hP hpc hnot)
  · rintro m o - ⟨hP, pc, hpc⟩ hnot hact
    obtain ⟨hok, h⟩ := r.move hact
    have hP' := hr.keep (r.reach m) hP hok h
    obtain ⟨q, s, pc', new, hq, hs, hmove⟩ := stepAt_cases h
    rw [hpc] at hq
    cases hq
    rw [hmove] at hP' ⊢
    have hself := Config.pc?_move_self hpc s pc' new
    refine .inr ⟨⟨hP', pc', hself⟩, ?_⟩
    simp only [Config.weightAt_of_pc? hpc, Config.weightAt_of_pc? hself]
    exact hr.step (r.reach m) hP hpc (hpos hP hpc hnot) hs
  · rintro m a - ⟨hP, pc, hpc⟩ - hact ha
    obtain ⟨hok, h⟩ := r.move hact
    obtain ⟨hself, hchange⟩ := next_other h hpc ha
    refine .inr ⟨⟨hr.keep (r.reach m) hP hok h, pc, hself⟩, ?_⟩
    simp only [Config.weightAt_of_pc? hpc, Config.weightAt_of_pc? hself]
    rcases hchange with ⟨u, q, o, q', new, -, hmoves, hs⟩ | ⟨u, q, hs⟩
    · exact hr.other (r.reach m) hP hmoves hs pc
    · exact hr.wake (r.reach m) hP hs pc

end Returns

/-! ## The whole pool -/

/-- While `P` lasts, the weights of the threads and what the shared state holds for
    them do not grow, and each thread of some weight can step and brings them down. -/
structure Drains (S : System σ τ κ ο) (ok : Config σ τ → Act κ ο → Prop) (c₀ : Config σ τ)
    (P : Config σ τ → Prop) (w : τ → ℕ) (g : σ → ℕ) : Prop where
  keep : ∀ {c a c'}, S.Reach ok c₀ c → P c → ok c a → S.next c a = some c' → P c'
  can : ∀ {c t pc}, S.Reach ok c₀ c → P c → c.pc? t = some pc → 0 < w pc → CanStep S ok c t
  start : ∀ t k, w (S.start t k) = 0
  step : ∀ {c a t pc o s' pc' new}, S.Reach ok c₀ c → P c → Moves S c a t pc o →
    S.step c.shared t pc o = some (s', pc', new) →
    w pc' + (new.map w).sum + g s' + (if 0 < w pc then 1 else 0) ≤ w pc + g c.shared
  wake : ∀ {c t pc s'}, S.Reach ok c₀ c → P c → S.wake c.shared t pc = some s' →
    g s' ≤ g c.shared

section Drains

variable {P : Config σ τ → Prop} {w : τ → ℕ} {g : σ → ℕ}

/-- Nobody in the pool has any weight. -/
private def Drained (P : Config σ τ → Prop) (w : τ → ℕ) (c : Config σ τ) : Prop :=
  P c ∧ ∀ t pc, c.pc? t = some pc → w pc = 0

private def load (w : τ → ℕ) (g : σ → ℕ) (c : Config σ τ) : ℕ := c.sumOver w + g c.shared

/-- A transition that takes no step of a thread of some weight. -/
private theorem Drains.load_next (hd : Drains S ok c₀ P w g) {c c' : Config σ τ} {a : Act κ ο}
    (hc : S.Reach ok c₀ c) (hP : P c) (h : S.next c a = some c') : load w g c' ≤ load w g c := by
  unfold load
  cases a with
  | call k o =>
    obtain ⟨pc, s, pc', new, hpc, hs, rfl⟩ := stepAt_cases h
    have hmove := Config.sumOver_move hpc s pc' new w
    rw [Config.pc?_push_self] at hpc
    cases hpc
    have hstep := hd.step hc hP (.inr ⟨k, rfl, rfl⟩) hs
    have hpush := Config.sumOver_push c (S.start c.threads.length k) w
    have hstart := hd.start c.threads.length k
    simp only [Config.move_shared]
    omega
  | step t o =>
    obtain ⟨pc, s, pc', new, hpc, hs, rfl⟩ := stepAt_cases h
    have hmove := Config.sumOver_move hpc s pc' new w
    have hstep := hd.step hc hP (.inl ⟨rfl, hpc⟩) hs
    simp only [Config.move_shared]
    omega
  | wake t =>
    obtain ⟨pc, s, hpc, hs, rfl⟩ := next_wake_cases h
    have hwake := hd.wake hc hP hs
    simp only [Config.sumOver]
    omega

private theorem Drains.load_step (hd : Drains S ok c₀ P w g) {c c' : Config σ τ} {t : ℕ} {o : ο}
    {pc : τ} (hc : S.Reach ok c₀ c) (hP : P c) (hpc : c.pc? t = some pc) (hw : 0 < w pc)
    (h : S.next c (.step t o) = some c') : load w g c' < load w g c := by
  obtain ⟨q, s, pc', new, hq, hs, rfl⟩ := stepAt_cases h
  rw [hpc] at hq
  cases hq
  have hmove := Config.sumOver_move hpc s pc' new w
  have hstep := hd.step hc hP (.inl ⟨rfl, hpc⟩) hs
  rw [if_pos hw] at hstep
  simp only [load, Config.move_shared]
  omega

private theorem Drains.progress (hd : Drains S ok c₀ P w g) :
    Progress S ok c₀ P (Drained P w) (load w g)
      (fun t c => ∃ pc, c.pc? t = some pc ∧ 0 < w pc) where
  helper {c} _ hP hnot := by
    by_contra hnone
    refine hnot ⟨hP, fun t pc hpc => ?_⟩
    by_contra hw
    exact hnone ⟨t, pc, hpc, Nat.pos_of_ne_zero hw⟩
  can := by
    rintro c t hc hP - ⟨pc, hpc, hw⟩
    exact hd.can hc hP hpc hw
  step := by
    rintro c t o c' hc hP - ⟨pc, hpc, hw⟩ hok h
    exact .inr ⟨hd.keep hc hP hok h, hd.load_step hc hP hpc hw h⟩
  keep := by
    intro c a c' hc hP _ hnot hok h
    refine .inr ⟨hd.keep hc hP hok h, ?_⟩
    refine (hd.load_next hc hP h).lt_or_eq.imp_right fun heq => ⟨heq, ?_⟩
    rintro t ⟨pc, hpc, hw⟩
    refine ⟨pc, (next_other h hpc fun o ha => ?_).1, hw⟩
    exact hnot t o ha ⟨pc, hpc, hw⟩

/-- Every thread of the pool comes to no weight. -/
theorem Drains.eventually (hd : Drains S ok c₀ P w g) (r : FairRun S ok c₀) {n : ℕ}
    (hP : P (r.config n)) :
    ∃ m, n ≤ m ∧ P (r.config m) ∧ ∀ t pc, (r.config m).pc? t = some pc → w pc = 0 :=
  hd.progress.leadsTo r n hP

end Drains

/-! ## Runs that come to rest -/

section Rest

variable [∀ c a, Decidable (ok c a)]

private theorem check_append {c : Config σ τ} {pre post : List (Act κ ο)} :
    S.check ok c (pre ++ post) = (S.check ok c pre).bind fun c => S.check ok c post := by
  induction pre generalizing c with
  | nil => rfl
  | cons a pre ih =>
    simp only [List.cons_append, check]
    split
    · rw [Option.bind_assoc]
      congr 1
      funext c'
      exact ih
    · rfl

private theorem check_snoc {c : Config σ τ} {pre : List (Act κ ο)} {a : Act κ ο} :
    S.check ok c (pre ++ [a]) =
      (S.check ok c pre).bind fun c => if ok c a then S.next c a else none := by
  rw [check_append]
  simp only [check, Option.bind_fun_some]

private theorem check_isSome_of_prefix {c : Config σ τ} {pre : List (Act κ ο)}
    (post : List (Act κ ο)) (h : (S.check ok c (pre ++ post)).isSome = true) :
    (S.check ok c pre).isSome = true := by
  rw [check_append] at h
  exact Option.isSome_of_isSome_bind h

/-- The run `as`, after which no thread has a step left and nothing happens any more. -/
def FairRun.ofCheck (c₀ : Config σ τ) (as : List (Act κ ο))
    (h : (S.check ok c₀ as).isSome = true)
    (hrest : ∀ t, ¬CanStep S ok (S.checkedRun ok c₀ as h) t) : FairRun S ok c₀ where
  config n := (S.check ok c₀ (as.take n)).getD c₀
  act n := as[n]?
  init := rfl
  idle {n} hact := by
    have hlen : as.length ≤ n := List.getElem?_eq_none_iff.mp hact
    rw [List.take_of_length_le hlen, List.take_of_length_le (hlen.trans (Nat.le_succ n))]
  move {n a} hact := by
    have htake : as.take (n + 1) = as.take n ++ [a] := by
      rw [List.take_add_one, hact]
      rfl
    have hsome : (S.check ok c₀ (as.take (n + 1))).isSome = true := by
      apply check_isSome_of_prefix (as.drop (n + 1))
      rwa [List.take_append_drop]
    obtain ⟨c', hc'⟩ := Option.isSome_iff_exists.mp hsome
    rw [htake, check_snoc] at hc'
    obtain ⟨c, hc, hnext⟩ := Option.bind_eq_some_iff.mp hc'
    rw [htake, check_snoc, hc', hc]
    split at hnext
    · rename_i hok
      exact ⟨hok, hnext⟩
    · cases hnext
  fair t n hcan := by
    have hend := hcan (max n as.length) (le_max_left _ _)
    rw [List.take_of_length_le (le_max_right _ _), ← Option.some_get h] at hend
    exact absurd hend (hrest t)

theorem FairRun.ofCheck_config {c₀ : Config σ τ} {as : List (Act κ ο)}
    {h : (S.check ok c₀ as).isSome = true}
    {hrest : ∀ t, ¬CanStep S ok (S.checkedRun ok c₀ as h) t} {n : ℕ} (hn : as.length ≤ n) :
    (ofCheck c₀ as h hrest).config n = S.checkedRun ok c₀ as h := by
  change (S.check ok c₀ (as.take n)).getD c₀ = S.checkedRun ok c₀ as h
  rw [List.take_of_length_le hn, ← Option.some_get h]
  rfl

/-! ## Runs that loop -/

/-- The transitions `as` lead from `c₀` to `head`, and those of `cycle` from `head` to
    `head` again. Each thread takes a step in the cycle, or has none at `head`. -/
structure Loops (S : System σ τ κ ο) (ok : Config σ τ → Act κ ο → Prop)
    [∀ c a, Decidable (ok c a)] (c₀ : Config σ τ) (as cycle : List (Act κ ο))
    (head : Config σ τ → Prop) : Prop where
  nonempty : cycle ≠ []
  enter : ∃ c, S.check ok c₀ as = some c ∧ head c
  turn : ∀ {c}, head c → ∃ c', S.check ok c cycle = some c' ∧ head c'
  serves : ∀ t, (∃ o, .step t o ∈ cycle) ∨ ∀ {c}, head c → ¬CanStep S ok c t

namespace Loops

variable {as cycle : List (Act κ ο)} {head : Config σ τ → Prop}

/-- What the run takes: `as` and then the cycle again and again. -/
def acts (hl : Loops S ok c₀ as cycle head) : Stream' (Act κ ο) :=
  as ++ₛ Stream'.cycle cycle hl.nonempty

/-- Where the run takes the cycle for the `k`-th time. -/
def turnAt (as cycle : List (Act κ ο)) (k : ℕ) : ℕ := as.length + k * cycle.length

variable (hl : Loops S ok c₀ as cycle head)

include hl in
theorem le_turnAt (n : ℕ) : n ≤ turnAt as cycle n := by
  have hpos : 0 < cycle.length := List.length_pos_iff.mpr hl.nonempty
  exact (Nat.le_mul_of_pos_right n hpos).trans (Nat.le_add_left _ _)

theorem drop_turnAt (k : ℕ) :
    hl.acts.drop (turnAt as cycle k) = Stream'.cycle cycle hl.nonempty := by
  have hturn : (Stream'.cycle cycle hl.nonempty).drop cycle.length =
      Stream'.cycle cycle hl.nonempty := by
    have hdrop := Stream'.drop_append_stream cycle (Stream'.cycle cycle hl.nonempty)
    rwa [← Stream'.cycle_eq] at hdrop
  induction k with
  | zero => rw [turnAt, Nat.zero_mul, Nat.add_zero, acts, Stream'.drop_append_stream]
  | succ k ih =>
    rw [turnAt, Nat.succ_mul, ← Nat.add_assoc, ← Stream'.drop_drop, ← turnAt, ih, hturn]

theorem take_turnAt {i : ℕ} (hi : i ≤ cycle.length) (k : ℕ) :
    hl.acts.take (turnAt as cycle k + i) = hl.acts.take (turnAt as cycle k) ++ cycle.take i := by
  rw [Stream'.take_add, hl.drop_turnAt, Stream'.cycle_eq, Stream'.take_append_of_le_length _ _ _ hi]

theorem check_turnAt (k : ℕ) :
    ∃ c, S.check ok c₀ (hl.acts.take (turnAt as cycle k)) = some c ∧ head c := by
  induction k with
  | zero =>
    rw [turnAt, Nat.zero_mul, Nat.add_zero, acts, Stream'.take_append_of_le_length _ _ _ le_rfl,
      List.take_length]
    exact hl.enter
  | succ k ih =>
    obtain ⟨c, hc, hhead⟩ := ih
    obtain ⟨c', hc', hhead'⟩ := hl.turn hhead
    refine ⟨c', ?_, hhead'⟩
    have hnext : turnAt as cycle (k + 1) = turnAt as cycle k + cycle.length := by
      rw [turnAt, Nat.succ_mul, ← Nat.add_assoc, turnAt]
    rw [hnext, hl.take_turnAt le_rfl, List.take_length, check_append, hc]
    exact hc'

theorem check_isSome (n : ℕ) : (S.check ok c₀ (hl.acts.take n)).isSome = true := by
  obtain ⟨c, hc, -⟩ := hl.check_turnAt n
  obtain ⟨post, hpost⟩ := Stream'.take_prefix_take_left n _ hl.acts (hl.le_turnAt n)
  refine check_isSome_of_prefix post ?_
  rw [hpost, hc]
  rfl

theorem get_turnAt {i : ℕ} (hi : i < cycle.length) (k : ℕ) :
    hl.acts.get (turnAt as cycle k + i) = cycle[i] := by
  rw [← Stream'.get_drop, hl.drop_turnAt, Stream'.cycle_eq, Stream'.get_append_left]

end Loops

variable {as cycle : List (Act κ ο)} {head : Config σ τ → Prop}

/-- The run that loops for ever. -/
def FairRun.ofLoop (hl : Loops S ok c₀ as cycle head) : FairRun S ok c₀ where
  config n := (S.check ok c₀ (hl.acts.take n)).getD c₀
  act n := some (hl.acts.get n)
  init := rfl
  idle := nofun
  move {n a} hact := by
    cases hact
    obtain ⟨c', hc'⟩ := Option.isSome_iff_exists.mp (hl.check_isSome (n + 1))
    rw [Stream'.take_succ', check_snoc] at hc'
    obtain ⟨c, hc, hnext⟩ := Option.bind_eq_some_iff.mp hc'
    rw [Stream'.take_succ', check_snoc, hc', hc]
    split at hnext
    · rename_i hok
      exact ⟨hok, hnext⟩
    · cases hnext
  fair t n hcan := by
    obtain ⟨o, hmem⟩ | hstuck := hl.serves t
    · obtain ⟨i, hi, hget⟩ := List.getElem_of_mem hmem
      refine ⟨Loops.turnAt as cycle n + i, (hl.le_turnAt n).trans (Nat.le_add_right _ _), o, ?_⟩
      rw [hl.get_turnAt hi, hget]
    · obtain ⟨c, hc, hhead⟩ := hl.check_turnAt n
      have hturn := hcan (Loops.turnAt as cycle n) (hl.le_turnAt n)
      rw [hc] at hturn
      exact absurd hturn (hstuck hhead)

namespace FairRun

variable (hl : Loops S ok c₀ as cycle head)

theorem ofLoop_head (k : ℕ) : head ((ofLoop hl).config (Loops.turnAt as cycle k)) := by
  obtain ⟨c, hc, hhead⟩ := hl.check_turnAt k
  change head ((S.check ok c₀ (hl.acts.take (Loops.turnAt as cycle k))).getD c₀)
  rw [hc]
  exact hhead

theorem ofLoop_act {i : ℕ} (hi : i < cycle.length) (k : ℕ) :
    (ofLoop hl).act (Loops.turnAt as cycle k + i) = some cycle[i] :=
  congrArg some (hl.get_turnAt hi k)

/-- Where the run is after the first `i` transitions of a turn. -/
theorem ofLoop_within {i : ℕ} (hi : i ≤ cycle.length) (k : ℕ) :
    S.check ok ((ofLoop hl).config (Loops.turnAt as cycle k)) (cycle.take i) =
      some ((ofLoop hl).config (Loops.turnAt as cycle k + i)) := by
  obtain ⟨c, hc, -⟩ := hl.check_turnAt k
  have hsome := hl.check_isSome (Loops.turnAt as cycle k + i)
  rw [hl.take_turnAt hi, check_append, hc, Option.bind_some] at hsome
  obtain ⟨c', hc'⟩ := Option.isSome_iff_exists.mp hsome
  change S.check ok ((S.check ok c₀ (hl.acts.take (Loops.turnAt as cycle k))).getD c₀)
      (cycle.take i) = some ((S.check ok c₀ (hl.acts.take (Loops.turnAt as cycle k + i))).getD c₀)
  rw [hl.take_turnAt hi, check_append, hc, Option.bind_some, Option.getD_some, hc',
    Option.getD_some]

/-- What holds throughout a turn holds from the first one on. -/
theorem ofLoop_forall {P : Config σ τ → Prop}
    (h : ∀ {c}, head c → ∀ i < cycle.length, ∀ {c'}, S.check ok c (cycle.take i) = some c' → P c')
    {n : ℕ} (hn : as.length ≤ n) : P ((ofLoop hl).config n) := by
  have hpos : 0 < cycle.length := List.length_pos_iff.mpr hl.nonempty
  have hlt : (n - as.length) % cycle.length < cycle.length := Nat.mod_lt _ hpos
  have hsplit : n = Loops.turnAt as cycle ((n - as.length) / cycle.length) +
      (n - as.length) % cycle.length := by
    rw [Loops.turnAt, Nat.add_assoc, Nat.div_add_mod']
    exact (Nat.add_sub_of_le hn).symm
  rw [hsplit]
  exact h (ofLoop_head hl _) _ hlt (ofLoop_within hl hlt.le _)

end FairRun

end Rest

end System

end Monitor
