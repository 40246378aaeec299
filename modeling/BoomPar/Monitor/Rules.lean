-- SUMMARY: Invariant rules for systems of threads: counters against the pool, condition variables against the waiting threads, thread-local assertions.
import BoomPar.Monitor.System

/-!
# Invariant rules

Three shapes of invariant of a system of threads, each reduced to what a single
step of a single thread does to the shared state and to its own control state.
-/

namespace Monitor

namespace System

variable {σ τ κ ο : Type*} {S : System σ τ κ ο}

/-! ## Balances -/

/-- The shared state carries `f`, of which the pool accounts for the sum of `w`
    and the shared state itself for `g`. -/
def Balance (w : τ → ℕ) (g f : σ → ℕ) (c : Config σ τ) : Prop :=
  c.sumOver w + g c.shared = f c.shared

/-- A step changes `f` by what it adds to `g` and to the weights of the threads.
    It may rely on the weight of the thread being part of `f`, and on an assertion
    `I` about the control state it leaves. -/
structure Balanced (S : System σ τ κ ο) (I : τ → Prop) (w : τ → ℕ) (g f : σ → ℕ) : Prop where
  start : ∀ t k, w (S.start t k) = 0
  step : ∀ {s t pc o s' pc' new}, S.step s t pc o = some (s', pc', new) → I pc →
    w pc + g s ≤ f s → f s' + w pc + g s = f s + w pc' + (new.map w).sum + g s'
  wake : ∀ {s t pc s'}, S.wake s t pc = some s' → f s' + g s = f s + g s'

theorem Balance.push {w : τ → ℕ} {g f : σ → ℕ} {c : Config σ τ} {pc : τ}
    (hc : Balance w g f c) (hw : w pc = 0) : Balance w g f (c.push pc) := by
  simpa [Balance, hw] using hc

theorem Balanced.move {I : τ → Prop} {w : τ → ℕ} {g f : σ → ℕ} (hb : Balanced S I w g f)
    {c : Config σ τ} (hc : Balance w g f c) {t : ℕ} {pc pc' : τ} {o : ο} {s : σ} {new : List τ}
    (hpc : c.pc? t = some pc) (hI : I pc) (hs : S.step c.shared t pc o = some (s, pc', new)) :
    Balance w g f (c.move t s pc' new) := by
  have hmove := Config.sumOver_move hpc s pc' new w
  have hle := Config.le_sumOver hpc w
  simp only [Balance, Config.move_shared] at hc ⊢
  have := hb.step hs hI (by omega)
  omega

theorem Balanced.next {I : τ → Prop} {w : τ → ℕ} {g f : σ → ℕ} (hb : Balanced S I w g f)
    {c c' : Config σ τ} {a : Act κ ο} (hc : Balance w g f c) (h : S.next c a = some c')
    (hI : ∀ t pc, c.pc? t = some pc → I pc) (hstart : ∀ t k, I (S.start t k)) :
    Balance w g f c' := by
  cases a with
  | call k o =>
    obtain ⟨pc, s, pc', new, hpc, hs, rfl⟩ := stepAt_cases h
    refine hb.move (hc.push (hb.start _ k)) hpc ?_ hs
    rw [Config.pc?_push_self] at hpc
    cases hpc
    exact hstart _ k
  | step t o =>
    obtain ⟨pc, s, pc', new, hpc, hs, rfl⟩ := stepAt_cases h
    exact hb.move hc hpc (hI t pc hpc) hs
  | wake t =>
    obtain ⟨pc, s, hpc, hs, rfl⟩ := next_wake_cases h
    have := hb.wake hs
    simp only [Balance, Config.sumOver] at hc ⊢
    omega

/-- A balance that needs no assertion about the control states. -/
theorem Balanced.next' {w : τ → ℕ} {g f : σ → ℕ} (hb : Balanced S (fun _ => True) w g f)
    {c c' : Config σ τ} {a : Act κ ο} (hc : Balance w g f c) (h : S.next c a = some c') :
    Balance w g f c' :=
  hb.next hc h (fun _ _ _ => trivial) (fun _ _ => trivial)

theorem Balanced.reach {w : τ → ℕ} {g f : σ → ℕ} (hb : Balanced S (fun _ => True) w g f)
    {ok : Config σ τ → Act κ ο → Prop} {c c' : Config σ τ} (hc : Balance w g f c)
    (h : S.Reach ok c c') : Balance w g f c' :=
  h.invariant hc fun _ _ _ _ hc _ hn => hb.next' hc hn

/-- In a system that creates no threads, a transition adds to each sum over the pool
    what the thread that moves comes to, when that thread had no weight before. -/
theorem next_sumIn (hquiet : ∀ {s t pc o s' pc' new},
      S.step s t pc o = some (s', pc', new) → new = [])
    {c c' : Config σ τ} {a : Act κ ο} (h : S.next c a = some c') :
    (∃ t pc o pc', ((a = .step t o ∧ c.pc? t = some pc) ∨ ∃ k, pc = S.start t k) ∧
      S.step c.shared t pc o = some (c'.shared, pc', []) ∧
      ∀ (w : τ → ℕ) (p : ℕ → Prop) [DecidablePred p], w pc = 0 →
        c'.sumIn p w = c.sumIn p w + if p t then w pc' else 0) ∨
    ∃ t pc, S.wake c.shared t pc = some c'.shared ∧ c'.threads = c.threads := by
  cases a with
  | call k o =>
    obtain ⟨pc, s, pc', new, hpc, hs, rfl⟩ := stepAt_cases h
    obtain rfl := hquiet hs
    refine .inl ⟨_, pc, o, pc', .inr ⟨k, ?_⟩, hs, fun w p _ hw => ?_⟩
    · rw [Config.pc?_push_self] at hpc
      exact (Option.some.inj hpc).symm
    · rw [Config.pc?_push_self] at hpc
      cases hpc
      rw [Config.sumIn_move (Config.pc?_push_self c _) _ _ _ hw, Config.sumIn_push c _ p hw]
  | step t o =>
    obtain ⟨pc, s, pc', new, hpc, hs, rfl⟩ := stepAt_cases h
    obtain rfl := hquiet hs
    exact .inl ⟨t, pc, o, pc', .inl ⟨rfl, hpc⟩, hs, fun w p _ hw => Config.sumIn_move hpc _ _ _ hw⟩
  | wake t =>
    obtain ⟨pc, s, -, hs, rfl⟩ := next_wake_cases h
    exact .inr ⟨t, pc, hs, rfl⟩

/-! ## Condition variables -/

/-- Every thread blocked on `cv` is at a control state that waits on it. -/
def Blocked (cv : σ → CondVar) (p : τ → Bool) (c : Config σ τ) : Prop :=
  ∀ t ∈ cv c.shared, ∃ pc, c.pc? t = some pc ∧ p pc = true

theorem Blocked.push {cv : σ → CondVar} {p : τ → Bool} {c : Config σ τ}
    (hc : Blocked cv p c) (pc : τ) : Blocked cv p (c.push pc) := by
  intro t ht
  obtain ⟨q, hq, hp⟩ := hc t ht
  exact ⟨q, Config.pc?_push_of_pc? hq, hp⟩

/-- A waiting thread resumes only after it was woken, and a step blocks no thread
    but its own, at a waiting control state. -/
structure Blocks (S : System σ τ κ ο) (cv : σ → CondVar) (p : τ → Bool) : Prop where
  resume : ∀ {s t pc o s' pc' new}, S.step s t pc o = some (s', pc', new) →
    p pc = true → t ∉ cv s
  step : ∀ {s t pc o s' pc' new}, S.step s t pc o = some (s', pc', new) →
    ∀ u ∈ cv s', u ∈ cv s ∨ (u = t ∧ p pc' = true)
  wake : ∀ {s t pc s'}, S.wake s t pc = some s' → cv s' ⊆ cv s

theorem Blocks.notMem {cv : σ → CondVar} {p : τ → Bool} (hb : Blocks S cv p)
    {c : Config σ τ} (hc : Blocked cv p c) {t : ℕ} {pc : τ} (hpc : c.pc? t = some pc)
    {o : ο} {s : σ} {pc' : τ} {new : List τ} (h : S.step c.shared t pc o = some (s, pc', new)) :
    t ∉ cv c.shared := by
  intro ht
  obtain ⟨q, hq, hp⟩ := hc t ht
  rw [hpc] at hq
  cases hq
  exact hb.resume h hp ht

theorem Blocks.next {cv : σ → CondVar} {p : τ → Bool} (hb : Blocks S cv p)
    {c c' : Config σ τ} {a : Act κ ο} (hc : Blocked cv p c) (h : S.next c a = some c') :
    Blocked cv p c' := by
  refine next_induction ?_ ?_ ?_ hc h
  · exact fun c k hc => hc.push _
  · intro c t pc o s pc' new hc hpc hs u hu
    obtain hold | ⟨rfl, hp⟩ := hb.step hs u hu
    · have hne : u ≠ t := fun he => hb.notMem hc hpc hs (he ▸ hold)
      obtain ⟨q, hq, hp⟩ := hc u hold
      exact ⟨q, Config.pc?_move_of_ne hne hq _ _ _, hp⟩
    · exact ⟨pc', Config.pc?_move_self hpc _ _ _, hp⟩
  · intro c t pc s hc hpc hs u hu
    exact hc u (hb.wake hs hu)

/-- The threads waiting on `cv` that are blocked and not yet woken. -/
def blocked (cv : σ → CondVar) (p : τ → Bool) (c : Config σ τ) : Finset ℕ :=
  c.those p ∩ cv c.shared

/-- The threads woken from `cv` that have not yet re-acquired the lock. -/
def woken (cv : σ → CondVar) (p : τ → Bool) (c : Config σ τ) : Finset ℕ :=
  c.those p \ cv c.shared

theorem Blocked.subset {cv : σ → CondVar} {p : τ → Bool} {c : Config σ τ}
    (h : Blocked cv p c) : cv c.shared ⊆ c.those p :=
  fun t ht => Config.mem_those.mpr (h t ht)

theorem Blocked.blocked_eq {cv : σ → CondVar} {p : τ → Bool} {c : Config σ τ}
    (h : Blocked cv p c) : blocked cv p c = cv c.shared :=
  Finset.inter_eq_right.mpr h.subset

/-- The waiting threads are the blocked ones and the woken ones. -/
theorem Blocked.card_add_card_woken {cv : σ → CondVar} {p : τ → Bool} {c : Config σ τ}
    (h : Blocked cv p c) : (cv c.shared).card + (woken cv p c).card = c.count p := by
  rw [← Config.card_those, woken, add_comm]
  exact Finset.card_sdiff_add_card_eq_card h.subset

theorem Blocked.card_le {cv : σ → CondVar} {p : τ → Bool} {c : Config σ τ}
    (h : Blocked cv p c) : (cv c.shared).card ≤ c.count p := by
  have := h.card_add_card_woken
  omega

/-- A waiting thread that is not blocked leaves room below the count. -/
theorem Blocked.card_lt {cv : σ → CondVar} {p : τ → Bool} {c : Config σ τ}
    (h : Blocked cv p c) {t : ℕ} {pc : τ} (hpc : c.pc? t = some pc) (hp : p pc = true)
    (ht : t ∉ cv c.shared) : (cv c.shared).card < c.count p := by
  have hw : t ∈ woken cv p c := Finset.mem_sdiff.mpr ⟨Config.mem_those.mpr ⟨pc, hpc, hp⟩, ht⟩
  have := h.card_add_card_woken
  have := Finset.card_pos.mpr ⟨t, hw⟩
  omega

/-! ## Waiting for a condition -/

/-- Whoever is blocked on `cv` is at a control state that still has to wait. -/
def StillWaiting (cv : σ → CondVar) (must : σ → τ → Prop) (c : Config σ τ) : Prop :=
  ∀ t ∈ cv c.shared, ∃ pc, c.pc? t = some pc ∧ must c.shared pc

/-- A thread that has to wait resumes only after it was woken, and a thread that is
    left blocked by a step has to wait after it. -/
structure KeepsWaiting (S : System σ τ κ ο) (cv : σ → CondVar) (must : σ → τ → Prop) : Prop where
  resume : ∀ {s t pc o s' pc' new}, S.step s t pc o = some (s', pc', new) → must s pc → t ∉ cv s
  step : ∀ {s t pc o s' pc' new}, S.step s t pc o = some (s', pc', new) →
    ∀ u ∈ cv s', (u = t ∧ must s' pc') ∨ (u ∈ cv s ∧ ∀ q, must s q → must s' q)
  wake : ∀ {s t pc s'}, S.wake s t pc = some s' →
    ∀ u ∈ cv s', u ∈ cv s ∧ ∀ q, must s q → must s' q

theorem KeepsWaiting.next {cv : σ → CondVar} {must : σ → τ → Prop}
    (hS : KeepsWaiting S cv must) {c c' : Config σ τ} {a : Act κ ο} (hc : StillWaiting cv must c)
    (h : S.next c a = some c') : StillWaiting cv must c' := by
  refine next_induction ?_ ?_ ?_ hc h
  · intro c k hc t ht
    obtain ⟨q, hq, hmust⟩ := hc t ht
    exact ⟨q, Config.pc?_push_of_pc? hq, hmust⟩
  · intro c t pc o s pc' new hc hpc hs u hu
    obtain ⟨rfl, hmust⟩ | ⟨hold, hkeep⟩ := hS.step hs u hu
    · exact ⟨pc', Config.pc?_move_self hpc _ _ _, hmust⟩
    · obtain ⟨q, hq, hmust⟩ := hc u hold
      have hne : u ≠ t := by
        rintro rfl
        rw [hpc] at hq
        cases hq
        exact hS.resume hs hmust hold
      exact ⟨q, Config.pc?_move_of_ne hne hq _ _ _, hkeep q hmust⟩
  · intro c t pc s hc hpc hs u hu
    obtain ⟨hold, hkeep⟩ := hS.wake hs u hu
    obtain ⟨q, hq, hmust⟩ := hc u hold
    exact ⟨q, hq, hkeep q hmust⟩

theorem KeepsWaiting.reach {cv : σ → CondVar} {must : σ → τ → Prop}
    (hS : KeepsWaiting S cv must) {ok : Config σ τ → Act κ ο → Prop} {c c' : Config σ τ}
    (hc : StillWaiting cv must c) (h : S.Reach ok c c') : StillWaiting cv must c' :=
  h.invariant hc fun _ _ _ _ hc _ hn => hS.next hc hn

/-- Nobody waits on a new condition variable. -/
theorem StillWaiting.of_empty {cv : σ → CondVar} {must : σ → τ → Prop} {c : Config σ τ}
    (h : cv c.shared = ∅) : StillWaiting cv must c := by
  intro t ht
  rw [h] at ht
  exact absurd ht (Finset.notMem_empty t)

/-- A blocked thread has to wait at the control state that it is at. -/
theorem StillWaiting.must {cv : σ → CondVar} {must : σ → τ → Prop} {c : Config σ τ}
    (hc : StillWaiting cv must c) {t : ℕ} {pc : τ} (ht : t ∈ cv c.shared)
    (hpc : c.pc? t = some pc) : must c.shared pc := by
  obtain ⟨q, hq, hmust⟩ := hc t ht
  rw [hpc] at hq
  cases hq
  exact hmust

/-! ## Thread-local assertions -/

/-- Every thread of the pool satisfies the assertion of its control state. -/
def Threadwise (Q : σ → ℕ → τ → Prop) (c : Config σ τ) : Prop :=
  ∀ t pc, c.pc? t = some pc → Q c.shared t pc

/-- A move of thread `t` keeps the assertions of all threads when it establishes
    its own and those of the threads it creates, and does not interfere with the
    assertions of the others. -/
theorem Threadwise.move {Q : σ → ℕ → τ → Prop} {c : Config σ τ} (hc : Threadwise Q c)
    {t : ℕ} {s : σ} {pc' : τ} {new : List τ} (hself : Q s t pc')
    (hnew : ∀ u, c.threads.length ≤ u → ∀ pc ∈ new, Q s u pc)
    (hother : ∀ u pc, u ≠ t → c.pc? u = some pc → Q c.shared u pc → Q s u pc) :
    Threadwise Q (c.move t s pc' new) := by
  intro u pc hu
  obtain ⟨rfl, rfl⟩ | ⟨hne, hu⟩ | ⟨hle, hmem⟩ := Config.pc?_move_cases hu
  · exact hself
  · exact hother u pc hne hu (hc u pc hu)
  · exact hnew u hle pc hmem

theorem Threadwise.push {Q : σ → ℕ → τ → Prop} {c : Config σ τ} (hc : Threadwise Q c)
    {pc : τ} (h : Q c.shared c.threads.length pc) : Threadwise Q (c.push pc) := by
  intro t q hq
  obtain hq | ⟨rfl, rfl⟩ := Config.pc?_push_cases hq
  · exact hc t q hq
  · exact h

/-- The shared state satisfies `J`, and every thread the assertion of its control
    state; a step keeps both, and does not interfere with the assertion of any
    control state. -/
structure Upholds (S : System σ τ κ ο) (J : σ → Prop) (Q : σ → τ → Prop) : Prop where
  start : ∀ s t k, Q s (S.start t k)
  step : ∀ {s t pc o s' pc' new}, S.step s t pc o = some (s', pc', new) → J s → Q s pc →
    J s' ∧ Q s' pc' ∧ (∀ q ∈ new, Q s' q) ∧ ∀ q, Q s q → Q s' q
  wake : ∀ {s t pc s'}, S.wake s t pc = some s' → J s → J s' ∧ ∀ q, Q s q → Q s' q

theorem Upholds.next {J : σ → Prop} {Q : σ → τ → Prop} (hS : Upholds S J Q)
    {c c' : Config σ τ} {a : Act κ ο} (hJ : J c.shared) (hc : Threadwise (fun s _ => Q s) c)
    (h : S.next c a = some c') : J c'.shared ∧ Threadwise (fun s _ => Q s) c' := by
  refine next_induction (P := fun c => J c.shared ∧ Threadwise (fun s _ => Q s) c)
    ?_ ?_ ?_ ⟨hJ, hc⟩ h
  · exact fun c k hc => ⟨hc.1, hc.2.push (hS.start _ _ k)⟩
  · intro c t pc o s pc' new hc hpc hs
    obtain ⟨hJ', hself, hnew, hother⟩ := hS.step hs hc.1 (hc.2 t pc hpc)
    exact ⟨hJ', hc.2.move hself (fun u _ => hnew) fun u q _ _ => hother q⟩
  · intro c t pc s hc hpc hs
    obtain ⟨hJ', hother⟩ := hS.wake hs hc.1
    exact ⟨hJ', fun u q hq => hother q (hc.2 u q hq)⟩

theorem Upholds.reach {J : σ → Prop} {Q : σ → τ → Prop} (hS : Upholds S J Q)
    {ok : Config σ τ → Act κ ο → Prop} {c c' : Config σ τ} (hJ : J c.shared)
    (hc : Threadwise (fun s _ => Q s) c) (h : S.Reach ok c c') :
    J c'.shared ∧ Threadwise (fun s _ => Q s) c' :=
  h.invariant (P := fun c => J c.shared ∧ Threadwise (fun s _ => Q s) c) ⟨hJ, hc⟩
    fun _ _ _ _ hc _ hn => hS.next hc.1 hc.2 hn

/-! ## The thread that moves -/

/-- The thread that takes the step of a transition, and the control state it leaves. -/
def Moves (S : System σ τ κ ο) (c : Config σ τ) (a : Act κ ο) (t : ℕ) (pc : τ) (o : ο) : Prop :=
  (a = .step t o ∧ c.pc? t = some pc) ∨ ∃ k, a = .call k o ∧ pc = S.start t k

/-- At a control state that no call starts in, it is a thread of the pool. -/
theorem Moves.of_start {c : Config σ τ} {a : Act κ ο} {t : ℕ} {pc : τ} {o : ο}
    (h : Moves S c a t pc o) {p : τ → Bool} (hstart : ∀ k, p (S.start t k) = false)
    (hp : p pc = true) : a = .step t o ∧ c.pc? t = some pc := by
  obtain hstep | ⟨k, -, rfl⟩ := h
  · exact hstep
  · rw [hstart k] at hp
    cases hp

/-- A transition keeps what the step of the thread that moves, or the wake-up, keeps. -/
theorem Moves.stable {R : σ → Prop} {c c' : Config σ τ} {a : Act κ ο}
    (h : S.next c a = some c')
    (hstep : ∀ {t pc o s' pc' new}, Moves S c a t pc o →
      S.step c.shared t pc o = some (s', pc', new) → R c.shared → R s')
    (hwake : ∀ {t pc s'}, S.wake c.shared t pc = some s' → R c.shared → R s')
    (hc : R c.shared) : R c'.shared := by
  cases a with
  | call k o =>
    obtain ⟨pc, s, pc', new, hpc, hs, rfl⟩ := stepAt_cases h
    rw [Config.pc?_push_self] at hpc
    cases hpc
    exact hstep (.inr ⟨k, rfl, rfl⟩) hs hc
  | step t o =>
    obtain ⟨pc, s, pc', new, hpc, hs, rfl⟩ := stepAt_cases h
    exact hstep (.inl ⟨rfl, hpc⟩) hs hc
  | wake t =>
    obtain ⟨pc, s, -, hs, rfl⟩ := next_wake_cases h
    exact hwake hs hc

/-- A transition keeps what every step and every wake-up keeps. -/
theorem next_stable {R : σ → Prop} {c c' : Config σ τ} {a : Act κ ο}
    (h : S.next c a = some c')
    (hstep : ∀ {s t pc o s' pc' new}, S.step s t pc o = some (s', pc', new) → R s → R s')
    (hwake : ∀ {s t pc s'}, S.wake s t pc = some s' → R s → R s') (hc : R c.shared) :
    R c'.shared :=
  Moves.stable h (fun _ => hstep) hwake hc

/-- A run keeps what every step and every wake-up keeps. -/
theorem Reach.stable {R : σ → Prop} {ok : Config σ τ → Act κ ο → Prop} {c c' : Config σ τ}
    (h : S.Reach ok c c')
    (hstep : ∀ {s t pc o s' pc' new}, S.step s t pc o = some (s', pc', new) → R s → R s')
    (hwake : ∀ {s t pc s'}, S.wake s t pc = some s' → R s → R s') (hc : R c.shared) :
    R c'.shared :=
  h.invariant (P := fun c => R c.shared) hc
    fun _ _ _ _ hc _ hn => next_stable hn hstep hwake hc

/-! ## Sums -/

/-- The weights of the threads and what the shared state holds add up to `n`, unless
    `R` holds. -/
def Sums (w : τ → ℕ) (g : σ → ℕ) (n : ℕ) (R : σ → Prop) (c : Config σ τ) : Prop :=
  c.sumOver w + g c.shared = n ∨ R c.shared

theorem Sums.move {w : τ → ℕ} {g : σ → ℕ} {n : ℕ} {R : σ → Prop} {c : Config σ τ}
    (hc : Sums w g n R c) {t : ℕ} {pc pc' : τ} {s : σ} {new : List τ} (hpc : c.pc? t = some pc)
    (hR : R c.shared → R s)
    (hstep : w pc + g c.shared ≤ n →
      w pc' + (new.map w).sum + g s = w pc + g c.shared ∨ R s) :
    Sums w g n R (c.move t s pc' new) := by
  rcases hc with hsum | hdone
  · have hle := Config.le_sumOver hpc w
    have hmove := Config.sumOver_move hpc s pc' new w
    refine (hstep (by omega)).imp_left fun heq => ?_
    simp only [Config.move_shared]
    omega
  · exact .inr (hR hdone)

theorem Sums.next {w : τ → ℕ} {g : σ → ℕ} {n : ℕ} {R : σ → Prop} {c c' : Config σ τ} {a : Act κ ο}
    (hc : Sums w g n R c) (h : S.next c a = some c') (hstart : ∀ t k, w (S.start t k) = 0)
    (hwake : ∀ {t pc s}, S.wake c.shared t pc = some s → g s = g c.shared)
    (hR : R c.shared → R c'.shared)
    (hstep : ∀ {t pc o pc' new}, Moves S c a t pc o →
      S.step c.shared t pc o = some (c'.shared, pc', new) → w pc + g c.shared ≤ n →
      w pc' + (new.map w).sum + g c'.shared = w pc + g c.shared ∨ R c'.shared) :
    Sums w g n R c' := by
  cases a with
  | call k o =>
    obtain ⟨pc, s, pc', new, hpc, hs, rfl⟩ := stepAt_cases h
    have hpush : Sums w g n R (c.push (S.start c.threads.length k)) := by
      refine hc.imp_left fun hsum => ?_
      rw [Config.sumOver_push, hstart]
      exact hsum
    refine hpush.move hpc hR fun hle => ?_
    rw [Config.pc?_push_self] at hpc
    cases hpc
    exact hstep (.inr ⟨k, rfl, rfl⟩) hs hle
  | step t o =>
    obtain ⟨pc, s, pc', new, hpc, hs, rfl⟩ := stepAt_cases h
    exact hc.move hpc hR fun hle => hstep (.inl ⟨rfl, hpc⟩) hs hle
  | wake t =>
    obtain ⟨pc, s, hpc, hs, rfl⟩ := next_wake_cases h
    refine hc.imp (fun hsum => ?_) hR
    rw [hwake hs]
    exact hsum

/-! ## Control states that no thread is at -/

/-- No thread is at a control state `p`. -/
def Free (p : τ → Bool) (c : Config σ τ) : Prop := ∀ t pc, c.pc? t = some pc → p pc = false

/-- Only the step of a transition brings a thread to a control state `p`. -/
theorem Free.next_of_moves {p : τ → Bool} {c c' : Config σ τ} {a : Act κ ο} (hc : Free p c)
    (h : S.next c a = some c')
    (hstep : ∀ {t pc o s' pc' new}, Moves S c a t pc o →
      S.step c.shared t pc o = some (s', pc', new) → p pc' = false ∧ ∀ q ∈ new, p q = false) :
    Free p c' := by
  intro u q hq
  cases a with
  | call k o =>
    obtain ⟨pc, s, pc', new, hpc, hs, rfl⟩ := stepAt_cases h
    rw [Config.pc?_push_self] at hpc
    cases hpc
    obtain ⟨hpc', hnew⟩ := hstep (.inr ⟨k, rfl, rfl⟩) hs
    obtain ⟨-, rfl⟩ | ⟨hne, hold⟩ | ⟨-, hmem⟩ := Config.pc?_move_cases hq
    · exact hpc'
    · obtain hold | ⟨rfl, -⟩ := Config.pc?_push_cases hold
      · exact hc u q hold
      · exact absurd rfl hne
    · exact hnew q hmem
  | step t o =>
    obtain ⟨pc, s, pc', new, hpc, hs, rfl⟩ := stepAt_cases h
    obtain ⟨hpc', hnew⟩ := hstep (.inl ⟨rfl, hpc⟩) hs
    obtain ⟨-, rfl⟩ | ⟨-, hold⟩ | ⟨-, hmem⟩ := Config.pc?_move_cases hq
    · exact hpc'
    · exact hc u q hold
    · exact hnew q hmem
  | wake t =>
    obtain ⟨pc, s, -, -, rfl⟩ := next_wake_cases h
    exact hc u q hq

/-- A call takes its first step in the transition that makes it, so a control state
    that no step leads to is never seen. -/
theorem Free.next {p : τ → Bool} {c c' : Config σ τ} {a : Act κ ο} (hc : Free p c)
    (h : S.next c a = some c')
    (hstep : ∀ {s t pc o s' pc' new}, S.step s t pc o = some (s', pc', new) →
      p pc' = false ∧ ∀ q ∈ new, p q = false) : Free p c' :=
  hc.next_of_moves h fun _ => hstep

/-! ## Facts that hold from a control state on -/

/-- The shared state satisfies `R` once a thread is at a control state `p`. -/
def After (p : τ → Bool) (R : σ → Prop) (c : Config σ τ) : Prop :=
  ∀ t pc, c.pc? t = some pc → p pc = true → R c.shared

/-- A transition that keeps `R` keeps it behind `p`, when every thread that comes
    to a control state `p` establishes it. -/
theorem After.next {p : τ → Bool} {R : σ → Prop} {c c' : Config σ τ} {a : Act κ ο}
    (hc : After p R c) (h : S.next c a = some c') (hstart : ∀ t k, p (S.start t k) = false)
    (hnew : ∀ {s t pc o s' pc' new}, S.step s t pc o = some (s', pc', new) →
      ∀ q ∈ new, p q = false)
    (hstable : R c.shared → R c'.shared)
    (hself : ∀ {t pc o pc' new}, Moves S c a t pc o →
      S.step c.shared t pc o = some (c'.shared, pc', new) → c'.pc? t = some pc' →
      (p pc = true → R c.shared) → p pc' = true → R c'.shared) : After p R c' := by
  intro t pc' hpc' hp
  by_cases hold : c.pc? t = some pc'
  · exact hstable (hc t pc' hold hp)
  · obtain ⟨pc, o, new, hpc, hs⟩ | ⟨u, pc, o, s, pc₁, new, hs, hmem⟩ := next_moved h hpc' hold
    · obtain ⟨ha, hpc⟩ | ⟨k, ha, -, hpc⟩ := hpc
      · exact hself (.inl ⟨ha, hpc⟩) hs hpc' (hc t pc hpc) hp
      · refine hself (.inr ⟨k, ha, hpc⟩) hs hpc' ?_ hp
        rw [hpc, hstart t k]
        exact nofun
    · rw [hnew hs pc' hmem] at hp
      cases hp

/-! ## A thread on its way -/

/-- A thread stays at control states that its own steps do not leave. -/
theorem next_follow {P : τ → Prop}
    (hstep : ∀ {s t pc o s' pc' new}, S.step s t pc o = some (s', pc', new) → P pc → P pc')
    {c c' : Config σ τ} {a : Act κ ο} {t : ℕ} (hc : ∃ pc, c.pc? t = some pc ∧ P pc)
    (h : S.next c a = some c') : ∃ pc, c'.pc? t = some pc ∧ P pc := by
  refine next_induction (P := fun c => ∃ pc, c.pc? t = some pc ∧ P pc) ?_ ?_ ?_ hc h
  · rintro c k ⟨pc, hpc, hP⟩
    exact ⟨pc, Config.pc?_push_of_pc? hpc, hP⟩
  · rintro c u q o s q' new ⟨pc, hpc, hP⟩ hq hs
    by_cases hu : t = u
    · subst hu
      rw [hpc] at hq
      cases hq
      exact ⟨q', Config.pc?_move_self hpc _ _ _, hstep hs hP⟩
    · exact ⟨pc, Config.pc?_move_of_ne hu hpc _ _ _, hP⟩
  · rintro c u q s ⟨pc, hpc, hP⟩ - -
    exact ⟨pc, hpc, hP⟩

theorem Reach.follow {P : τ → Prop}
    (hstep : ∀ {s t pc o s' pc' new}, S.step s t pc o = some (s', pc', new) → P pc → P pc')
    {ok : Config σ τ → Act κ ο → Prop} {c c' : Config σ τ} (h : S.Reach ok c c') {t : ℕ} {pc : τ}
    (hpc : c.pc? t = some pc) (hP : P pc) : ∃ pc', c'.pc? t = some pc' ∧ P pc' :=
  h.invariant (P := fun c => ∃ pc, c.pc? t = some pc ∧ P pc) ⟨pc, hpc, hP⟩
    fun _ _ _ _ hc _ hn => next_follow hstep hc hn

/-- The step that moves a thread of the pool starts at the control state it was at. -/
theorem next_moved_runs {c c' : Config σ τ} {a : Act κ ο} (h : S.next c a = some c') {t : ℕ}
    {pc pc' : τ} (hpc : c.pc? t = some pc) (hpc' : c'.pc? t = some pc') (hne : pc ≠ pc') :
    ∃ o new, S.runs? c a = some (pc, o) ∧ S.step c.shared t pc o = some (c'.shared, pc', new) := by
  have hold : c.pc? t ≠ some pc' := by
    rw [hpc]
    exact fun heq => hne (Option.some.inj heq)
  cases a with
  | call k o =>
    obtain ⟨pc₀, s, pc₁, new, hpc₀, hs, rfl⟩ := stepAt_cases h
    have hpush : (c.push (S.start c.threads.length k)).pc? t = some pc :=
      Config.pc?_push_of_pc? hpc
    have hkept := Config.pc?_move_of_ne (Nat.ne_of_lt (Config.pc?_lt hpc)) hpush s pc₁ new
    rw [hpc'] at hkept
    exact absurd (Option.some.inj hkept).symm hne
  | step u o =>
    obtain ⟨pc₀, s, pc₁, new, hpc₀, hs, rfl⟩ := stepAt_cases h
    by_cases hu : t = u
    · subst hu
      rw [Config.pc?_move_self hpc₀] at hpc'
      rw [hpc] at hpc₀
      cases hpc'
      cases hpc₀
      exact ⟨o, new, by rw [runs?, hpc]; rfl, hs⟩
    · have hkept := Config.pc?_move_of_ne hu hpc s pc₁ new
      rw [hpc'] at hkept
      exact absurd (Option.some.inj hkept).symm hne
  | wake u =>
    obtain ⟨pc₀, s, -, -, rfl⟩ := next_wake_cases h
    exact absurd hpc' hold

/-! ## A thread with a role -/

/-- Thread 0 alone is at the control states of a role, and at one that satisfies `Q`. -/
structure Sole (role : τ → Bool) (Q : σ → τ → Prop) (c : Config σ τ) : Prop where
  only : ∀ t pc, c.pc? t = some pc → role pc = true → t = 0
  first : ∃ pc, c.pc? 0 = some pc ∧ role pc = true ∧ Q c.shared pc

/-- The thread with the role satisfies `Q` at the control state that it is at. -/
theorem Sole.holds {role : τ → Bool} {Q : σ → τ → Prop} {c : Config σ τ} (hc : Sole role Q c)
    {pc : τ} (hpc : c.pc? 0 = some pc) : Q c.shared pc := by
  obtain ⟨q, hq, -, hQ⟩ := hc.first
  rw [hpc] at hq
  cases hq
  exact hQ

/-- The thread with the role keeps it and re-establishes `Q`; no other thread takes
    the role or interferes with `Q`. -/
structure Serves (S : System σ τ κ ο) (role : τ → Bool) (Q : σ → τ → Prop) : Prop where
  start : ∀ t k, role (S.start t k) = false
  new : ∀ {s t pc o s' pc' new}, S.step s t pc o = some (s', pc', new) →
    ∀ q ∈ new, role q = false
  step : ∀ {s t pc o s' pc' new}, S.step s t pc o = some (s', pc', new) →
    (role pc = true ∧ role pc' = true ∧ (Q s pc → Q s' pc')) ∨
      (role pc = false ∧ role pc' = false ∧ ∀ q, role q = true → Q s q → Q s' q)
  wake : ∀ {s t pc s'}, S.wake s t pc = some s' → ∀ q, role q = true → Q s q → Q s' q

theorem Serves.next {role : τ → Bool} {Q : σ → τ → Prop} (hS : Serves S role Q)
    {c c' : Config σ τ} {a : Act κ ο} (hc : Sole role Q c) (h : S.next c a = some c') :
    Sole role Q c' := by
  refine next_induction ?_ ?_ ?_ hc h
  · intro c k hc
    obtain ⟨q₀, hq₀, hrole, hQ⟩ := hc.first
    refine ⟨fun t pc hpc hpcrole => ?_, q₀, Config.pc?_push_of_pc? hq₀, hrole, hQ⟩
    obtain hpc | ⟨-, rfl⟩ := Config.pc?_push_cases hpc
    · exact hc.only t pc hpc hpcrole
    · rw [hS.start] at hpcrole
      cases hpcrole
  · intro c t pc o s pc' new hc hpc hs
    obtain ⟨q₀, hq₀, hrole, hQ⟩ := hc.first
    obtain ⟨hpcrole, hpcrole', hkeep⟩ | ⟨hother, hother', hkeep⟩ := hS.step hs
    · obtain rfl := hc.only t pc hpc hpcrole
      rw [hpc] at hq₀
      cases hq₀
      refine ⟨fun u q hq hqrole => ?_, pc', Config.pc?_move_self hpc _ _ _, hpcrole', hkeep hQ⟩
      obtain ⟨rfl, -⟩ | ⟨-, hq⟩ | ⟨-, hmem⟩ := Config.pc?_move_cases hq
      · rfl
      · exact hc.only u q hq hqrole
      · rw [hS.new hs q hmem] at hqrole
        cases hqrole
    · have hne : 0 ≠ t := by
        rintro rfl
        rw [hpc] at hq₀
        cases hq₀
        rw [hother] at hrole
        cases hrole
      refine ⟨fun u q hq hqrole => ?_, q₀, Config.pc?_move_of_ne hne hq₀ _ _ _, hrole,
        hkeep q₀ hrole hQ⟩
      obtain ⟨-, rfl⟩ | ⟨-, hq⟩ | ⟨-, hmem⟩ := Config.pc?_move_cases hq
      · rw [hother'] at hqrole
        cases hqrole
      · exact hc.only u q hq hqrole
      · rw [hS.new hs q hmem] at hqrole
        cases hqrole
  · intro c t pc s hc hpc hs
    obtain ⟨q₀, hq₀, hrole, hQ⟩ := hc.first
    exact ⟨hc.only, q₀, hq₀, hrole, hS.wake hs q₀ hrole hQ⟩

theorem Serves.reach {role : τ → Bool} {Q : σ → τ → Prop} (hS : Serves S role Q)
    {ok : Config σ τ → Act κ ο → Prop} {c c' : Config σ τ} (hc : Sole role Q c)
    (h : S.Reach ok c c') : Sole role Q c' :=
  h.invariant hc fun _ _ _ _ hc _ hn => hS.next hc hn

/-! ## Marks -/

/-- What a transition adds to the threads marked by `p`, when only calls do. -/
def marked (S : System σ τ κ ο) (p : τ → Bool) (c : Config σ τ) : Act κ ο → ℕ
  | .call k _ => (p (S.start c.threads.length k)).toNat
  | .step _ _ => 0
  | .wake _ => 0

/-- A mark that steps keep is counted from the start of the call on. -/
theorem count_next {p : τ → Bool} {c c' : Config σ τ} {a : Act κ ο}
    (hstep : ∀ {s t pc o s' pc' new}, S.step s t pc o = some (s', pc', new) → p pc' = p pc)
    (hnew : ∀ {s t pc o s' pc' new}, S.step s t pc o = some (s', pc', new) →
      ∀ q ∈ new, p q = false)
    (h : S.next c a = some c') : c'.count p = c.count p + marked S p c a := by
  cases a with
  | call k o =>
    obtain ⟨pc, s, pc', new, hpc, hs, rfl⟩ := stepAt_cases h
    have hcount := Config.count_move hpc s pc' (hnew hs)
    rw [hstep hs, Nat.add_right_cancel_iff, Config.count_push] at hcount
    exact hcount
  | step t o =>
    obtain ⟨pc, s, pc', new, hpc, hs, rfl⟩ := stepAt_cases h
    have hcount := Config.count_move hpc s pc' (hnew hs)
    rw [hstep hs, Nat.add_right_cancel_iff] at hcount
    exact hcount
  | wake t =>
    obtain ⟨pc, s, -, -, rfl⟩ := next_wake_cases h
    rfl

/-- A mark that no step loses is never counted less. -/
theorem count_le_next {p : τ → Bool} {c c' : Config σ τ} {a : Act κ ο}
    (hstep : ∀ {s t pc o s' pc' new}, S.step s t pc o = some (s', pc', new) →
      p pc = true → p pc' = true)
    (h : S.next c a = some c') : c.count p ≤ c'.count p := by
  refine next_induction (P := fun c' => c.count p ≤ c'.count p) ?_ ?_ ?_ le_rfl h
  · intro c' k hle
    rw [Config.count_push]
    exact hle.trans (Nat.le_add_right _ _)
  · intro c' t pc o s pc' new hle hpc hs
    refine hle.trans ?_
    have hmove := Config.sumOver_move hpc s pc' new fun pc => (p pc).toNat
    have hkept : (p pc).toNat ≤ (p pc').toNat := by
      cases hp : p pc with
      | false => exact Nat.zero_le _
      | true => rw [hstep hs hp]
    simp only [Config.count]
    omega
  · exact fun c' t pc s hle _ _ => hle

/-- `L` counts the threads at `p`, and may count those at `q` as well. -/
def Tallied (L : σ → ℕ) (p q : τ → Bool) (c : Config σ τ) : Prop :=
  c.count p ≤ L c.shared ∧ L c.shared ≤ c.count p + c.count q

/-- A step adds to `L` what it adds to the threads at `p`, and at most what it adds to
    those at `p` and `q`. -/
structure Tallies (S : System σ τ κ ο) (L : σ → ℕ) (p q : τ → Bool) : Prop where
  start : ∀ t k, p (S.start t k) = false
  new : ∀ {s t pc o s' pc' new}, S.step s t pc o = some (s', pc', new) →
    ∀ r ∈ new, p r = false ∧ q r = false
  atLeast : ∀ {s t pc o s' pc' new}, S.step s t pc o = some (s', pc', new) →
    L s + (p pc').toNat ≤ L s' + (p pc).toNat
  atMost : ∀ {s t pc o s' pc' new}, S.step s t pc o = some (s', pc', new) →
    L s' + (p pc).toNat + (q pc).toNat ≤ L s + (p pc').toNat + (q pc').toNat
  wake : ∀ {s t pc s'}, S.wake s t pc = some s' → L s' = L s

theorem Tallies.next {L : σ → ℕ} {p q : τ → Bool} (hS : Tallies S L p q) {c c' : Config σ τ}
    {a : Act κ ο} (hc : Tallied L p q c) (h : S.next c a = some c') : Tallied L p q c' := by
  refine next_induction ?_ ?_ ?_ hc h
  · rintro c k ⟨hp, hq⟩
    refine ⟨?_, ?_⟩
    · rw [Config.count_push, hS.start]
      exact hp
    · rw [Config.count_push, Config.count_push]
      exact hq.trans (by omega)
  · rintro c t pc o s pc' new ⟨hp, hq⟩ hpc hs
    have hcount := Config.count_move hpc s pc' fun r hr => (hS.new hs r hr).1
    have hcount' := Config.count_move hpc s pc' fun r hr => (hS.new hs r hr).2
    have hle := hS.atLeast hs
    have hle' := hS.atMost hs
    refine ⟨?_, ?_⟩
    · rw [Config.move_shared]
      omega
    · rw [Config.move_shared]
      omega
  · rintro c t pc s ⟨hp, hq⟩ - hs
    have hsame := hS.wake hs
    exact ⟨hp.trans hsame.ge, hsame.le.trans hq⟩

theorem Tallies.reach {L : σ → ℕ} {p q : τ → Bool} (hS : Tallies S L p q)
    {ok : Config σ τ → Act κ ο → Prop} {c c' : Config σ τ} (hc : Tallied L p q c)
    (h : S.Reach ok c c') : Tallied L p q c' :=
  h.invariant hc fun _ _ _ _ hc _ hn => hS.next hc hn

/-! ## Threads that stand in for a fact -/

/-- Some thread is at a control state `p`, or the shared state satisfies `R`. -/
def Attended (p : τ → Bool) (R : σ → Prop) (c : Config σ τ) : Prop :=
  (∃ t pc, c.pc? t = some pc ∧ p pc = true) ∨ R c.shared

/-- What a thread has to leave when it stood for `R`, or when `R` held: itself at
    `p`, a new thread at `p`, another thread at `p`, or `R`. -/
def Attended.Left (p : τ → Bool) (R : σ → Prop) (c : Config σ τ) (t : ℕ) (s : σ) (pc : τ)
    (new : List τ) : Prop :=
  p pc = true ∨ (∃ q ∈ new, p q = true) ∨ R s ∨ ∃ u q, u ≠ t ∧ c.pc? u = some q ∧ p q = true

theorem Attended.push {p : τ → Bool} {R : σ → Prop} {c : Config σ τ} (hc : Attended p R c)
    (pc : τ) : Attended p R (c.push pc) := by
  obtain ⟨t, q, hq, hp⟩ | hR := hc
  · exact .inl ⟨t, q, Config.pc?_push_of_pc? hq, hp⟩
  · exact .inr hR

theorem Attended.move {p : τ → Bool} {R : σ → Prop} {c : Config σ τ} (hc : Attended p R c)
    {t : ℕ} {pc pc' : τ} {s : σ} {new : List τ} (hpc : c.pc? t = some pc)
    (hleft : (p pc = true ∨ R c.shared) → Left p R c t s pc' new) :
    Attended p R (c.move t s pc' new) := by
  have hother : (∃ u q, u ≠ t ∧ c.pc? u = some q ∧ p q = true) →
      Attended p R (c.move t s pc' new) := by
    rintro ⟨u, q, hne, hq, hp⟩
    exact .inl ⟨u, q, Config.pc?_move_of_ne hne hq _ _ _, hp⟩
  have hown : (p pc = true ∨ R c.shared) → Attended p R (c.move t s pc' new) := by
    intro hbefore
    obtain hp | ⟨q, hq, hp⟩ | hR | hothers := hleft hbefore
    · exact .inl ⟨t, pc', Config.pc?_move_self hpc _ _ _, hp⟩
    · obtain ⟨i, hi⟩ := List.getElem?_of_mem hq
      refine .inl ⟨c.threads.length + i, q, ?_, hp⟩
      rw [Config.pc?, Config.move, List.getElem?_append_right (by simp)]
      simpa using hi
    · exact .inr hR
    · exact hother hothers
  obtain ⟨u, q, hq, hp⟩ | hR := hc
  · by_cases hu : u = t
    · subst hu
      rw [hpc] at hq
      cases hq
      exact hown (.inl hp)
    · exact hother ⟨u, q, hu, hq, hp⟩
  · exact hown (.inr hR)

theorem Attended.next {p : τ → Bool} {R : σ → Prop} {c c' : Config σ τ} {a : Act κ ο}
    (hc : Attended p R c) (h : S.next c a = some c')
    (hwake : ∀ {t pc s}, S.wake c.shared t pc = some s → R c.shared → R s)
    (hmove : ∀ {t pc o s pc' new}, Moves S c a t pc o →
      S.step c.shared t pc o = some (s, pc', new) → (p pc = true ∨ R c.shared) →
      Left p R c t s pc' new) : Attended p R c' := by
  cases a with
  | call k o =>
    obtain ⟨pc, s, pc', new, hpc, hs, rfl⟩ := stepAt_cases h
    refine (hc.push _).move hpc fun hbefore => ?_
    rw [Config.pc?_push_self] at hpc
    cases hpc
    refine (hmove (.inr ⟨k, rfl, rfl⟩) hs hbefore).imp_right fun hleft => ?_
    refine hleft.imp_right fun hleft => hleft.imp_right ?_
    rintro ⟨u, q, hne, hq, hp⟩
    exact ⟨u, q, hne, Config.pc?_push_of_pc? hq, hp⟩
  | step t o =>
    obtain ⟨pc, s, pc', new, hpc, hs, rfl⟩ := stepAt_cases h
    exact hc.move hpc (hmove (.inl ⟨rfl, hpc⟩) hs)
  | wake t =>
    obtain ⟨pc, s, hpc, hs, rfl⟩ := next_wake_cases h
    exact hc.imp_right (hwake hs)

/-! ## The only holder -/

/-- Thread `t` holds `xs`, and no other thread holds anything. -/
structure Holder {β : Type*} (w : τ → List β) (t : ℕ) (xs : List β) (c : Config σ τ) : Prop where
  holds : ∃ pc, c.pc? t = some pc ∧ w pc = xs
  others : ∀ u pc, u ≠ t → c.pc? u = some pc → w pc = []

section Holder

variable {β : Type*} {w : τ → List β} {t u : ℕ} {xs : List β} {c : Config σ τ} {pc pc' : τ} {s : σ}
  {new : List τ}

theorem Holder.eq_of_pc? (hc : Holder w t xs c) (hpc : c.pc? t = some pc) : w pc = xs := by
  obtain ⟨q, hq, hw⟩ := hc.holds
  rw [hpc] at hq
  cases hq
  exact hw

/-- A thread that holds something is the holder. -/
theorem Holder.of_ne_nil (hc : Holder w t xs c) (hpc : c.pc? u = some pc) (hw : w pc ≠ []) :
    u = t ∧ w pc = xs := by
  by_cases hu : u = t
  · subst hu
    exact ⟨rfl, hc.eq_of_pc? hpc⟩
  · exact absurd (hc.others u pc hu hpc) hw

/-- When nothing is held, any thread may stand for the holder. -/
theorem Holder.of_nil (hc : Holder w t [] c) (hpc : c.pc? u = some pc) : Holder w u [] c := by
  have hall : ∀ v q, c.pc? v = some q → w q = [] := by
    intro v q hq
    by_cases hv : v = t
    · subst hv
      exact hc.eq_of_pc? hq
    · exact hc.others v q hv hq
  exact ⟨⟨pc, hpc, hall u pc hpc⟩, fun v q _ hq => hall v q hq⟩

theorem Holder.push (hc : Holder w t xs c) (hpc : w pc = []) : Holder w t xs (c.push pc) := by
  obtain ⟨q, hq, hw⟩ := hc.holds
  refine ⟨⟨q, Config.pc?_push_of_pc? hq, hw⟩, fun u r hu hr => ?_⟩
  obtain hr | ⟨-, rfl⟩ := Config.pc?_push_cases hr
  · exact hc.others u r hu hr
  · exact hpc

/-- The holder moves. -/
theorem Holder.move_self (hc : Holder w t xs c) (hpc : c.pc? t = some pc)
    (hnew : ∀ q ∈ new, w q = []) : Holder w t (w pc') (c.move t s pc' new) := by
  refine ⟨⟨pc', Config.pc?_move_self hpc _ _ _, rfl⟩, fun u q hu hq => ?_⟩
  obtain ⟨rfl, -⟩ | ⟨-, hq⟩ | ⟨-, hmem⟩ := Config.pc?_move_cases hq
  · exact absurd rfl hu
  · exact hc.others u q hu hq
  · exact hnew q hmem

/-- A thread moves that holds as much after it as before. -/
theorem Holder.move (hc : Holder w t xs c) (hpc : c.pc? u = some pc) (hkept : w pc' = w pc)
    (hnew : ∀ q ∈ new, w q = []) : Holder w t xs (c.move u s pc' new) := by
  by_cases hu : u = t
  · subst hu
    rw [← hc.eq_of_pc? hpc, ← hkept]
    exact hc.move_self hpc hnew
  · obtain ⟨q, hq, hw⟩ := hc.holds
    refine ⟨⟨q, Config.pc?_move_of_ne (Ne.symm hu) hq _ _ _, hw⟩, fun v r hv hr => ?_⟩
    obtain ⟨rfl, rfl⟩ | ⟨-, hr⟩ | ⟨-, hmem⟩ := Config.pc?_move_cases hr
    · exact hkept.trans (hc.others v pc hv hpc)
    · exact hc.others v r hv hr
    · exact hnew r hmem

/-- When nothing is held, a thread that holds nothing creates the holder. -/
theorem Holder.create (hc : Holder w t [] c) (hpc : c.pc? u = some pc) (hkept : w pc' = w pc)
    (q : τ) : Holder w c.threads.length (w q) (c.move u s pc' [q]) := by
  have hlast : (c.move u s pc' [q]).pc? c.threads.length = some q := by
    simp [Config.pc?, Config.move]
  refine ⟨⟨q, hlast, rfl⟩, fun v r hv hr => ?_⟩
  obtain ⟨rfl, rfl⟩ | ⟨-, hr⟩ | ⟨hle, -⟩ := Config.pc?_move_cases hr
  · exact hkept.trans ((hc.of_nil hpc).eq_of_pc? hpc)
  · exact (hc.of_nil hr).eq_of_pc? hr
  · have hlt := Config.pc?_lt hr
    simp only [Config.move, List.length_append, List.length_set, List.length_singleton] at hlt
    omega

end Holder

end System

end Monitor
