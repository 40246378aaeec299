-- SUMMARY: Runners of event machines under a fair scheduler: events that are sent are consumed, calls that are due are made, and stopped machines stay stopped.
import BoomPar.Monitor.EventMachine
import BoomPar.Monitor.Fairness

/-!
# Runners of event machines

Thread 0 of a system, the runner, is the only one that moves an event machine on;
the other threads send events to it. A runner that is fairly scheduled, and that does
not sleep while an event is pending, comes to consume every event.
-/

namespace Monitor

variable {σ τ κ ο ς ε : Type*}

/-- Where a system keeps an event machine and its runner. -/
structure Host (σ τ ς ε : Type*) where
  state : σ → ς
  pending : σ → ε → Bool
  /-- How often the function was called. -/
  calls : σ → ℕ
  isRunner : τ → Bool
  /-- The runner is to call the function next. -/
  due : τ → Bool
  /-- How many steps the runner has before it consumes events. -/
  left : τ → ℕ

namespace Host

variable (H : Host σ τ ς ε)

/-- A step of the runner. -/
inductive Turn (M : EventMachine ς ε) (s s' : σ) (pc pc' : τ) : Prop
  | update (expired : Bool) : H.due pc = false →
      H.state s' = M.next (H.state s) (H.pending s) expired → (∀ e, H.pending s' e = false) →
      H.calls s' = H.calls s → H.due pc' = M.runs (H.state s') → Turn M s s' pc pc'
  | call : H.due pc = true → H.state s' = H.state s → H.pending s' = H.pending s →
      H.calls s' = H.calls s + 1 → H.left pc' < H.left pc → Turn M s s' pc pc'
  | other : H.due pc = false → H.state s' = H.state s → H.pending s' = H.pending s →
      H.calls s' = H.calls s → H.left pc' < H.left pc → Turn M s s' pc pc'

/-- A step of another thread may send events. -/
structure Sends (s s' : σ) : Prop where
  state : H.state s' = H.state s
  pending : ∀ e, H.pending s e = true → H.pending s' e = true
  calls : H.calls s' = H.calls s

/-- An update consumed what is pending in `s`, and what was sent since. -/
def Consumed (M : EventMachine ς ε) (s s' : σ) : Prop :=
  ∃ pending expired, (∀ e, H.pending s e = true → pending e = true) ∧
    H.state s' = M.next (H.state s) pending expired

/-- The runner is to call the function next. -/
def DueAt (c : Config σ τ) : Prop := ∃ pc, c.pc? 0 = some pc ∧ H.due pc = true

/-- The system runs the machine. -/
structure Runs (M : EventMachine ς ε) (S : System σ τ κ ο) (ok : Config σ τ → Act κ ο → Prop)
    (c₀ : Config σ τ) : Prop where
  sole : ∀ {c}, S.Reach ok c₀ c →
    System.Sole H.isRunner (fun s pc => H.due pc = true → M.runs (H.state s) = true) c
  start : ∀ t k, H.isRunner (S.start t k) = false
  can : ∀ {c pc}, S.Reach ok c₀ c → c.pc? 0 = some pc →
    (H.due pc = true ∨ ∃ e, H.pending c.shared e = true) → System.CanStep S ok c 0
  turn : ∀ {s t pc o s' pc' new}, S.step s t pc o = some (s', pc', new) →
    H.isRunner pc = true → H.Turn M s s' pc pc'
  sends : ∀ {s t pc o s' pc' new}, S.step s t pc o = some (s', pc', new) →
    H.isRunner pc = false → H.Sends s s'
  wake : ∀ {s t pc s'}, S.wake s t pc = some s' → H.Sends s s'

namespace Runs

variable {H} {M : EventMachine ς ε} {S : System σ τ κ ο} {ok : Config σ τ → Act κ ο → Prop}
  {c₀ c c' : Config σ τ} {a : Act κ ο}

/-- A step of thread 0 is a turn of the runner. -/
theorem next_turn (h : H.Runs M S ok c₀) (hc : S.Reach ok c₀ c) {pc : τ} (hpc : c.pc? 0 = some pc)
    {o : ο} (hn : S.next c (.step 0 o) = some c') :
    ∃ pc', c'.pc? 0 = some pc' ∧ H.Turn M c.shared c'.shared pc pc' := by
  obtain ⟨q, hq, hrunner, -⟩ := (h.sole hc).first
  obtain ⟨pc₁, s, pc', new, hpc₁, hs, rfl⟩ := System.stepAt_cases hn
  rw [hpc] at hpc₁ hq
  cases hpc₁
  cases hq
  exact ⟨pc', Config.pc?_move_self hpc _ _ _, h.turn hs hrunner⟩

/-- The other transitions leave the runner where it is. -/
theorem next_sends (h : H.Runs M S ok c₀) (hc : S.Reach ok c₀ c) {pc : τ}
    (hpc : c.pc? 0 = some pc) (ha : ∀ o, a ≠ .step 0 o) (hn : S.next c a = some c') :
    c'.pc? 0 = some pc ∧ H.Sends c.shared c'.shared := by
  obtain ⟨hkept, ⟨u, q, o, q', new, hu, hmoves, hs⟩ | ⟨u, q, hs⟩⟩ := System.next_other hn hpc ha
  · refine ⟨hkept, h.sends hs ?_⟩
    cases hrunner : H.isRunner q with
    | false => rfl
    | true =>
      obtain ⟨-, hq⟩ := hmoves.of_start (h.start _) hrunner
      exact absurd ((h.sole hc).only u q hq hrunner) hu
  · exact ⟨hkept, h.wake hs⟩

/-- The function was called no less often later. -/
theorem calls_le (h : H.Runs M S ok c₀) (r : System.FairRun S ok c₀) {n m : ℕ} (hnm : n ≤ m) :
    H.calls (r.config n).shared ≤ H.calls (r.config m).shared := by
  refine r.stable (P := fun c => H.calls (r.config n).shared ≤ H.calls c.shared) ?_ le_rfl hnm
  intro c a c' hc hle _ hn
  obtain ⟨pc, hpc, -⟩ := (h.sole hc).first
  refine hle.trans ?_
  by_cases ha : ∃ o, a = .step 0 o
  · obtain ⟨o, rfl⟩ := ha
    obtain ⟨pc', -, hturn⟩ := h.next_turn hc hpc hn
    cases hturn with
    | update expired _ _ _ hcalls _ => exact hcalls.ge
    | call _ _ _ hcalls _ => exact hcalls ▸ Nat.le_succ _
    | other _ _ _ hcalls _ => exact hcalls.ge
  · exact (h.next_sends hc hpc (fun o ho => ha ⟨o, ho⟩) hn).2.calls.ge

/-- A call that is due is made. -/
theorem calls_of_due (h : H.Runs M S ok c₀) (r : System.FairRun S ok c₀) {n : ℕ}
    (hdue : H.DueAt (r.config n)) :
    ∃ m, n ≤ m ∧ H.calls (r.config n).shared < H.calls (r.config m).shared := by
  refine r.leadsTo_by
    (P := fun c => H.DueAt c ∧ H.calls (r.config n).shared = H.calls c.shared)
    (Q := fun c => H.calls (r.config n).shared < H.calls c.shared) 0 ?_ ?_ ?_ n ⟨hdue, rfl⟩
  · rintro c hc ⟨⟨pc, hpc, hdue⟩, -⟩
    exact h.can hc hpc (.inl hdue)
  · rintro c o c' hc ⟨⟨pc, hpc, hdue⟩, heq⟩ hn
    obtain ⟨pc', -, hturn⟩ := h.next_turn hc hpc hn
    cases hturn with
    | update expired hnot _ _ _ _ => rw [hdue] at hnot; cases hnot
    | call _ _ _ hcalls _ => rw [heq, hcalls]; exact Nat.lt_succ_self _
    | other hnot _ _ _ _ => rw [hdue] at hnot; cases hnot
  · rintro c a c' hc ⟨⟨pc, hpc, hdue⟩, heq⟩ ha - hn
    obtain ⟨hpc', hsends⟩ := h.next_sends hc hpc ha hn
    exact .inr ⟨⟨pc, hpc', hdue⟩, heq.trans hsends.calls.symm⟩

/-- A run comes from a pending event to the update that consumes it. -/
theorem consumes (h : H.Runs M S ok c₀) (r : System.FairRun S ok c₀) {n : ℕ} {e : ε}
    (he : H.pending (r.config n).shared e = true) :
    ∃ m, n ≤ m ∧ H.Consumed M (r.config n).shared (r.config m).shared ∧
      (M.runs (H.state (r.config m).shared) = true → H.DueAt (r.config m)) := by
  obtain ⟨pc, hpc, -⟩ := (h.sole (r.reach n)).first
  refine r.eventually_by (P := fun c => (∃ pc, c.pc? 0 = some pc) ∧
      H.state c.shared = H.state (r.config n).shared ∧
      ∀ e, H.pending (r.config n).shared e = true → H.pending c.shared e = true)
    (Q := fun c => H.Consumed M (r.config n).shared c.shared ∧
      (M.runs (H.state c.shared) = true → H.DueAt c))
    0 (fun c => c.weightAt H.left 0) ?_ ?_ ?_ ⟨⟨pc, hpc⟩, rfl, fun _ => id⟩
  · rintro m - ⟨⟨pc, hpc⟩, -, hpending⟩ -
    exact h.can (r.reach m) hpc (.inr ⟨e, hpending e he⟩)
  · rintro m o - ⟨⟨pc, hpc⟩, hstate, hpending⟩ - hact
    obtain ⟨pc', hpc', hturn⟩ := h.next_turn (r.reach m) hpc (r.move hact).2
    simp only [Config.weightAt_of_pc? hpc, Config.weightAt_of_pc? hpc']
    cases hturn with
    | update expired _ hnext _ _ hdue =>
      refine .inl ⟨⟨_, expired, hpending, hstate ▸ hnext⟩, fun hruns => ⟨pc', hpc', ?_⟩⟩
      rw [hdue, hruns]
    | call _ hstate' hpending' _ hleft =>
      exact .inr ⟨⟨⟨pc', hpc'⟩, hstate'.trans hstate, hpending' ▸ hpending⟩, hleft⟩
    | other _ hstate' hpending' _ hleft =>
      exact .inr ⟨⟨⟨pc', hpc'⟩, hstate'.trans hstate, hpending' ▸ hpending⟩, hleft⟩
  · rintro m a - ⟨⟨pc, hpc⟩, hstate, hpending⟩ - hact ha
    obtain ⟨hpc', hsends⟩ := h.next_sends (r.reach m) hpc ha (r.move hact).2
    refine .inr ⟨⟨⟨pc, hpc'⟩, hsends.state.trans hstate, fun e he => ?_⟩, ?_⟩
    · exact hsends.pending e (hpending e he)
    · rw [Config.weightAt_of_pc? hpc, Config.weightAt_of_pc? hpc']

/-- A pending event is consumed, and the function is called if the update leads to a
    state that calls it. -/
theorem serves (h : H.Runs M S ok c₀) (r : System.FairRun S ok c₀) {n : ℕ} {e : ε}
    (he : H.pending (r.config n).shared e = true) :
    ∃ m, n ≤ m ∧ H.Consumed M (r.config n).shared (r.config m).shared ∧
      (M.runs (H.state (r.config m).shared) = true → ∃ l, m ≤ l ∧
        H.calls (r.config n).shared < H.calls (r.config l).shared) := by
  obtain ⟨m, hnm, hconsumed, hdue⟩ := h.consumes r he
  refine ⟨m, hnm, hconsumed, fun hruns => ?_⟩
  obtain ⟨l, hml, hcalls⟩ := h.calls_of_due r (hdue hruns)
  exact ⟨l, hml, (h.calls_le r hnm).trans_lt hcalls⟩

end Runs

/-! ## Runners that wait for a time -/

/-- The runner calls the function when it has waited for long enough: until `Q` holds it is
    to call the function, or it waits, or it comes to wait. -/
structure Waits (M : EventMachine ς ε) (S : System σ τ κ ο) (ok : Config σ τ → Act κ ο → Prop)
    (c₀ : Config σ τ) (waited : τ → Option ℕ) (bound : ℕ) (Q : Config σ τ → Prop) : Prop
    extends H.Runs M S ok c₀ where
  awake : ∀ {c pc}, S.Reach ok c₀ c → c.pc? 0 = some pc → waited pc = none → ¬Q c →
    System.CanStep S ok c 0
  step : ∀ {c c' o pc pc'}, S.Reach ok c₀ c → c.pc? 0 = some pc →
    S.next c (.step 0 o) = some c' → c'.pc? 0 = some pc' → ¬Q c' →
    H.due pc' = true ∨ (∃ k', waited pc' = some k' ∧ ∀ k, waited pc = some k → k ≤ k') ∨
      (waited pc = none ∧ H.left pc' < H.left pc)
  bound : ∀ {c pc k}, S.Reach ok c₀ c → c.pc? 0 = some pc → waited pc = some k → k ≤ bound

/-- The runner waits, and has waited for `k`. -/
def WaitsFrom (waited : τ → Option ℕ) (k : ℕ) (c : Config σ τ) : Prop :=
  ∃ pc k', c.pc? 0 = some pc ∧ waited pc = some k' ∧ k ≤ k'

namespace Waits

variable {H} {M : EventMachine ς ε} {S : System σ τ κ ο} {ok : Config σ τ → Act κ ο → Prop}
  {c₀ c c' : Config σ τ} {waited : τ → Option ℕ} {bound : ℕ} {Q : Config σ τ → Prop}

/-- Without calls and before `Q`, the runner comes to wait. -/
theorem comes (h : H.Waits M S ok c₀ waited bound Q) (r : System.FairRun S ok c₀) {n : ℕ}
    (hnot : ∀ m, n ≤ m → ¬Q (r.config m)) (hdue : ∀ m, n ≤ m → ¬H.DueAt (r.config m)) :
    ∃ m, n ≤ m ∧ WaitsFrom waited 0 (r.config m) := by
  obtain ⟨pc, hpc, -⟩ := (h.sole (r.reach n)).first
  refine r.eventually_by (P := fun c => ∃ pc, c.pc? 0 = some pc) 0
    (fun c => c.weightAt H.left 0) ?_ ?_ ?_ ⟨pc, hpc⟩
  · rintro m hnm ⟨pc, hpc⟩ hnever
    cases hwaited : waited pc with
    | none => exact h.awake (r.reach m) hpc hwaited (hnot m hnm)
    | some k => exact absurd ⟨pc, k, hpc, hwaited, Nat.zero_le k⟩ hnever
  · rintro m o hnm ⟨pc, hpc⟩ - hact
    have hnm' := hnm.trans (Nat.le_succ m)
    obtain ⟨pc', hpc', -⟩ := h.next_turn (r.reach m) hpc (r.move hact).2
    simp only [Config.weightAt_of_pc? hpc, Config.weightAt_of_pc? hpc']
    rcases h.step (r.reach m) hpc (r.move hact).2 hpc' (hnot _ hnm') with
      hdue' | ⟨k, hwaited, -⟩ | ⟨-, hleft⟩
    · exact absurd ⟨pc', hpc', hdue'⟩ (hdue _ hnm')
    · exact .inl ⟨pc', k, hpc', hwaited, Nat.zero_le k⟩
    · exact .inr ⟨⟨pc', hpc'⟩, hleft⟩
  · rintro m a - ⟨pc, hpc⟩ - hact ha
    obtain ⟨hkept, -⟩ := h.next_sends (r.reach m) hpc ha (r.move hact).2
    exact .inr ⟨⟨pc, hkept⟩, by rw [Config.weightAt_of_pc? hpc, Config.weightAt_of_pc? hkept]⟩

/-- Without calls and before `Q`, the runner goes on waiting. -/
theorem goes_on (h : H.Waits M S ok c₀ waited bound Q) (r : System.FairRun S ok c₀) {n m k : ℕ}
    (hnot : ∀ m, n ≤ m → ¬Q (r.config m)) (hdue : ∀ m, n ≤ m → ¬H.DueAt (r.config m))
    (hn : WaitsFrom waited k (r.config n)) (hnm : n ≤ m) : WaitsFrom waited k (r.config m) := by
  refine r.keep ?_ hn hnm
  rintro l a hnl hact ⟨pc, k', hpc, hwaited, hle⟩
  have hnl' := hnl.trans (Nat.le_succ l)
  by_cases ha : ∃ o, a = .step 0 o
  · obtain ⟨o, rfl⟩ := ha
    obtain ⟨pc', hpc', -⟩ := h.next_turn (r.reach l) hpc (r.move hact).2
    rcases h.step (r.reach l) hpc (r.move hact).2 hpc' (hnot _ hnl') with
      hdue' | ⟨k'', hwaited', hmore⟩ | ⟨hnone, -⟩
    · exact absurd ⟨pc', hpc', hdue'⟩ (hdue _ hnl')
    · exact ⟨pc', k'', hpc', hwaited', hle.trans (hmore k' hwaited)⟩
    · rw [hwaited] at hnone
      cases hnone
  · obtain ⟨hkept, -⟩ := h.next_sends (r.reach l) hpc (fun o ho => ha ⟨o, ho⟩) (r.move hact).2
    exact ⟨pc, k', hkept, hwaited, hle⟩

/-- When a runner that waits for ever waits for more and more, it calls the function again,
    or `Q` comes to hold. -/
theorem calls_again (h : H.Waits M S ok c₀ waited bound Q) (r : System.FairRun S ok c₀)
    (htime : ∀ n, (∀ m, n ≤ m → WaitsFrom waited 0 (r.config m) ∧ ¬Q (r.config m)) →
      ∃ m, n ≤ m ∧
        ∀ k, WaitsFrom waited k (r.config m) → WaitsFrom waited (k + 1) (r.config (m + 1)))
    (n : ℕ) : ∃ m, n ≤ m ∧
      (H.calls (r.config n).shared < H.calls (r.config m).shared ∨ Q (r.config m)) := by
  by_contra hnever
  have hnot : ∀ m, n ≤ m → ¬Q (r.config m) := fun m hnm hQ => hnever ⟨m, hnm, .inr hQ⟩
  have hdue : ∀ m, n ≤ m → ¬H.DueAt (r.config m) := by
    intro m hnm hdue
    obtain ⟨l, hml, hlt⟩ := h.calls_of_due r hdue
    exact hnever ⟨l, hnm.trans hml, .inl ((h.calls_le r hnm).trans_lt hlt)⟩
  have hlong : ∀ k, ∃ m, n ≤ m ∧ WaitsFrom waited k (r.config m) := by
    intro k
    induction k with
    | zero => exact h.comes r hnot hdue
    | succ k ih =>
      obtain ⟨m, hnm, hk⟩ := ih
      have hon : ∀ l, m ≤ l → WaitsFrom waited k (r.config l) := fun l hml =>
        h.goes_on r (fun l hml => hnot l (hnm.trans hml))
          (fun l hml => hdue l (hnm.trans hml)) hk hml
      obtain ⟨l, hml, hmore⟩ := htime m fun l hml => by
        obtain ⟨pc, k', hpc, hwaited, -⟩ := hon l hml
        exact ⟨⟨pc, k', hpc, hwaited, Nat.zero_le k'⟩, hnot l (hnm.trans hml)⟩
      exact ⟨l + 1, (hnm.trans hml).trans (Nat.le_succ l), hmore k (hon l hml)⟩
  obtain ⟨m, -, pc, k, hpc, hwaited, hle⟩ := hlong (bound + 1)
  exact absurd (h.bound (r.reach m) hpc hwaited) (Nat.not_le_of_lt hle)

end Waits

end Host

end Monitor
