-- SUMMARY: Bisimulations between two systems of threads: matched transitions, equal views, runs in lockstep.
import Mathlib.Data.Option.Basic
import BoomPar.Monitor.System

/-!
# Bisimulations

Two systems over the same calls, whose environments may decide different things
in a matched transition. What an observer sees of a configuration is its view;
a bisimulation keeps the views equal.
-/

namespace Monitor

variable {σ σ' τ τ' κ ο ο' ω : Type*}

/-- The same call, step or wake-up, with outcomes that match. -/
inductive Act.Matches (Q : ο → ο' → Prop) : Act κ ο → Act κ ο' → Prop
  | call (k : κ) {o : ο} {o' : ο'} : Q o o' → Matches Q (.call k o) (.call k o')
  | step (t : ℕ) {o : ο} {o' : ο'} : Q o o' → Matches Q (.step t o) (.step t o')
  | wake (t : ℕ) : Matches Q (.wake t) (.wake t)

/-- The same transition with another outcome. -/
def Act.mapOutcome (f : ο → ο') : Act κ ο → Act κ ο'
  | .call k o => .call k (f o)
  | .step t o => .step t (f o)
  | .wake t => .wake t

theorem Act.matches_mapOutcome {Q : ο → ο' → Prop} {f : ο → ο'} (h : ∀ o, Q o (f o))
    (a : Act κ ο) : a.Matches Q (a.mapOutcome f) := by
  cases a with
  | call k o => exact .call k (h o)
  | step t o => exact .step t (h o)
  | wake t => exact .wake t

theorem System.runs?_mapOutcome (S : System σ τ κ ο) (f : ο → ο) (c : Config σ τ) (a : Act κ ο) :
    S.runs? c (a.mapOutcome f) = (S.runs? c a).map fun r => (r.1, f r.2) := by
  cases a with
  | call k o => rfl
  | step t o =>
    simp only [Act.mapOutcome, runs?, Option.map_map]
    rfl
  | wake t => rfl

/-- What two systems are compared by: the transitions that count on either side,
    the outcomes that match and the views of the configurations. -/
structure Comparison (σ σ' τ τ' κ ο ο' ω : Type*) where
  left : System σ τ κ ο
  right : System σ' τ' κ ο'
  okLeft : Config σ τ → Act κ ο → Prop
  okRight : Config σ' τ' → Act κ ο' → Prop
  outcomes : ο → ο' → Prop
  viewLeft : Config σ τ → ω
  viewRight : Config σ' τ' → ω

namespace Comparison

/-- Related configurations look the same, and each transition of one is matched
    by a transition of the other into related configurations. -/
structure IsBisimulation (K : Comparison σ σ' τ τ' κ ο ο' ω)
    (R : Config σ τ → Config σ' τ' → Prop) : Prop where
  view {c d} : R c d → K.viewLeft c = K.viewRight d
  forth {c d a c'} : R c d → K.okLeft c a → K.left.next c a = some c' →
    ∃ b d', a.Matches K.outcomes b ∧ K.okRight d b ∧ K.right.next d b = some d' ∧ R c' d'
  back {c d b d'} : R c d → K.okRight d b → K.right.next d b = some d' →
    ∃ a c', a.Matches K.outcomes b ∧ K.okLeft c a ∧ K.left.next c a = some c' ∧ R c' d'

def Bisimilar (K : Comparison σ σ' τ τ' κ ο ο' ω) (c : Config σ τ) (d : Config σ' τ') : Prop :=
  ∃ R, K.IsBisimulation R ∧ R c d

variable {K : Comparison σ σ' τ τ' κ ο ο' ω} {R : Config σ τ → Config σ' τ' → Prop}

/-- Whatever the left system reaches, the right one reaches a counterpart of. -/
theorem IsBisimulation.reach_right (h : K.IsBisimulation R) {c₀ c : Config σ τ}
    {d₀ : Config σ' τ'} (h₀ : R c₀ d₀) (hc : K.left.Reach K.okLeft c₀ c) :
    ∃ d, K.right.Reach K.okRight d₀ d ∧ R c d := by
  induction hc with
  | refl => exact ⟨d₀, .refl, h₀⟩
  | tail _ hok hn ih =>
    obtain ⟨d, hd, hR⟩ := ih
    obtain ⟨b, d', -, hok', hn', hR'⟩ := h.forth hR hok hn
    exact ⟨d', hd.tail hok' hn', hR'⟩

/-- Whatever the right system reaches, the left one reaches a counterpart of. -/
theorem IsBisimulation.reach_left (h : K.IsBisimulation R) {c₀ : Config σ τ}
    {d₀ d : Config σ' τ'} (h₀ : R c₀ d₀) (hd : K.right.Reach K.okRight d₀ d) :
    ∃ c, K.left.Reach K.okLeft c₀ c ∧ R c d := by
  induction hd with
  | refl => exact ⟨c₀, .refl, h₀⟩
  | tail _ hok hn ih =>
    obtain ⟨c, hc, hR⟩ := ih
    obtain ⟨a, c', -, hok', hn', hR'⟩ := h.back hR hok hn
    exact ⟨c', hc.tail hok' hn', hR'⟩

/-- Two systems whose matched transitions are stuck together, and that always have
    a transition to match, are bisimilar. -/
theorem IsBisimulation.of_rel
    (hview : ∀ c d, R c d → K.viewLeft c = K.viewRight d)
    (hrel : ∀ c d a b, R c d → a.Matches K.outcomes b → K.okLeft c a → K.okRight d b →
      Option.Rel R (K.left.next c a) (K.right.next d b))
    (hforth : ∀ c d a, R c d → K.okLeft c a → ∃ b, a.Matches K.outcomes b ∧ K.okRight d b)
    (hback : ∀ c d b, R c d → K.okRight d b → ∃ a, a.Matches K.outcomes b ∧ K.okLeft c a) :
    K.IsBisimulation R where
  view := hview _ _
  forth {c d a c'} hR hok hn := by
    obtain ⟨b, hab, hok'⟩ := hforth c d a hR hok
    have hrel' := hrel c d a b hR hab hok hok'
    rw [hn] at hrel'
    cases hn' : K.right.next d b with
    | none => rw [hn'] at hrel'; cases hrel'
    | some d' =>
      rw [hn'] at hrel'
      cases hrel' with
      | some hR' => exact ⟨b, d', hab, hok', hn', hR'⟩
  back {c d b d'} hR hok hn := by
    obtain ⟨a, hab, hok'⟩ := hback c d b hR hok
    have hrel' := hrel c d a b hR hab hok' hok
    rw [hn] at hrel'
    cases hn' : K.left.next c a with
    | none => rw [hn'] at hrel'; cases hrel'
    | some c' =>
      rw [hn'] at hrel'
      cases hrel' with
      | some hR' => exact ⟨a, c', hab, hok', hn', hR'⟩

end Comparison

/-! ## Systems in lockstep -/

theorem rel_map {α α' β β' : Type*} {r : α → α' → Prop} {r' : β → β' → Prop} {f : α → β}
    {f' : α' → β'} {x : Option α} {x' : Option α'} (h : Option.Rel r x x')
    (hmap : ∀ a a', r a a' → r' (f a) (f' a')) : Option.Rel r' (x.map f) (x'.map f') := by
  cases h with
  | some hr => exact .some (hmap _ _ hr)
  | none => exact .none

theorem rel_mono {α α' : Type*} {r r' : α → α' → Prop} {x : Option α} {x' : Option α'}
    (h : Option.Rel r x x') (himp : ∀ a a', x = some a → x' = some a' → r a a' → r' a a') :
    Option.Rel r' x x' := by
  cases h with
  | some hr => exact .some (himp _ _ rfl rfl hr)
  | none => exact .none

/-- The same pool of threads over related shared states. -/
def Config.Alike (Rs : σ → σ' → Prop) (c : Config σ τ) (d : Config σ' τ) : Prop :=
  Rs c.shared d.shared ∧ c.threads = d.threads

/-- The same control state and new threads, over related shared states. -/
def StepAlike (Rs : σ → σ' → Prop) (r : σ × τ × List τ) (r' : σ' × τ × List τ) : Prop :=
  Rs r.1 r'.1 ∧ r.2 = r'.2

namespace Config.Alike

variable {Rs : σ → σ' → Prop} {c : Config σ τ} {d : Config σ' τ}

theorem pc?_eq (h : c.Alike Rs d) (t : ℕ) : c.pc? t = d.pc? t := by
  rw [pc?, pc?, h.2]

theorem those_eq (h : c.Alike Rs d) (p : τ → Bool) : c.those p = d.those p := by
  ext t
  rw [mem_those, mem_those, h.pc?_eq t]

theorem runs?_eq {S : System σ τ κ ο} {T : System σ' τ κ ο} (h : c.Alike Rs d)
    (hstart : S.start = T.start) (a : Act κ ο) : S.runs? c a = T.runs? d a := by
  cases a with
  | call k o => rw [System.runs?, System.runs?, hstart, h.2]
  | step t o => rw [System.runs?, System.runs?, h.pc?_eq t]
  | wake t => rfl

theorem push (h : c.Alike Rs d) (pc : τ) : (c.push pc).Alike Rs (d.push pc) :=
  ⟨h.1, congrArg (· ++ [pc]) h.2⟩

theorem stepAt {S : System σ τ κ ο} {T : System σ' τ κ ο'} (h : c.Alike Rs d) (t : ℕ) {o : ο}
    {o' : ο'} (hstep : ∀ pc, c.pc? t = some pc →
      Option.Rel (StepAlike Rs) (S.step c.shared t pc o) (T.step d.shared t pc o')) :
    Option.Rel (Config.Alike Rs) (S.stepAt c t o) (T.stepAt d t o') := by
  rw [System.stepAt, System.stepAt, ← h.pc?_eq t]
  cases hpc : c.pc? t with
  | none => exact .none
  | some pc =>
    refine rel_map (hstep pc hpc) ?_
    rintro ⟨s, pc₁, new⟩ ⟨s', pc₁', new'⟩ ⟨hshared, heq⟩
    cases heq
    exact ⟨hshared, by simp only [Config.move, h.2]⟩

/-- Systems that start their calls alike are in lockstep when the step that a
    transition runs and the wake-up that it makes are. -/
theorem next {S : System σ τ κ ο} {T : System σ' τ κ ο'} (h : c.Alike Rs d)
    {Q : ο → ο' → Prop} {a : Act κ ο} {b : Act κ ο'} (hab : a.Matches Q b)
    (hstart : S.start = T.start)
    (hstep : ∀ t pc o o', S.runs? c a = some (pc, o) → T.runs? d b = some (pc, o') → Q o o' →
      Option.Rel (StepAlike Rs) (S.step c.shared t pc o) (T.step d.shared t pc o'))
    (hwake : ∀ t pc, c.pc? t = some pc →
      Option.Rel Rs (S.wake c.shared t pc) (T.wake d.shared t pc)) :
    Option.Rel (Config.Alike Rs) (S.next c a) (T.next d b) := by
  cases hab with
  | call k hQ =>
    have hlen : c.threads.length = d.threads.length := congrArg List.length h.2
    simp only [System.next, ← hlen, ← hstart]
    refine (h.push _).stepAt _ ?_
    intro pc hpc
    rw [Config.pc?_push_self] at hpc
    cases hpc
    exact hstep _ _ _ _ rfl (by rw [System.runs?, ← hlen, hstart]) hQ
  | step t hQ =>
    refine h.stepAt t ?_
    intro pc hpc
    have hpc' : d.pc? t = some pc := (h.pc?_eq t).symm.trans hpc
    exact hstep t pc _ _ (by rw [System.runs?, hpc]; rfl) (by rw [System.runs?, hpc']; rfl) hQ
  | wake t =>
    simp only [System.next, ← h.pc?_eq t]
    cases hpc : c.pc? t with
    | none => exact .none
    | some pc =>
      exact rel_map (hwake t pc hpc) fun s s' hs => ⟨hs, h.2⟩

end Config.Alike

end Monitor
