-- SUMMARY: State machines that consume pending events: their runs over a log, and the rules for what a stretch of the log can hold.
import Mathlib.Data.List.DropRight
import Mathlib.Data.Nat.Count

/-!
# Event machines

A machine has a state and a set of pending events. Clients send events, which
are accepted or not by the state; a runner consumes all pending events at once
and moves to the next state. In some states the runner then calls a function, in
the others it blocks or ends. A log of any alphabet is read through what its
entries mean to the machine.
-/

namespace Monitor

structure EventMachine (σ ε : Type*) where
  accepts : σ → ε → Bool
  /-- The state that consumes the pending events, when the time of a wait has expired or not. -/
  next : σ → (ε → Bool) → Bool → σ
  /-- The runner calls the function in this state. -/
  runs : σ → Bool

/-- What an entry of the log means to the machine. -/
inductive Note (σ ε : Type*) where
  | sent (e : ε)
  | updated (before after : σ)
  | blocked
  | invoked
  | other
  deriving DecidableEq

/-- Where the runner stands: it has nothing to do before it consumes the events
    again, or it has just consumed them, or it is to call the function. -/
inductive Stand where
  | idle
  | turned
  | due
  deriving DecidableEq

/-- The abstract configuration of a machine. -/
structure Phase (σ ε : Type*) where
  state : σ
  pending : ε → Bool
  stand : Stand

/-! ## Reading a log -/

namespace Note

variable {σ ε : Type*}

def isUpdated : Note σ ε → Bool
  | .updated _ _ => true
  | _ => false

def isInvoked : Note σ ε → Bool
  | .invoked => true
  | _ => false

def sends [DecidableEq ε] (e : ε) : Note σ ε → Bool
  | .sent e' => e' = e
  | _ => false

end Note

/-- The runner is to call the function. -/
def Phase.due {σ ε : Type*} (p : Phase σ ε) : Bool := p.stand = .due

namespace EventMachine

section Log

variable {σ ε α : Type*} {kind : α → Note σ ε} {log : List α}

/-- The entries up to the first update. -/
def beforeUpdate (kind : α → Note σ ε) (log : List α) : List α :=
  log.takeWhile fun x => !(kind x).isUpdated

/-- The entries since the last update. -/
def sinceUpdate (kind : α → Note σ ε) (log : List α) : List α :=
  log.rtakeWhile fun x => !(kind x).isUpdated

theorem not_isUpdated_of_mem_beforeUpdate {x : α} (hx : x ∈ beforeUpdate kind log) :
    (kind x).isUpdated = false := by
  have hnot := List.mem_takeWhile_imp hx
  rwa [Bool.not_eq_true'] at hnot

/-- A log has no update, or splits at its first one. -/
theorem beforeUpdate_cases (kind : α → Note σ ε) (log : List α) :
    log = beforeUpdate kind log ∨
      ∃ u rest, log = beforeUpdate kind log ++ u :: rest ∧ (kind u).isUpdated = true := by
  have happend := List.takeWhile_append_dropWhile (p := fun x => !(kind x).isUpdated) (l := log)
  have hnot := List.head?_dropWhile_not (fun x => !(kind x).isUpdated) log
  cases hdrop : log.dropWhile fun x => !(kind x).isUpdated with
  | nil =>
    rw [hdrop, List.append_nil] at happend
    exact .inl happend.symm
  | cons u rest =>
    rw [hdrop] at happend hnot
    exact .inr ⟨u, rest, happend.symm, by simpa using hnot⟩

end Log

end EventMachine

/-! ## Runs -/

namespace EventMachine

variable {σ ε α : Type*} [DecidableEq ε] (M : EventMachine σ ε)

/-- One entry of the log. The runner blocks only right after it consumed the events. -/
inductive Step : Phase σ ε → Note σ ε → Phase σ ε → Prop
  | sent {p : Phase σ ε} (e : ε) : M.accepts p.state e = true → p.stand ≠ .turned →
      Step p (.sent e) { p with pending := Function.update p.pending e true }
  | updated {p : Phase σ ε} (expired : Bool) : p.stand = .idle →
      Step p (.updated p.state (M.next p.state p.pending expired))
        { state := M.next p.state p.pending expired
          pending := fun _ => false
          stand := if M.runs (M.next p.state p.pending expired) then .due else .turned }
  | blocked {p : Phase σ ε} : p.stand = .turned → Step p .blocked { p with stand := .idle }
  | invoked {p : Phase σ ε} : p.stand = .due → Step p .invoked { p with stand := .idle }
  | other {p : Phase σ ε} : Step p .other p

/-- The entries of a log, one after the other. -/
inductive Run (kind : α → Note σ ε) : Phase σ ε → List α → Phase σ ε → Prop
  | nil (p : Phase σ ε) : Run kind p [] p
  | cons {p q r : Phase σ ε} {x : α} {log : List α} :
      M.Step p (kind x) q → Run kind q log r → Run kind p (x :: log) r

variable {M} {kind : α → Note σ ε} {p q r : Phase σ ε} {log log' : List α}

theorem Run.single {x : α} (h : M.Step p (kind x) q) : M.Run kind p [x] q := .cons h (.nil q)

theorem Run.append (h : M.Run kind p log q) (h' : M.Run kind q log' r) :
    M.Run kind p (log ++ log') r := by
  induction h with
  | nil p => exact h'
  | cons hstep _ ih => exact .cons hstep (ih h')

theorem Run.split (h : M.Run kind p (log ++ log') r) :
    ∃ q, M.Run kind p log q ∧ M.Run kind q log' r := by
  induction log generalizing p with
  | nil => exact ⟨p, .nil p, h⟩
  | cons x log ih =>
    cases h with
    | cons hstep hrun =>
      obtain ⟨q, hleft, hright⟩ := ih hrun
      exact ⟨q, .cons hstep hleft, hright⟩

theorem Run.cons_inv {x : α} (h : M.Run kind p (x :: log) r) :
    ∃ q, M.Step p (kind x) q ∧ M.Run kind q log r := by
  cases h with
  | cons hstep hrun => exact ⟨_, hstep, hrun⟩

variable (M kind) in
/-- A log grew by a run of the machine, from the phase beside it to the new one. -/
def Advances (x y : List α × Phase σ ε) : Prop :=
  ∃ log, y.1 = x.1 ++ log ∧ M.Run kind x.2 log y.2

theorem Advances.refl (x : List α × Phase σ ε) : M.Advances kind x x :=
  ⟨[], (List.append_nil x.1).symm, .nil x.2⟩

theorem Advances.single {x : α} (h : M.Step p (kind x) q) :
    M.Advances kind (log, p) (log ++ [x], q) :=
  ⟨[x], rfl, .single h⟩

theorem Advances.trans {x y z : List α × Phase σ ε} (h : M.Advances kind x y)
    (h' : M.Advances kind y z) : M.Advances kind x z := by
  obtain ⟨log, hlog, hrun⟩ := h
  obtain ⟨log', hlog', hrun'⟩ := h'
  exact ⟨log ++ log', by rw [hlog', hlog, List.append_assoc], hrun.append hrun'⟩

/-- A property that every allowed entry keeps. -/
theorem Run.invariant {P : Phase σ ε → Prop} {R : α → Prop}
    (hstep : ∀ {p x q}, P p → R x → M.Step p (kind x) q → P q)
    (h : M.Run kind p log q) (hp : P p) (hok : ∀ x ∈ log, R x) : P q := by
  induction h with
  | nil p => exact hp
  | cons hs _ ih =>
    rw [List.forall_mem_cons] at hok
    exact ih (hstep hp hok.1 hs) hok.2

private theorem countP_cons_eq (f : α → Bool) (x : α) (log : List α) :
    (x :: log).countP f = log.countP f + (f x).toNat := by
  rw [List.countP_cons]
  cases f x <;> rfl

/-- A potential pays for the entries `f`, and grows by the entries `g`. -/
theorem Run.countP_le {P : Phase σ ε → Prop} {R : α → Prop} {φ : Phase σ ε → ℕ}
    {f g : α → Bool}
    (hstep : ∀ {p x q}, P p → R x → M.Step p (kind x) q →
      P q ∧ φ q + (f x).toNat ≤ φ p + (g x).toNat)
    (h : M.Run kind p log q) (hp : P p) (hok : ∀ x ∈ log, R x) :
    log.countP f + φ q ≤ log.countP g + φ p := by
  induction h with
  | nil p => exact le_rfl
  | cons hs _ ih =>
    rw [List.forall_mem_cons] at hok
    obtain ⟨hq, hle⟩ := hstep hp hok.1 hs
    have := ih hq hok.2
    rw [countP_cons_eq, countP_cons_eq]
    omega

/-! ## The events that an update consumes -/

/-- The events that the first update after `log` consumes, when `log` has none. -/
def gathers (kind : α → Note σ ε) (p : Phase σ ε) (log : List α) (e : ε) : Bool :=
  p.pending e || log.any fun x => (kind x).sends e

theorem Step.quiet {n : Note σ ε} (h : M.Step p n q) (hn : n.isUpdated = false) :
    q.state = p.state ∧ (∀ e, q.pending e = (p.pending e || n.sends e)) ∧
      (p.stand ≠ .turned → q.stand ≠ .turned) := by
  cases h with
  | sent e _ hstand =>
    refine ⟨rfl, fun e' => ?_, fun _ => hstand⟩
    by_cases he : e' = e
    · subst he
      simp [Note.sends]
    · simp [Note.sends, Function.update_of_ne he, Ne.symm he]
  | updated expired _ => cases hn
  | blocked _ => exact ⟨rfl, fun e => (Bool.or_false _).symm, fun _ => nofun⟩
  | invoked _ => exact ⟨rfl, fun e => (Bool.or_false _).symm, fun _ => nofun⟩
  | other => exact ⟨rfl, fun e => (Bool.or_false _).symm, id⟩

theorem Step.of_updated {before after : σ} (h : M.Step p (.updated before after) q) :
    before = p.state ∧ (∃ expired, after = M.next p.state p.pending expired) ∧
      q.state = after ∧ q.pending = fun _ => false := by
  cases h with
  | updated expired _ => exact ⟨rfl, ⟨expired, rfl⟩, rfl, rfl⟩

/-- Without an update the state stays and the events gather. -/
theorem Run.quiet (h : M.Run kind p log q) (hlog : ∀ x ∈ log, (kind x).isUpdated = false) :
    q.state = p.state ∧ q.pending = gathers kind p log ∧
      (p.stand ≠ .turned → q.stand ≠ .turned) := by
  induction h with
  | nil p => exact ⟨rfl, funext fun e => (Bool.or_false _).symm, id⟩
  | cons hs _ ih =>
    rw [List.forall_mem_cons] at hlog
    obtain ⟨hstate, hpending, hstand⟩ := ih hlog.2
    obtain ⟨hstate', hpending', hstand'⟩ := hs.quiet hlog.1
    refine ⟨hstate.trans hstate', ?_, fun hp => hstand (hstand' hp)⟩
    funext e
    rw [hpending, gathers, gathers, hpending', List.any_cons, Bool.or_assoc]

/-- The first update consumes what was pending and what was sent before it. -/
theorem Run.next_update {x : α} {before after : σ} (h : M.Run kind p (log ++ x :: log') r)
    (hlog : ∀ y ∈ log, (kind y).isUpdated = false) (hx : kind x = .updated before after) :
    before = p.state ∧ ∃ expired, after = M.next p.state (gathers kind p log) expired := by
  obtain ⟨q, hleft, hright⟩ := h.split
  obtain ⟨q', hstep, -⟩ := hright.cons_inv
  obtain ⟨hstate, hpending, -⟩ := hleft.quiet hlog
  rw [hx] at hstep
  obtain ⟨hbefore, ⟨expired, hafter⟩, -, -⟩ := hstep.of_updated
  rw [hstate] at hbefore hafter
  rw [hpending] at hafter
  exact ⟨hbefore, expired, hafter⟩

/-- A runner that is to call the function does so before it consumes events again. -/
theorem Run.invoked_of_due (h : M.Run kind p log q) (hp : p.stand = .due)
    (hq : q.stand = .turned) : ∃ x ∈ log, kind x = .invoked := by
  by_contra hnone
  have hdue : q.stand = .due := by
    refine h.invariant (P := fun p => p.stand = .due) (R := fun x => kind x ≠ .invoked) ?_ hp ?_
    · intro p x q hp hx hs
      generalize kind x = n at hs hx
      cases hs with
      | sent e _ _ => exact hp
      | updated expired hidle => rw [hp] at hidle; cases hidle
      | blocked hturned => rw [hp] at hturned; cases hturned
      | invoked _ => exact absurd rfl hx
      | other => exact hp
    · exact fun x hx hinvoked => hnone ⟨x, hx, hinvoked⟩
  rw [hdue] at hq
  cases hq

/-- When whatever the next update consumes makes the function run, the runner calls
    the function before it blocks. -/
theorem Run.invoked_before_block {x : α} (h : M.Run kind p (log ++ x :: log') r)
    (hp : p.stand ≠ .turned) (hx : kind x = .blocked)
    (hruns : ∀ expired,
      M.runs (M.next p.state (gathers kind p (beforeUpdate kind log)) expired) = true) :
    ∃ y ∈ log, kind y = .invoked := by
  obtain ⟨q, hleft, hright⟩ := h.split
  obtain ⟨q', hstep, -⟩ := hright.cons_inv
  have hturned : q.stand = .turned := by
    rw [hx] at hstep
    cases hstep with
    | blocked hturned => exact hturned
  obtain hnone | ⟨u, rest, hlog, hu⟩ := beforeUpdate_cases kind log
  · rw [hnone] at hleft
    obtain ⟨-, -, hstand⟩ := hleft.quiet fun _ => not_isUpdated_of_mem_beforeUpdate
    exact absurd hturned (hstand hp)
  · rw [hlog] at hleft
    obtain ⟨q₁, hbefore, hafter⟩ := hleft.split
    obtain ⟨hstate, hpending, -⟩ := hbefore.quiet fun _ => not_isUpdated_of_mem_beforeUpdate
    obtain ⟨q₂, hupdate, hrest⟩ := hafter.cons_inv
    have hdue : q₂.stand = .due := by
      generalize kind u = n at hupdate hu
      cases hupdate with
      | updated expired _ =>
        rw [hstate, hpending]
        exact if_pos (hruns expired)
      | _ => cases hu
    obtain ⟨y, hy, hinvoked⟩ := hrest.invoked_of_due hdue hturned
    refine ⟨y, ?_, hinvoked⟩
    rw [hlog]
    exact List.mem_append_right _ (List.mem_cons_of_mem u hy)

/-- A pending event was sent since the last update. -/
theorem Run.sent_of_pending (h : M.Run kind p log q) (hp : ∀ e, p.pending e = false) {e : ε}
    (he : q.pending e = true) : ∃ x ∈ sinceUpdate kind log, (kind x).sends e = true := by
  induction log using List.reverseRecOn generalizing q with
  | nil =>
    cases h
    rw [hp e] at he
    cases he
  | append_singleton log x ih =>
    obtain ⟨q₁, hleft, hright⟩ := h.split
    obtain ⟨q₂, hstep, hnil⟩ := hright.cons_inv
    cases hnil
    cases hx : (kind x).isUpdated with
    | true =>
      generalize kind x = n at hstep hx
      cases hstep with
      | updated expired _ => cases he
      | _ => cases hx
    | false =>
      obtain ⟨-, hpending, -⟩ := hstep.quiet hx
      rw [sinceUpdate, List.rtakeWhile_concat_pos _ _ _ (by rw [hx]; rfl)]
      rw [hpending, Bool.or_eq_true] at he
      obtain hold | hsent := he
      · obtain ⟨y, hy, hsends⟩ := ih hleft hold
        exact ⟨y, List.mem_append_left _ hy, hsends⟩
      · exact ⟨x, List.mem_append_right _ (List.mem_singleton_self x), hsent⟩

/-! ## Events that stop the machine -/

/-- While `P` holds of the state and the pending events, updates lead to states
    that do not run; only events that are not `ok` can end it. -/
structure Halts (M : EventMachine σ ε) (ok : ε → Prop) (P : σ → (ε → Bool) → Prop) : Prop where
  sent : ∀ {s pending e}, P s pending → M.accepts s e = true → ok e →
    P s (Function.update pending e true)
  updated : ∀ {s pending} (expired : Bool), P s pending →
    M.runs (M.next s pending expired) = false ∧ P (M.next s pending expired) fun _ => false

/-- An event that leads to a final state stops the machine for good. -/
theorem Halts.of_final {final : σ} {e : ε} (hruns : M.runs final = false)
    (hnext : ∀ s pending expired, s = final ∨ pending e = true →
      M.next s pending expired = final) :
    M.Halts (fun _ => True) fun s pending => s = final ∨ pending e = true where
  sent {s pending e'} hp _ _ := by
    refine hp.imp_right fun hpending => ?_
    by_cases he : e = e'
    · rw [he, Function.update_self]
    · rw [Function.update_of_ne he, hpending]
  updated expired hp := by
    rw [hnext _ _ expired hp]
    exact ⟨hruns, .inl rfl⟩

/-- A stopped machine calls the function once more if its runner is to call it, and
    never otherwise. -/
theorem Halts.countP_add_due_le {ok : ε → Prop} {P : σ → (ε → Bool) → Prop} (hM : Halts M ok P)
    (h : M.Run kind p log q) (hp : P p.state p.pending)
    (hok : ∀ x ∈ log, ∀ e, kind x = .sent e → ok e) :
    log.countP (fun x => (kind x).isInvoked) + q.due.toNat ≤ p.due.toNat := by
  have hcount := h.countP_le (P := fun p => P p.state p.pending)
    (R := fun x => ∀ e, kind x = .sent e → ok e) (φ := fun p => p.due.toNat)
    (f := fun x => (kind x).isInvoked) (g := fun _ => false) ?_ hp hok
  · rw [List.countP_false, Function.const_apply, Nat.zero_add] at hcount
    exact hcount
  · intro p x q hp hx hs
    generalize kind x = n at hs hx
    cases hs with
    | sent e haccepts _ => exact ⟨hM.sent hp haccepts (hx e rfl), le_rfl⟩
    | updated expired hidle =>
      obtain ⟨hruns, hP⟩ := hM.updated expired hp
      exact ⟨hP, by simp [Phase.due, hruns, Note.isInvoked]⟩
    | blocked hturned => exact ⟨hp, by simp [Phase.due, Note.isInvoked]⟩
    | invoked hdue => exact ⟨hp, by simp [Phase.due, hdue, Note.isInvoked]⟩
    | other => exact ⟨hp, le_rfl⟩

/-- In a final state nothing more happens. -/
theorem Run.of_final {final : σ} (h : M.Run kind p log q) (hp : p.state = final)
    (hdue : p.due = false) (hruns : M.runs final = false)
    (hnext : ∀ pending expired, M.next final pending expired = final) :
    q.state = final ∧ log.countP (fun x => (kind x).isInvoked) = 0 := by
  have hM : M.Halts (fun _ => True) fun s _ => s = final := by
    refine ⟨fun hs _ _ => hs, ?_⟩
    rintro s pending expired rfl
    rw [hnext]
    exact ⟨hruns, rfl⟩
  constructor
  · refine h.invariant (P := fun p => p.state = final) (R := fun _ => True) ?_ hp
      fun _ _ => trivial
    intro p x q hp _ hs
    generalize kind x = n at hs
    cases hs with
    | updated expired _ => exact (hM.updated expired hp).2
    | _ => exact hp
  · have hcount := hM.countP_add_due_le h hp fun _ _ _ _ => trivial
    rw [hdue, Bool.toNat_false] at hcount
    omega

/-- Between an entry `start` and the next entry `stop` there is at most one entry `f`. -/
def AtMostOneAfter (start stop f : α → Bool) (log : List α) : Prop :=
  ∀ pre x mid post, log = pre ++ x :: (mid ++ post) → start x = true →
    (∀ y ∈ mid, stop y = false) → mid.countP f ≤ 1

/-- After an accepted event that makes `P` hold, the function is called at most once
    until an event comes that is not `ok`. -/
theorem Halts.atMostOneAfter {ok : ε → Prop} {P : σ → (ε → Bool) → Prop} (hM : Halts M ok P)
    {start stop : α → Bool}
    (hstart : ∀ x, start x = true → ∃ e, kind x = .sent e ∧ ∀ s pending,
      M.accepts s e = true → P s (Function.update pending e true))
    (hstop : ∀ x e, stop x = false → kind x = .sent e → ok e) (h : M.Run kind p log q) :
    AtMostOneAfter start stop (fun x => (kind x).isInvoked) log := by
  rintro pre x mid post rfl hx hmid
  obtain ⟨q₁, -, hrun⟩ := h.split
  obtain ⟨q₂, hstep, hrun⟩ := hrun.cons_inv
  obtain ⟨q₃, hrun, -⟩ := hrun.split
  obtain ⟨e, hkind, hP⟩ := hstart x hx
  have hp : P q₂.state q₂.pending := by
    rw [hkind] at hstep
    cases hstep with
    | sent _ haccepts _ => exact hP _ _ haccepts
  have hcount := hM.countP_add_due_le hrun hp fun y hy e he => hstop y e (hmid y hy) he
  have hdue : q₂.due.toNat ≤ 1 := Bool.toNat_le _
  omega

end EventMachine

/-! ## Matchings in a log -/

private theorem exists_of_lt_count {Q : ℕ → Prop} [DecidablePred Q] {k n : ℕ}
    (h : k < Nat.count Q n) : ∃ j < n, Q j ∧ Nat.count Q j = k := by
  induction n with
  | zero => exact absurd h (Nat.not_lt_zero k)
  | succ n ih =>
    by_cases hn : Q n
    · rw [Nat.count_succ, if_pos hn] at h
      obtain hlt | heq := Nat.lt_succ_iff_lt_or_eq.mp h
      · obtain ⟨j, hj, hQ⟩ := ih hlt
        exact ⟨j, hj.trans (Nat.lt_succ_self n), hQ⟩
      · exact ⟨n, Nat.lt_succ_self n, hn, heq.symm⟩
    · rw [Nat.count_succ, if_neg hn] at h
      obtain ⟨j, hj, hQ⟩ := ih h
      exact ⟨j, hj.trans (Nat.lt_succ_self n), hQ⟩

/-- When at each `P` there were fewer `P` than `Q` before, each `P` can be given a
    `Q` of its own that came before it. -/
theorem exists_matching {P Q : ℕ → Prop} [DecidablePred P] [DecidablePred Q]
    (h : ∀ i, P i → Nat.count P i < Nat.count Q i) :
    ∃ f : ℕ → ℕ, (∀ i, P i → Q (f i) ∧ f i < i) ∧
      ∀ i j, P i → P j → f i = f j → i = j := by
  have hex : ∀ i, ∃ j, P i → j < i ∧ Q j ∧ Nat.count Q j = Nat.count P i := by
    intro i
    by_cases hi : P i
    · obtain ⟨j, hj⟩ := exists_of_lt_count (h i hi)
      exact ⟨j, fun _ => hj⟩
    · exact ⟨0, fun hp => absurd hp hi⟩
  choose f hf using hex
  refine ⟨f, fun i hi => ⟨(hf i hi).2.1, (hf i hi).1⟩, ?_⟩
  intro i j hi hj heq
  refine Nat.count_injective hi hj ?_
  rw [← (hf i hi).2.2, heq, (hf j hj).2.2]

/-- From position `start` of the log on, each entry `f` has an entry `g` of its own
    before it, from position `first` on. -/
def Matched {α : Type*} (f g : α → Bool) (first start : ℕ) (log : List α) : Prop :=
  ∃ m : ℕ → ℕ,
    (∀ i, start ≤ i → log[i]?.any f = true →
      first ≤ m i ∧ m i < i ∧ log[m i]?.any g = true) ∧
    ∀ i j, start ≤ i → log[i]?.any f = true → start ≤ j → log[j]?.any f = true →
      m i = m j → i = j

/-- The positions of a log from `start` on, counted, are its entries. -/
theorem count_positions {α : Type*} (f : α → Bool) (start : ℕ) (log : List α) (n : ℕ) :
    Nat.count (fun i => start ≤ i ∧ log[i]?.any f = true) n =
      ((log.take n).drop start).countP f := by
  induction n with
  | zero => simp
  | succ n ih =>
    rw [Nat.count_succ, ih, List.take_add_one]
    cases hx : log[n]? with
    | none => simp
    | some x =>
      have hlt : n < log.length := (List.getElem?_eq_some_iff.mp hx).1
      have hlen : (log.take n).length = n := List.length_take_of_le hlt.le
      by_cases hstart : start ≤ n
      · rw [Option.toList_some, List.drop_append_of_le_length (hlen.symm ▸ hstart),
          List.countP_append, List.countP_singleton]
        cases hf : f x <;> simp [hf, hstart]
      · have hdrop : ((log.take n ++ [x]).drop start) = [] := by
          rw [List.drop_eq_nil_iff, List.length_append, hlen, List.length_singleton]
          omega
        have hdrop' : ((log.take n).drop start) = [] := by
          rw [List.drop_eq_nil_iff, hlen]
          omega
        rw [Option.toList_some, hdrop, hdrop', if_neg fun hand => hstart hand.1]
        rfl

/-- When no stretch from `start` on has more entries `f` than there are entries `g`
    from `first` on up to its end, each `f` has a `g` of its own. -/
theorem matched_of_countP_le {α : Type*} {f g : α → Bool} (before between after : List α)
    (hdisjoint : ∀ x, f x = true → g x = false)
    (h : ∀ pre, pre <+: after → pre.countP f ≤ between.countP g + pre.countP g) :
    Matched f g before.length (before ++ between).length (before ++ between ++ after) := by
  set log := before ++ between ++ after with hlog
  have hdrop : ∀ n, (log.take n).drop (before ++ between).length =
      after.take (n - (before ++ between).length) := by
    intro n
    rw [List.drop_take, hlog, List.drop_left]
  have hdrop' : ∀ n, (before ++ between).length ≤ n → (log.take n).drop before.length =
      between ++ (log.take n).drop (before ++ between).length := by
    intro n hn
    rw [hdrop, List.drop_take, hlog, List.append_assoc, List.drop_left, List.take_append]
    rw [List.length_append] at hn ⊢
    rw [List.take_of_length_le (by omega), Nat.sub_sub]
  have hlt : ∀ i, ((before ++ between).length ≤ i ∧ log[i]?.any f = true) →
      Nat.count (fun i => (before ++ between).length ≤ i ∧ log[i]?.any f = true) i <
        Nat.count (fun i => before.length ≤ i ∧ log[i]?.any g = true) i := by
    rintro i ⟨hstart, hf⟩
    have hg : log[i]?.any g ≠ true := by
      cases hx : log[i]? with
      | none => exact Bool.false_ne_true
      | some x =>
        rw [hx, Option.any_some] at hf
        rw [Option.any_some, hdisjoint x hf]
        exact Bool.false_ne_true
    have hcount := h _ (List.take_prefix (i + 1 - (before ++ between).length) after)
    rw [← hdrop, ← List.countP_append, ← hdrop' (i + 1) (by omega), ← count_positions,
      ← count_positions, Nat.count_succ, Nat.count_succ, if_pos ⟨hstart, hf⟩,
      if_neg fun hand => hg hand.2] at hcount
    omega
  obtain ⟨m, hm, hinj⟩ := exists_matching hlt
  refine ⟨m, fun i hstart hf => ?_, fun i j hi hfi hj hfj => hinj i j ⟨hi, hfi⟩ ⟨hj, hfj⟩⟩
  obtain ⟨⟨hfirst, hg⟩, hmi⟩ := hm i ⟨hstart, hf⟩
  exact ⟨hfirst, hmi, hg⟩

end Monitor
