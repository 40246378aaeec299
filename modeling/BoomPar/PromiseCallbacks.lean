-- SUMMARY: Completion callbacks that may be NULL: exactly when no call goes through NULL and one registration wins.
import BoomPar.Monitor.Rules
import BoomPar.Promise

/-!
# Registering any pointer

`promised_callback` is NULL while no callback is registered, and a client may
register NULL. `set_promised_result` tests the pointer before it calls through
it; `set_promised_callback` does not.
-/

namespace BoomPar

open Monitor

/-- What a call returns. -/
inductive RegisterResult where
  | resultSet (wasSet : Bool)
  | callbackSet (wasSet : Bool)
  deriving DecidableEq

/-- A call of one of the two functions that can run the callback. -/
inductive RegisterCall where
  | setResult (res : Ptr)
  | setCallback (pcc : Ptr)
  deriving DecidableEq

/-- The control state of a thread, named by what it does next. -/
inductive RegisterPc where
  | setResult (res : Ptr)
  | setCallback (pcc : Ptr)
  /-- The lock is released, and the next step calls through `pcc`. -/
  | callback (pcc : Ptr) (r : RegisterResult)
  | returned (r : RegisterResult)
  deriving DecidableEq

abbrev RegisterConfig := Config Promise RegisterPc

def RegisterCall.start : RegisterCall → RegisterPc
  | .setResult res => .setResult res
  | .setCallback pcc => .setCallback pcc

/-- `set_promised_result`, up to the call of the callback: it is made only if the
    pointer read under the lock is not NULL. -/
def Promise.runSetResult (p : Promise) (res : Ptr) : Promise × RegisterPc :=
  let r := p.setPromisedResult res
  (r.1,
    if r.2.2.isSome && r.2.1 then .callback r.2.2 (.resultSet r.2.1)
    else .returned (.resultSet r.2.1))

/-- `set_promised_callback`, up to the call of the callback: it is made whenever the
    result is ready and the callback was set. -/
def Promise.runSetCallback (p : Promise) (pcc : Ptr) : Promise × RegisterPc :=
  let r := p.setPromisedCallback pcc
  (r.1,
    if r.2.2 && r.2.1 then .callback pcc (.callbackSet r.2.1) else .returned (.callbackSet r.2.1))

namespace Promise

theorem runSetResult_of_ready {p : Promise} (h : p.outputResultReady = true) (res : Ptr) :
    p.runSetResult res = (p, .returned (.resultSet false)) := by
  simp [runSetResult, setPromisedResult_of_ready h]

theorem runSetResult_of_none {p : Promise} (h : p.outputResultReady = false)
    (hnone : p.promisedCallback = none) (res : Ptr) :
    p.runSetResult res = (⟨true, res, ∅, none⟩, .returned (.resultSet true)) := by
  simp [runSetResult, setPromisedResult_of_not_ready h, hnone]

theorem runSetResult_of_some {p : Promise} (h : p.outputResultReady = false) {pcc : ℕ}
    (hsome : p.promisedCallback = some pcc) (res : Ptr) :
    p.runSetResult res =
      (⟨true, res, ∅, some pcc⟩, .callback (some pcc) (.resultSet true)) := by
  simp [runSetResult, setPromisedResult_of_not_ready h, hsome]

theorem runSetCallback_of_none {p : Promise} (h : p.promisedCallback = none) (pcc : Ptr) :
    p.runSetCallback pcc = ({ p with promisedCallback := pcc },
      if p.outputResultReady then .callback pcc (.callbackSet true)
      else .returned (.callbackSet true)) := by
  simp [runSetCallback, setPromisedCallback_of_none h]

theorem runSetCallback_of_some {p : Promise} {first : ℕ} (h : p.promisedCallback = some first)
    (pcc : Ptr) : p.runSetCallback pcc = (p, .returned (.callbackSet false)) := by
  simp [runSetCallback, setPromisedCallback_of_some h]

end Promise

/-- One section, or one call of a callback. -/
def registerStep (p : Promise) (_ : ℕ) :
    RegisterPc → Unit → Option (Promise × RegisterPc × List RegisterPc)
  | .setResult res, _ => quietly (p.runSetResult res)
  | .setCallback pcc, _ => quietly (p.runSetCallback pcc)
  | .callback (some _) r, _ => quietly (p, .returned r)
  -- a call through NULL does not come back
  | .callback none _, _ => none
  | .returned _, _ => none

def registerSystem : System Promise RegisterPc RegisterCall Unit where
  start _ := RegisterCall.start
  step := registerStep
  wake _ _ _ := none

/-- An initialized promise, which nobody uses yet. -/
def registerInit : RegisterConfig := ⟨.init, []⟩

namespace RegisterPc

/-- A call of `set_promised_callback` that has passed its section. -/
def tried : RegisterPc → Bool
  | .callback _ (.callbackSet _) => true
  | .returned (.callbackSet _) => true
  | _ => false

/-- A call of `set_promised_callback` that returns 1, at once or after the callback. -/
def registered : RegisterPc → Bool
  | .callback _ (.callbackSet wasSet) => wasSet
  | .returned (.callbackSet wasSet) => wasSet
  | _ => false

/-- The next step calls through NULL. -/
def callsNull : RegisterPc → Bool
  | .callback none _ => true
  | _ => false

end RegisterPc

/-- No thread is about to call through NULL, and at most one registration wins. -/
structure RegistrationSafe (c : RegisterConfig) : Prop where
  callable : c.count RegisterPc.callsNull = 0
  once : c.count RegisterPc.registered ≤ 1

/-- A registration that finds no callback registered is the first one tried, and
    does not register NULL when the result is ready. -/
def RegistersFirst (c : RegisterConfig) (pc : RegisterPc) : Prop :=
  ∀ pcc, pc = .setCallback pcc → c.shared.promisedCallback = none →
    c.count RegisterPc.tried = 0 ∧ (pcc = none → c.shared.outputResultReady = false)

/-! ## Moves -/

/-- One case for each branch, guards included. -/
inductive RegisterMove (p : Promise) : RegisterPc → Promise → RegisterPc → Prop
  | resultWins (res : Ptr) : p.outputResultReady = false → p.promisedCallback = none →
      RegisterMove p (.setResult res) ⟨true, res, ∅, none⟩ (.returned (.resultSet true))
  | resultCalls (res : Ptr) (pcc : ℕ) :
      p.outputResultReady = false → p.promisedCallback = some pcc →
      RegisterMove p (.setResult res) ⟨true, res, ∅, some pcc⟩
        (.callback (some pcc) (.resultSet true))
  | resultLoses (res : Ptr) : p.outputResultReady = true →
      RegisterMove p (.setResult res) p (.returned (.resultSet false))
  | callbackWins (pcc : Ptr) : p.promisedCallback = none → p.outputResultReady = false →
      RegisterMove p (.setCallback pcc) { p with promisedCallback := pcc }
        (.returned (.callbackSet true))
  | callbackCalls (pcc : Ptr) : p.promisedCallback = none → p.outputResultReady = true →
      RegisterMove p (.setCallback pcc) { p with promisedCallback := pcc }
        (.callback pcc (.callbackSet true))
  | callbackLoses (pcc : Ptr) (first : ℕ) : p.promisedCallback = some first →
      RegisterMove p (.setCallback pcc) p (.returned (.callbackSet false))
  | invoke (pcc : ℕ) (r : RegisterResult) :
      RegisterMove p (.callback (some pcc) r) p (.returned r)

theorem registerStep_move {p p' : Promise} {t : ℕ} {o : Unit} {pc pc' : RegisterPc}
    {new : List RegisterPc} (h : registerStep p t pc o = some (p', pc', new)) :
    RegisterMove p pc p' pc' ∧ new = [] := by
  cases pc with
  | setResult res =>
    rw [registerStep] at h
    cases hready : p.outputResultReady with
    | true =>
      rw [Promise.runSetResult_of_ready hready] at h
      cases h
      exact ⟨.resultLoses res hready, rfl⟩
    | false =>
      cases hset : p.promisedCallback with
      | none =>
        rw [Promise.runSetResult_of_none hready hset] at h
        cases h
        exact ⟨.resultWins res hready hset, rfl⟩
      | some pcc =>
        rw [Promise.runSetResult_of_some hready hset] at h
        cases h
        exact ⟨.resultCalls res pcc hready hset, rfl⟩
  | setCallback pcc =>
    rw [registerStep] at h
    cases hset : p.promisedCallback with
    | none =>
      rw [Promise.runSetCallback_of_none hset] at h
      split at h
      · rename_i hready
        cases h
        exact ⟨.callbackCalls pcc hset hready, rfl⟩
      · rename_i hnot
        cases h
        exact ⟨.callbackWins pcc hset (Bool.eq_false_iff.mpr hnot), rfl⟩
    | some first =>
      rw [Promise.runSetCallback_of_some hset] at h
      cases h
      exact ⟨.callbackLoses pcc first hset, rfl⟩
  | callback pcc r =>
    cases pcc with
    | none => cases h
    | some pcc => cases h; exact ⟨.invoke pcc r, rfl⟩
  | returned r => cases h

/-- While no callback is registered, every registration that was tried has won. -/
def TriedRegistered (c : RegisterConfig) : Prop :=
  c.shared.promisedCallback = none →
    c.count RegisterPc.tried = c.count RegisterPc.registered

theorem RegisterPc.returned_eq (pcc : ℕ) (r : RegisterResult) :
    (RegisterPc.returned r).tried = (RegisterPc.callback (some pcc) r).tried ∧
      (RegisterPc.returned r).registered = (RegisterPc.callback (some pcc) r).registered := by
  cases r <;> exact ⟨rfl, rfl⟩

/-- A step creates no thread. -/
theorem noThread {p : RegisterPc → Bool} : ∀ q ∈ ([] : List RegisterPc), p q = false := nofun

/-- Trying and winning are still the same after a move that is both or neither. -/
theorem TriedRegistered.move {c : RegisterConfig} (h : TriedRegistered c) {t : ℕ}
    {pc pc' : RegisterPc} {p' : Promise} (hpc : c.pc? t = some pc)
    (hnone : c.shared.promisedCallback = none)
    (hsame : pc'.tried.toNat + pc.registered.toNat = pc.tried.toNat + pc'.registered.toNat) :
    (c.move t p' pc' []).count RegisterPc.tried =
      (c.move t p' pc' []).count RegisterPc.registered := by
  have htried := Config.count_move (p := RegisterPc.tried) hpc p' pc' noThread
  have hregistered := Config.count_move (p := RegisterPc.registered) hpc p' pc' noThread
  have hbefore := h hnone
  omega

theorem RegisterMove.triedRegistered {c : RegisterConfig} (h : TriedRegistered c) {t : ℕ}
    {pc pc' : RegisterPc} {p' : Promise} (hpc : c.pc? t = some pc)
    (hmove : RegisterMove c.shared pc p' pc') : TriedRegistered (c.move t p' pc' []) := by
  intro hnone
  cases hmove with
  | resultWins res _ hset => exact h.move hpc hset rfl
  | resultCalls res pcc _ hset => cases hnone
  | resultLoses res _ => exact h.move hpc hnone rfl
  | callbackWins pcc hset _ => exact h.move hpc hset rfl
  | callbackCalls pcc hset _ => exact h.move hpc hset rfl
  | callbackLoses pcc first hset => exact nomatch hset.symm.trans hnone
  | invoke pcc r =>
    -- the callback was tried and won when it was registered
    refine h.move hpc hnone ?_
    rw [(RegisterPc.returned_eq pcc r).1, (RegisterPc.returned_eq pcc r).2]

/-- A step keeps the registration safe exactly if it registers first. -/
theorem RegisterMove.safe_iff {c : RegisterConfig} (htried : TriedRegistered c)
    (hsafe : RegistrationSafe c) {t : ℕ} {pc pc' : RegisterPc} {p' : Promise}
    (hpc : c.pc? t = some pc) (hmove : RegisterMove c.shared pc p' pc') :
    RegistrationSafe (c.move t p' pc' []) ↔ RegistersFirst c pc := by
  have hnull := Config.count_move (p := RegisterPc.callsNull) hpc p' pc' noThread
  have honce := Config.count_move (p := RegisterPc.registered) hpc p' pc' noThread
  rw [hsafe.callable] at hnull
  have hle := hsafe.once
  cases hmove with
  | callbackWins pcc hset hready =>
    simp only [RegisterPc.callsNull, RegisterPc.registered, Bool.toNat_true,
      Bool.toNat_false] at hnull honce
    constructor
    · intro h pcc' heq _
      have := h.once
      have := htried hset
      exact ⟨by omega, fun _ => hready⟩
    · intro h
      have := (h pcc rfl hset).1
      have := htried hset
      exact ⟨by omega, by omega⟩
  | callbackCalls pcc hset hready =>
    simp only [RegisterPc.registered, Bool.toNat_true, Bool.toNat_false] at honce
    constructor
    · intro h pcc' heq _
      cases heq
      have := h.once
      have := htried hset
      refine ⟨by omega, ?_⟩
      rintro rfl
      have := h.callable
      simp only [RegisterPc.callsNull, Bool.toNat_true, Bool.toNat_false] at hnull
      omega
    · intro h
      obtain ⟨hfirst, hnonnull⟩ := h pcc rfl hset
      have := htried hset
      cases pcc with
      | none => exact nomatch hready.symm.trans (hnonnull rfl)
      | some pcc =>
        simp only [RegisterPc.callsNull, Bool.toNat_false] at hnull
        exact ⟨by omega, by omega⟩
  | callbackLoses pcc first hset =>
    simp only [RegisterPc.callsNull, RegisterPc.registered, Bool.toNat_false] at hnull honce
    refine iff_of_true ⟨by omega, by omega⟩ ?_
    intro pcc' _ hnone
    exact nomatch hset.symm.trans hnone
  | invoke pcc r =>
    simp only [RegisterPc.callsNull, Bool.toNat_false] at hnull
    rw [(RegisterPc.returned_eq pcc r).2] at honce
    exact iff_of_true ⟨by omega, by omega⟩ nofun
  | _ =>
    simp only [RegisterPc.callsNull, RegisterPc.registered, Bool.toNat_false] at hnull honce
    exact iff_of_true ⟨by omega, by omega⟩ nofun

/-! ## Runs -/

/-- A call that starts has tried nothing and calls through nothing. -/
theorem RegisterCall.start_quiet (k : RegisterCall) :
    k.start.tried = false ∧ k.start.registered = false ∧ k.start.callsNull = false := by
  cases k <;> exact ⟨rfl, rfl, rfl⟩

theorem RegistersFirst.push_iff {c : RegisterConfig} (k : RegisterCall) :
    RegistersFirst (c.push k.start) k.start ↔ RegistersFirst c k.start := by
  simp only [RegistersFirst, Config.push_shared, Config.count_push, k.start_quiet.1,
    Bool.toNat_false, Nat.add_zero]

theorem RegistrationSafe.push {c : RegisterConfig} (h : RegistrationSafe c) (k : RegisterCall) :
    RegistrationSafe (c.push k.start) where
  callable := by rw [Config.count_push, h.callable, k.start_quiet.2.2]; rfl
  once := by rw [Config.count_push, k.start_quiet.2.1]; exact h.once

theorem TriedRegistered.push {c : RegisterConfig} (h : TriedRegistered c) (k : RegisterCall) :
    TriedRegistered (c.push k.start) := by
  intro hnone
  rw [Config.count_push, Config.count_push, k.start_quiet.1, k.start_quiet.2.1, h hnone]

theorem triedRegistered_reach {c : RegisterConfig}
    (h : registerSystem.Reach (fun _ _ => True) registerInit c) : TriedRegistered c := by
  refine h.invariant (fun _ => rfl) fun c a c' _ hc _ hn => ?_
  refine System.next_induction (P := TriedRegistered) (fun c k hc => hc.push k) ?_ ?_ hc hn
  · intro c t pc o p' pc' new hc hpc hstep
    obtain ⟨hmove, rfl⟩ := registerStep_move (t := t) hstep
    exact hmove.triedRegistered hc hpc
  · exact fun c t pc p' _ _ hwake => nomatch hwake

/-- In a run no call goes through NULL and one registration wins at most, exactly
    if every registration that finds none registered is the first one tried and does
    not register NULL for a result that is ready. -/
theorem registration_safe_iff (as : List (Act RegisterCall Unit)) :
    (∀ c, registerSystem.Visits registerInit as c → RegistrationSafe c) ↔
      ∀ c a c', registerSystem.Takes registerInit as c a c' →
        ∀ pc o, registerSystem.runs? c a = some (pc, o) → RegistersFirst c pc := by
  refine System.forall_visits_iff ⟨rfl, Nat.zero_le _⟩ ?_ as
  intro c a c' hreach hsafe hn
  have htried := triedRegistered_reach hreach
  cases a with
  | call k o =>
    obtain ⟨pc, p', pc', new, hpc, hstep, rfl⟩ := System.stepAt_cases hn
    obtain ⟨hmove, rfl⟩ := registerStep_move (t := c.threads.length) hstep
    refine (hmove.safe_iff (htried.push k) (hsafe.push k) hpc).trans ?_
    rw [Config.pc?_push_self] at hpc
    cases hpc
    refine (RegistersFirst.push_iff k).trans ?_
    constructor
    · intro h pc o' hruns
      cases hruns
      exact h
    · exact fun h => h _ _ rfl
  | step t o =>
    obtain ⟨pc, p', pc', new, hpc, hstep, rfl⟩ := System.stepAt_cases hn
    obtain ⟨hmove, rfl⟩ := registerStep_move (t := t) hstep
    refine (hmove.safe_iff htried hsafe hpc).trans ?_
    constructor
    · intro h pc₁ o' hruns
      rw [System.runs?, hpc] at hruns
      cases hruns
      exact h
    · exact fun h => h pc o (by rw [System.runs?, hpc]; rfl)
  | wake t =>
    obtain ⟨pc, p', -, hwake, -⟩ := System.next_wake_cases hn
    cases hwake

/-- NULL is registered, and then a callback. -/
def nullThenCallback : RegisterConfig :=
  registerSystem.run registerInit [.call (.setCallback none) (), .call (.setCallback (some 1)) ()]
    (by decide)

/-- NULL is registered for a result that is ready. -/
def nullForResult : RegisterConfig :=
  registerSystem.run registerInit [.call (.setResult (some 7)) (), .call (.setCallback none) ()]
    (by decide)

/-- Both registrations win, and the call goes through NULL. -/
theorem registration_not_safe :
    (∃ c, registerSystem.Reach (fun _ _ => True) registerInit c ∧
      c.count RegisterPc.registered = 2) ∧
    ∃ c t r, registerSystem.Reach (fun _ _ => True) registerInit c ∧
      c.pc? t = some (.callback none r) :=
  ⟨⟨nullThenCallback, .run _ _ _, by decide⟩,
    nullForResult, 1, .callbackSet true, .run _ _ _, by decide⟩

end BoomPar
