-- SUMMARY: The threads of a promise: one result wins, and one callback runs, once.
import BoomPar.Monitor.Rules
import BoomPar.Promise

/-!
# Threads of a promise

Whoever completes a promise that has both its result and its callback runs the
callback: the call that sets the result, or the one that sets the callback. The
decision is taken under `promise_lock`, and the callback runs after its release.
-/

namespace BoomPar

open Monitor

/-- A promise, and the callbacks that ran. -/
structure PromiseState where
  promise : Promise
  invoked : List ℕ
  deriving DecidableEq

inductive PromiseResult where
  | resultSet (res : Ptr) (wasSet : Bool)
  | got (res : Ptr)
  | ready (isReady : Bool)
  | callbackSet (pcc : ℕ) (wasSet : Bool)
  deriving DecidableEq

/-- A call of one of the functions; a callback is not NULL. -/
inductive PromiseCall where
  | setResult (res : Ptr)
  | getResult
  | isReady
  | setCallback (pcc : ℕ)
  deriving DecidableEq

/-- The control state of a thread, named by the section it enters next. -/
inductive PromisePc where
  | setResult (res : Ptr)
  | getResult
  | getWaiting
  | isReady
  | setCallback (pcc : ℕ)
  /-- The lock is released, and the callback is still to run. -/
  | callback (pcc : ℕ) (r : PromiseResult)
  | returned (r : PromiseResult)
  deriving DecidableEq

abbrev PromiseConfig := Config PromiseState PromisePc

def PromiseCall.start : PromiseCall → PromisePc
  | .setResult res => .setResult res
  | .getResult => .getResult
  | .isReady => .isReady
  | .setCallback pcc => .setCallback pcc

/-- Run a callback after the release of the lock, if there is one to run. -/
def PromisePc.after (pcc : Ptr) (r : PromiseResult) : PromisePc :=
  match pcc with
  | none => .returned r
  | some pcc => .callback pcc r

/-- What the call of a thread returns, once it has passed its section. -/
def PromisePc.result? : PromisePc → Option PromiseResult
  | .callback _ r => some r
  | .returned r => some r
  | _ => none

namespace PromiseState

def setResult (s : PromiseState) (res : Ptr) : PromiseState × PromisePc :=
  let r := s.promise.setPromisedResult res
  ({ s with promise := r.1 }, .after (if r.2.1 then r.2.2 else none) (.resultSet res r.2.1))

def getResult (s : PromiseState) (t : ℕ) : PromiseState × PromisePc :=
  match s.promise.getPromisedResult with
  | some res => (s, .returned (.got res))
  | none =>
    ({ s with promise := { s.promise with promiseWait := s.promise.promiseWait.wait t } },
      .getWaiting)

def setCallback (s : PromiseState) (pcc : ℕ) : PromiseState × PromisePc :=
  let r := s.promise.setPromisedCallback (some pcc)
  ({ s with promise := r.1 },
    .after (if r.2.2 && r.2.1 then some pcc else none) (.callbackSet pcc r.2.1))

end PromiseState

/-- One section of thread `t`. -/
def promiseStep (s : PromiseState) (t : ℕ) :
    PromisePc → Unit → Option (PromiseState × PromisePc × List PromisePc)
  | .setResult res, _ => quietly (s.setResult res)
  | .getResult, _ => quietly (s.getResult t)
  | .getWaiting, _ => if t ∈ s.promise.promiseWait then none else quietly (s.getResult t)
  | .isReady, _ => quietly (s, .returned (.ready s.promise.isPromisedResultReady))
  | .setCallback pcc, _ => quietly (s.setCallback pcc)
  | .callback pcc r, _ => quietly ({ s with invoked := s.invoked ++ [pcc] }, .returned r)
  | .returned _, _ => none

/-- A thread that waits for the result wakes spuriously. -/
def promiseWake (s : PromiseState) (t : ℕ) : PromisePc → Option PromiseState
  | .getWaiting =>
    some { s with promise := { s.promise with promiseWait := s.promise.promiseWait.erase t } }
  | _ => none

def promiseSystem : System PromiseState PromisePc PromiseCall Unit where
  start _ := PromiseCall.start
  step := promiseStep
  wake := promiseWake

/-- An initialized promise, which nobody uses yet. -/
def promiseInit : PromiseConfig := ⟨⟨.init, []⟩, []⟩

/-- The configurations that any interleaving of any calls leads to. -/
def PromiseReach : PromiseConfig → Prop := promiseSystem.Reach (fun _ _ => True) promiseInit

/-! ## Moves -/

/-- A thread is about to test the wait loop. -/
inductive PromiseGetAt (s : PromiseState) (t : ℕ) : PromisePc → Prop
  | call : PromiseGetAt s t .getResult
  | resume : t ∉ s.promise.promiseWait → PromiseGetAt s t .getWaiting

/-- One case for each branch of each section, guards included. -/
inductive PromiseMove (s : PromiseState) (t : ℕ) : PromisePc → PromiseState → PromisePc → Prop
  | resultWins (res : Ptr) : s.promise.outputResultReady = false →
      PromiseMove s t (.setResult res)
        { s with promise := ⟨true, res, ∅, s.promise.promisedCallback⟩ }
        (.after s.promise.promisedCallback (.resultSet res true))
  | resultLoses (res : Ptr) : s.promise.outputResultReady = true →
      PromiseMove s t (.setResult res) s (.returned (.resultSet res false))
  | got (pc : PromisePc) : PromiseGetAt s t pc → s.promise.outputResultReady = true →
      PromiseMove s t pc s (.returned (.got s.promise.outputResult))
  | wait (pc : PromisePc) : PromiseGetAt s t pc → s.promise.outputResultReady = false →
      PromiseMove s t pc
        { s with promise := { s.promise with promiseWait := s.promise.promiseWait.wait t } }
        .getWaiting
  | isReady : PromiseMove s t .isReady s (.returned (.ready s.promise.outputResultReady))
  | callbackWins (pcc : ℕ) (run : Ptr) : s.promise.promisedCallback = none →
      run = (if s.promise.outputResultReady then some pcc else none) →
      PromiseMove s t (.setCallback pcc)
        { s with promise := { s.promise with promisedCallback := some pcc } }
        (.after run (.callbackSet pcc true))
  | callbackLoses (pcc first : ℕ) : s.promise.promisedCallback = some first →
      PromiseMove s t (.setCallback pcc) s (.returned (.callbackSet pcc false))
  | invoke (pcc : ℕ) (r : PromiseResult) :
      PromiseMove s t (.callback pcc r) { s with invoked := s.invoked ++ [pcc] } (.returned r)

theorem promise_getResult_move {s s' : PromiseState} {t : ℕ} {pc pc' : PromisePc}
    {new : List PromisePc} (hat : PromiseGetAt s t pc)
    (h : quietly (s.getResult t) = some (s', pc', new)) : PromiseMove s t pc s' pc' ∧ new = [] := by
  simp only [PromiseState.getResult] at h
  cases hready : s.promise.outputResultReady with
  | true =>
    rw [Promise.getPromisedResult_of_ready hready] at h
    cases h
    exact ⟨.got pc hat hready, rfl⟩
  | false =>
    rw [Promise.getPromisedResult_of_not_ready hready] at h
    cases h
    exact ⟨.wait pc hat hready, rfl⟩

theorem promiseStep_move {s s' : PromiseState} {t : ℕ} {o : Unit} {pc pc' : PromisePc}
    {new : List PromisePc} (h : promiseStep s t pc o = some (s', pc', new)) :
    PromiseMove s t pc s' pc' ∧ new = [] := by
  cases pc with
  | setResult res =>
    simp only [promiseStep, PromiseState.setResult] at h
    cases hready : s.promise.outputResultReady with
    | true =>
      rw [Promise.setPromisedResult_of_ready hready] at h
      cases h
      exact ⟨.resultLoses res hready, rfl⟩
    | false =>
      rw [Promise.setPromisedResult_of_not_ready hready] at h
      cases h
      exact ⟨.resultWins res hready, rfl⟩
  | getResult => exact promise_getResult_move .call h
  | getWaiting =>
    simp only [promiseStep] at h
    split at h
    · cases h
    · rename_i hwoken
      exact promise_getResult_move (.resume hwoken) h
  | isReady => cases h; exact ⟨.isReady, rfl⟩
  | setCallback pcc =>
    simp only [promiseStep, PromiseState.setCallback] at h
    cases hfirst : s.promise.promisedCallback with
    | none =>
      rw [Promise.setPromisedCallback_of_none hfirst] at h
      cases h
      exact ⟨.callbackWins pcc _ hfirst (by rw [Bool.and_true]), rfl⟩
    | some first =>
      rw [Promise.setPromisedCallback_of_some hfirst] at h
      cases h
      rw [Bool.and_false]
      exact ⟨.callbackLoses pcc first hfirst, rfl⟩
  | callback pcc r => cases h; exact ⟨.invoke pcc r, rfl⟩
  | returned r => cases h

theorem promiseWake_frame {s s' : PromiseState} {t : ℕ} {pc : PromisePc}
    (h : promiseWake s t pc = some s') :
    ∃ cv, s' = { s with promise := { s.promise with promiseWait := cv } } := by
  cases pc with
  | getWaiting => cases h; exact ⟨_, rfl⟩
  | _ => cases h

/-! ## What never changes again -/

/-- A result that is ready stays, and so does a callback that is set. -/
structure Promise.Keeps (p p' : Promise) : Prop where
  result : p.outputResultReady = true →
    p'.outputResultReady = true ∧ p'.outputResult = p.outputResult
  callback : ∀ pcc, p.promisedCallback = some pcc → p'.promisedCallback = some pcc

theorem Promise.Keeps.refl (p : Promise) : p.Keeps p := ⟨fun h => ⟨h, rfl⟩, fun _ => id⟩

theorem PromiseMove.keeps {s s' : PromiseState} {t : ℕ} {pc pc' : PromisePc}
    (h : PromiseMove s t pc s' pc') : s.promise.Keeps s'.promise := by
  cases h with
  | resultWins res hnot =>
    refine ⟨fun hready => ?_, fun _ => id⟩
    rw [hready] at hnot
    cases hnot
  | wait pc _ _ => exact ⟨fun hready => ⟨hready, rfl⟩, fun _ => id⟩
  | callbackWins pcc run hfirst _ =>
    refine ⟨fun hready => ⟨hready, rfl⟩, fun first hset => ?_⟩
    rw [hfirst] at hset
    cases hset
  | _ => exact .refl _

/-- What the promise shows after a call returned `r`. -/
def Promise.Shows (p : Promise) : PromiseResult → Prop
  | .resultSet res wasSet => p.outputResultReady = true ∧ (wasSet = true → p.outputResult = res)
  | .got res => p.outputResultReady = true ∧ p.outputResult = res
  | .ready isReady => isReady = true → p.outputResultReady = true
  | .callbackSet pcc wasSet => wasSet = true → p.promisedCallback = some pcc

theorem Promise.Shows.keep {p p' : Promise} {r : PromiseResult} (h : p.Shows r)
    (hkeeps : p.Keeps p') : p'.Shows r := by
  cases r with
  | resultSet res wasSet =>
    obtain ⟨hready, hres⟩ := hkeeps.result h.1
    exact ⟨hready, fun hwins => hres.trans (h.2 hwins)⟩
  | got res =>
    obtain ⟨hready, hres⟩ := hkeeps.result h.1
    exact ⟨hready, hres.trans h.2⟩
  | ready isReady => exact fun hread => (hkeeps.result (h hread)).1
  | callbackSet pcc wasSet => exact fun hwins => hkeeps.callback pcc (h hwins)

/-- The callback is set and the result is ready. -/
def Promise.Completes (p : Promise) (pcc : ℕ) : Prop :=
  p.promisedCallback = some pcc ∧ p.outputResultReady = true

theorem Promise.Completes.keep {p p' : Promise} {pcc : ℕ} (h : p.Completes pcc)
    (hkeeps : p.Keeps p') : p'.Completes pcc :=
  ⟨hkeeps.callback pcc h.1, (hkeeps.result h.2).1⟩

/-- Every callback that ran is the one of a completed promise. -/
def PromiseState.RanCompleted (s : PromiseState) : Prop :=
  ∀ pcc ∈ s.invoked, s.promise.Completes pcc

/-- The call set the result. -/
def PromiseResult.setsResult : PromiseResult → Bool
  | .resultSet _ wasSet => wasSet
  | _ => false

/-- The call set the callback. -/
def PromiseResult.setsCallback : PromiseResult → Bool
  | .callbackSet _ wasSet => wasSet
  | _ => false

/-- What a thread knows at its control state; only winners run callbacks. -/
def PromiseKnows (s : PromiseState) : PromisePc → Prop
  | .callback pcc r =>
    s.promise.Completes pcc ∧ s.promise.Shows r ∧ (r.setsResult = true ∨ r.setsCallback = true)
  | .returned r => s.promise.Shows r
  | _ => True

theorem PromiseKnows.keep {s s' : PromiseState} (hkeeps : s.promise.Keeps s'.promise)
    {pc : PromisePc} (h : PromiseKnows s pc) : PromiseKnows s' pc := by
  cases pc with
  | callback pcc r => exact ⟨h.1.keep hkeeps, h.2.1.keep hkeeps, h.2.2⟩
  | returned r => exact Promise.Shows.keep h hkeeps
  | _ => trivial

theorem PromiseKnows.after {s : PromiseState} {pcc : Ptr} {r : PromiseResult}
    (hcompletes : ∀ k, pcc = some k → s.promise.Completes k) (h : s.promise.Shows r)
    (hwins : r.setsResult = true ∨ r.setsCallback = true) : PromiseKnows s (.after pcc r) := by
  cases pcc with
  | none => exact h
  | some k => exact ⟨hcompletes k rfl, h, hwins⟩

theorem PromiseMove.knows {s s' : PromiseState} {t : ℕ} {pc pc' : PromisePc}
    (h : PromiseMove s t pc s' pc') (hpc : PromiseKnows s pc) : PromiseKnows s' pc' := by
  cases h with
  | resultWins res _ => exact .after (fun k hset => ⟨hset, rfl⟩) ⟨rfl, fun _ => rfl⟩ (.inl rfl)
  | resultLoses res hready => exact ⟨hready, nofun⟩
  | got pc _ hready => exact ⟨hready, rfl⟩
  | wait pc _ _ => trivial
  | isReady => exact id
  | callbackWins pcc run _ hrun =>
    refine .after (fun k hk => ?_) (fun _ => rfl) (.inr rfl)
    rw [hk] at hrun
    split at hrun
    · rename_i hready
      exact ⟨hrun.symm, hready⟩
    · cases hrun
  | callbackLoses pcc first _ => exact nofun
  | invoke pcc r => exact hpc.2.1

theorem promise_upholds :
    System.Upholds promiseSystem PromiseState.RanCompleted PromiseKnows where
  start s t k := by cases k <;> trivial
  step hs hran hpc := by
    obtain ⟨hmove, rfl⟩ := promiseStep_move hs
    have hkeeps := hmove.keeps
    refine ⟨?_, hmove.knows hpc, nofun, fun q => PromiseKnows.keep hkeeps⟩
    cases hmove with
    | invoke pcc r =>
      intro k hk
      obtain hold | hnew := List.mem_append.mp hk
      · exact hran k hold
      · exact List.mem_singleton.mp hnew ▸ hpc.1
    | _ => exact fun k hk => (hran k hk).keep hkeeps
  wake hs hran := by
    obtain ⟨cv, rfl⟩ := promiseWake_frame hs
    exact ⟨hran, fun q => id⟩

/-! ## What the winners account for -/

/-- The call has passed its section, with a result `p`. -/
def PromisePc.passed (p : PromiseResult → Bool) (pc : PromisePc) : Bool := pc.result?.any p

/-- The callback is still to run. -/
def PromisePc.runs : PromisePc → Bool
  | .callback _ _ => true
  | _ => false

@[simp] theorem PromisePc.passed_after (p : PromiseResult → Bool) (pcc : Ptr) (r : PromiseResult) :
    (PromisePc.after pcc r).passed p = p r := by
  cases pcc <;> rfl

@[simp] theorem PromisePc.runs_after (pcc : Ptr) (r : PromiseResult) :
    (PromisePc.after pcc r).runs = pcc.isSome := by
  cases pcc <;> rfl

/-- The result is ready exactly if one call set it. -/
theorem promise_result_balanced : System.Balanced promiseSystem (fun _ => True)
    (fun pc => (pc.passed PromiseResult.setsResult).toNat) (fun _ => 0)
    (fun s => s.promise.outputResultReady.toNat) where
  start _ k := by cases k <;> rfl
  step hs _ _ := by
    obtain ⟨hmove, rfl⟩ := promiseStep_move hs
    cases hmove with
    | resultWins res hready =>
      rw [PromisePc.passed_after, hready]
      rfl
    | got pc hat _ => cases hat <;> rfl
    | wait pc hat _ => cases hat <;> rfl
    | callbackWins pcc run _ _ =>
      rw [PromisePc.passed_after]
      rfl
    | _ => rfl
  wake hs := by
    obtain ⟨cv, rfl⟩ := promiseWake_frame hs
    rfl

/-- The callback is there exactly if one call set it. -/
theorem promise_callback_balanced : System.Balanced promiseSystem (fun _ => True)
    (fun pc => (pc.passed PromiseResult.setsCallback).toNat) (fun _ => 0)
    (fun s => s.promise.promisedCallback.isSome.toNat) where
  start _ k := by cases k <;> rfl
  step hs _ _ := by
    obtain ⟨hmove, rfl⟩ := promiseStep_move hs
    cases hmove with
    | resultWins res _ =>
      rw [PromisePc.passed_after]
      rfl
    | got pc hat _ => cases hat <;> rfl
    | wait pc hat _ => cases hat <;> rfl
    | callbackWins pcc run hfirst _ =>
      rw [PromisePc.passed_after, hfirst]
      rfl
    | _ => rfl
  wake hs := by
    obtain ⟨cv, rfl⟩ := promiseWake_frame hs
    rfl

/-- The callback of a completed promise ran, or is still to run. -/
theorem promise_invoked_balanced : System.Balanced promiseSystem (fun _ => True)
    (fun pc => pc.runs.toNat) (fun s => s.invoked.length)
    (fun s => (s.promise.outputResultReady && s.promise.promisedCallback.isSome).toNat) where
  start _ k := by cases k <;> rfl
  step {s t pc o s' pc' new} hs _ _ := by
    obtain ⟨hmove, rfl⟩ := promiseStep_move hs
    cases hmove with
    | resultWins res hready =>
      rw [PromisePc.runs_after, hready]
      simp [PromisePc.runs]
    | got pc hat _ => cases hat <;> rfl
    | wait pc hat _ => cases hat <;> rfl
    | callbackWins pcc run hfirst hrun =>
      rw [PromisePc.runs_after, hfirst, hrun]
      cases s.promise.outputResultReady <;> simp [PromisePc.runs]
    | invoke pcc r =>
      rw [List.length_append, List.length_singleton]
      simp only [PromisePc.runs, Bool.toNat_true, Bool.toNat_false, List.map_nil, List.sum_nil]
      omega
    | _ => rfl
  wake hs := by
    obtain ⟨cv, rfl⟩ := promiseWake_frame hs
    rfl

/-! ## One result, one callback -/

/-- The call of thread `t` has passed its section and returns `r`. -/
def PromiseReturns (c : PromiseConfig) (t : ℕ) (r : PromiseResult) : Prop :=
  ∃ pc, c.pc? t = some pc ∧ pc.result? = some r

/-- The promise gets one result and runs one callback, once. -/
structure PromiseOnce (c : PromiseConfig) : Prop where
  /-- Of the calls that set a result exactly one wins. -/
  one_result : (∃ t res wasSet, PromiseReturns c t (.resultSet res wasSet)) →
    ∃! t, ∃ res, PromiseReturns c t (.resultSet res true)
  /-- The result that a call gets is that of the winner. -/
  got_result : ∀ t res, PromiseReturns c t (.got res) →
    ∃ u, PromiseReturns c u (.resultSet res true)
  /-- Once the promise was read or found to be ready, it is ready. -/
  read_ready : ∀ t, ((∃ res, PromiseReturns c t (.got res)) ∨ PromiseReturns c t (.ready true)) →
    c.shared.promise.outputResultReady = true
  /-- Once it is ready, a call of `is_promised_result_ready` finds it so. -/
  ready_read : c.shared.promise.outputResultReady = true →
    ∀ o c', promiseSystem.next c (.call .isReady o) = some c' →
      PromiseReturns c' c.threads.length (.ready true)
  /-- The promise stays ready. -/
  ready_stays : c.shared.promise.outputResultReady = true →
    ∀ c', promiseSystem.Reach (fun _ _ => True) c c' →
      c'.shared.promise.outputResultReady = true
  /-- At most one call sets the callback. -/
  one_callback : ∀ t u pcc pcc', PromiseReturns c t (.callbackSet pcc true) →
    PromiseReturns c u (.callbackSet pcc' true) → t = u
  /-- Only that callback ran. -/
  invoked_set : ∀ pcc ∈ c.shared.invoked, ∃ t, PromiseReturns c t (.callbackSet pcc true)
  /-- A callback that a thread is about to run is that callback, and the result is ready. -/
  runs_set : ∀ t pcc r, c.pc? t = some (.callback pcc r) →
    c.shared.promise.outputResultReady = true ∧ ∃ u, PromiseReturns c u (.callbackSet pcc true)
  /-- No callback ran before the result was ready. -/
  invoked_ready : c.shared.invoked ≠ [] → c.shared.promise.outputResultReady = true
  /-- At most one callback ran. -/
  invoked_once : c.shared.invoked.length ≤ 1
  /-- It ran once both winners have returned. -/
  invoked : ∀ t u res pcc, c.pc? t = some (.returned (.resultSet res true)) →
    c.pc? u = some (.returned (.callbackSet pcc true)) → c.shared.invoked = [pcc]

section

variable {c : PromiseConfig}

theorem PromiseKnows.shows {s : PromiseState} {pc : PromisePc} {r : PromiseResult}
    (h : PromiseKnows s pc) (hr : pc.result? = some r) : s.promise.Shows r := by
  cases pc with
  | callback pcc r' => cases hr; exact h.2.1
  | returned r' => cases hr; exact h
  | _ => cases hr

/-- What is known of a promise in every reachable configuration. -/
structure PromiseInv (c : PromiseConfig) : Prop where
  ran : c.shared.RanCompleted
  knows : System.Threadwise (fun s _ => PromiseKnows s) c
  result : c.count (PromisePc.passed PromiseResult.setsResult) =
    c.shared.promise.outputResultReady.toNat
  callback : c.count (PromisePc.passed PromiseResult.setsCallback) =
    c.shared.promise.promisedCallback.isSome.toNat
  invoked : c.count PromisePc.runs + c.shared.invoked.length =
    (c.shared.promise.outputResultReady && c.shared.promise.promisedCallback.isSome).toNat

theorem promise_invariant (h : PromiseReach c) : PromiseInv c := by
  obtain ⟨hran, hknows⟩ := promise_upholds.reach (fun _ hk => absurd hk List.not_mem_nil)
    (fun _ _ hpc => by cases hpc) h
  have hinit : ∀ (w : PromisePc → ℕ) (g f : PromiseState → ℕ),
      g promiseInit.shared = f promiseInit.shared → System.Balance w g f promiseInit :=
    fun w g f hsame => (Nat.zero_add _).trans hsame
  exact ⟨hran, hknows, promise_result_balanced.reach (hinit _ _ _ rfl) h,
    promise_callback_balanced.reach (hinit _ _ _ rfl) h,
    promise_invoked_balanced.reach (hinit _ _ _ rfl) h⟩

theorem PromiseReturns.passed {t : ℕ} {r : PromiseResult} (h : PromiseReturns c t r)
    {p : PromiseResult → Bool} (hp : p r = true) :
    ∃ pc, c.pc? t = some pc ∧ pc.passed p = true := by
  obtain ⟨pc, hpc, hr⟩ := h
  exact ⟨pc, hpc, by rw [PromisePc.passed, hr]; exact hp⟩

theorem PromiseInv.shows (hc : PromiseInv c) {t : ℕ} {r : PromiseResult}
    (h : PromiseReturns c t r) : c.shared.promise.Shows r := by
  obtain ⟨pc, hpc, hr⟩ := h
  exact (hc.knows t pc hpc).shows hr

/-- Two calls that won are the same call. -/
theorem PromiseReturns.unique {p : PromiseResult → Bool} (hcount : c.count (PromisePc.passed p) ≤ 1)
    {t u : ℕ} {r r' : PromiseResult} (h : PromiseReturns c t r) (h' : PromiseReturns c u r')
    (hp : p r = true) (hp' : p r' = true) : t = u := by
  obtain ⟨pc, hpc, hpassed⟩ := h.passed hp
  obtain ⟨pc', hpc', hpassed'⟩ := h'.passed hp'
  exact Config.eq_of_count_le_one hcount hpc hpc' hpassed hpassed'

theorem PromiseReturns.of_count_pos {p : PromiseResult → Bool}
    (h : 0 < c.count (PromisePc.passed p)) : ∃ t r, PromiseReturns c t r ∧ p r = true := by
  obtain ⟨t, pc, hpc, hpassed⟩ := Config.exists_of_count_pos h
  obtain ⟨r, hr, hp⟩ := (Option.any_eq_true _ _).mp hpassed
  exact ⟨t, r, ⟨pc, hpc, hr⟩, hp⟩

/-- A result that is ready was set by a call. -/
theorem PromiseInv.exists_result (hc : PromiseInv c)
    (hready : c.shared.promise.outputResultReady = true) :
    ∃ t, PromiseReturns c t (.resultSet c.shared.promise.outputResult true) := by
  have hcount : c.count (PromisePc.passed PromiseResult.setsResult) = 1 := by
    rw [hc.result, hready]
    rfl
  obtain ⟨t, r, hreturns, hsets⟩ :=
    PromiseReturns.of_count_pos (Nat.lt_of_lt_of_eq Nat.one_pos hcount.symm)
  cases r with
  | resultSet res wasSet =>
    obtain rfl : wasSet = true := hsets
    have hres := (hc.shows hreturns).2 rfl
    exact ⟨t, hres ▸ hreturns⟩
  | _ => cases hsets

/-- A callback that is set was set by a call. -/
theorem PromiseInv.exists_callback (hc : PromiseInv c) {pcc : ℕ}
    (hset : c.shared.promise.promisedCallback = some pcc) :
    ∃ t, PromiseReturns c t (.callbackSet pcc true) := by
  have hcount : c.count (PromisePc.passed PromiseResult.setsCallback) = 1 := by
    rw [hc.callback, hset]
    rfl
  obtain ⟨t, r, hreturns, hsets⟩ :=
    PromiseReturns.of_count_pos (Nat.lt_of_lt_of_eq Nat.one_pos hcount.symm)
  cases r with
  | callbackSet first wasSet =>
    obtain rfl : wasSet = true := hsets
    have hfirst := hc.shows hreturns rfl
    rw [hset] at hfirst
    cases hfirst
    exact ⟨t, hreturns⟩
  | _ => cases hsets

/-- Once both winners have returned, nobody is about to run a callback. -/
theorem PromiseInv.count_runs (hc : PromiseInv c) {t u : ℕ} {res : Ptr} {pcc : ℕ}
    (ht : c.pc? t = some (.returned (.resultSet res true)))
    (hu : c.pc? u = some (.returned (.callbackSet pcc true))) : c.count PromisePc.runs = 0 := by
  refine Config.count_eq_zero.mpr fun v q hq => ?_
  cases q with
  | callback k r =>
    have hreturns : PromiseReturns c v r := ⟨_, hq, rfl⟩
    obtain ⟨-, -, hsets | hsets⟩ := hc.knows v _ hq
    · have hsame := hreturns.unique (hc.result ▸ Bool.toNat_le _) ⟨_, ht, rfl⟩ hsets rfl
      rw [hsame, ht] at hq
      cases hq
    · have hsame := hreturns.unique (hc.callback ▸ Bool.toNat_le _) ⟨_, hu, rfl⟩ hsets rfl
      rw [hsame, hu] at hq
      cases hq
  | _ => rfl

theorem promise_ready_stays {c' : PromiseConfig}
    (hready : c.shared.promise.outputResultReady = true)
    (h : promiseSystem.Reach (fun _ _ => True) c c') :
    c'.shared.promise.outputResultReady = true := by
  refine System.Reach.stable (R := fun s => s.promise.outputResultReady = true) h ?_ ?_ hready
  · intro s t pc o s' pc' new hs hready
    exact ((promiseStep_move hs).1.keeps.result hready).1
  · intro s t pc s' hs hready
    obtain ⟨cv, rfl⟩ := promiseWake_frame hs
    exact hready

/-- A call of `is_promised_result_ready` reads whether the promise is ready. -/
theorem promise_isReady_returns {c' : PromiseConfig} {o : Unit}
    (h : promiseSystem.next c (.call .isReady o) = some c') :
    PromiseReturns c' c.threads.length (.ready c.shared.promise.outputResultReady) := by
  obtain ⟨pc, s, pc', new, hpc, hs, rfl⟩ := System.stepAt_cases h
  have hmoved := Config.pc?_move_self hpc s pc' new
  rw [Config.pc?_push_self] at hpc
  cases hpc
  cases hs
  exact ⟨_, hmoved, rfl⟩

/-- A promise gets one result and runs one callback, once, in every interleaving of
    any calls. -/
theorem one_result_one_callback (h : PromiseReach c) : PromiseOnce c := by
  have hc := promise_invariant h
  have hresult : c.count (PromisePc.passed PromiseResult.setsResult) ≤ 1 :=
    hc.result ▸ Bool.toNat_le _
  have hcallback : c.count (PromisePc.passed PromiseResult.setsCallback) ≤ 1 :=
    hc.callback ▸ Bool.toNat_le _
  refine ⟨?_, ?_, ?_, fun hready o c' hn => hready ▸ promise_isReady_returns hn,
    fun hready c' => promise_ready_stays hready, ?_, ?_, ?_, ?_, ?_, ?_⟩
  · rintro ⟨t, res, wasSet, hreturns⟩
    obtain ⟨u, hwins⟩ := hc.exists_result (hc.shows hreturns).1
    exact ⟨u, ⟨_, hwins⟩, fun v ⟨_, hv⟩ => hv.unique hresult hwins rfl rfl⟩
  · intro t res hreturns
    obtain ⟨hready, hres⟩ := hc.shows hreturns
    exact hres ▸ hc.exists_result hready
  · rintro t (⟨res, hreturns⟩ | hreturns)
    · exact (hc.shows hreturns).1
    · exact hc.shows hreturns rfl
  · exact fun t u pcc pcc' ht hu => ht.unique hcallback hu rfl rfl
  · exact fun pcc hran => hc.exists_callback (hc.ran pcc hran).1
  · intro t pcc r hpc
    obtain ⟨⟨hset, hready⟩, -⟩ := hc.knows t _ hpc
    exact ⟨hready, hc.exists_callback hset⟩
  · intro hran
    obtain ⟨pcc, hmem⟩ := List.exists_mem_of_ne_nil _ hran
    exact (hc.ran pcc hmem).2
  · have hle := Bool.toNat_le
      (c.shared.promise.outputResultReady && c.shared.promise.promisedCallback.isSome)
    have hinvoked := hc.invoked
    omega
  · intro t u res pcc ht hu
    have hready : c.shared.promise.outputResultReady = true :=
      (hc.shows (⟨_, ht, rfl⟩ : PromiseReturns c t _)).1
    have hset : c.shared.promise.promisedCallback = some pcc :=
      hc.shows (⟨_, hu, rfl⟩ : PromiseReturns c u _) rfl
    have hlength := hc.invoked
    rw [hc.count_runs ht hu, hready, hset, Nat.zero_add] at hlength
    obtain ⟨k, hk⟩ := List.length_eq_one_iff.mp hlength
    have hran := (hc.ran k (by rw [hk]; exact List.mem_singleton_self k)).1
    rw [hset] at hran
    cases hran
    exact hk

end

/-- Two threads set a result and two set a callback; a third waits for the result. -/
def racedPromise : PromiseConfig :=
  promiseSystem.run promiseInit
    [.call .getResult (), .call (.setCallback 7) (), .call (.setResult (some 1)) (),
      .call (.setResult (some 2)) (), .call (.setCallback 8) (), .step 0 (), .step 2 (),
      .call .isReady ()] (by decide)

theorem one_result_one_callback_racedPromise :
    PromiseOnce racedPromise ∧ racedPromise.shared.invoked = [7] :=
  ⟨one_result_one_callback (.run _ _ _), by decide⟩

end BoomPar
