-- SUMMARY: A promise under a fair scheduler: once a result is set, every call returns and the callback runs.
import BoomPar.Monitor.Fairness
import BoomPar.PromiseThreads

/-!
# Progress of a promise

The wait of `get_promised_result` has no timeout. A thread blocked in it is woken
by the call that sets the result, and by no other, so everything hangs on that
one broadcast. In a fair run a callback that is called returns.
-/

namespace BoomPar

open Monitor

/-- A run of the threads of a promise for ever. -/
abbrev PromiseRun := System.FairRun promiseSystem (fun _ _ => True) promiseInit

/-- The condition that a thread blocked on `promise_wait` waits under. -/
def PromiseMustWait (s : PromiseState) (pc : PromisePc) : Prop :=
  pc = .getWaiting ∧ s.promise.outputResultReady = false

theorem promise_keepsWaiting :
    System.KeepsWaiting promiseSystem (fun s => s.promise.promiseWait) PromiseMustWait where
  resume hs := by
    rintro ⟨rfl, -⟩ hmem
    simp only [promiseSystem, promiseStep, if_pos hmem] at hs
    cases hs
  step {s t pc o s' pc' new} hs u hu := by
    obtain ⟨hmove, -⟩ := promiseStep_move hs
    cases hmove with
    | resultWins res _ => exact absurd hu (Finset.notMem_empty u)
    | wait pc _ hnot =>
      rcases CondVar.mem_wait.mp hu with rfl | hold
      · exact .inl ⟨rfl, rfl, hnot⟩
      · exact .inr ⟨hold, fun q hq => hq⟩
    | _ => exact .inr ⟨hu, fun q hq => hq⟩
  wake {s t pc s'} hs u hu := by
    cases pc with
    | getWaiting =>
      cases hs
      exact ⟨Finset.mem_of_mem_erase hu, fun q hq => hq⟩
    | _ => cases hs

/-- No reader misses the result. -/
theorem promise_stillWaiting {c : PromiseConfig} (h : PromiseReach c) :
    System.StillWaiting (fun s => s.promise.promiseWait) PromiseMustWait c :=
  promise_keepsWaiting.reach (.of_empty rfl) h

/-- How many sections a call still has before it when the result is ready. -/
def PromisePc.left : PromisePc → ℕ
  | .setResult _ => 2
  | .getResult => 1
  | .getWaiting => 1
  | .isReady => 1
  | .setCallback _ => 2
  | .callback _ _ => 1
  | .returned _ => 0

theorem PromisePc.left_after (pcc : Ptr) (r : PromiseResult) :
    (PromisePc.after pcc r).left ≤ 1 := by
  cases pcc with
  | none => exact Nat.zero_le 1
  | some k => exact le_rfl

theorem PromisePc.eq_returned {pc : PromisePc} (h : pc.left = 0) : ∃ r, pc = .returned r := by
  cases pc with
  | returned r => exact ⟨r, rfl⟩
  | _ => cases h

theorem PromiseMove.left {s s' : PromiseState} {t : ℕ} {pc pc' : PromisePc}
    (h : PromiseMove s t pc s' pc') (hready : s.promise.outputResultReady = true) :
    pc'.left < pc.left := by
  cases h with
  | resultWins res _ => exact Nat.lt_succ_of_le (PromisePc.left_after _ _)
  | callbackWins pcc run _ _ => exact Nat.lt_succ_of_le (PromisePc.left_after _ _)
  | got pc hat _ => cases hat <;> exact Nat.one_pos
  | wait pc _ hnot =>
    rw [hready] at hnot
    cases hnot
  | resultLoses res _ => exact Nat.two_pos
  | callbackLoses pcc first _ => exact Nat.two_pos
  | isReady => exact Nat.one_pos
  | invoke pcc r => exact Nat.one_pos

theorem promiseStep_isSome {s : PromiseState} {t : ℕ} {pc : PromisePc}
    (hwoken : pc = .getWaiting → t ∉ s.promise.promiseWait) (hleft : 0 < pc.left) :
    (promiseStep s t pc ()).isSome = true := by
  cases pc with
  | getWaiting =>
    simp only [promiseStep, if_neg (hwoken rfl)]
    rfl
  | returned r => exact absurd hleft (Nat.lt_irrefl 0)
  | _ => rfl

theorem promise_returns : System.Returns promiseSystem (fun _ _ => True) promiseInit
    (fun c => c.shared.promise.outputResultReady = true) (fun _ => PromisePc.left) where
  keep _ hready _ hn := promise_ready_stays hready (System.Reach.refl.tail trivial hn)
  can {c t pc} hc hready hpc hleft := by
    apply System.CanStep.of_isSome (o := ()) hpc trivial
    refine promiseStep_isSome (fun _ hmem => ?_) hleft
    obtain ⟨-, hnot⟩ := (promise_stillWaiting hc).must hmem hpc
    rw [hready] at hnot
    cases hnot
  step _ hready _ _ hs := (promiseStep_move hs).1.left hready
  other _ _ _ _ _ := le_rfl
  wake _ _ _ _ := le_rfl

/-! ## Every call returns -/

/-- From moment `n` on the promise serves whoever uses it, with the result `res`. -/
structure PromiseServes (r : PromiseRun) (n : ℕ) (res : Ptr) : Prop where
  /-- Every call returns. -/
  returns : ∀ k, n ≤ k → ∀ u pc, (r.config k).pc? u = some pc →
    ∃ m, k ≤ m ∧ ∃ result, (r.config m).pc? u = some (.returned result)
  /-- Whoever waits for the result gets it. -/
  gets : ∀ k, n ≤ k → ∀ u, (r.config k).pc? u = some .getWaiting →
    ∃ m, k ≤ m ∧ (r.config m).pc? u = some (.returned (.got res))
  /-- The callback that is set runs, once and for all. -/
  runs : ∀ k, n ≤ k → ∀ u pcc, PromiseReturns (r.config k) u (.callbackSet pcc true) →
    ∃ m, k ≤ m ∧ ∀ l, m ≤ l → (r.config l).shared.invoked = [pcc]

section

variable (r : PromiseRun)

theorem promise_result_stays {n m : ℕ}
    (hready : (r.config n).shared.promise.outputResultReady = true) (hnm : n ≤ m) :
    (r.config m).shared.promise.outputResultReady = true ∧
      (r.config m).shared.promise.outputResult = (r.config n).shared.promise.outputResult := by
  apply r.stable (P := fun c => c.shared.promise.outputResultReady = true ∧
    c.shared.promise.outputResult = (r.config n).shared.promise.outputResult) ?_ ⟨hready, rfl⟩ hnm
  intro c a c' _ hc _ hn
  apply System.next_stable (R := fun s => s.promise.outputResultReady = true ∧
    s.promise.outputResult = (r.config n).shared.promise.outputResult) hn ?_ ?_ hc
  · intro s t pc o s' pc' new hs ⟨hready, hres⟩
    obtain ⟨hready', hsame⟩ := (promiseStep_move hs).1.keeps.result hready
    exact ⟨hready', hsame.trans hres⟩
  · intro s t pc s' hs hready
    obtain ⟨cv, rfl⟩ := promiseWake_frame hs
    exact hready

theorem promise_call_returns {n : ℕ}
    (hready : (r.config n).shared.promise.outputResultReady = true) {u : ℕ} {pc : PromisePc}
    (hpc : (r.config n).pc? u = some pc) :
    ∃ m, n ≤ m ∧ ∃ result, (r.config m).pc? u = some (.returned result) := by
  obtain ⟨m, hnm, -, pc', hpc', hleft⟩ := promise_returns.eventually r hready hpc
  obtain ⟨result, rfl⟩ := PromisePc.eq_returned hleft
  exact ⟨m, hnm, result, hpc'⟩

/-- A call that has passed its section returns what it has then. -/
theorem promise_passed_returns {n : ℕ}
    (hready : (r.config n).shared.promise.outputResultReady = true) {u : ℕ} {x : PromiseResult}
    (hpassed : PromiseReturns (r.config n) u x) :
    ∃ m, n ≤ m ∧ ∀ l, m ≤ l → (r.config l).pc? u = some (.returned x) := by
  obtain ⟨pc, hpc, hx⟩ := hpassed
  obtain ⟨m, hnm, y, hy⟩ := promise_call_returns r hready hpc
  have hsame : ∃ pc', (r.config m).pc? u = some pc' ∧ pc'.result? = some x := by
    apply (r.reach_le hnm).follow (P := fun pc => pc.result? = some x) ?_ hpc hx
    intro s t pc o s' pc' new hs hx
    cases pc with
    | callback pcc z =>
      cases hx
      cases hs
      rfl
    | returned z => cases hs
    | _ => cases hx
  obtain ⟨pc', hpc', hx'⟩ := hsame
  rw [hy] at hpc'
  cases hpc'
  cases hx'
  exact ⟨m, hnm, fun l hml => r.pc?_of_stuck (fun _ _ => rfl) hy hml⟩

/-- A thread that waits for the result gets it. -/
theorem promise_wait_returns {n : ℕ}
    (hready : (r.config n).shared.promise.outputResultReady = true) {u : ℕ}
    (hpc : (r.config n).pc? u = some .getWaiting) :
    ∃ m, n ≤ m ∧ (r.config m).pc? u =
      some (.returned (.got (r.config n).shared.promise.outputResult)) := by
  obtain ⟨m, hnm, y, hy⟩ := promise_call_returns r hready hpc
  have hgets : ∃ pc, (r.config m).pc? u = some pc ∧
      (pc = .getWaiting ∨ ∃ v, pc = .returned (.got v)) := by
    apply (r.reach_le hnm).follow (P := fun pc => pc = .getWaiting ∨ ∃ v, pc = .returned (.got v))
      ?_ hpc (.inl rfl)
    intro s t pc o s' pc' new hs hat
    have hmove : PromiseMove s t pc s' pc' := (promiseStep_move hs).1
    rcases hat with rfl | ⟨v, rfl⟩
    · cases hmove with
      | got pc _ _ => exact .inr ⟨_, rfl⟩
      | wait pc _ _ => exact .inl rfl
    · cases hs
  obtain ⟨pc, hpc', rfl | ⟨v, rfl⟩⟩ := hgets
  · rw [hy] at hpc'
    cases hpc'
  · have hshows := (promise_invariant (r.reach m)).shows ⟨_, hpc', rfl⟩
    rw [← (promise_result_stays r hready hnm).2, hshows.2]
    exact ⟨m, hnm, hpc'⟩

/-- In every fair run, once a call of `set_promised_result` has passed its section the
    promise serves everybody with one result, whatever happens concurrently. -/
theorem promise_serves {n t : ℕ} {x : Ptr} {wasSet : Bool}
    (hset : PromiseReturns (r.config n) t (.resultSet x wasSet)) :
    ∃ u res, PromiseReturns (r.config n) u (.resultSet res true) ∧ PromiseServes r n res := by
  have hinv := promise_invariant (r.reach n)
  have hready : (r.config n).shared.promise.outputResultReady = true := (hinv.shows hset).1
  obtain ⟨u, hwins⟩ := hinv.exists_result hready
  refine ⟨u, _, hwins, ?_, ?_, ?_⟩
  · intro k hnk v pc hpc
    exact promise_call_returns r (promise_result_stays r hready hnk).1 hpc
  · intro k hnk v hpc
    obtain ⟨hreadyk, hres⟩ := promise_result_stays r hready hnk
    rw [← hres]
    exact promise_wait_returns r hreadyk hpc
  · intro k hnk v pcc hcallback
    have hreadyk := (promise_result_stays r hready hnk).1
    obtain ⟨m₁, hnm₁, hresult⟩ := promise_passed_returns r hready hwins
    obtain ⟨m₂, hkm₂, hset'⟩ := promise_passed_returns r hreadyk hcallback
    refine ⟨max m₁ m₂, hkm₂.trans (le_max_right _ _), fun l hl => ?_⟩
    have honce := one_result_one_callback (r.reach l)
    exact honce.invoked u v _ pcc (hresult l ((le_max_left _ _).trans hl))
      (hset' l ((le_max_right _ _).trans hl))

end

/-- The calls of the raced promise, and nothing after them. -/
def racedPromiseRun : PromiseRun :=
  .ofCheck _
    [.call .getResult (), .call (.setCallback 7) (), .call (.setResult (some 1)) (),
      .call (.setResult (some 2)) (), .call (.setCallback 8) (), .step 0 (), .step 2 (),
      .call .isReady ()] (by decide)
    (System.not_canStep (fun _ _ pc => pc.left == 0)
      (fun {s t pc o} h => by
        obtain ⟨r, rfl⟩ := PromisePc.eq_returned (eq_of_beq h)
        rfl)
      (by decide))

theorem promise_serves_racedPromiseRun :
    (racedPromiseRun.config 3).pc? 0 = some .getWaiting ∧
      ∃ u res, PromiseReturns (racedPromiseRun.config 3) u (.resultSet res true) ∧
        PromiseServes racedPromiseRun 3 res :=
  ⟨by decide, promise_serves racedPromiseRun (t := 2)
    ⟨.callback 7 (.resultSet (some 1) true), by decide, rfl⟩⟩

end BoomPar
