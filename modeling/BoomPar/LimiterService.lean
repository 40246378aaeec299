-- SUMMARY: A limiter under a fair scheduler: requests that are stopped return, requests that wait are served when resources come back, and a deletion completes.
import BoomPar.Monitor.Fairness
import BoomPar.LimiterDeletion

/-!
# Service of a limiter

Requesters may wait without a timeout, and the deleter always does. All sleep on
one condition variable, and whoever finds resources first takes them. A deleter
that does not wait may destroy the limiter under any other call, so each result
speaks of the limiter until then.
-/

namespace BoomPar

open Monitor

variable {rul : ResourceUsageLimiter} {brokenOut : Finset ℕ}

/-- A run of the threads on the limiter `rul` for ever. -/
abbrev LimiterRun (rul : ResourceUsageLimiter) (brokenOut : Finset ℕ) :=
  System.FairRun limiterSystem (fun _ _ => True) (limiterInit rul brokenOut)

/-- A call that returned, or that is blocked, or whose limiter was freed. -/
def LimiterState.rests (s : LimiterState) (t : ℕ) (pc : LimiterPc) : Bool :=
  s.destroyed || match pc with
  | .requestWaiting _ _ => t ∈ s.limiter.resourceLimiterWait
  | .deleteWaiting => t ∈ s.limiter.resourceLimiterWait
  | .returned _ => true
  | _ => false

theorem limiterStep_eq_none {s : LimiterState} {t : ℕ} {pc : LimiterPc} {o : WaitOutcome}
    (h : s.rests t pc = true) : limiterStep s t pc o = none := by
  unfold limiterStep
  split
  · rfl
  · rename_i hlive
    simp only [LimiterState.rests, Bool.eq_false_iff.mpr hlive, Bool.false_or] at h
    cases pc with
    | requestWaiting req timeout => exact if_pos (of_decide_eq_true h)
    | deleteWaiting => exact if_pos (of_decide_eq_true h)
    | returned r => rfl
    | _ => cases h

theorem limiterStep_isSome {s : LimiterState} {t : ℕ} {pc : LimiterPc} {o : WaitOutcome}
    (h : s.rests t pc = false) : (limiterStep s t pc o).isSome = true := by
  obtain ⟨hlive, hgoes⟩ := Bool.or_eq_false_iff.mp h
  rw [limiterStep_live hlive]
  cases pc with
  | requestWaiting req timeout =>
    have hwoken : t ∉ s.limiter.resourceLimiterWait := of_decide_eq_false hgoes
    simp only [limiterSection, if_neg hwoken]
    rfl
  | deleteWaiting =>
    have hwoken : t ∉ s.limiter.resourceLimiterWait := of_decide_eq_false hgoes
    simp only [limiterSection, if_neg hwoken]
    rfl
  | returned r => cases hgoes
  | _ => rfl

/-- Who need not wait any more is awake. -/
theorem limiter_awake {resourceCount : UInt64} {allocated : Bool} {c : LimiterConfig} {t : ℕ}
    {pc : LimiterPc} (hnew : ResourceUsageLimiter.new resourceCount allocated = some rul)
    (h : LimiterReach rul brokenOut c) (hlive : c.shared.destroyed = false)
    (hpc : c.pc? t = some pc) (hreturned : ∀ r, pc ≠ .returned r)
    (hgoes : ¬LimiterMustWait c.shared pc) : c.shared.rests t pc = false := by
  have hnobody := (ResourceUsageLimiter.new_fresh hnew).2
  have hwaiting : System.StillWaiting (fun s => s.limiter.resourceLimiterWait)
      LimiterMustWait c := limiter_keepsWaiting.reach (.of_empty hnobody) h
  have hwoken : t ∉ c.shared.limiter.resourceLimiterWait := fun hsleeps =>
    hgoes (hwaiting.must hsleeps hpc)
  simp only [LimiterState.rests, hlive, Bool.false_or]
  cases pc with
  | requestWaiting req timeout => exact decide_eq_false hwoken
  | deleteWaiting => exact decide_eq_false hwoken
  | returned r => exact absurd rfl (hreturned r)
  | _ => rfl

/-! ## Requests -/

/-- The control states of a request that has not returned. -/
inductive Requesting (req : ResourceRequest) : LimiterPc → Prop
  | entry (timeout : ℕ) : Requesting req (.request req timeout)
  | waiting (timeout : ℕ) : Requesting req (.requestWaiting req timeout)

theorem Requesting.ne_returned {req : ResourceRequest} {pc : LimiterPc} (h : Requesting req pc)
    (r : LimiterResult) : pc ≠ .returned r := by
  cases h <;> nofun

/-- The limiter is shut down, or the request is broken out of. -/
def LimiterState.Stopped (s : LimiterState) (req : ResourceRequest) : Prop :=
  s.limiter.shutdownRequested = true ∨ req.breakOut ∈ s.brokenOut

/-- A section of a request begins a wait, or ends the request. -/
theorem LimiterMove.requesting {s s' : LimiterState} {t : ℕ} {o : WaitOutcome}
    {pc pc' : LimiterPc} {req : ResourceRequest} (h : LimiterMove s t o pc s' pc')
    (hpc : Requesting req pc) :
    (RequestMustWait s req ∧ Requesting req pc') ∨
      ∃ res, pc' = .returned (.requested res) ∧ (s.Stopped req → res = 0) := by
  have hsame : ∀ {req' timeout waitError}, RequestAt s t o pc req' timeout waitError →
      req' = req := by
    intro req' timeout waitError hat
    cases hpc <;> cases hat <;> rfl
  cases h with
  | wait pc req' timeout waitError hat _ hmust _ =>
    obtain rfl := hsame hat
    exact .inl ⟨hmust, .waiting timeout⟩
  | refuse pc req' timeout waitError _ _ => exact .inr ⟨0, rfl, fun _ => rfl⟩
  | grant pc req' timeout waitError res hat hrunning hclear _ _ =>
    obtain rfl := hsame hat
    refine .inr ⟨res, rfl, ?_⟩
    rintro (hshutdown | hbroken)
    · rw [hrunning] at hshutdown
      cases hshutdown
    · exact absurd hbroken hclear
  | deleteWait pc hat _ => cases hpc <;> cases hat
  | deletePass pc hat _ => cases hpc <;> cases hat
  | _ => cases hpc

theorem LimiterMove.stopped {s s' : LimiterState} {t : ℕ} {o : WaitOutcome} {pc pc' : LimiterPc}
    {req : ResourceRequest} (h : LimiterMove s t o pc s' pc') (hs : s.Stopped req) :
    s'.Stopped req := by
  cases h with
  | setCount n _ _ => exact hs
  | breakOut b _ => exact hs.imp_right fun hbroken => Finset.mem_insert_of_mem hbroken
  | shutdown => exact .inl rfl
  | delete wait => exact .inl rfl
  | giveBack n s' _ hs' =>
    subst hs'
    exact hs
  | _ => exact hs

/-- Thread `t` is in a request that has not returned, on a limiter that is not freed. -/
structure InRequestAt (t : ℕ) (req : ResourceRequest) (c : LimiterConfig) : Prop where
  requesting : ∃ pc, c.pc? t = some pc ∧ Requesting req pc
  live : c.shared.destroyed = false

section

variable {resourceCount : UInt64} {allocated : Bool} {c c' : LimiterConfig} {t : ℕ}
  {req : ResourceRequest}

theorem InRequestAt.canStep (hnew : ResourceUsageLimiter.new resourceCount allocated = some rul)
    (h : LimiterReach rul brokenOut c) (hc : InRequestAt t req c)
    (hgoes : ¬RequestMustWait c.shared req) :
    System.CanStep limiterSystem (fun _ _ => True) c t := by
  obtain ⟨pc, hpc, hreq⟩ := hc.requesting
  have hawake : c.shared.rests t pc = false := by
    refine limiter_awake hnew h hc.live hpc hreq.ne_returned fun hmust => hgoes ?_
    cases hreq with
    | entry timeout => cases hmust
    | waiting timeout => exact hmust
  exact .of_isSome (o := ⟨false, 0⟩) hpc trivial (limiterStep_isSome hawake)

/-- A request that need not wait ends with its next section. -/
theorem InRequestAt.ends {o : WaitOutcome} (hc : InRequestAt t req c)
    (hgoes : ¬RequestMustWait c.shared req) (h : limiterSystem.next c (.step t o) = some c') :
    ∃ res, c'.pc? t = some (.returned (.requested res)) ∧ (c.shared.Stopped req → res = 0) := by
  obtain ⟨pc, hpc, hreq⟩ := hc.requesting
  obtain ⟨pc₁, s, pc', new, hpc₁, hs, rfl⟩ := System.stepAt_cases h
  rw [hpc] at hpc₁
  cases hpc₁
  rcases (limiterStep_move hs).2.1.requesting hreq with ⟨hmust, -⟩ | ⟨res, rfl, hstopped⟩
  · exact absurd hmust hgoes
  · exact ⟨res, Config.pc?_move_self hpc _ _ _, hstopped⟩

/-- In every fair run of the threads on a limiter, a request returns 0 once the limiter is
    shut down or its flag is set, unless the limiter is freed before. -/
theorem stopped_requests_return
    (hnew : ResourceUsageLimiter.new resourceCount allocated = some rul)
    (r : LimiterRun rul brokenOut) {n : ℕ} {pc : LimiterPc}
    (hpc : (r.config n).pc? t = some pc) (hreq : Requesting req pc)
    (hstop : (r.config n).shared.Stopped req) :
    ∃ m, n ≤ m ∧ ((r.config m).pc? t = some (.returned (.requested 0)) ∨
      (r.config m).shared.destroyed = true) := by
  by_cases hfreed : (r.config n).shared.destroyed = true
  · exact ⟨n, le_rfl, .inr hfreed⟩
  have hlive := Bool.eq_false_iff.mpr hfreed
  have hgoes : ∀ {s : LimiterState}, s.Stopped req → ¬RequestMustWait s req := by
    rintro s (hshutdown | hbroken) hmust
    · exact absurd hshutdown (Bool.eq_false_iff.mp hmust.running)
    · exact hmust.clear hbroken
  refine r.leadsTo_by (P := fun c => c.shared.Stopped req ∧ InRequestAt t req c)
    (Q := fun c => c.pc? t = some (.returned (.requested 0)) ∨ c.shared.destroyed = true) t
    ?_ ?_ ?_ n ⟨hstop, ⟨pc, hpc, hreq⟩, hlive⟩
  · rintro c hreach ⟨hstop, hc⟩
    exact hc.canStep hnew hreach (hgoes hstop)
  · rintro c o c' - ⟨hstop, hc⟩ h
    obtain ⟨res, hres, hzero⟩ := hc.ends (hgoes hstop) h
    rw [hzero hstop] at hres
    exact .inl hres
  · rintro c a c' - ⟨hstop, hc⟩ hnot - h
    obtain ⟨pc, hpc, hreq⟩ := hc.requesting
    have hstop' : c'.shared.Stopped req := by
      refine System.next_stable (R := fun s => s.Stopped req) h ?_ ?_ hstop
      · exact fun hs => (limiterStep_move hs).2.1.stopped
      · intro s t pc s' hs hstop
        rw [limiterWake_frame hs]
        exact hstop
    by_cases hfreed : c'.shared.destroyed = true
    · exact .inl (.inr hfreed)
    · refine .inr ⟨hstop', ⟨pc, (System.next_other h hpc hnot).1, hreq⟩, ?_⟩
      exact Bool.eq_false_iff.mpr hfreed

end

/-- A request waits for resources that another client holds, and is broken out of. -/
def brokenOutRun : LimiterRun newLimiter ∅ :=
  .ofCheck _
    [.call (.request ⟨5, 10, 0⟩ blocking) ⟨false, 0⟩, .step 0 ⟨false, 0⟩,
      .call (.request ⟨5, 10, 1⟩ blocking) ⟨false, 0⟩, .step 1 ⟨false, 0⟩,
      .call (.breakOut 1) ⟨false, 0⟩, .step 2 ⟨false, 0⟩, .step 1 ⟨false, blocking⟩]
    (by decide) (System.not_canStep LimiterState.rests limiterStep_eq_none (by decide))

theorem stopped_requests_return_brokenOutRun :
    ∃ m, 6 ≤ m ∧ ((brokenOutRun.config m).pc? 1 = some (.returned (.requested 0)) ∨
      (brokenOutRun.config m).shared.destroyed = true) := by
  have hwaits : (brokenOutRun.config 6).pc? 1 = some (.requestWaiting ⟨5, 10, 1⟩ blocking) := by
    decide
  exact stopped_requests_return (Option.some_get _).symm brokenOutRun hwaits (.waiting blocking)
    (.inr (by decide))

/-! ## Resources that come back -/

/-- A request, from its call to its return. -/
def LimiterPc.asks : LimiterPc → Bool
  | .calling k => k.isRequest
  | .request _ _ => true
  | .requestWaiting _ _ => true
  | .returned (.requested _) => true
  | _ => false

def LimiterPc.hasAsked : LimiterPc → Bool
  | .returned (.requested _) => true
  | _ => false

theorem LimiterMove.asks {s s' : LimiterState} {t : ℕ} {o : WaitOutcome} {pc pc' : LimiterPc}
    (h : LimiterMove s t o pc s' pc') : pc'.asks = pc.asks := by
  cases h with
  | call k pc' hstart => cases hstart <;> rfl
  | wait pc req timeout waitError hat _ _ _ => cases hat <;> rfl
  | refuse pc req timeout waitError hat _ => cases hat <;> rfl
  | grant pc req timeout waitError res hat _ _ _ _ => cases hat <;> rfl
  | delete wait => cases wait <;> rfl
  | deleteWait pc hat _ => cases hat <;> rfl
  | deletePass pc hat _ => cases hat <;> rfl
  | _ => rfl

/-- Resources are granted by sections that end requests only. -/
theorem LimiterMove.grants {s s' : LimiterState} {t : ℕ} {o : WaitOutcome} {pc pc' : LimiterPc}
    (h : LimiterMove s t o pc s' pc') (hs : s.limiter.resourceGrantedCount = 0) :
    s'.limiter.resourceGrantedCount = 0 ∨ pc'.hasAsked = true := by
  cases h with
  | grant pc req timeout waitError res _ _ _ _ _ => exact .inr rfl
  | giveBack n s' hle hs' =>
    subst hs'
    left
    rw [hs] at hle
    have hzero := UInt64.le_zero_iff.mp hle
    change s.limiter.resourceGrantedCount - n = 0
    rw [hs, hzero]
    rfl
  | _ => exact .inl hs

theorem LimiterMove.not_hasAsked {s s' : LimiterState} {t : ℕ} {o : WaitOutcome}
    {pc pc' : LimiterPc} (h : LimiterMove s t o pc s' pc') : pc.hasAsked = false := by
  cases h with
  | wait pc req timeout waitError hat _ _ _ => cases hat <;> rfl
  | refuse pc req timeout waitError hat _ => cases hat <;> rfl
  | grant pc req timeout waitError res hat _ _ _ _ => cases hat <;> rfl
  | deleteWait pc hat _ => cases hat <;> rfl
  | deletePass pc hat _ => cases hat <;> rfl
  | _ => rfl

section

variable {resourceCount : UInt64} {allocated : Bool} {c c' : LimiterConfig} {t : ℕ}
  {req : ResourceRequest}

/-- How many requests have ended. -/
def answered (c : LimiterConfig) : ℕ := c.count LimiterPc.hasAsked

/-- Where nothing is granted, something is granted only to a request that ends. -/
theorem answers_or_grants_none {a : Act LimiterCall WaitOutcome}
    (h : limiterSystem.next c a = some c') (hnone : c.shared.limiter.resourceGrantedCount = 0) :
    answered c < answered c' ∨
      (c'.shared.limiter.resourceGrantedCount = 0 ∧ answered c' = answered c) := by
  rcases System.next_sumIn limiter_quiet h with ⟨t, pc, o, pc', -, hs, hsum⟩ | ⟨t, pc, hs, hsame⟩
  · have hmove := (limiterStep_move hs).2.1
    have hcount := hsum (fun pc => pc.hasAsked.toNat) (fun _ => True)
      (by rw [hmove.not_hasAsked]; rfl)
    simp only [Config.sumIn_true, if_true] at hcount
    change answered c' = answered c + pc'.hasAsked.toNat at hcount
    cases hasked : pc'.hasAsked with
    | true =>
      rw [hcount, hasked]
      exact .inl (Nat.lt_succ_self _)
    | false =>
      have hgrants := hmove.grants hnone
      rw [hasked] at hcount hgrants
      exact .inr ⟨hgrants.resolve_right Bool.false_ne_true, hcount⟩
  · right
    rw [limiterWake_frame hs, answered, Config.count, Config.sumOver, hsame]
    exact ⟨hnone, rfl⟩

theorem answered_stays (r : LimiterRun rul brokenOut) {n m : ℕ} (hnm : n ≤ m) :
    answered (r.config n) ≤ answered (r.config m) := by
  refine r.stable (P := fun c => answered (r.config n) ≤ answered c) ?_ le_rfl hnm
  intro c a c' _ hle _ h
  refine hle.trans (System.count_le_next ?_ h)
  intro s t pc o s' pc' new hs hasked
  rw [(limiterStep_move hs).2.1.not_hasAsked] at hasked
  cases hasked

/-- A request that is under way stays so, or it returns. -/
theorem request_stays (r : LimiterRun rul brokenOut) {n m : ℕ} {pc : LimiterPc}
    (hpc : (r.config n).pc? t = some pc) (hreq : Requesting req pc) (hnm : n ≤ m) :
    (∃ pc', (r.config m).pc? t = some pc' ∧ Requesting req pc') ∨
      ∃ res, (r.config m).pc? t = some (.returned (.requested res)) := by
  have hstep : ∀ {s t pc o s' pc' new}, limiterStep s t pc o = some (s', pc', new) → True →
      (Requesting req pc ∨ ∃ res, pc = .returned (.requested res)) →
      Requesting req pc' ∨ ∃ res, pc' = .returned (.requested res) := by
    rintro s t pc o s' pc' new hs - (hreq | ⟨res, rfl⟩)
    · rcases (limiterStep_move hs).2.1.requesting hreq with ⟨-, hreq'⟩ | ⟨res, rfl, -⟩
      · exact .inl hreq'
      · exact .inr ⟨res, rfl⟩
    · have hasked := (limiterStep_move hs).2.1.not_hasAsked
      cases hasked
  obtain ⟨pc', hpc', hreq' | ⟨res, rfl⟩⟩ := r.follow hstep (fun _ _ => trivial) hpc (.inl hreq) hnm
  · exact .inl ⟨pc', hpc', hreq'⟩
  · exact .inr ⟨res, hpc'⟩

/-- When all that was granted has come back, a request that is under way returns, or
    another one does. -/
theorem requests_go_on (hnew : ResourceUsageLimiter.new resourceCount allocated = some rul)
    (r : LimiterRun rul brokenOut) {n : ℕ} {pc : LimiterPc}
    (hnone : (r.config n).shared.limiter.resourceGrantedCount = 0)
    (hpc : (r.config n).pc? t = some pc) (hreq : Requesting req pc) :
    ∃ m, n ≤ m ∧ ((∃ res, (r.config m).pc? t = some (.returned (.requested res))) ∨
      answered (r.config n) < answered (r.config m) ∨ (r.config m).shared.destroyed = true) := by
  by_cases hfreed : (r.config n).shared.destroyed = true
  · exact ⟨n, le_rfl, .inr (.inr hfreed)⟩
  have hlive := Bool.eq_false_iff.mpr hfreed
  -- with nothing granted all resources are left, and the minimum is among them or out of reach
  have hgoes : ∀ {s : LimiterState}, s.limiter.resourceGrantedCount = 0 →
      ¬RequestMustWait s req := by
    intro s hnone hmust
    have hleft := s.limiter.toNat_getResourcesLeft
    have hfew := UInt64.lt_iff_toNat_lt.mp hmust.few
    have henough := UInt64.le_iff_toNat_le.mp hmust.enough
    rw [hnone, UInt64.toNat_zero, Nat.sub_zero] at hleft
    omega
  refine r.leadsTo_by
    (P := fun c => InRequestAt t req c ∧ c.shared.limiter.resourceGrantedCount = 0 ∧
      answered c = answered (r.config n))
    (Q := fun c => (∃ res, c.pc? t = some (.returned (.requested res))) ∨
      answered (r.config n) < answered c ∨ c.shared.destroyed = true) t
    ?_ ?_ ?_ n ⟨⟨⟨pc, hpc, hreq⟩, hlive⟩, hnone, rfl⟩
  · rintro c hreach ⟨hc, hnone, -⟩
    exact hc.canStep hnew hreach (hgoes hnone)
  · rintro c o c' - ⟨hc, hnone, -⟩ h
    obtain ⟨res, hres, -⟩ := hc.ends (hgoes hnone) h
    exact .inl ⟨res, hres⟩
  · rintro c a c' - ⟨hc, hnone, hsame⟩ hnot - h
    obtain ⟨pc, hpc, hreq⟩ := hc.requesting
    rcases answers_or_grants_none h hnone with hanswers | ⟨hnone', hsame'⟩
    · exact .inl (.inr (.inl (hsame ▸ hanswers)))
    · by_cases hfreed : c'.shared.destroyed = true
      · exact .inl (.inr (.inr hfreed))
      · refine .inr ⟨⟨⟨pc, (System.next_other h hpc hnot).1, hreq⟩, ?_⟩, hnone', hsame'.trans hsame⟩
        exact Bool.eq_false_iff.mpr hfreed

/-- In every fair run of the threads on a limiter to which all that it grants comes back
    again and again, every request returns once no more requests come, unless the limiter
    is freed before. -/
theorem requests_return (hnew : ResourceUsageLimiter.new resourceCount allocated = some rul)
    (r : LimiterRun rul brokenOut)
    (hback : ∀ n, ∃ m, n ≤ m ∧ (r.config m).shared.limiter.resourceGrantedCount = 0)
    (hends : ∃ l, ∀ m, l ≤ m → ∀ a, r.act m = some a → NoNewRequest (r.config m) a)
    {n : ℕ} {pc : LimiterPc} (hpc : (r.config n).pc? t = some pc) (hreq : Requesting req pc) :
    ∃ m, n ≤ m ∧ ((∃ res, (r.config m).pc? t = some (.returned (.requested res))) ∨
      (r.config m).shared.destroyed = true) := by
  obtain ⟨l, hends⟩ := hends
  have hasks : ∀ {n m}, l ≤ n → n ≤ m →
      (r.config m).count LimiterPc.asks = (r.config n).count LimiterPc.asks := by
    intro n m hln hnm
    refine r.keep (P := fun c => c.count LimiterPc.asks = (r.config n).count LimiterPc.asks)
      ?_ rfl hnm
    intro j a hnj hact hsame
    have hmarked : System.marked limiterSystem LimiterPc.asks (r.config j) a = 0 := by
      have hno := hends j (hln.trans hnj) a hact
      cases a with
      | call k o => exact congrArg Bool.toNat hno
      | _ => rfl
    have hcount := System.count_next (p := LimiterPc.asks)
      (fun hs => (limiterStep_move hs).2.1.asks)
      (fun hs q hq => by rw [(limiterStep_move hs).2.2] at hq; cases hq) (r.move hact).2
    rw [hcount, hmarked, hsame]
    rfl
  have hle : ∀ n, answered (r.config n) ≤ (r.config n).count LimiterPc.asks := fun n =>
    Config.count_mono fun pc hasked => by
      unfold LimiterPc.hasAsked at hasked
      split at hasked
      · rfl
      · cases hasked
  rcases request_stays r hpc hreq (le_max_left n l) with ⟨pc', hpc', hreq'⟩ | hreturned
  swap
  · exact ⟨max n l, le_max_left n l, .inl hreturned⟩
  -- each request that ends leaves fewer under way
  suffices hdone : ∃ m, max n l ≤ m ∧
      ((∃ res, (r.config m).pc? t = some (.returned (.requested res))) ∨
        (r.config m).shared.destroyed = true) by
    obtain ⟨m, hm, hdone⟩ := hdone
    exact ⟨m, (le_max_left n l).trans hm, hdone⟩
  refine System.eventually_of_rank
    (P := fun n => l ≤ n ∧ ∃ pc, (r.config n).pc? t = some pc ∧ Requesting req pc)
    (fun n => (r.config n).count LimiterPc.asks - answered (r.config n)) ?_
    ⟨le_max_right n l, pc', hpc', hreq'⟩
  rintro n ⟨hln, pc, hpc, hreq⟩
  obtain ⟨m, hnm, hnone⟩ := hback n
  rcases request_stays r hpc hreq hnm with ⟨pc₁, hpc₁, hreq₁⟩ | hreturned
  swap
  · exact ⟨m, hnm, .inl (.inl hreturned)⟩
  obtain ⟨j, hmj, hreturned | hanswered | hfreed⟩ := requests_go_on hnew r hnone hpc₁ hreq₁
  · exact ⟨j, hnm.trans hmj, .inl (.inl hreturned)⟩
  · refine ⟨j, hnm.trans hmj, ?_⟩
    rcases request_stays r hpc hreq (hnm.trans hmj) with hstays | hreturned
    · refine .inr ⟨⟨hln.trans (hnm.trans hmj), hstays⟩, ?_⟩
      have hsame := hasks hln (hnm.trans hmj)
      have hmono := answered_stays r hnm
      have hbound := hle j
      omega
    · exact .inl (.inl hreturned)
  · exact ⟨j, hnm.trans hmj, .inl (.inr hfreed)⟩

end

/-- Two clients take their turns with the resources, and give them back. -/
def turnsRun : LimiterRun newLimiter ∅ :=
  .ofCheck _
    [.call (.request ⟨5, 10, 0⟩ blocking) ⟨false, 0⟩, .step 0 ⟨false, 0⟩,
      .call (.request ⟨5, 10, 1⟩ blocking) ⟨false, 0⟩, .step 1 ⟨false, 0⟩,
      .call (.giveBack 10) ⟨false, 0⟩, .step 2 ⟨false, 0⟩, .step 1 ⟨false, blocking⟩,
      .call (.giveBack 10) ⟨false, 0⟩, .step 3 ⟨false, 0⟩]
    (by decide) (System.not_canStep LimiterState.rests limiterStep_eq_none (by decide))

theorem requests_return_turnsRun :
    ∃ m, 4 ≤ m ∧ ((∃ res, (turnsRun.config m).pc? 1 = some (.returned (.requested res))) ∨
      (turnsRun.config m).shared.destroyed = true) := by
  have hwaits : (turnsRun.config 4).pc? 1 = some (.requestWaiting ⟨5, 10, 1⟩ blocking) := by
    decide
  apply requests_return (Option.some_get _).symm turnsRun ?_ ?_ hwaits (.waiting blocking)
  · intro n
    refine ⟨max n 9, le_max_left _ _, ?_⟩
    rw [turnsRun, System.FairRun.ofCheck_config (le_max_right n 9)]
    decide
  · refine ⟨9, fun m hm a hact => ?_⟩
    have hnone : turnsRun.act m = none := List.getElem?_eq_none hm
    rw [hnone] at hact
    cases hact

/-! ## Deletion -/

/-- How many sections a deletion has before it when nothing is granted. -/
def LimiterPc.deleteSteps : LimiterPc → ℕ
  | .delete _ => 3
  | .deleteTest => 2
  | .deleteWaiting => 2
  | .destroy _ => 1
  | _ => 0

/-- The thread is in a deletion. -/
def Deletes (t : ℕ) (c : LimiterConfig) : Prop := ∃ pc, c.pc? t = some pc ∧ 0 < pc.deleteSteps

/-- Past its first section a deletion has shut the limiter down. -/
def DeletingShutDown (s : LimiterState) (pc : LimiterPc) : Prop :=
  pc.deleteSteps = 1 ∨ pc.deleteSteps = 2 → s.limiter.shutdownRequested = true

theorem LimiterMove.deletingShutDown {s s' : LimiterState} {t : ℕ} {o : WaitOutcome}
    {pc pc' : LimiterPc} (h : LimiterMove s t o pc s' pc') (hpc : DeletingShutDown s pc) :
    DeletingShutDown s' pc' := by
  cases h with
  | call k pc' hstart => cases hstart <;> nofun
  | delete wait => exact fun _ => rfl
  | deleteWait pc hat _ => cases hat <;> exact fun _ => hpc (.inr rfl)
  | deletePass pc hat _ => cases hat <;> exact fun _ => hpc (.inr rfl)
  | _ => nofun

theorem deletingShutDown_upholds :
    System.Upholds limiterSystem (fun _ => True) DeletingShutDown where
  start _ _ _ := nofun
  step hs _ hpc := by
    obtain ⟨-, hmove, rfl⟩ := limiterStep_move hs
    refine ⟨trivial, hmove.deletingShutDown hpc, nofun, fun q hq hsteps => ?_⟩
    exact (hmove.after_shutdown (hq hsteps)).1
  wake hs _ := by
    refine ⟨trivial, fun q hq hsteps => ?_⟩
    rw [limiterWake_frame hs]
    exact hq hsteps

/-- A section of a deletion destroys the limiter, or the deletion goes on; it comes
    nearer to its end when nothing is granted. -/
theorem LimiterMove.deletes {s s' : LimiterState} {t : ℕ} {o : WaitOutcome} {pc pc' : LimiterPc}
    (h : LimiterMove s t o pc s' pc') (hpc : 0 < pc.deleteSteps) :
    s'.destroyed = true ∨ (0 < pc'.deleteSteps ∧
      (s.limiter.resourceGrantedCount = 0 → pc'.deleteSteps < pc.deleteSteps)) := by
  cases h with
  | wait pc req timeout waitError hat _ _ _ => cases hat <;> cases hpc
  | refuse pc req timeout waitError hat _ => cases hat <;> cases hpc
  | grant pc req timeout waitError res hat _ _ _ _ => cases hat <;> cases hpc
  | delete wait => cases wait <;> exact .inr ⟨by decide, fun _ => by decide⟩
  | deleteWait pc hat hgranted =>
    refine .inr ⟨by decide, fun hnone => ?_⟩
    rw [hnone] at hgranted
    exact absurd hgranted (UInt64.lt_irrefl 0)
  | deletePass pc hat _ => cases hat <;> exact .inr ⟨by decide, fun _ => by decide⟩
  | destroy wait => exact .inl rfl
  | _ => cases hpc

section

variable {resourceCount : UInt64} {allocated : Bool} {c c' : LimiterConfig} {t : ℕ}

theorem deletes_next {a : Act LimiterCall WaitOutcome} (h : limiterSystem.next c a = some c')
    (hc : Deletes t c) : c'.shared.destroyed = true ∨ Deletes t c' := by
  obtain ⟨pc, hpc, hsteps⟩ := hc
  by_cases ha : ∃ o, a = .step t o
  · obtain ⟨o, rfl⟩ := ha
    obtain ⟨pc₁, s, pc', new, hpc₁, hs, rfl⟩ := System.stepAt_cases h
    rw [hpc] at hpc₁
    cases hpc₁
    refine ((limiterStep_move hs).2.1.deletes hsteps).imp_right fun hgoes => ?_
    exact ⟨pc', Config.pc?_move_self hpc _ _ _, hgoes.1⟩
  · exact .inr ⟨pc, (System.next_other h hpc fun o ho => ha ⟨o, ho⟩).1, hsteps⟩

theorem destroyed_next {a : Act LimiterCall WaitOutcome} (h : limiterSystem.next c a = some c')
    (hc : c.shared.destroyed = true) : c'.shared.destroyed = true := by
  refine System.next_stable (R := fun s => s.destroyed = true) h ?_ ?_ hc
  · intro s t pc o s' pc' new hs hfreed
    rw [(limiterStep_move hs).1] at hfreed
    cases hfreed
  · intro s t pc s' hs hfreed
    rw [limiterWake_frame hs]
    exact hfreed

/-- The limiter is shut down, nothing is granted any more, and thread `t` deletes it. -/
structure DeletesUnused (t : ℕ) (c : LimiterConfig) : Prop where
  shutDown : c.shared.limiter.shutdownRequested = true
  unused : c.shared.limiter.resourceGrantedCount = 0
  deletes : Deletes t c

theorem deletion_progress (hnew : ResourceUsageLimiter.new resourceCount allocated = some rul)
    (t : ℕ) : System.Progress limiterSystem (fun _ _ => True) (limiterInit rul brokenOut)
      (DeletesUnused t) (fun c => c.shared.destroyed = true)
      (fun c => c.weightAt LimiterPc.deleteSteps t) (fun u _ => u = t) where
  helper _ _ _ := ⟨t, rfl⟩
  can := by
    rintro c u hreach hc hlive rfl
    obtain ⟨pc, hpc, hsteps⟩ := hc.deletes
    have hawake : c.shared.rests u pc = false := by
      refine limiter_awake hnew hreach (Bool.eq_false_iff.mpr hlive) hpc ?_ fun hmust => ?_
      · rintro r rfl
        cases hsteps
      · cases pc with
        | deleteWaiting =>
          change 0 < c.shared.limiter.resourceGrantedCount at hmust
          rw [hc.unused] at hmust
          exact UInt64.lt_irrefl 0 hmust
        | requestWaiting req timeout => cases hsteps
        | _ => cases hmust
    exact .of_isSome (o := ⟨false, 0⟩) hpc trivial (limiterStep_isSome hawake)
  step := by
    rintro c u o c' - hc - rfl - h
    obtain ⟨pc, hpc, hsteps⟩ := hc.deletes
    obtain ⟨pc₁, s, pc', new, hpc₁, hs, rfl⟩ := System.stepAt_cases h
    rw [hpc] at hpc₁
    cases hpc₁
    have hmove := (limiterStep_move hs).2.1
    obtain ⟨hshut, -, hnone⟩ := hmove.after_shutdown hc.shutDown
    have hself := Config.pc?_move_self hpc s pc' new
    refine (hmove.deletes hsteps).imp_right fun hgoes => ?_
    refine ⟨⟨hshut, hnone hc.unused, pc', hself, hgoes.1⟩, ?_⟩
    simp only [Config.weightAt_of_pc? hpc, Config.weightAt_of_pc? hself]
    exact hgoes.2 hc.unused
  keep := by
    intro c a c' _ hc _ hnot _ h
    obtain ⟨pc, hpc, hsteps⟩ := hc.deletes
    obtain ⟨hself, hchange⟩ := System.next_other h hpc fun o ha => hnot t o ha rfl
    have hkept : c'.shared.limiter.shutdownRequested = true ∧
        c'.shared.limiter.resourceGrantedCount = 0 := by
      rcases hchange with ⟨u, q, o, q', new, -, -, hs⟩ | ⟨u, q, hs⟩
      · obtain ⟨hshut, -, hnone⟩ := (limiterStep_move hs).2.1.after_shutdown hc.shutDown
        exact ⟨hshut, hnone hc.unused⟩
      · rw [limiterWake_frame hs]
        exact ⟨hc.shutDown, hc.unused⟩
    refine .inr ⟨⟨hkept.1, hkept.2, pc, hself, hsteps⟩, .inr ⟨?_, fun _ => id⟩⟩
    simp only [Config.weightAt_of_pc? hpc, Config.weightAt_of_pc? hself]

/-- A deletion that has just begun shuts the limiter down. -/
theorem deletion_shuts_down (r : LimiterRun rul brokenOut) {n : ℕ} (hc : Deletes t (r.config n)) :
    ∃ m, n ≤ m ∧ ((r.config m).shared.destroyed = true ∨
      ((r.config m).shared.limiter.shutdownRequested = true ∧ Deletes t (r.config m))) := by
  obtain ⟨pc, hpc, hsteps⟩ := hc
  by_cases hfreed : (r.config n).shared.destroyed = true
  · exact ⟨n, le_rfl, .inl hfreed⟩
  have hlive := Bool.eq_false_iff.mpr hfreed
  have hknows := (deletingShutDown_upholds.reach trivial (fun t pc hpc => by cases hpc)
    (r.reach n)).2 t pc hpc
  cases pc with
  | delete wait =>
    refine r.leadsTo_by
      (P := fun c => c.pc? t = some (.delete wait) ∧ c.shared.destroyed = false)
      (Q := fun c => c.shared.destroyed = true ∨
        (c.shared.limiter.shutdownRequested = true ∧ Deletes t c)) t ?_ ?_ ?_ n ⟨hpc, hlive⟩
    · rintro c - ⟨hpc, hlive⟩
      refine .of_isSome (o := ⟨false, 0⟩) hpc trivial (limiterStep_isSome ?_)
      exact Bool.or_eq_false_iff.mpr ⟨hlive, rfl⟩
    · rintro c o c' - ⟨hpc, -⟩ h
      refine (deletes_next h ⟨_, hpc, Nat.zero_lt_succ 2⟩).imp_right fun hdeletes => ⟨?_, hdeletes⟩
      obtain ⟨pc₁, s, pc', new, hpc₁, hs, rfl⟩ := System.stepAt_cases h
      have hmove := (limiterStep_move hs).2.1
      rw [hpc] at hpc₁
      cases hpc₁
      cases hmove with
      | delete wait => rfl
      | wait pc req timeout waitError hat _ _ _ => cases hat
      | refuse pc req timeout waitError hat _ => cases hat
      | grant pc req timeout waitError res hat _ _ _ _ => cases hat
      | deleteWait pc hat _ => cases hat
      | deletePass pc hat _ => cases hat
    · rintro c a c' - ⟨hpc, hlive⟩ hnot - h
      by_cases hfreed : c'.shared.destroyed = true
      · exact .inl (.inl hfreed)
      · exact .inr ⟨(System.next_other h hpc hnot).1, Bool.eq_false_iff.mpr hfreed⟩
  | deleteTest => exact ⟨n, le_rfl, .inr ⟨hknows (.inr rfl), _, hpc, hsteps⟩⟩
  | deleteWaiting => exact ⟨n, le_rfl, .inr ⟨hknows (.inr rfl), _, hpc, hsteps⟩⟩
  | destroy wait => exact ⟨n, le_rfl, .inr ⟨hknows (.inl rfl), _, hpc, hsteps⟩⟩
  | _ => cases hsteps

/-- In every fair run of the threads on a limiter to which all that it grants comes back
    again and again, a deletion that has begun comes to free the limiter. -/
theorem deletion_completes (hnew : ResourceUsageLimiter.new resourceCount allocated = some rul)
    (r : LimiterRun rul brokenOut)
    (hback : ∀ n, ∃ m, n ≤ m ∧ (r.config m).shared.limiter.resourceGrantedCount = 0)
    {n : ℕ} (hc : Deletes t (r.config n)) :
    ∃ m, n ≤ m ∧ (r.config m).shared.destroyed = true := by
  obtain ⟨m, hnm, hfreed | ⟨hshut, hdeletes⟩⟩ := deletion_shuts_down r hc
  · exact ⟨m, hnm, hfreed⟩
  obtain ⟨l, hml, hnone⟩ := hback m
  have hgoes : (r.config l).shared.destroyed = true ∨ Deletes t (r.config l) := by
    refine r.stable (P := fun c => c.shared.destroyed = true ∨ Deletes t c) ?_ (.inr hdeletes) hml
    rintro c a c' - (hfreed | hdeletes) - h
    · exact .inl (destroyed_next h hfreed)
    · exact deletes_next h hdeletes
  rcases hgoes with hfreed | hdeletes
  · exact ⟨l, hnm.trans hml, hfreed⟩
  · have hshut' := shutdown_stays hshut (r.reach_le hml)
    obtain ⟨j, hlj, hfreed⟩ := (deletion_progress hnew t).leadsTo r l ⟨hshut', hnone, hdeletes⟩
    exact ⟨j, hnm.trans (hml.trans hlj), hfreed⟩

end

/-- The deleter waits for the resources that a client holds. -/
def deletionRun : LimiterRun newLimiter ∅ :=
  .ofCheck _
    [.call (.request ⟨5, 10, 0⟩ blocking) ⟨false, 0⟩, .step 0 ⟨false, 0⟩,
      .call (.delete true) ⟨false, 0⟩, .step 1 ⟨false, 0⟩, .step 1 ⟨false, 0⟩,
      .call (.giveBack 10) ⟨false, 0⟩, .step 2 ⟨false, 0⟩, .step 1 ⟨false, 0⟩, .step 1 ⟨false, 0⟩]
    (by decide) (System.not_canStep LimiterState.rests limiterStep_eq_none (by decide))

theorem deletion_completes_deletionRun :
    ∃ m, 3 ≤ m ∧ (deletionRun.config m).shared.destroyed = true := by
  apply deletion_completes (t := 1) (Option.some_get _).symm deletionRun ?_
    ⟨.delete true, by decide, by decide⟩
  intro n
  refine ⟨max n 9, le_max_left _ _, ?_⟩
  rw [deletionRun, System.FairRun.ofCheck_config (le_max_right n 9)]
  decide

end BoomPar
