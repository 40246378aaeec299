-- SUMMARY: What a request for resources returns, by the state its last section finds, and when it never waits.
import BoomPar.LimiterThreads

/-!
# The outcome of a request

However long a request waits and whatever the others do meanwhile, what it
returns is decided by the state that its last section finds. Only a section that
runs out of time leaves with fewer resources left than the minimum that the
limiter could ever grant.
-/

namespace BoomPar

open Monitor

/-- The section in which a request ends, from the state `s`: it was stopped, is
    granted what is left up to its maximum, or gives up. -/
inductive RequestEnds (s : LimiterState) (req : ResourceRequest) (timedOut : Prop) :
    LimiterState → UInt64 → Prop
  | stopped : (s.limiter.shutdownRequested = true ∨ req.breakOut ∈ s.brokenOut) →
      RequestEnds s req timedOut s 0
  | granted (res : UInt64) : s.limiter.shutdownRequested = false → req.breakOut ∉ s.brokenOut →
      req.minResourceCount ≤ s.limiter.getResourcesLeft →
      res = min s.limiter.getResourcesLeft req.maxResourceCount →
      req.minResourceCount ≤ res → res ≤ req.maxResourceCount →
      (s.limiter.resourceGrantedCount + res).toNat =
        s.limiter.resourceGrantedCount.toNat + res.toNat →
      RequestEnds s req timedOut
        { s with limiter := { s.limiter with
            resourceGrantedCount := s.limiter.resourceGrantedCount + res } } res
  | gaveUp : s.limiter.shutdownRequested = false → req.breakOut ∉ s.brokenOut →
      s.limiter.getResourcesLeft < req.minResourceCount →
      (s.limiter.resourceCount < req.minResourceCount ∨ timedOut) →
      RequestEnds s req timedOut s 0

/-- The wait that a section resumes from, or that it would begin, returns an error:
    its time is up. -/
def TimedOut (o : WaitOutcome) : LimiterPc → Prop
  | .request _ timeout => timeout = nonBlocking
  | .requestWaiting _ timeout => o.waitError = true ∨ leftOf timeout o.remaining = nonBlocking
  | _ => False

/-- A request is before its first section, waits inside the limiter, or has returned. -/
inductive InRequest (req : ResourceRequest) (timeout : ℕ) : LimiterPc → Prop
  | entry : InRequest req timeout (.request req timeout)
  | waiting (left : ℕ) : 0 < req.minResourceCount → (timeout = blocking → left = blocking) →
      InRequest req timeout (.requestWaiting req left)
  | returned (res : UInt64) : InRequest req timeout (.returned (.requested res))

/-- What a request of thread `t` does from `c` on, in every interleaving. -/
structure RequestContract (c : LimiterConfig) (t : ℕ) (req : ResourceRequest) (timeout : ℕ) :
    Prop where
  /-- The request stays what it is, and waits only for a minimum that is not 0. -/
  inside : ∀ c₁, limiterSystem.Reach (fun _ _ => True) c c₁ →
    ∃ pc, c₁.pc? t = some pc ∧ InRequest req timeout pc
  /-- A minimum that the limiter does not have at entry is not waited for. -/
  entry : ∀ c₁ a c₂ pc, limiterSystem.Reach (fun _ _ => True) c c₁ →
    c₁.pc? t = some (.request req timeout) → limiterSystem.next c₁ a = some c₂ →
    c₂.pc? t = some pc → pc ≠ .request req timeout →
    c₁.shared.limiter.resourceCount < req.minResourceCount → pc = .returned (.requested 0)
  /-- The last section decides what is returned. -/
  ends : ∀ c₁ a c₂ res, limiterSystem.Reach (fun _ _ => True) c c₁ →
    limiterSystem.next c₁ a = some c₂ → c₁.pc? t ≠ some (.returned (.requested res)) →
    c₂.pc? t = some (.returned (.requested res)) →
    ∃ pc o, limiterSystem.runs? c₁ a = some (pc, o) ∧
      RequestEnds c₁.shared req (TimedOut o pc) c₂.shared res
  /-- A request that waits forever, and whose waits report no error, gives up only
      when it is stopped or its minimum is out of reach. -/
  blocks : ∀ c₁ a c₂, limiterSystem.Reach (fun _ _ => True) c c₁ →
    limiterSystem.next c₁ a = some c₂ → c₁.pc? t ≠ some (.returned (.requested 0)) →
    c₂.pc? t = some (.returned (.requested 0)) → timeout = blocking → 0 < req.minResourceCount →
    (∀ pc o, limiterSystem.runs? c₁ a = some (pc, o) → o.waitError = false) →
    c₁.shared.limiter.shutdownRequested = true ∨ req.breakOut ∈ c₁.shared.brokenOut ∨
      c₁.shared.limiter.resourceCount < req.minResourceCount
  /-- What is left, which decides, is the count less what is granted, or nothing. -/
  left : ∀ c₁, limiterSystem.Reach (fun _ _ => True) c c₁ →
    c₁.shared.limiter.getResourcesLeft.toNat =
      c₁.shared.limiter.resourceCount.1.toNat - c₁.shared.limiter.resourceGrantedCount.toNat

/-! ## Sections -/

/-- The clamp of the code is the minimum of what is left and the maximum asked for. -/
theorem clamp_eq {left minResourceCount maxResourceCount : UInt64}
    (hleft : minResourceCount ≤ left) (hrange : minResourceCount ≤ maxResourceCount) :
    max (min left maxResourceCount) minResourceCount = min left maxResourceCount ∧
      minResourceCount ≤ min left maxResourceCount ∧
      min left maxResourceCount ≤ maxResourceCount := by
  have hmin : minResourceCount ≤ min left maxResourceCount := by
    simp only [min]
    split
    · exact hleft
    · exact hrange
  have hmax : min left maxResourceCount ≤ maxResourceCount := by
    simp only [min]
    split
    · assumption
    · exact UInt64.le_refl _
  refine ⟨?_, hmin, hmax⟩
  generalize min left maxResourceCount = res at hmin
  simp only [max]
  split
  · rename_i hle
    exact UInt64.le_antisymm hmin hle
  · rfl

/-- One section of a request waits, or ends it. -/
theorem request_section {s s' : LimiterState} {t : ℕ} {req : ResourceRequest} {timeout : ℕ}
    {waitError : Bool} {pc' : LimiterPc} (hrange : req.minResourceCount ≤ req.maxResourceCount)
    (h : s.request t req timeout waitError = (s', pc')) :
    (RequestMustWait s req ∧ pc' = .requestWaiting req timeout) ∨
      ∃ res, pc' = .returned (.requested res) ∧
        RequestEnds s req (waitError = true ∨ timeout = nonBlocking) s' res := by
  simp only [LimiterState.request, ResourceUsageLimiter.request] at h
  split at h
  · rename_i hwait
    cases h
    have hmust := hwait.1
    simp only [ResourceUsageLimiter.requestMustWait, Bool.and_eq_true, Bool.not_eq_true',
      decide_eq_true_eq, decide_eq_false_iff_not] at hmust
    obtain ⟨⟨⟨hrunning, hclear⟩, hfew⟩, henough⟩ := hmust
    exact .inl ⟨⟨hrunning, hclear, hfew, henough⟩, rfl⟩
  · rename_i hgoes
    refine .inr ?_
    simp only [ResourceUsageLimiter.requestAfterWait] at h
    split at h
    · rename_i hgo
      simp only [Bool.and_eq_true, Bool.not_eq_true', decide_eq_false_iff_not] at hgo
      split at h
      · rename_i hleft
        cases h
        obtain ⟨hclamp, hmin, hmax⟩ := clamp_eq hleft hrange
        rw [hclamp]
        refine ⟨_, rfl, .granted _ hgo.1 hgo.2 hleft rfl hmin hmax ?_⟩
        rw [← hclamp]
        exact ResourceUsageLimiter.toNat_granted_add (ResourceUsageLimiter.granted_le hleft)
      · rename_i hleft
        cases h
        -- the loop was left although resources lack, so one of its other tests failed
        refine ⟨0, rfl, .gaveUp hgo.1 hgo.2 (UInt64.not_le.mp hleft) ?_⟩
        by_cases henough : req.minResourceCount ≤ s.limiter.resourceCount
        · refine .inr ?_
          have hmust : s.limiter.requestMustWait (decide (req.breakOut ∈ s.brokenOut))
              req.minResourceCount = true := by
            simp [ResourceUsageLimiter.requestMustWait, hgo.1, hgo.2, UInt64.not_le.mp hleft,
              henough]
          by_cases htimeout : timeout = nonBlocking
          · exact .inr htimeout
          · refine .inl ?_
            rw [← Bool.not_eq_false]
            exact fun herror => hgoes ⟨hmust, herror, htimeout⟩
        · exact .inl (UInt64.not_le.mp henough)
    · rename_i hstop
      cases h
      refine ⟨0, rfl, .stopped ?_⟩
      simp only [Bool.and_eq_true, Bool.not_eq_true', decide_eq_false_iff_not, not_and_or,
        Bool.not_eq_false, not_not] at hstop
      exact hstop

/-- A step of a request in a valid range begins a wait, or ends the request. -/
theorem limiterStep_request {s s' : LimiterState} {t : ℕ} {o : WaitOutcome} {pc pc' : LimiterPc}
    {new : List LimiterPc} {req : ResourceRequest} {timeout : ℕ}
    (hrange : req.minResourceCount ≤ req.maxResourceCount) (hpc : InRequest req timeout pc)
    (h : limiterStep s t pc o = some (s', pc', new)) :
    (RequestMustWait s req ∧ ∃ left, pc' = .requestWaiting req left ∧
        (timeout = blocking → left = blocking)) ∨
      ∃ res, pc' = .returned (.requested res) ∧ RequestEnds s req (TimedOut o pc) s' res := by
  unfold limiterStep at h
  split at h
  · cases h
  cases hpc with
  | entry =>
    obtain ⟨hmust, hpc'⟩ | ⟨res, hpc', hends⟩ := request_section hrange (quietly_inj h).1
    · exact .inl ⟨hmust, timeout, hpc', id⟩
    · refine .inr ⟨res, hpc', ?_⟩
      simpa only [TimedOut, Bool.false_eq_true, false_or] using hends
  | waiting left hmin hblocking =>
    simp only [limiterSection] at h
    split at h
    · cases h
    · obtain ⟨hmust, hpc'⟩ | ⟨res, hpc', hends⟩ := request_section hrange (quietly_inj h).1
      · refine .inl ⟨hmust, _, hpc', fun hforever => ?_⟩
        rw [hblocking hforever, leftOf_blocking]
      · exact .inr ⟨res, hpc', hends⟩
  | returned res => cases h

theorem InRequest.step {s s' : LimiterState} {t : ℕ} {o : WaitOutcome} {pc pc' : LimiterPc}
    {new : List LimiterPc} {req : ResourceRequest} {timeout : ℕ}
    (hrange : req.minResourceCount ≤ req.maxResourceCount) (hpc : InRequest req timeout pc)
    (h : limiterStep s t pc o = some (s', pc', new)) : InRequest req timeout pc' := by
  obtain ⟨hmust, left, rfl, hblocking⟩ | ⟨res, rfl, -⟩ := limiterStep_request hrange hpc h
  · exact .waiting left (UInt64.lt_of_le_of_lt (UInt64.zero_le) hmust.few) hblocking
  · exact .returned res

/-- A request whose minimum is out of reach is refused at once. -/
theorem RequestEnds.eq_zero {s s' : LimiterState} {req : ResourceRequest} {timedOut : Prop}
    {res : UInt64} (h : RequestEnds s req timedOut s' res)
    (hfew : s.limiter.resourceCount < req.minResourceCount) : res = 0 := by
  cases h with
  | stopped _ => rfl
  | granted res _ _ hleft _ _ _ _ =>
    rw [UInt64.le_iff_toNat_le, ResourceUsageLimiter.toNat_getResourcesLeft] at hleft
    rw [UInt64.lt_iff_toNat_lt] at hfew
    omega
  | gaveUp _ _ _ _ => rfl

/-- A request in time that returns 0 for a positive minimum was stopped, or its
    minimum is out of reach. -/
theorem RequestEnds.of_zero {s s' : LimiterState} {req : ResourceRequest} {timedOut : Prop}
    {res : UInt64} (h : RequestEnds s req timedOut s' res) (hzero : res = 0)
    (hmin : 0 < req.minResourceCount) (htime : ¬timedOut) :
    s.limiter.shutdownRequested = true ∨ req.breakOut ∈ s.brokenOut ∨
      s.limiter.resourceCount < req.minResourceCount := by
  cases h with
  | stopped hstop => exact hstop.imp_right .inl
  | granted res _ _ _ _ hle _ _ =>
    rw [hzero] at hle
    exact absurd hle (UInt64.not_le.mpr hmin)
  | gaveUp _ _ _ hwhy => exact .inr (.inr (hwhy.resolve_right htime))

/-! ## Calls -/

/-- From its entry on, a request in a valid range keeps the contract. -/
theorem request_contract {c : LimiterConfig} {t : ℕ} {req : ResourceRequest} {timeout : ℕ}
    (hrange : req.minResourceCount ≤ req.maxResourceCount)
    (hentry : c.pc? t = some (.request req timeout)) : RequestContract c t req timeout := by
  have hinside : ∀ c₁, limiterSystem.Reach (fun _ _ => True) c c₁ →
      ∃ pc, c₁.pc? t = some pc ∧ InRequest req timeout pc :=
    fun c₁ hreach => hreach.follow (fun hs hpc => hpc.step hrange hs) hentry .entry
  have hends : ∀ c₁ a c₂ res, limiterSystem.Reach (fun _ _ => True) c c₁ →
      limiterSystem.next c₁ a = some c₂ → c₁.pc? t ≠ some (.returned (.requested res)) →
      c₂.pc? t = some (.returned (.requested res)) →
      ∃ pc o, limiterSystem.runs? c₁ a = some (pc, o) ∧ InRequest req timeout pc ∧
        RequestEnds c₁.shared req (TimedOut o pc) c₂.shared res := by
    intro c₁ a c₂ res hreach hnext hbefore hafter
    obtain ⟨pc, hpc, hin⟩ := hinside c₁ hreach
    have hne : pc ≠ .returned (.requested res) := by
      rintro rfl
      exact hbefore hpc
    obtain ⟨o, new, hruns, hs⟩ := System.next_moved_runs hnext hpc hafter hne
    obtain ⟨-, left, heq, -⟩ | ⟨res', heq, hend⟩ := limiterStep_request hrange hin hs
    · cases heq
    · cases heq
      exact ⟨pc, o, hruns, hin, hend⟩
  refine ⟨hinside, ?_, ?_, ?_, fun c₁ _ => c₁.shared.limiter.toNat_getResourcesLeft⟩
  · intro c₁ a c₂ pc hreach hpc hnext hpc' hne hfew
    obtain ⟨o, new, hruns, hs⟩ := System.next_moved_runs hnext hpc hpc' hne.symm
    obtain ⟨hmust, -⟩ | ⟨res, rfl, hend⟩ := limiterStep_request hrange .entry hs
    · exact absurd hfew (UInt64.not_lt.mpr hmust.enough)
    · rw [hend.eq_zero hfew]
  · intro c₁ a c₂ res hreach hnext hbefore hafter
    obtain ⟨pc, o, hruns, -, hend⟩ := hends c₁ a c₂ res hreach hnext hbefore hafter
    exact ⟨pc, o, hruns, hend⟩
  · intro c₁ a c₂ hreach hnext hbefore hafter hforever hmin hquiet
    obtain ⟨pc, o, hruns, hin, hend⟩ := hends c₁ a c₂ 0 hreach hnext hbefore hafter
    have htime : ¬TimedOut o pc := by
      cases hin with
      | entry =>
        intro htimeout
        rw [TimedOut, hforever] at htimeout
        exact absurd htimeout (by decide)
      | waiting left _ hblocking =>
        rw [TimedOut, hblocking hforever, leftOf_blocking, hquiet _ o hruns]
        exact not_or.mpr ⟨Bool.false_ne_true, by decide⟩
      | returned res => exact id
    exact hend.of_zero rfl hmin htime

/-- A request in an invalid range returns 0 at once; one in a valid range comes to
    its section, and keeps the contract from there on. -/
theorem request_outcome {c c' : LimiterConfig} {req : ResourceRequest} {timeout : ℕ}
    {o : WaitOutcome} (h : limiterSystem.next c (.call (.request req timeout) o) = some c') :
    c'.shared = c.shared ∧
      ((req.maxResourceCount < req.minResourceCount ∨ req.maxResourceCount = 0) →
        c'.pc? c.threads.length = some (.returned (.requested 0))) ∧
      (req.minResourceCount ≤ req.maxResourceCount → req.maxResourceCount ≠ 0 →
        c'.pc? c.threads.length = some (.request req timeout) ∧
          RequestContract c' c.threads.length req timeout) := by
  obtain ⟨pc, s, pc', new, hpc, hs, rfl⟩ := System.stepAt_cases h
  have hself := Config.pc?_move_self hpc s pc' new
  rw [Config.pc?_push_self] at hpc
  cases hpc
  have hstart : s = c.shared ∧ pc' = (LimiterCall.request req timeout).start := by
    have hs' : limiterStep c.shared c.threads.length (.calling (.request req timeout)) o =
        some (s, pc', new) := hs
    unfold limiterStep at hs'
    split at hs'
    · cases hs'
    · cases hs'
      exact ⟨rfl, rfl⟩
  obtain ⟨rfl, rfl⟩ := hstart
  refine ⟨rfl, ?_, ?_⟩
  · intro hinvalid
    rw [hself, LimiterCall.start]
    by_cases hrange : req.maxResourceCount < req.minResourceCount
    · rw [if_pos hrange]
    · rw [if_neg hrange, if_pos (hinvalid.resolve_left hrange)]
  · intro hrange hne
    have hentry : (LimiterCall.request req timeout).start = .request req timeout := by
      rw [LimiterCall.start, if_neg (UInt64.not_lt.mpr hrange), if_neg hne]
    rw [hentry] at hself ⊢
    exact ⟨hself, request_contract hrange hself⟩

/-- A limiter of 8 resources. -/
def eightResources : ResourceUsageLimiter := ⟨∅, ⟨8, by decide⟩, 0, false⟩

/-- Between 5 and 10 of 8 resources are requested. -/
def fiveToTen : LimiterConfig :=
  limiterSystem.run (limiterInit eightResources ∅) [.call (.request ⟨5, 10, 0⟩ blocking) ⟨false, 0⟩]
    (by decide)

theorem request_outcome_fiveToTen :
    fiveToTen.pc? 0 = some (.request ⟨5, 10, 0⟩ blocking) ∧
      RequestContract fiveToTen 0 ⟨5, 10, 0⟩ blocking :=
  (request_outcome (c := limiterInit eightResources ∅) (o := ⟨false, 0⟩) (by decide)).2.2
    (by decide) (by decide)

end BoomPar
