-- SUMMARY: No wake-up of a limiter is lost: whoever sleeps there still has to wait.
import BoomPar.LimiterAccounts

/-!
# Limiter wake-ups

Requesters and the deleter sleep on one condition variable with different
conditions, and not every section that changes the counts broadcasts on it. A
section that does not leaves every sleeper with a condition that still holds.
-/

namespace BoomPar

open Monitor

/-- The thread sleeps on the condition variable, and its condition to wait holds. -/
def LimiterMustWait (s : LimiterState) : LimiterPc → Prop
  | .requestWaiting req _ => RequestMustWait s req
  | .deleteWaiting => 0 < s.limiter.resourceGrantedCount
  | _ => False

/-- The conditions outlast a section that leaves no more resources than before, and
    not all of them returned. -/
theorem LimiterMustWait.keep {s s' : LimiterState} {pc : LimiterPc} (h : LimiterMustWait s pc)
    (hrunning : s'.limiter.shutdownRequested = s.limiter.shutdownRequested)
    (hbroken : s'.brokenOut = s.brokenOut)
    (hcount : s'.limiter.resourceCount = s.limiter.resourceCount)
    (hfew : ∀ n, s.limiter.getResourcesLeft < n → s'.limiter.getResourcesLeft < n)
    (hgranted : 0 < s.limiter.resourceGrantedCount → 0 < s'.limiter.resourceGrantedCount) :
    LimiterMustWait s' pc := by
  cases pc with
  | requestWaiting req timeout =>
    exact ⟨hrunning.trans h.running, hbroken ▸ h.clear, hfew _ h.few, hcount ▸ h.enough⟩
  | deleteWaiting => exact hgranted h
  | _ => cases h

/-- The threads that sleep have no part in the conditions. -/
theorem LimiterMustWait.update {s : LimiterState} {pc : LimiterPc} (h : LimiterMustWait s pc)
    (cv : CondVar) : LimiterMustWait (s.update cv s.limiter.resourceGrantedCount) pc :=
  h.keep rfl rfl rfl (fun _ => id) id

/-- A grant leaves fewer resources. -/
theorem LimiterMustWait.grant {s : LimiterState} {pc : LimiterPc} {res : UInt64}
    (h : LimiterMustWait s pc) (hres : res ≤ s.limiter.getResourcesLeft) :
    LimiterMustWait (s.update s.limiter.resourceLimiterWait
      (s.limiter.resourceGrantedCount + res)) pc := by
  have hadd := ResourceUsageLimiter.toNat_granted_add hres
  refine h.keep rfl rfl rfl (fun n hn => ?_) fun hpos => ?_
  · have hleft := s.limiter.toNat_getResourcesLeft
    have hleft' := (s.update s.limiter.resourceLimiterWait
      (s.limiter.resourceGrantedCount + res)).limiter.toNat_getResourcesLeft
    simp only [LimiterState.update] at hleft' ⊢
    rw [UInt64.lt_iff_toNat_lt] at hn ⊢
    omega
  · simp only [LimiterState.update]
    rw [UInt64.lt_iff_toNat_lt] at hpos ⊢
    omega

/-- Resources given back that leave none, the count having been lowered, change
    nothing for the sleepers: the count is not 0, so some are still granted. -/
theorem LimiterMustWait.giveBack {s s' : LimiterState} {pc : LimiterPc} {n : UInt64}
    (h : LimiterMustWait s pc)
    (hs' : s' = s.update s.limiter.resourceLimiterWait (s.limiter.resourceGrantedCount - n))
    (hnone : ¬ 0 < s'.limiter.getResourcesLeft) : LimiterMustWait s' pc := by
  have hcount : s'.limiter.resourceCount = s.limiter.resourceCount := by
    rw [hs']
    rfl
  have hleft := s'.limiter.toNat_getResourcesLeft
  rw [UInt64.lt_iff_toNat_lt, UInt64.toNat_zero] at hnone
  refine h.keep (by rw [hs']; rfl) (by rw [hs']; rfl) hcount (fun m hm => ?_) fun _ => ?_
  · rw [UInt64.lt_iff_toNat_lt] at hm ⊢
    omega
  · have hpos : s'.limiter.resourceCount.1.toNat ≠ 0 := fun hzero =>
      s'.limiter.resourceCount.2 (UInt64.toNat.inj hzero)
    rw [UInt64.lt_iff_toNat_lt, UInt64.toNat_zero]
    omega

theorem LimiterMove.mem_wait {s s' : LimiterState} {t u : ℕ} {o : WaitOutcome} {pc pc' : LimiterPc}
    (h : LimiterMove s t o pc s' pc') (hu : u ∈ s'.limiter.resourceLimiterWait) :
    (u = t ∧ LimiterMustWait s' pc') ∨
      (u ∈ s.limiter.resourceLimiterWait ∧ ∀ q, LimiterMustWait s q → LimiterMustWait s' q) := by
  cases h with
  | setCount n _ _ => exact absurd hu (Finset.notMem_empty u)
  | wait pc req timeout waitError _ _ hmust _ =>
    obtain rfl | hold := CondVar.mem_wait.mp hu
    · have hmust' : LimiterMustWait s (.requestWaiting req timeout) := hmust
      exact .inl ⟨rfl, hmust'.update _⟩
    · exact .inr ⟨hold, fun q hq => hq.update _⟩
  | grant pc req timeout waitError res _ _ _ hleft hres =>
    refine .inr ⟨hu, fun q hq => hq.grant ?_⟩
    rw [hres]
    exact ResourceUsageLimiter.granted_le hleft
  | giveBack n s' _ hs' =>
    by_cases hleft : 0 < s'.limiter.getResourcesLeft
    · have hnobody : u ∈ s.limiter.resourceLimiterWait.broadcastIf true := by
        rwa [← decide_eq_true hleft]
      exact absurd hnobody (Finset.notMem_empty u)
    · refine .inr ⟨CondVar.mem_of_mem_broadcastIf hu, fun q hq => ?_⟩
      exact (hq.giveBack hs' hleft).update _
  | breakOut b _ => exact absurd hu (Finset.notMem_empty u)
  | shutdown => exact absurd hu (Finset.notMem_empty u)
  | delete wait => exact absurd hu (Finset.notMem_empty u)
  | deleteWait pc _ hgranted =>
    obtain rfl | hold := CondVar.mem_wait.mp hu
    · exact .inl ⟨rfl, hgranted⟩
    · exact .inr ⟨hold, fun q hq => hq.update _⟩
  | destroy wait => exact .inr ⟨hu, fun q hq => hq.keep rfl rfl rfl (fun _ => id) id⟩
  | _ => exact .inr ⟨hu, fun q hq => hq⟩

/-- A thread that is still asleep takes no step. -/
theorem limiterStep_asleep {s : LimiterState} {t : ℕ} {o : WaitOutcome} {pc : LimiterPc}
    (hmust : LimiterMustWait s pc) (ht : t ∈ s.limiter.resourceLimiterWait) :
    limiterStep s t pc o = none := by
  unfold limiterStep
  split
  · rfl
  · cases pc with
    | requestWaiting req timeout => exact if_pos ht
    | deleteWaiting => exact if_pos ht
    | _ => cases hmust

theorem limiter_keepsWaiting : System.KeepsWaiting limiterSystem
    (fun s => s.limiter.resourceLimiterWait) LimiterMustWait where
  resume {s t pc o s' pc' new} hs hmust ht := by
    cases (limiterStep_asleep hmust ht).symm.trans hs
  step hs u hu := (limiterStep_move hs).2.1.mem_wait hu
  wake hs u hu := by
    rw [limiterWake_frame hs] at hu ⊢
    exact ⟨Finset.mem_of_mem_erase hu, fun q hq => hq.update _⟩

/-- Who sleeps on the limiter has to wait, in every interleaving of any calls: a
    requester by the test of its loop, the deleter for resources to be given back. -/
theorem limiter_sleepers_must_wait {resourceCount : UInt64} {allocated : Bool}
    {rul : ResourceUsageLimiter} {brokenOut : Finset ℕ} {c : LimiterConfig}
    (hnew : ResourceUsageLimiter.new resourceCount allocated = some rul)
    (h : LimiterReach rul brokenOut c) :
    (∀ t ∈ c.shared.limiter.resourceLimiterWait, ∀ req timeout,
      c.pc? t = some (.requestWaiting req timeout) →
        c.shared.limiter.shutdownRequested = false ∧ req.breakOut ∉ c.shared.brokenOut ∧
          c.shared.limiter.getResourcesLeft < req.minResourceCount ∧
          req.minResourceCount ≤ c.shared.limiter.resourceCount) ∧
      ∀ t ∈ c.shared.limiter.resourceLimiterWait, c.pc? t = some .deleteWaiting →
        0 < c.shared.limiter.resourceGrantedCount := by
  have hnobody := (ResourceUsageLimiter.new_fresh hnew).2
  have hwaiting : System.StillWaiting (fun s => s.limiter.resourceLimiterWait)
      LimiterMustWait c := limiter_keepsWaiting.reach (.of_empty hnobody) h
  refine ⟨fun t ht req timeout hpc => ?_, fun t ht hpc => hwaiting.must ht hpc⟩
  have hmust := hwaiting.must ht hpc
  exact ⟨hmust.running, hmust.clear, hmust.few, hmust.enough⟩

/-- A request of 5 sleeps while 4 of 14 resources are left. -/
def sleepingRequester : LimiterConfig :=
  limiterSystem.run (limiterInit newLimiter ∅)
    [.call (.request ⟨5, 10, 0⟩ blocking) ⟨false, 0⟩, .step 0 ⟨false, 0⟩,
      .call (.request ⟨5, 10, 1⟩ blocking) ⟨false, 0⟩, .step 1 ⟨false, 0⟩] (by decide)

/-- The limiter is shut down, which wakes the requester, and the deleter sleeps. -/
def sleepingDeleter : LimiterConfig :=
  limiterSystem.run sleepingRequester
    [.call (.delete true) ⟨false, 0⟩, .step 2 ⟨false, 0⟩, .step 2 ⟨false, 0⟩] (by decide)

theorem limiter_sleepers_must_wait_sleepingDeleter :
    sleepingRequester.shared.limiter.getResourcesLeft < 5 ∧
      0 < sleepingDeleter.shared.limiter.resourceGrantedCount := by
  have hrequester : LimiterReach newLimiter ∅ sleepingRequester := .run _ _ _
  have hdeleter : LimiterReach newLimiter ∅ sleepingDeleter := hrequester.trans (.run _ _ _)
  exact ⟨((limiter_sleepers_must_wait (Option.some_get _).symm hrequester).1 1 (by decide)
      ⟨5, 10, 1⟩ blocking (by decide)).2.2.1,
    (limiter_sleepers_must_wait (Option.some_get _).symm hdeleter).2 2 (by decide) (by decide)⟩

end BoomPar
