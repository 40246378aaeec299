-- SUMMARY: Deleting a limiter waits for its resources, and for requesters only if none of them slept.
import BoomPar.LimiterWakeups

/-!
# Deleting a limiter

The shutdown wakes the requesters, but the deleter waits for the granted
resources only. A requester that was woken still needs the lock, and nothing
keeps the deleter from destroying it first.
-/

namespace BoomPar

open Monitor

/-- The requester is inside the limiter: blocked, or woken and still to re-acquire
    the lock. -/
def LimiterPc.insideRequest : LimiterPc → Bool
  | .requestWaiting _ _ => true
  | _ => false

def LimiterCall.isRequest : LimiterCall → Bool
  | .request _ _ => true
  | _ => false

/-- No request call begins. -/
def NoNewRequest (_ : LimiterConfig) : Act LimiterCall WaitOutcome → Prop
  | .call k _ => k.isRequest = false
  | _ => True

instance (c : LimiterConfig) : ∀ a, Decidable (NoNewRequest c a)
  | .call k _ => inferInstanceAs (Decidable (k.isRequest = false))
  | .step _ _ => inferInstanceAs (Decidable True)
  | .wake _ => inferInstanceAs (Decidable True)

/-- When thread `d` destroys the limiter, no requester is inside and nothing is
    granted, provided that no request call begins from `c` on. -/
def DestroysUnused (c : LimiterConfig) (d : ℕ) : Prop :=
  ∀ c₂ o c₃, limiterSystem.Reach NoNewRequest c c₂ → c₂.pc? d = some (.destroy true) →
    limiterSystem.next c₂ (.step d o) = some c₃ →
    (∀ t pc, c₂.pc? t = some pc → pc.insideRequest = false) ∧
      c₂.shared.limiter.resourceGrantedCount = 0

/-! ## After the shutdown -/

/-- The limiter is shut down, and whoever is to destroy it has seen all resources returned. -/
def DeleterKnows (s : LimiterState) : LimiterPc → Prop
  | .deleteTest => s.limiter.shutdownRequested = true
  | .deleteWaiting => s.limiter.shutdownRequested = true
  | .destroy true => s.limiter.shutdownRequested = true ∧ s.limiter.resourceGrantedCount = 0
  | _ => True

/-- A shutdown is never taken back, and nothing is granted after it. -/
theorem LimiterMove.after_shutdown {s s' : LimiterState} {t : ℕ} {o : WaitOutcome}
    {pc pc' : LimiterPc} (h : LimiterMove s t o pc s' pc')
    (hshutdown : s.limiter.shutdownRequested = true) :
    s'.limiter.shutdownRequested = true ∧ pc'.insideRequest = false ∧
      (s.limiter.resourceGrantedCount = 0 → s'.limiter.resourceGrantedCount = 0) := by
  cases h with
  | call k pc' hstart => exact ⟨hshutdown, by cases hstart <;> rfl, id⟩
  | setCount n hrunning _ => rw [hshutdown] at hrunning; cases hrunning
  | wait pc req timeout waitError _ _ hmust _ =>
    have hrunning := hmust.running
    rw [hshutdown] at hrunning
    cases hrunning
  | grant pc req timeout waitError res _ hrunning _ _ _ =>
    rw [hshutdown] at hrunning
    cases hrunning
  | giveBack n s' hle hs' =>
    subst hs'
    refine ⟨hshutdown, rfl, fun hnone => ?_⟩
    rw [hnone] at hle
    have hzero := UInt64.le_zero_iff.mp hle
    change s.limiter.resourceGrantedCount - n = 0
    rw [hnone, hzero]
    rfl
  | shutdown => exact ⟨rfl, rfl, id⟩
  | delete wait => exact ⟨rfl, by cases wait <;> rfl, id⟩
  | _ => exact ⟨hshutdown, rfl, id⟩

theorem LimiterMove.deleterKnows {s s' : LimiterState} {t : ℕ} {o : WaitOutcome}
    {pc pc' : LimiterPc} (h : LimiterMove s t o pc s' pc') (hpc : DeleterKnows s pc) :
    DeleterKnows s' pc' := by
  cases h with
  | call k pc' hstart => cases hstart <;> trivial
  | delete wait =>
    cases wait with
    | true => rfl
    | false => trivial
  | deleteWait pc hat _ => cases hat <;> exact hpc
  | deletePass pc hat hnone => cases hat <;> exact ⟨hpc, hnone⟩
  | _ => trivial

theorem DeleterKnows.keep {s s' : LimiterState} {q : LimiterPc} (h : DeleterKnows s q)
    (hkeep : s.limiter.shutdownRequested = true → s'.limiter.shutdownRequested = true ∧
      (s.limiter.resourceGrantedCount = 0 → s'.limiter.resourceGrantedCount = 0)) :
    DeleterKnows s' q := by
  cases q with
  | deleteTest => exact (hkeep h).1
  | deleteWaiting => exact (hkeep h).1
  | destroy wait =>
    cases wait with
    | true => exact ⟨(hkeep h.1).1, (hkeep h.1).2 h.2⟩
    | false => trivial
  | _ => trivial

theorem limiter_upholds : System.Upholds limiterSystem (fun _ => True) DeleterKnows where
  start _ _ _ := trivial
  step hs _ hpc := by
    obtain ⟨-, hmove, rfl⟩ := limiterStep_move hs
    refine ⟨trivial, hmove.deleterKnows hpc, nofun, fun q hq => hq.keep fun hshutdown => ?_⟩
    obtain ⟨hstays, -, hnone⟩ := hmove.after_shutdown hshutdown
    exact ⟨hstays, hnone⟩
  wake hs _ := by
    refine ⟨trivial, fun q hq => hq.keep fun hshutdown => ?_⟩
    rw [limiterWake_frame hs]
    exact ⟨hshutdown, id⟩

variable {c c₁ : LimiterConfig} {rul : ResourceUsageLimiter} {brokenOut : Finset ℕ}

/-- A run never takes a shutdown back. -/
theorem shutdown_stays {c' : LimiterConfig}
    {ok : LimiterConfig → Act LimiterCall WaitOutcome → Prop}
    (hshutdown : c.shared.limiter.shutdownRequested = true) (h : limiterSystem.Reach ok c c') :
    c'.shared.limiter.shutdownRequested = true := by
  refine System.Reach.stable (R := fun s => s.limiter.shutdownRequested = true) h ?_ ?_ hshutdown
  · exact fun hs hshutdown => ((limiterStep_move hs).2.1.after_shutdown hshutdown).1
  · intro s t pc s' hs hshutdown
    rw [limiterWake_frame hs]
    exact hshutdown

/-- Once the limiter is shut down with no requester inside, none is ever inside again. -/
theorem stays_unused {c' : LimiterConfig} {ok : LimiterConfig → Act LimiterCall WaitOutcome → Prop}
    (hshutdown : c.shared.limiter.shutdownRequested = true)
    (hfree : System.Free LimiterPc.insideRequest c) (h : limiterSystem.Reach ok c c') :
    System.Free LimiterPc.insideRequest c' := by
  induction h with
  | refl => exact hfree
  | tail hreach _ hnext hfree =>
    have hshut := shutdown_stays hshutdown hreach
    refine hfree.next_of_moves hnext fun _ hs => ?_
    obtain ⟨-, hmove, rfl⟩ := limiterStep_move hs
    exact ⟨(hmove.after_shutdown hshut).2.1, nofun⟩

/-! ## A deleter that does not wait -/

/-- A deleter that finds nothing granted destroys the limiter at once, whoever is inside. -/
theorem destroys_at_once {d : ℕ} (hlive : c.shared.destroyed = false)
    (hd : c.pc? d = some .deleteTest) (hnone : c.shared.limiter.resourceGrantedCount = 0)
    (h : DestroysUnused c d) : System.Free LimiterPc.insideRequest c := by
  have hpass : limiterSystem.next c (.step d ⟨false, 0⟩) =
      some (c.move d c.shared (.destroy true) []) := by
    refine System.next_step hd ((limiterStep_live hlive _ _ _).trans ?_)
    simp only [limiterSection, LimiterState.awaitReturned, hnone]
    rfl
  have hdestroy : (c.move d c.shared (.destroy true) []).pc? d = some (.destroy true) :=
    Config.pc?_move_self hd _ _ _
  have hlast : limiterSystem.step (c.move d c.shared (.destroy true) []).shared d (.destroy true)
      ⟨false, 0⟩ = some ({ c.shared with destroyed := true }, .returned .deleted, []) :=
    limiterStep_live hlive _ _ _
  have hok : NoNewRequest c (.step d ⟨false, 0⟩) := trivial
  obtain ⟨hfree, -⟩ := h _ _ _ (.tail .refl hok hpass) hdestroy
    (System.next_step hdestroy hlast)
  intro t pc hpc
  by_cases ht : t = d
  · rw [ht, hd] at hpc
    cases hpc
    rfl
  · exact hfree t pc (Config.pc?_move_of_ne ht hpc _ _ _)

/-- All that is granted can be given back in one call. -/
theorem gives_all_back (hlive : c.shared.destroyed = false) :
    ∃ c', limiterSystem.Reach NoNewRequest c c' ∧ c'.shared.destroyed = false ∧
      c'.shared.limiter.resourceGrantedCount = 0 ∧
      ∀ t pc, c.pc? t = some pc → c'.pc? t = some pc := by
  by_cases hnone : c.shared.limiter.resourceGrantedCount = 0
  · exact ⟨c, .refl, hlive, hnone, fun _ _ => id⟩
  set n := c.shared.limiter.resourceGrantedCount with hn
  have hcall : limiterSystem.next c (.call (.giveBack n) ⟨false, 0⟩) =
      some ((c.push (.calling (.giveBack n))).move c.threads.length c.shared (.giveBack n) []) := by
    refine System.next_call ((limiterStep_live hlive _ _ _).trans ?_)
    simp only [limiterSystem, limiterSection, LimiterCall.start, if_neg hnone]
    rfl
  set c₁ := (c.push (.calling (.giveBack n))).move c.threads.length c.shared (.giveBack n) []
  have hpc : c₁.pc? c.threads.length = some (.giveBack n) :=
    Config.pc?_move_self (Config.pc?_push_self c _) _ _ _
  have hsection : limiterSystem.step c₁.shared c.threads.length (.giveBack n) ⟨false, 0⟩ =
      some ({ c.shared with limiter := (c.shared.limiter.giveBackResources n).1 },
        .returned (.gaveBack n (c.shared.limiter.giveBackResources n).2), []) :=
    limiterStep_live hlive _ _ _
  have hstep := System.next_step hpc hsection
  refine ⟨_, .tail (.tail .refl ?_ hcall) ?_ hstep, hlive, ?_, fun t pc ht => ?_⟩
  · exact (rfl : LimiterCall.isRequest (.giveBack n) = false)
  · trivial
  · simp only [Config.move_shared, ResourceUsageLimiter.giveBackResources, ← hn]
    rw [if_pos (UInt64.le_refl n)]
    exact UInt64.sub_self n
  · have hne : t ≠ c.threads.length := Nat.ne_of_lt (Config.pc?_lt ht)
    refine Config.pc?_move_of_ne hne ?_ _ _ _
    exact Config.pc?_move_of_ne hne (Config.pc?_push_of_pc? ht) _ _ _

/-- A deleter destroys the limiter with no requester inside and nothing granted
    exactly if no requester was inside when it shut the limiter down. -/
theorem delete_waits_iff {d : ℕ} {o : WaitOutcome} (h : LimiterReach rul brokenOut c)
    (hd : c.pc? d = some (.delete true))
    (hnext : limiterSystem.next c (.step d o) = some c₁) :
    DestroysUnused c₁ d ↔ ∀ t pc, c.pc? t = some pc → pc.insideRequest = false := by
  obtain ⟨pc, s, pc', new, hpc, hs, rfl⟩ := System.stepAt_cases hnext
  rw [hd] at hpc
  cases hpc
  obtain ⟨hlive, -, rfl⟩ := limiterStep_move hs
  cases (limiterStep_live hlive d (.delete true) o).symm.trans hs
  set c₁ := c.move d { c.shared with limiter := c.shared.limiter.shutdown } .deleteTest []
  have hself : c₁.pc? d = some .deleteTest := Config.pc?_move_self hd _ _ _
  constructor
  · intro hunused t pc hpc
    obtain ⟨c₂, hreach, hlive', hnone, hkept⟩ := gives_all_back (c := c₁) hlive
    have hfree := destroys_at_once hlive' (hkept d _ hself) hnone
      fun c₃ o' c₄ hreach' => hunused c₃ o' c₄ (hreach.trans hreach')
    by_cases ht : t = d
    · rw [ht, hd] at hpc
      cases hpc
      rfl
    · exact hfree t pc (hkept t pc (Config.pc?_move_of_ne ht hpc _ _ _))
  · intro hfree c₂ o' c₃ hreach hdestroy _
    have hfree₁ : System.Free LimiterPc.insideRequest c₁ := by
      intro t pc hpc
      obtain ⟨-, rfl⟩ | ⟨-, hold⟩ | ⟨-, hmem⟩ := Config.pc?_move_cases hpc
      · rfl
      · exact hfree t pc hold
      · cases hmem
    refine ⟨stays_unused rfl hfree₁ hreach, ?_⟩
    have hknows := limiter_upholds.reach trivial (fun t pc hpc => by cases hpc) h
    have hknows₁ := limiter_upholds.next trivial hknows.2 hnext
    exact ((limiter_upholds.reach trivial hknows₁.2 hreach).2 d _ hdestroy).2

/-- A client holds 10 of 14 resources, another sleeps for 5, and the limiter is
    about to be deleted. -/
def beforeDelete : LimiterConfig :=
  limiterSystem.run sleepingRequester [.call (.delete true) ⟨false, 0⟩] (by decide)

def afterShutdown : LimiterConfig :=
  limiterSystem.run beforeDelete [.step 2 ⟨false, 0⟩] (by decide)

theorem beforeDelete_reach : LimiterReach newLimiter ∅ beforeDelete := by
  have hreach : LimiterReach newLimiter ∅ sleepingRequester := .run _ _ _
  exact hreach.trans (.run _ _ _)

theorem delete_waits_iff_beforeDelete : DestroysUnused afterShutdown 2 ↔
    ∀ t pc, beforeDelete.pc? t = some pc → pc.insideRequest = false :=
  delete_waits_iff (o := ⟨false, 0⟩) beforeDelete_reach (by decide) (by decide)

/-- The 10 resources are given back before the requester re-acquires the lock, and
    the deleter finds nothing granted. -/
def destroyPending : LimiterConfig :=
  limiterSystem.checkedRun NoNewRequest afterShutdown
    [.call (.giveBack 10) ⟨false, 0⟩, .step 3 ⟨false, 0⟩, .step 2 ⟨false, 0⟩] (by decide)

def destroyedLimiter : LimiterConfig :=
  limiterSystem.run destroyPending [.step 2 ⟨false, 0⟩] (by decide)

/-- The limiter is freed under a requester that is still to re-acquire its lock. -/
theorem delete_destroys_under_requester :
    LimiterReach newLimiter ∅ beforeDelete ∧ beforeDelete.pc? 2 = some (.delete true) ∧
      limiterSystem.next beforeDelete (.step 2 ⟨false, 0⟩) = some afterShutdown ∧
      ¬ DestroysUnused afterShutdown 2 := by
  refine ⟨beforeDelete_reach, by decide, by decide, fun h => ?_⟩
  have hunused := h destroyPending ⟨false, 0⟩ destroyedLimiter (.checkedRun _ _ _ _) (by decide)
    (by decide)
  exact absurd (hunused.1 1 (.requestWaiting ⟨5, 10, 1⟩ blocking) (by decide)) (by decide)

end BoomPar
