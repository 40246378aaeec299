-- SUMMARY: The granted resources of a limiter are what its requests returned less what was given back.
import BoomPar.LimiterThreads

/-!
# Limiter accounts

The number of resources can be lowered below what is granted, so the granted
count is bounded at the moment of a grant only. What always holds is the account
over all calls, in which no 64-bit operation wraps.
-/

namespace BoomPar

open Monitor

/-- The resources that a request returned. -/
def LimiterPc.requested : LimiterPc → ℕ
  | .returned (.requested res) => res.toNat
  | _ => 0

/-- The resources that a successful call gave back. -/
def LimiterPc.gaveBack : LimiterPc → ℕ
  | .returned (.gaveBack n true) => n.toNat
  | _ => 0

/-- The resources that a thread is about to give back. -/
def LimiterPc.givesBack : LimiterPc → Option UInt64
  | .giveBack n => some n
  | _ => none

/-- Client `k` holds `n` resources, of what its requests returned and it has not given back. -/
def LimiterHolds {ι : Type} [DecidableEq ι] (c : LimiterConfig) (client : ℕ → ι) (k : ι)
    (n : ℕ) : Prop :=
  c.sumIn (client · = k) LimiterPc.gaveBack + n ≤ c.sumIn (client · = k) LimiterPc.requested

/-- When thread `t` comes to give back resources, its client holds them. -/
def GivesBackHeld {ι : Type} [DecidableEq ι] (client : ℕ → ι) (c : LimiterConfig) :
    Act LimiterCall WaitOutcome → Prop
  | .step t _ =>
    ∀ n ∈ (c.pc? t).bind LimiterPc.givesBack, LimiterHolds c client (client t) n.toNat
  | _ => True

instance {ι : Type} [DecidableEq ι] (c : LimiterConfig) (client : ℕ → ι) (k : ι) (n : ℕ) :
    Decidable (LimiterHolds c client k n) :=
  inferInstanceAs (Decidable (_ ≤ _))

instance {ι : Type} [DecidableEq ι] (client : ℕ → ι) (c : LimiterConfig) :
    ∀ a, Decidable (GivesBackHeld client c a)
  | .step t _ => Option.decidableForallMem ((c.pc? t).bind LimiterPc.givesBack)
  | .call _ _ => inferInstanceAs (Decidable True)
  | .wake _ => inferInstanceAs (Decidable True)

/-! ## One move -/

/-- A thread that moves has not returned yet. -/
theorem LimiterMove.unreturned {s s' : LimiterState} {t : ℕ} {o : WaitOutcome}
    {pc pc' : LimiterPc} (h : LimiterMove s t o pc s' pc') :
    pc.requested = 0 ∧ pc.gaveBack = 0 := by
  cases h with
  | wait pc req timeout waitError hat _ _ _ => cases hat <;> exact ⟨rfl, rfl⟩
  | refuse pc req timeout waitError hat _ => cases hat <;> exact ⟨rfl, rfl⟩
  | grant pc req timeout waitError res hat _ _ _ _ => cases hat <;> exact ⟨rfl, rfl⟩
  | deleteWait pc hat _ => cases hat <;> exact ⟨rfl, rfl⟩
  | deletePass pc hat _ => cases hat <;> exact ⟨rfl, rfl⟩
  | _ => exact ⟨rfl, rfl⟩

/-- The granted count changes by what the thread that moves returns with. -/
theorem LimiterMove.account {s s' : LimiterState} {t : ℕ} {o : WaitOutcome} {pc pc' : LimiterPc}
    (h : LimiterMove s t o pc s' pc') :
    s'.limiter.resourceGrantedCount.toNat + pc'.gaveBack =
      s.limiter.resourceGrantedCount.toNat + pc'.requested := by
  cases h with
  | call k pc' hstart => cases hstart <;> rfl
  | grant pc req timeout waitError res _ _ _ hleft hres =>
    have hle : res ≤ s.limiter.getResourcesLeft := by
      rw [hres]
      exact ResourceUsageLimiter.granted_le hleft
    exact ResourceUsageLimiter.toNat_granted_add hle
  | giveBack n s' hle hs' =>
    have hsub := UInt64.toNat_sub_of_le _ _ hle
    rw [UInt64.le_iff_toNat_le] at hle
    rw [hs']
    change (s.limiter.resourceGrantedCount - n).toNat + n.toNat = _
    rw [hsub, Nat.sub_add_cancel hle]
    rfl
  | delete wait => cases wait <;> rfl
  | _ => rfl

/-- Only the section of a give-back gives resources back. -/
theorem LimiterMove.gaveBack {s s' : LimiterState} {t : ℕ} {o : WaitOutcome} {pc pc' : LimiterPc}
    (h : LimiterMove s t o pc s' pc') :
    pc'.gaveBack = 0 ∨ ∃ n, pc = .giveBack n ∧ pc'.gaveBack = n.toNat := by
  cases h with
  | call k pc' hstart => cases hstart <;> exact .inl rfl
  | giveBack n s' _ _ => exact .inr ⟨n, rfl, rfl⟩
  | delete wait => cases wait <;> exact .inl rfl
  | _ => exact .inl rfl

/-! ## Runs of the system -/

theorem limiter_quiet {s s' : LimiterState} {t : ℕ} {o : WaitOutcome} {pc pc' : LimiterPc}
    {new : List LimiterPc} (h : limiterSystem.step s t pc o = some (s', pc', new)) : new = [] :=
  (limiterStep_move h).2.2

variable {c c' : LimiterConfig} {rul : ResourceUsageLimiter} {brokenOut : Finset ℕ}

/-- What a transition does to the account. -/
theorem limiter_next_account {a : Act LimiterCall WaitOutcome}
    (h : limiterSystem.next c a = some c') :
    (∃ t pc o pc', ((a = .step t o ∧ c.pc? t = some pc) ∨ ∃ k, pc = .calling k) ∧
      LimiterMove c.shared t o pc c'.shared pc' ∧
      ∀ (p : ℕ → Prop) [DecidablePred p],
        (c'.sumIn p LimiterPc.requested = c.sumIn p LimiterPc.requested +
          if p t then pc'.requested else 0) ∧
        c'.sumIn p LimiterPc.gaveBack = c.sumIn p LimiterPc.gaveBack +
          if p t then pc'.gaveBack else 0) ∨
    (c'.threads = c.threads ∧
      c'.shared.limiter.resourceGrantedCount = c.shared.limiter.resourceGrantedCount) := by
  obtain ⟨t, pc, o, pc', hfrom, hs, hsum⟩ | ⟨t, pc, hs, hthreads⟩ :=
    System.next_sumIn limiter_quiet h
  · obtain ⟨-, hmove, -⟩ := limiterStep_move hs
    obtain ⟨hrequested, hgaveBack⟩ := hmove.unreturned
    exact .inl ⟨t, pc, o, pc', hfrom, hmove, fun p _ => ⟨hsum _ p hrequested, hsum _ p hgaveBack⟩⟩
  · refine .inr ⟨hthreads, ?_⟩
    rw [limiterWake_frame hs]
    rfl

/-- What is granted is what was requested less what was given back. -/
theorem limiter_account {ok : LimiterConfig → Act LimiterCall WaitOutcome → Prop}
    (hnone : rul.resourceGrantedCount = 0)
    (h : limiterSystem.Reach ok (limiterInit rul brokenOut) c) :
    c.sumOver LimiterPc.requested =
      c.sumOver LimiterPc.gaveBack + c.shared.limiter.resourceGrantedCount.toNat := by
  refine h.invariant (P := fun c => c.sumOver LimiterPc.requested =
    c.sumOver LimiterPc.gaveBack + c.shared.limiter.resourceGrantedCount.toNat) ?_ ?_
  · rw [limiterInit, hnone]
    rfl
  · intro c a c' _ hc _ hnext
    obtain ⟨t, pc, o, pc', -, hmove, hsum⟩ | ⟨hthreads, hgranted⟩ := limiter_next_account hnext
    · have haccount := hmove.account
      obtain ⟨hrequested, hgaveBack⟩ := hsum fun _ => True
      simp only [if_true, Config.sumIn_true] at hrequested hgaveBack
      omega
    · simp only [Config.sumOver, hthreads, hgranted] at hc ⊢
      exact hc

/-- No client gave back more than it got, when each gives back what it holds. -/
theorem clients_covered {ι : Type} [DecidableEq ι] {client : ℕ → ι}
    (h : limiterSystem.Reach (GivesBackHeld client) (limiterInit rul brokenOut) c) (k : ι) :
    LimiterHolds c client k 0 := by
  refine h.invariant (P := fun c => LimiterHolds c client k 0) (Nat.le_refl _) ?_
  intro c a c' _ hc hok hnext
  obtain ⟨t, pc, o, pc', hfrom, hmove, hsum⟩ | ⟨hthreads, -⟩ := limiter_next_account hnext
  · obtain ⟨hrequested, hgaveBack⟩ := hsum (client · = k)
    unfold LimiterHolds at hc ⊢
    rw [hrequested, hgaveBack]
    by_cases ht : client t = k
    · rw [if_pos ht, if_pos ht]
      obtain hnone | ⟨n, rfl, hn⟩ := hmove.gaveBack
      · rw [hnone]
        exact Nat.le_add_right_of_le hc
      · obtain ⟨rfl, hpc⟩ | ⟨k', hk'⟩ := hfrom
        · have hheld := hok n (Option.mem_def.mpr (by rw [hpc]; rfl))
          rw [ht, LimiterHolds] at hheld
          rw [hn]
          exact hheld.trans (Nat.le_add_right _ _)
        · cases hk'
    · rw [if_neg ht, if_neg ht]
      exact hc
  · unfold LimiterHolds Config.sumIn Config.weightAt Config.pc? at hc ⊢
    rw [hthreads]
    exact hc

/-- A grant goes to a limiter that is not shut down, and stays within its count. -/
theorem LimiterMove.granted {s s' : LimiterState} {t : ℕ} {o : WaitOutcome} {pc pc' : LimiterPc}
    {res : UInt64} (h : LimiterMove s t o pc s' pc') (hpc' : pc' = .returned (.requested res))
    (hres : 0 < res) : s'.limiter.resourceGrantedCount ≤ s'.limiter.resourceCount ∧
      s'.limiter.shutdownRequested = false := by
  cases h with
  | call k pc' hstart =>
    cases hstart with
    | noRequest req timeout _ => cases hpc'; exact absurd hres (UInt64.lt_irrefl 0)
    | _ => cases hpc'
  | refuse pc req timeout waitError _ _ =>
    cases hpc'
    exact absurd hres (UInt64.lt_irrefl 0)
  | grant pc req timeout waitError r _ hrunning _ hleft hr =>
    cases hpc'
    refine ⟨?_, hrunning⟩
    have hle : res ≤ s.limiter.getResourcesLeft := by
      rw [hr]
      exact ResourceUsageLimiter.granted_le hleft
    have hadd := ResourceUsageLimiter.toNat_granted_add hle
    rw [UInt64.le_iff_toNat_le, ResourceUsageLimiter.toNat_getResourcesLeft] at hle
    rw [UInt64.lt_iff_toNat_lt, UInt64.toNat_zero] at hres
    rw [UInt64.le_iff_toNat_le]
    -- something is left, so the count is not below what was granted
    have hbelow : (s.limiter.resourceGrantedCount + res).toNat ≤
        s.limiter.resourceCount.1.toNat := by
      omega
    exact hbelow
  | delete wait => cases wait <;> cases hpc'
  | _ => cases hpc'

/-- Resources that are refused back are more than what is granted. -/
theorem LimiterMove.refusedBack {s s' : LimiterState} {t : ℕ} {o : WaitOutcome}
    {pc pc' : LimiterPc} {n : UInt64} (h : LimiterMove s t o pc s' pc')
    (hpc' : pc' = .returned (.gaveBack n false)) :
    pc = .giveBack n ∧ s.limiter.resourceGrantedCount < n := by
  cases h with
  | call k pc' hstart => cases hstart <;> cases hpc'
  | giveBackFails n hlt => cases hpc'; exact ⟨rfl, hlt⟩
  | delete wait => cases wait <;> cases hpc'
  | _ => cases hpc'

/-- The account of the limiter, and what the next transition does to it. -/
structure LimiterAccounts (c : LimiterConfig) : Prop where
  accounted : c.sumOver LimiterPc.requested =
    c.sumOver LimiterPc.gaveBack + c.shared.limiter.resourceGrantedCount.toNat
  count_ne_zero : c.shared.limiter.resourceCount.1 ≠ 0
  /-- `get_resources_left` subtracts without a wrap. -/
  left : c.shared.limiter.getResourcesLeft.toNat =
    c.shared.limiter.resourceCount.1.toNat - c.shared.limiter.resourceGrantedCount.toNat
  /-- A request that returns `res` adds it without a wrap, within the count and before
      any shutdown. -/
  granted : ∀ a c' t res, limiterSystem.next c a = some c' →
    c.pc? t ≠ some (.returned (.requested res)) →
    c'.pc? t = some (.returned (.requested res)) → 0 < res →
    c'.shared.limiter.resourceGrantedCount.toNat =
        c.shared.limiter.resourceGrantedCount.toNat + res.toNat ∧
      c'.shared.limiter.resourceGrantedCount ≤ c'.shared.limiter.resourceCount ∧
      c'.shared.limiter.shutdownRequested = false
  /-- What is given back is subtracted without a wrap. -/
  gaveBack : ∀ a c' t n, limiterSystem.next c a = some c' →
    c.pc? t ≠ some (.returned (.gaveBack n true)) →
    c'.pc? t = some (.returned (.gaveBack n true)) →
    c'.shared.limiter.resourceGrantedCount.toNat + n.toNat =
      c.shared.limiter.resourceGrantedCount.toNat

/-- The thread that a transition brings to `pc'` made a move to it. -/
theorem limiter_next_moved {a : Act LimiterCall WaitOutcome} (h : limiterSystem.next c a = some c')
    {t : ℕ} {pc' : LimiterPc} (hpc' : c'.pc? t = some pc') (hne : c.pc? t ≠ some pc') :
    ∃ pc o, ((a = .step t o ∧ c.pc? t = some pc) ∨ ∃ k, pc = .calling k) ∧
      LimiterMove c.shared t o pc c'.shared pc' := by
  obtain ⟨pc, o, new, hfrom, hs⟩ := System.next_moved_of_notMem h hpc' hne fun hs => by
    rw [limiter_quiet hs]
    exact List.not_mem_nil
  refine ⟨pc, o, hfrom.imp_right ?_, (limiterStep_move hs).2.1⟩
  rintro ⟨k, -, -, hpc⟩
  exact ⟨k, hpc⟩

theorem limiter_accounts {ok : LimiterConfig → Act LimiterCall WaitOutcome → Prop}
    (hnone : rul.resourceGrantedCount = 0)
    (h : limiterSystem.Reach ok (limiterInit rul brokenOut) c) : LimiterAccounts c where
  accounted := limiter_account hnone h
  count_ne_zero := c.shared.limiter.resourceCount.2
  left := ResourceUsageLimiter.toNat_getResourcesLeft _
  granted a c' t res hnext hne hpc' hres := by
    obtain ⟨pc, o, -, hmove⟩ := limiter_next_moved hnext hpc' hne
    exact ⟨hmove.account, hmove.granted rfl hres⟩
  gaveBack a c' t n hnext hne hpc' := by
    obtain ⟨pc, o, -, hmove⟩ := limiter_next_moved hnext hpc' hne
    exact hmove.account

/-- When the clients give back what they hold, every give-back succeeds. -/
theorem gives_back_held {ι : Type} [DecidableEq ι] {client : ℕ → ι}
    (hnone : rul.resourceGrantedCount = 0)
    (h : limiterSystem.Reach (GivesBackHeld client) (limiterInit rul brokenOut) c) :
    ∀ t n, c.pc? t ≠ some (.returned (.gaveBack n false)) := by
  refine h.invariant (P := fun c => ∀ t n, c.pc? t ≠ some (.returned (.gaveBack n false))) nofun ?_
  intro c a c' hreach hc hok hnext t n hpc'
  obtain ⟨pc, o, hfrom, hmove⟩ := limiter_next_moved hnext hpc' (hc t n)
  obtain ⟨rfl, hlt⟩ := hmove.refusedBack rfl
  obtain ⟨rfl, hpc⟩ | ⟨k, hk⟩ := hfrom
  · have hheld := hok n (Option.mem_def.mpr (by rw [hpc]; rfl))
    have htotal := Config.sumOver_add_le (clients_covered hreach) hheld
    rw [limiter_account hnone hreach] at htotal
    rw [UInt64.lt_iff_toNat_lt] at hlt
    omega
  · cases hk

/-- The accounts of the limiter are right in every interleaving of any calls, and a
    client that gives back what it holds is never refused. -/
theorem limiter_accounting {resourceCount : UInt64} {allocated : Bool}
    (hnew : ResourceUsageLimiter.new resourceCount allocated = some rul) :
    (∀ c, LimiterReach rul brokenOut c → LimiterAccounts c) ∧
      ∀ (ι : Type) [DecidableEq ι] (client : ℕ → ι) (c : LimiterConfig),
        limiterSystem.Reach (GivesBackHeld client) (limiterInit rul brokenOut) c →
        ∀ t n res, c.pc? t = some (.returned (.gaveBack n res)) → res = true := by
  have hnone := (ResourceUsageLimiter.new_fresh hnew).1
  refine ⟨fun c h => limiter_accounts hnone h, fun ι _ client c h t n res hpc => ?_⟩
  cases res with
  | true => rfl
  | false => exact absurd hpc (gives_back_held hnone h t n)

/-- A limiter of 14 resources. -/
def newLimiter : ResourceUsageLimiter := (ResourceUsageLimiter.new 14 true).get rfl

/-- Two clients in turn: the even threads are the calls of one, the odd ones of the other. -/
def sharedLimiterRun : List (Act LimiterCall WaitOutcome) :=
  [.call (.request ⟨5, 10, 0⟩ blocking) ⟨false, 0⟩, .step 0 ⟨false, 0⟩,
    .call (.request ⟨5, 10, 1⟩ blocking) ⟨false, 0⟩, .step 1 ⟨false, 0⟩,
    .call (.giveBack 10) ⟨false, 0⟩, .step 2 ⟨false, 0⟩, .step 1 ⟨false, blocking⟩,
    .call (.giveBack 4) ⟨false, 0⟩, .step 3 ⟨false, 0⟩]

def sharedLimiter : LimiterConfig :=
  limiterSystem.checkedRun (GivesBackHeld (· % 2)) (limiterInit newLimiter ∅) sharedLimiterRun
    (by decide)

theorem limiter_accounting_sharedLimiter :
    LimiterAccounts sharedLimiter ∧ sharedLimiter.shared.limiter.resourceGrantedCount = 6 ∧
      ∀ t n res, sharedLimiter.pc? t = some (.returned (.gaveBack n res)) → res = true := by
  have hnew : ResourceUsageLimiter.new 14 true = some newLimiter := rfl
  have hreach : limiterSystem.Reach (GivesBackHeld (· % 2)) (limiterInit newLimiter ∅)
      sharedLimiter := .checkedRun _ _ _ _
  exact ⟨(limiter_accounting hnew).1 sharedLimiter (hreach.mono fun _ _ _ => trivial), by decide,
    (limiter_accounting hnew).2 ℕ (· % 2) sharedLimiter hreach⟩

end BoomPar
