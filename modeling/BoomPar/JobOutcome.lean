-- SUMMARY: When the calls that execute or cancel a job have one outcome.
import BoomPar.JobThreads
import Mathlib.Data.List.Count

/-!
# The outcome of a job

Every call tests that the job is created. `execute_job` leaves that state at
once; `execute_job_async` leaves it to the thread that it creates, and
`cancel_job` keeps it until the code of the user has run. In between another
call passes the same test.
-/

namespace BoomPar

open Monitor

/-! ## Outcomes -/

namespace JobEvent

/-- The call that an event belongs to. -/
def call : JobEvent → ℕ
  | .reported n _ _ => n
  | .invoked n => n
  | .cancellationCalled n => n
  | .moved n _ _ => n

/-- A call reports success. -/
def succeeds : JobEvent → Bool
  | .reported _ k res => res == k.success
  | _ => false

/-- The function or the cancellation callback of the job was called. -/
def runs : JobEvent → Bool
  | .invoked _ => true
  | .cancellationCalled _ => true
  | _ => false

/-- A call failed, and does nothing. -/
def refuses : JobEvent → Bool
  | .reported _ k res => res != k.success
  | _ => false

end JobEvent

/-- What a successful call has to bring about. -/
def JobCall.effect (n : ℕ) : JobCall → JobEvent
  | .executeJob => .invoked n
  | .executeJobAsync => .invoked n
  | .cancelJob => .moved n .created .cancelled

/-- The state transitions of the header. -/
inductive JobState.Moves : JobState → JobState → Prop
  | executed : Moves .created .running
  | completed : Moves .running .completed
  | cancelled : Moves .created .cancelled

/-- At most one call has an outcome, which is the one that it reports. -/
structure OneOutcome (c : JobConfig) : Prop where
  successes : c.shared.log.countP JobEvent.succeeds ≤ 1
  /-- The effect of a successful call has happened, or its thread is still to run. -/
  effect : ∀ n k, .reported n k k.success ∈ c.shared.log →
    k.effect n ∈ c.shared.log ∨ ∃ t, c.pc? t = some (.spawned n)
  /-- Nothing happens but by the successful call. -/
  only : ∀ n k, .reported n k k.success ∈ c.shared.log →
    ∀ e ∈ c.shared.log, e.refuses = false → e.call = n
  runs : c.shared.log.countP JobEvent.runs ≤ 1
  moves : ∀ n before after, .moved n before after ∈ c.shared.log → before.Moves after

/-- A call in which the job is not settled: a thread is still to execute it, or
    `cancel_job` is on its way. -/
def JobPc.unsettled : JobPc → Bool
  | .spawned _ => true
  | pc => pc.frames.any fun f => f.kind == .cancelJob

/-- A transition makes a call that finds the job created, and goes ahead. -/
def ClaimsJob (c : JobConfig) (a : Act PromiseReader JobOutcome) : Prop :=
  c.shared.job.state = .created ∧
    ∃ t k error, a = .step t (.call k error) ∧ (k = .executeJobAsync → error = 0)

/-- A call goes ahead only on a job that is settled. -/
def Undisputed (c : JobConfig) (a : Act PromiseReader JobOutcome) : Prop :=
  ClaimsJob c a → ∀ t pc, c.pc? t = some pc → pc.unsettled = false

/-- A policy of the client: it restricts the calls that are made, and nothing else. -/
def CallPolicy (allowed : JobConfig → Act PromiseReader JobOutcome → Prop) : Prop :=
  ∀ c a, (∀ t k error, a ≠ .step t (.call k error)) → allowed c a

/-! ## The history of a job -/

/-- What happened, less the calls that failed. -/
def SharedJob.history (s : SharedJob) : List JobEvent := s.log.filter fun e => !e.refuses

/-- What a thread has of the job. -/
inductive JobClaim where
  | pending (n : ℕ)
  | frame (f : JobFrame)
  deriving DecidableEq

def JobPc.claims : JobPc → List JobClaim
  | .spawned n => [.pending n]
  | pc => pc.frames.map .frame

namespace JobFrameKind

/-- The state while the code of the user runs. -/
def state : JobFrameKind → JobState
  | .executeJob => .running
  | .executeWrapper => .running
  | .cancelJob => .created

/-- What has happened when the code of the user runs. -/
def opening (params : JobParams) (n : ℕ) : JobFrameKind → List JobEvent
  | .executeJob => [.moved n .created .running, .invoked n]
  | .executeWrapper =>
    [.reported n .executeJobAsync 0, .moved n .created .running, .invoked n]
  | .cancelJob => if params.cancellationCallback = none then [] else [.cancellationCalled n]

/-- What happens when the call returns. -/
def closing (n : ℕ) (kind : JobFrameKind) : List JobEvent :=
  .moved n kind.state kind.finalState ::
    (kind.reports.map fun k => .reported n k k.success).toList

/-- All that happens by a call that goes ahead. -/
def complete (params : JobParams) (n : ℕ) (kind : JobFrameKind) : List JobEvent :=
  kind.opening params n ++ kind.closing n

end JobFrameKind

/-- The phases of a job with one outcome: its state, its history, and who has what of it. -/
inductive JobPhase (params : JobParams) : JobState → List JobEvent → List JobClaim → Prop
  | unclaimed : JobPhase params .created [] []
  | pending (n : ℕ) : JobPhase params .created [.reported n .executeJobAsync 0] [.pending n]
  | inCall (n : ℕ) (kind : JobFrameKind) (point : JobPoint) :
      JobPhase params kind.state (kind.opening params n) [.frame ⟨n, kind, point⟩]
  | ended (n : ℕ) (kind : JobFrameKind) :
      JobPhase params kind.finalState (kind.complete params n) []

/-- The job is in a phase, and one thread has all there is of it. -/
structure InPhase (params : JobParams) (c : JobConfig) : Prop where
  params_eq : c.shared.job.params = params
  phase : ∃ t xs, System.Holder JobPc.claims t xs c ∧
    JobPhase params c.shared.job.state c.shared.history xs

/-! ### What a phase says -/

theorem JobEvent.not_refuses_of_succeeds {e : JobEvent} (h : e.succeeds = true) :
    e.refuses = false := by
  cases e with
  | reported n k res =>
    obtain rfl : res = k.success := by simpa [succeeds] using h
    simp [refuses]
  | _ => rfl

theorem JobEvent.not_refuses_of_runs {e : JobEvent} (h : e.runs = true) : e.refuses = false := by
  cases e with
  | reported n k res => cases h
  | _ => rfl

theorem mem_history {s : SharedJob} {e : JobEvent} :
    e ∈ s.history ↔ e ∈ s.log ∧ e.refuses = false := by
  simp [SharedJob.history]

theorem countP_history {p : JobEvent → Bool} (hp : ∀ e, p e = true → e.refuses = false)
    (s : SharedJob) : s.history.countP p = s.log.countP p := by
  rw [SharedJob.history, List.countP_filter]
  refine List.countP_congr fun e _ => ?_
  cases hpe : p e with
  | false => simp
  | true => simp [hp e hpe]

theorem history_append (s : SharedJob) (log : List JobEvent) :
    (s.log ++ log).filter (fun e => !e.refuses) = s.history ++ log.filter fun e => !e.refuses :=
  List.filter_append ..

namespace JobFrameKind

theorem complete_executeJob (params : JobParams) (n : ℕ) : executeJob.complete params n =
    [.moved n .created .running, .invoked n, .moved n .running .completed,
      .reported n .executeJob 1] := rfl

theorem complete_executeWrapper (params : JobParams) (n : ℕ) : executeWrapper.complete params n =
    [.reported n .executeJobAsync 0, .moved n .created .running, .invoked n,
      .moved n .running .completed] := rfl

theorem complete_cancelJob (params : JobParams) (n : ℕ) :
    cancelJob.complete params n = [.moved n .created .cancelled, .reported n .cancelJob 1] ∨
      cancelJob.complete params n =
        [.cancellationCalled n, .moved n .created .cancelled, .reported n .cancelJob 1] := by
  simp only [complete, opening]
  split
  · exact .inl rfl
  · exact .inr rfl

theorem mem_complete {params : JobParams} {n : ℕ} {kind : JobFrameKind} {e : JobEvent}
    (h : e ∈ kind.complete params n) :
    e.call = n ∧ ∀ m before after, e = .moved m before after → before.Moves after := by
  cases kind with
  | executeJob =>
    simp only [complete_executeJob, List.mem_cons, List.not_mem_nil, or_false] at h
    obtain rfl | rfl | rfl | rfl := h <;> refine ⟨rfl, fun m before after he => ?_⟩ <;> cases he
    · exact .executed
    · exact .completed
  | executeWrapper =>
    simp only [complete_executeWrapper, List.mem_cons, List.not_mem_nil, or_false] at h
    obtain rfl | rfl | rfl | rfl := h <;> refine ⟨rfl, fun m before after he => ?_⟩ <;> cases he
    · exact .executed
    · exact .completed
  | cancelJob =>
    have hmem : e = .cancellationCalled n ∨ e = .moved n .created .cancelled ∨
        e = .reported n .cancelJob 1 := by
      obtain hlog | hlog := complete_cancelJob params n <;>
        simp only [hlog, List.mem_cons, List.not_mem_nil, or_false] at h
      · exact .inr h
      · exact h
    obtain rfl | rfl | rfl := hmem <;> refine ⟨rfl, fun m before after he => ?_⟩ <;> cases he
    exact .cancelled

theorem countP_complete (params : JobParams) (n : ℕ) (kind : JobFrameKind) :
    (kind.complete params n).countP JobEvent.succeeds ≤ 1 ∧
      (kind.complete params n).countP JobEvent.runs ≤ 1 := by
  cases kind with
  | cancelJob =>
    obtain hlog | hlog := complete_cancelJob params n
    · rw [hlog]
      exact ⟨le_rfl, Nat.zero_le 1⟩
    · rw [hlog]
      exact ⟨le_rfl, le_rfl⟩
  | _ => exact ⟨le_rfl, le_rfl⟩

end JobFrameKind

/-- What happened in a phase is the beginning of all that happens by one call. -/
theorem JobPhase.isPrefix {params : JobParams} {state : JobState} {history : List JobEvent}
    {xs : List JobClaim} (h : JobPhase params state history xs) :
    ∃ n kind, history <+: JobFrameKind.complete params n kind := by
  cases h with
  | unclaimed => exact ⟨0, .executeJob, List.nil_prefix⟩
  | pending n => exact ⟨n, .executeWrapper, _, rfl⟩
  | inCall n kind point => exact ⟨n, kind, _, rfl⟩
  | ended n kind => exact ⟨n, kind, List.prefix_rfl⟩

/-- A call that reported success had its effect, or left the job to its thread. -/
theorem JobPhase.effect {params : JobParams} {state : JobState} {history : List JobEvent}
    {xs : List JobClaim} (h : JobPhase params state history xs) {n : ℕ} {k : JobCall}
    (hmem : .reported n k k.success ∈ history) : k.effect n ∈ history ∨ xs = [.pending n] := by
  cases h with
  | unclaimed => cases hmem
  | pending m =>
    obtain ⟨rfl, -, -⟩ := JobEvent.reported.inj (List.mem_singleton.mp hmem)
    exact .inr rfl
  | inCall m kind point =>
    left
    cases kind with
    | executeJob => simp [JobFrameKind.opening] at hmem
    | executeWrapper =>
      simp only [JobFrameKind.opening, List.mem_cons, JobEvent.reported.injEq, reduceCtorEq,
        List.not_mem_nil, or_false] at hmem
      obtain ⟨rfl, rfl, -⟩ := hmem
      simp [JobFrameKind.opening, JobCall.effect]
    | cancelJob =>
      simp only [JobFrameKind.opening] at hmem
      split at hmem <;> simp at hmem
  | ended m kind =>
    left
    cases kind with
    | executeJob =>
      simp only [JobFrameKind.complete_executeJob, List.mem_cons, JobEvent.reported.injEq,
        reduceCtorEq, List.not_mem_nil, or_false, false_or] at hmem
      obtain ⟨rfl, rfl, -⟩ := hmem
      simp [JobFrameKind.complete_executeJob, JobCall.effect]
    | executeWrapper =>
      simp only [JobFrameKind.complete_executeWrapper, List.mem_cons, JobEvent.reported.injEq,
        reduceCtorEq, List.not_mem_nil, or_false] at hmem
      obtain ⟨rfl, rfl, -⟩ := hmem
      simp [JobFrameKind.complete_executeWrapper, JobCall.effect]
    | cancelJob =>
      obtain hlog | hlog := JobFrameKind.complete_cancelJob params m <;>
        simp only [hlog, List.mem_cons, JobEvent.reported.injEq, reduceCtorEq, List.not_mem_nil,
          or_false, false_or] at hmem ⊢ <;>
        obtain ⟨rfl, rfl, -⟩ := hmem <;> simp [JobCall.effect]

theorem eq_spawned_of_claims {pc : JobPc} {n : ℕ} (h : pc.claims = [.pending n]) :
    pc = .spawned n := by
  cases pc with
  | spawned m =>
    cases h
    rfl
  | owner fs => cases fs <;> simp [JobPc.claims] at h
  | executing fs => cases fs <;> simp [JobPc.claims] at h
  | observer q => cases h

theorem InPhase.oneOutcome {params : JobParams} {c : JobConfig} (hc : InPhase params c) :
    OneOutcome c := by
  obtain ⟨t, xs, hholder, hphase⟩ := hc.phase
  obtain ⟨n, kind, hbegins⟩ := hphase.isPrefix
  obtain ⟨hsucceeds, hruns⟩ := kind.countP_complete params n
  have hreported : ∀ m k, .reported m k k.success ∈ c.shared.log →
      .reported m k k.success ∈ c.shared.history :=
    fun m k hmem => mem_history.mpr ⟨hmem, by simp [JobEvent.refuses]⟩
  -- failed calls count for nothing, so the log says what the history says
  refine ⟨?_, fun m k hmem => ?_, fun m k hmem e he hrefuses => ?_, ?_,
    fun m before after hmem => ?_⟩
  · rw [← countP_history fun e => JobEvent.not_refuses_of_succeeds]
    exact (hbegins.sublist.countP_le).trans hsucceeds
  · obtain heffect | rfl := hphase.effect (hreported m k hmem)
    · exact .inl (mem_history.mp heffect).1
    · obtain ⟨pc, hpc, hclaims⟩ := hholder.holds
      exact .inr ⟨t, eq_spawned_of_claims hclaims ▸ hpc⟩
  · have hself := JobFrameKind.mem_complete (hbegins.subset (hreported m k hmem))
    have hother := JobFrameKind.mem_complete (hbegins.subset (mem_history.mpr ⟨he, hrefuses⟩))
    exact hother.1.trans hself.1.symm
  · rw [← countP_history fun e => JobEvent.not_refuses_of_runs]
    exact (hbegins.sublist.countP_le).trans hruns
  · exact (JobFrameKind.mem_complete
      (hbegins.subset (mem_history.mpr ⟨hmem, rfl⟩))).2 m before after rfl

/-! ### What a transition makes of a phase -/

namespace JobPc

theorem claims_of_hasStack {pc : JobPc} (h : pc.hasStack = true) :
    pc.claims = pc.frames.map .frame := by
  cases pc with
  | spawned n => cases h
  | _ => rfl

theorem claims_withFrames {pc : JobPc} (h : pc.hasStack = true) (gs : List JobFrame) :
    (pc.withFrames gs).claims = gs.map .frame := by
  rw [claims_of_hasStack (by rw [hasStack_withFrames, h]), frames_withFrames h]

/-- Of a settled job a thread has at most calls of its function. -/
theorem claims_of_settled {pc : JobPc} (h : pc.unsettled = false) :
    ∀ x ∈ pc.claims, ∃ f : JobFrame, x = .frame f ∧ f.kind ≠ .cancelJob := by
  have hframes : pc.frames.any (fun f => f.kind == .cancelJob) = false →
      ∀ x ∈ pc.frames.map JobClaim.frame, ∃ f : JobFrame, x = .frame f ∧ f.kind ≠ .cancelJob := by
    intro hany x hx
    obtain ⟨f, hf, rfl⟩ := List.mem_map.mp hx
    exact ⟨f, rfl, by simpa using List.any_eq_false.mp hany f hf⟩
  cases pc with
  | spawned n => cases h
  | _ => exact hframes h

end JobPc

/-- A created job that is settled is unclaimed. -/
theorem JobPhase.of_settled {params : JobParams} {state : JobState} {history : List JobEvent}
    {xs : List JobClaim} (h : JobPhase params state history xs) (hstate : state = .created)
    (hsettled : ∀ x ∈ xs, ∃ f : JobFrame, x = .frame f ∧ f.kind ≠ .cancelJob) :
    history = [] ∧ xs = [] := by
  cases h with
  | unclaimed => exact ⟨rfl, rfl⟩
  | pending n =>
    obtain ⟨f, hf, -⟩ := hsettled _ (List.mem_singleton_self _)
    cases hf
  | inCall n kind point =>
    obtain ⟨f, hf, hkind⟩ := hsettled _ (List.mem_singleton_self _)
    cases hf
    cases kind with
    | cancelJob => exact absurd rfl hkind
    | _ => cases hstate
  | ended n kind => cases kind <;> cases hstate

/-- A call that is on its way is the only one. -/
theorem JobPhase.of_frames {params : JobParams} {state : JobState} {history : List JobEvent}
    {xs : List JobClaim} {f : JobFrame} {fs : List JobFrame} (h : JobPhase params state history xs)
    (hxs : xs = (f :: fs).map .frame) :
    fs = [] ∧ state = f.kind.state ∧ history = f.kind.opening params f.call := by
  cases h with
  | unclaimed => cases hxs
  | pending n => cases hxs
  | inCall n kind point =>
    obtain ⟨hf, hfs⟩ := List.cons.inj hxs
    cases hf
    exact ⟨List.map_eq_nil_iff.mp hfs.symm, rfl, rfl⟩
  | ended n kind => cases hxs

section Next

variable {params : JobParams} {c c' : JobConfig}

/-- A transition that leaves the job alone, and everyone with what they have of it. -/
theorem InPhase.keep (hc : InPhase params c) (hjob : c'.shared.job = c.shared.job)
    (hhistory : c'.shared.history = c.shared.history)
    (hholder : ∀ t xs, System.Holder JobPc.claims t xs c → System.Holder JobPc.claims t xs c') :
    InPhase params c' := by
  obtain ⟨t, xs, hheld, hphase⟩ := hc.phase
  refine ⟨hjob ▸ hc.params_eq, t, xs, hholder t xs hheld, ?_⟩
  rw [hjob, hhistory]
  exact hphase

/-- The holder moves to the only frame of a call. -/
theorem InPhase.of_frame {t : ℕ} {xs : List JobClaim} {pc pc' : JobPc} {s' : SharedJob}
    {f : JobFrame} (hheld : System.Holder JobPc.claims t xs c) (hpc : c.pc? t = some pc)
    (hclaims : pc'.claims = [.frame f]) (hparams : s'.job.params = params)
    (hstate : s'.job.state = f.kind.state) (hhistory : s'.history = f.kind.opening params f.call) :
    InPhase params (c.move t s' pc' []) := by
  refine ⟨hparams, t, [.frame f], hclaims ▸ hheld.move_self hpc nofun, ?_⟩
  rw [Config.move_shared, hstate, hhistory]
  exact .inCall f.call f.kind f.point

theorem InPhase.call (hc : InPhase params c) {t : ℕ} {pc : JobPc} {k : JobCall} {error : ℕ}
    {s' : SharedJob} {fs : List JobFrame} {new : List JobPc} (hpc : c.pc? t = some pc)
    (huser : pc.inUserCode = true) (hmove : CallMove c.shared k error s' fs new)
    (hundisputed : Undisputed c (.step t (.call k error))) :
    InPhase params (c.move t s' (pc.withFrames (fs ++ pc.frames)) new) := by
  obtain ⟨holder, xs, hheld, hphase⟩ := hc.phase
  have hstack := JobPc.hasStack_of_inUserCode huser
  have hkept : (pc.withFrames ([] ++ pc.frames)).claims = pc.claims := by
    rw [JobPc.claims_withFrames hstack, JobPc.claims_of_hasStack hstack, List.nil_append]
  -- a call that goes ahead finds the job unclaimed, and its caller outside all calls
  have hunclaimed : c.shared.job.state = .created → (k = .executeJobAsync → error = 0) →
      System.Holder JobPc.claims t [] c ∧ c.shared.history = [] ∧ pc.frames = [] := by
    intro hstate herror
    have hsettled := hundisputed ⟨hstate, t, k, error, rfl, herror⟩
    obtain ⟨q, hq, rfl⟩ := hheld.holds
    obtain ⟨hhistory, hnone⟩ :=
      hphase.of_settled hstate (JobPc.claims_of_settled (hsettled holder q hq))
    rw [hnone] at hheld
    have hnil := hheld.of_nil hpc
    have hclaims := hnil.eq_of_pc? hpc
    rw [JobPc.claims_of_hasStack hstack, List.map_eq_nil_iff] at hclaims
    exact ⟨hnil, hhistory, hclaims⟩
  cases hmove with
  | refused _ _ res hres _ =>
    refine hc.keep rfl ?_ fun u ys hu => hu.move hpc hkept nofun
    rw [SharedJob.history, Config.move_shared, history_append]
    simp [JobEvent.refuses, hres]
  | executeJob _ hstate =>
    obtain ⟨hnil, hhistory, hframes⟩ := hunclaimed hstate nofun
    refine .of_frame hnil hpc (f := ⟨c.shared.nextCall, .executeJob, .jobFunction⟩) ?_
      hc.params_eq rfl ?_
    · rw [JobPc.claims_withFrames hstack, hframes]
      rfl
    · rw [SharedJob.history, history_append, hhistory]
      rfl
  | executeJobAsync hstate =>
    obtain ⟨hnil, hhistory, -⟩ := hunclaimed hstate fun _ => rfl
    refine ⟨hc.params_eq, c.threads.length, _, hnil.create hpc hkept _, ?_⟩
    rw [Config.move_shared, SharedJob.history, history_append, hhistory, hstate]
    exact .pending c.shared.nextCall
  | cancelJob _ log point hstate hpoint =>
    obtain ⟨hnil, hhistory, hframes⟩ := hunclaimed hstate nofun
    refine .of_frame hnil hpc (f := ⟨c.shared.nextCall, .cancelJob, point⟩) ?_
      hc.params_eq hstate ?_
    · rw [JobPc.claims_withFrames hstack, hframes]
      rfl
    · rw [SharedJob.history, history_append, hhistory, JobFrameKind.opening, ← hc.params_eq]
      obtain ⟨hcallback, rfl, -⟩ | ⟨hcallback, rfl, -⟩ := hpoint
      · rw [if_pos hcallback]
        rfl
      · rw [if_neg hcallback]
        rfl

/-- The thread of `execute_job_async` finds the job that was left to it. -/
theorem InPhase.started (hc : InPhase params c) {t n : ℕ} (hpc : c.pc? t = some (.spawned n)) :
    c.shared.job.state = .created ∧ InPhase params (c.move t
      { c.shared with
        job := { c.shared.job with state := .running }
        log := c.shared.log ++ [.moved n .created .running, .invoked n] }
      (.executing [⟨n, .executeWrapper, .jobFunction⟩]) []) := by
  obtain ⟨holder, xs, hheld, hphase⟩ := hc.phase
  obtain ⟨rfl, rfl⟩ := hheld.of_ne_nil hpc nofun
  generalize hhistory : c.shared.history = history at hphase
  generalize hstate : c.shared.job.state = state at hphase
  cases hphase with
  | pending n =>
    refine ⟨rfl, .of_frame hheld hpc (f := ⟨n, .executeWrapper, .jobFunction⟩) rfl hc.params_eq
      rfl ?_⟩
    rw [SharedJob.history, history_append, hhistory]
    rfl

/-- A thread that is in a call is in no other, and has all there is of the job. -/
theorem InPhase.of_frames (hc : InPhase params c) {t : ℕ} {pc : JobPc} {f : JobFrame}
    {fs : List JobFrame} (hpc : c.pc? t = some pc) (hframes : pc.frames = f :: fs) :
    fs = [] ∧ System.Holder JobPc.claims t [.frame f] c ∧ c.shared.job.state = f.kind.state ∧
      c.shared.history = f.kind.opening params f.call := by
  obtain ⟨holder, xs, hheld, hphase⟩ := hc.phase
  have hclaims : pc.claims = (f :: fs).map .frame := by
    rw [JobPc.claims_of_hasStack (JobPc.hasStack_of_frames hframes), hframes]
  obtain ⟨rfl, hxs⟩ := hheld.of_ne_nil hpc (by rw [hclaims]; exact nofun)
  obtain ⟨rfl, hstate, hhistory⟩ := hphase.of_frames (hxs.symm.trans hclaims)
  rw [← hxs, hclaims] at hheld
  exact ⟨rfl, hheld, hstate, hhistory⟩

/-- A frame goes on, and leaves the job alone. -/
theorem InPhase.advance (hc : InPhase params c) {t : ℕ} {pc : JobPc} {f : JobFrame}
    {fs : List JobFrame} {promise : PromiseState} {point : JobPoint} (hpc : c.pc? t = some pc)
    (hframes : pc.frames = f :: fs) : InPhase params (c.move t { c.shared with promise := promise }
      (pc.withFrames ({ f with point := point } :: fs)) []) := by
  obtain ⟨rfl, hheld, hstate, hhistory⟩ := hc.of_frames hpc hframes
  exact .of_frame hheld hpc (f := { f with point := point })
    (JobPc.claims_withFrames (JobPc.hasStack_of_frames hframes) _) hc.params_eq hstate hhistory

/-- The frame writes the state, and the job is finished. -/
theorem InPhase.finished (hc : InPhase params c) {t : ℕ} {pc : JobPc} {f : JobFrame}
    {fs : List JobFrame} (hpc : c.pc? t = some pc) (hframes : pc.frames = f :: fs) :
    InPhase params (c.move t (c.shared.setState f) (pc.withFrames fs) []) := by
  obtain ⟨rfl, hheld, hstate, hhistory⟩ := hc.of_frames hpc hframes
  have hhistory' : (c.shared.setState f).history = f.kind.complete params f.call := by
    rw [SharedJob.history, SharedJob.setState, history_append, hhistory, hstate,
      JobFrameKind.complete, JobFrameKind.closing]
    cases f.kind <;> rfl
  refine ⟨hc.params_eq, t, _, hheld.move_self hpc nofun, ?_⟩
  rw [JobPc.claims_withFrames (JobPc.hasStack_of_frames hframes), Config.move_shared, hhistory']
  exact .ended f.call f.kind

/-- A transition leads from phase to phase, if a call in it goes ahead on a settled job. -/
theorem InPhase.next {a : Act PromiseReader JobOutcome} (hc : InPhase params c)
    (hundisputed : Undisputed c a) (h : jobSystem.next c a = some c') : InPhase params c' := by
  cases a with
  | call k o =>
    obtain ⟨pc, s, pc', new, hpc, hs, rfl⟩ := System.stepAt_cases h
    rw [Config.pc?_push_self] at hpc
    cases hpc
    -- a new thread reads the promise, and has nothing of the job
    have hpush : InPhase params (c.push (.observer k.start)) :=
      hc.keep rfl rfl fun t xs hheld => hheld.push rfl
    cases jobStep_move hs with
    | observed q q' res promise _ =>
      exact hpush.keep rfl rfl fun t xs hheld => hheld.move (Config.pc?_push_self _ _) rfl nofun
    | call _ _ _ _ _ _ huser _ => cases huser
    | advance _ f fs _ _ _ hframes _ => cases hframes
    | finished _ f fs _ hframes _ => cases hframes
  | step t o =>
    obtain ⟨pc, s, pc', new, hpc, hs, rfl⟩ := System.stepAt_cases h
    cases jobStep_move hs with
    | call _ k error _ fs _ huser hmove => exact hc.call hpc huser hmove hundisputed
    | started n res hstate => exact (hc.started hpc).2
    -- a thread that was created for the job is the first to come to it
    | late n res hstate => exact absurd (hc.started hpc).1 hstate
    | advance _ f fs res promise point hframes _ => exact hc.advance hpc hframes
    | finished _ f fs res hframes _ => exact hc.finished hpc hframes
    | observed q q' res promise _ =>
      exact hc.keep rfl rfl fun t xs hheld => hheld.move hpc rfl nofun
  | wake t =>
    obtain ⟨pc, s, hpc, hs, rfl⟩ := System.next_wake_cases h
    obtain ⟨cv, rfl⟩ := jobWake_frame hs
    exact hc.keep rfl rfl fun t xs hheld => ⟨hheld.holds, hheld.others⟩

theorem InPhase.init (params : JobParams) : InPhase params (jobInit params) := by
  refine ⟨rfl, 0, [], ⟨⟨.owner [], rfl, rfl⟩, fun u pc hu hpc => ?_⟩, .unclaimed⟩
  cases u with
  | zero => exact absurd rfl hu
  | succ u => cases hpc

end Next

/-! ## Calls that go ahead report success -/

theorem JobThreadMove.grows {s s' : SharedJob} {t : ℕ} {pc pc' : JobPc} {o : JobOutcome}
    {new : List JobPc} (h : JobThreadMove s t pc o s' pc' new) :
    s.nextCall ≤ s'.nextCall ∧ s.log ⊆ s'.log := by
  cases h with
  | call _ k error _ fs _ huser hmove =>
    cases hmove with
    | executeJobAsync _ => exact ⟨Nat.le_succ _, List.subset_append_left _ _⟩
    | _ => exact ⟨Nat.le_succ _, List.subset_append_left _ _⟩
  | started n res _ => exact ⟨le_rfl, List.subset_append_left _ _⟩
  | finished _ f fs res _ _ => exact ⟨le_rfl, List.subset_append_left _ _⟩
  | _ => exact ⟨le_rfl, List.Subset.refl _⟩

/-- The calls that a thread is in are made, and the one that created it has reported. -/
structure Numbered (s : SharedJob) (pc : JobPc) : Prop where
  frames : ∀ f ∈ pc.frames, f.call < s.nextCall
  spawned : ∀ n, pc = .spawned n → n < s.nextCall ∧ .reported n .executeJobAsync 0 ∈ s.log

theorem Numbered.keep {s s' : SharedJob} {pc : JobPc} (h : Numbered s pc)
    (hcalls : s.nextCall ≤ s'.nextCall) (hlog : s.log ⊆ s'.log) : Numbered s' pc where
  frames f hf := Nat.lt_of_lt_of_le (h.frames f hf) hcalls
  spawned n hpc := ⟨Nat.lt_of_lt_of_le (h.spawned n hpc).1 hcalls, hlog (h.spawned n hpc).2⟩

/-- The events of a call that is made. -/
theorem numbered_append {s : SharedJob} {calls : ℕ} {log : List JobEvent}
    (hlog : ∀ e ∈ s.log, e.call < s.nextCall) (hcalls : s.nextCall ≤ calls)
    (hnew : ∀ e ∈ log, e.call < calls) : ∀ e ∈ s.log ++ log, e.call < calls := by
  intro e he
  obtain he | he := List.mem_append.mp he
  · exact Nat.lt_of_lt_of_le (hlog e he) hcalls
  · exact hnew e he

theorem numbered_withFrames {s : SharedJob} {pc : JobPc} (hstack : pc.hasStack = true)
    {gs : List JobFrame} (hcalls : ∀ f ∈ gs, f.call < s.nextCall) :
    Numbered s (pc.withFrames gs) where
  frames f hf := hcalls f (JobPc.frames_withFrames hstack gs ▸ hf)
  spawned n h := by
    have hstack' := JobPc.hasStack_withFrames pc gs
    rw [h, hstack] at hstack'
    cases hstack'

theorem CallMove.numbered {s s' : SharedJob} {k : JobCall} {error : ℕ} {fs : List JobFrame}
    {new : List JobPc} (h : CallMove s k error s' fs new)
    (hlog : ∀ e ∈ s.log, e.call < s.nextCall) :
    (∀ e ∈ s'.log, e.call < s'.nextCall) ∧ (∀ f ∈ fs, f.call < s'.nextCall) ∧
      ∀ q ∈ new, Numbered s' q := by
  cases h with
  | refused _ _ res _ _ =>
    exact ⟨numbered_append hlog (Nat.le_succ _) (by simp [JobEvent.call]), nofun, nofun⟩
  | executeJob _ _ =>
    exact ⟨numbered_append hlog (Nat.le_succ _) (by simp [JobEvent.call]),
      by simp, nofun⟩
  | executeJobAsync _ =>
    refine ⟨numbered_append hlog (Nat.le_succ _) (by simp [JobEvent.call]), nofun,
      fun q hq => ?_⟩
    rw [List.mem_singleton.mp hq]
    refine ⟨nofun, fun n hn => ?_⟩
    cases hn
    exact ⟨Nat.lt_succ_self _, List.mem_append_right _ (List.mem_singleton_self _)⟩
  | cancelJob _ log point _ hpoint =>
    refine ⟨numbered_append hlog (Nat.le_succ _) ?_, by simp, nofun⟩
    obtain ⟨-, rfl, -⟩ | ⟨-, rfl, -⟩ := hpoint
    · exact nofun
    · simp [JobEvent.call]

theorem JobThreadMove.numbered {s s' : SharedJob} {t : ℕ} {pc pc' : JobPc} {o : JobOutcome}
    {new : List JobPc} (h : JobThreadMove s t pc o s' pc' new)
    (hlog : ∀ e ∈ s.log, e.call < s.nextCall) (hpc : Numbered s pc) :
    (∀ e ∈ s'.log, e.call < s'.nextCall) ∧ Numbered s' pc' ∧ ∀ q ∈ new, Numbered s' q := by
  have hgrows := h.grows
  cases h with
  | call _ k error _ fs _ huser hmove =>
    obtain ⟨hlog', hfs, hnew⟩ := hmove.numbered hlog
    refine ⟨hlog', numbered_withFrames (JobPc.hasStack_of_inUserCode huser) fun f hf => ?_, hnew⟩
    obtain hf | hf := List.mem_append.mp hf
    · exact hfs f hf
    · exact Nat.lt_of_lt_of_le (hpc.frames f hf) hgrows.1
  | started n res _ =>
    obtain ⟨hn, -⟩ := hpc.spawned n rfl
    exact ⟨numbered_append hlog le_rfl (by simpa [JobEvent.call] using hn),
      ⟨by simpa using hn, nofun⟩, nofun⟩
  | late n res _ => exact ⟨hlog, ⟨nofun, nofun⟩, nofun⟩
  | advance _ f fs res promise point hframes _ =>
    have hcalls : ∀ g ∈ f :: fs, g.call < s.nextCall := fun g hg => hpc.frames g (hframes ▸ hg)
    refine ⟨hlog, numbered_withFrames (JobPc.hasStack_of_frames hframes) ?_, nofun⟩
    exact List.forall_mem_cons.mpr (List.forall_mem_cons.mp hcalls)
  | finished _ f fs res hframes _ =>
    have hcalls : ∀ g ∈ f :: fs, g.call < s.nextCall := fun g hg => hpc.frames g (hframes ▸ hg)
    obtain ⟨hf, hfs⟩ := List.forall_mem_cons.mp hcalls
    refine ⟨numbered_append hlog le_rfl ?_,
      numbered_withFrames (JobPc.hasStack_of_frames hframes) hfs, nofun⟩
    have hcall : f.call < (s.setState f).nextCall := hf
    cases f.kind <;> simpa [JobFrameKind.reports, JobEvent.call] using hcall
  | observed q q' res promise _ => exact ⟨hlog, ⟨nofun, nofun⟩, nofun⟩

theorem numbered_upholds : System.Upholds jobSystem
    (fun s => ∀ e ∈ s.log, e.call < s.nextCall) Numbered where
  start s t k := ⟨fun f hf => absurd hf List.not_mem_nil, nofun⟩
  step hs hlog hpc := by
    have hmove := jobStep_move hs
    obtain ⟨hcalls, hsub⟩ := hmove.grows
    obtain ⟨hlog', hself, hnew⟩ := hmove.numbered hlog hpc
    exact ⟨hlog', hself, hnew, fun q hq => hq.keep hcalls hsub⟩
  wake hs hlog := by
    obtain ⟨cv, rfl⟩ := jobWake_frame hs
    exact ⟨hlog, fun q hq => hq.keep le_rfl (List.Subset.refl _)⟩

/-- Call `m` reported success. -/
def SharedJob.Reported (m : ℕ) (s : SharedJob) : Prop := ∃ k, .reported m k k.success ∈ s.log

/-- The thread is in call `m`, which reports when it returns. -/
def JobPc.isIn (m : ℕ) (pc : JobPc) : Bool :=
  pc.frames.any fun f => f.call == m && f.kind != .executeWrapper

theorem SharedJob.Reported.of_subset {m : ℕ} {s s' : SharedJob} (h : s.Reported m)
    (hlog : s.log ⊆ s'.log) : s'.Reported m := by
  obtain ⟨k, hk⟩ := h
  exact ⟨k, hlog hk⟩

theorem FrameMove.rank_lt {s : SharedJob} {point point' : JobPoint} {promise : PromiseState}
    (h : FrameMove s point promise point') : point'.rank < point.rank := by
  cases h with
  | returned point output hpoint =>
    have hlt : (s.job.afterUserCode output).rank < 3 := by
      unfold Job.afterUserCode
      split <;> simp [JobPoint.rank]
    obtain rfl | ⟨rfl, -⟩ := hpoint <;> exact hlt
  | published output promise point _ hpoint =>
    obtain rfl | ⟨pcc, rfl⟩ := hpoint <;> simp [JobPoint.rank]
  | callbackReturned pcc => simp [JobPoint.rank]

/-- A frame that is done has reported, unless its thread was created for it. -/
theorem reported_setState {s : SharedJob} {f : JobFrame} (h : f.kind ≠ .executeWrapper) :
    (s.setState f).Reported f.call := by
  cases hkind : f.kind with
  | executeWrapper => exact absurd hkind h
  | executeJob => exact ⟨.executeJob, by simp [SharedJob.setState, hkind, JobFrameKind.reports]⟩
  | cancelJob => exact ⟨.cancelJob, by simp [SharedJob.setState, hkind, JobFrameKind.reports]⟩

theorem jobStep_of_frames {s : SharedJob} {t : ℕ} {pc : JobPc} {f : JobFrame} {fs : List JobFrame}
    (h : pc.frames = f :: fs) (res : Ptr) : jobStep s t pc (.proceed res) =
      quietly ((s.advance f res).1, pc.withFrames ((s.advance f res).2 ++ fs)) := by
  cases pc with
  | owner _ =>
    obtain rfl := h
    rfl
  | executing _ =>
    obtain rfl := h
    rfl
  | spawned n => cases h
  | observer q => cases h

/-- How many steps a stack is away from its end, at most. -/
def stackRank (fs : List JobFrame) : ℕ := (fs.map fun f => f.point.rank + 1).sum

section Policy

variable {allowed : JobConfig → Act PromiseReader JobOutcome → Prop} {c c' : JobConfig} {m : ℕ}

/-- If no more calls are made, a call that a thread is in returns. -/
theorem reports_of_isIn (hpolicy : CallPolicy allowed) {t : ℕ} {pc : JobPc}
    (hpc : c.pc? t = some pc) (hin : pc.isIn m = true) :
    ∃ c', jobSystem.Reach allowed c c' ∧ c'.shared.Reported m := by
  -- on the number of steps that the stack of the thread still takes
  induction hrank : stackRank pc.frames using Nat.strong_induction_on generalizing c pc with
  | h rank ih =>
    cases hframes : pc.frames with
    | nil =>
      rw [JobPc.isIn, hframes] at hin
      cases hin
    | cons f fs =>
      rw [hframes] at hrank
      rw [JobPc.isIn, hframes] at hin
      have hgoes : ∀ {s fs'}, c.shared.advance f none = (s, fs') →
          jobSystem.Reach allowed c (c.move t s (pc.withFrames (fs' ++ fs)) []) := by
        intro s fs' hadvance
        refine .tail .refl (hpolicy _ (.step t (.proceed none)) nofun) (System.next_step hpc ?_)
        exact (jobStep_of_frames hframes none).trans (by rw [hadvance]; rfl)
      have hreturns : ∀ {s fs'}, c.shared.advance f none = (s, fs') →
          stackRank (fs' ++ fs) < rank →
          (fs' ++ fs).any (fun f => f.call == m && f.kind != .executeWrapper) = true →
          ∃ c', jobSystem.Reach allowed c c' ∧ c'.shared.Reported m := by
        intro s fs' hadvance hlt hin'
        have hstack := JobPc.frames_withFrames (JobPc.hasStack_of_frames hframes) (fs' ++ fs)
        obtain ⟨c', hreach, hreported⟩ := ih _ hlt (Config.pc?_move_self hpc _ _ _)
          (by rw [JobPc.isIn, hstack]; exact hin') (by rw [hstack])
        exact ⟨c', (hgoes hadvance).trans hreach, hreported⟩
      obtain ⟨-, hadvance⟩ | ⟨promise, point, hmove, hadvance⟩ := advance_cases c.shared f none
      -- the frame on top returns: it is the one of call `m`, or `m` is below it
      · by_cases hself : (f.call == m && f.kind != .executeWrapper) = true
        · refine ⟨_, hgoes hadvance, ?_⟩
          simp only [Bool.and_eq_true, beq_iff_eq, bne_iff_ne, ne_eq] at hself
          exact hself.1 ▸ reported_setState hself.2
        · rw [List.any_cons, Bool.or_eq_true] at hin
          refine hreturns hadvance ?_ (hin.resolve_left hself)
          simp only [stackRank, List.nil_append, List.map_cons, List.sum_cons] at hrank ⊢
          omega
      · refine hreturns hadvance ?_ hin
        have hlt := hmove.rank_lt
        simp only [stackRank, List.cons_append, List.nil_append, List.map_cons, List.sum_cons]
          at hrank ⊢
        omega

theorem next_grows {a : Act PromiseReader JobOutcome} (h : jobSystem.next c a = some c') :
    c.shared.log ⊆ c'.shared.log := by
  refine System.next_stable (R := fun s => c.shared.log ⊆ s.log) h ?_ ?_ (List.Subset.refl _)
  · exact fun hs hsub => List.Subset.trans hsub (jobStep_move hs).grows.2
  · intro s t pc s' hw hsub
    obtain ⟨cv, rfl⟩ := jobWake_frame hw
    exact hsub

/-- A thread stays in a call until the call has reported. -/
theorem JobThreadMove.isIn {s s' : SharedJob} {t : ℕ} {pc pc' : JobPc} {o : JobOutcome}
    {new : List JobPc} (h : JobThreadMove s t pc o s' pc' new) (hin : pc.isIn m = true) :
    pc'.isIn m = true ∨ s'.Reported m := by
  rw [JobPc.isIn] at hin ⊢
  cases h with
  | call _ k error _ fs _ huser _ =>
    rw [JobPc.frames_withFrames (JobPc.hasStack_of_inUserCode huser), List.any_append, hin,
      Bool.or_true]
    exact .inl rfl
  | advance _ f fs res promise point hframes _ =>
    rw [hframes] at hin
    rw [JobPc.frames_withFrames (JobPc.hasStack_of_frames hframes)]
    exact .inl hin
  | finished _ f fs res hframes _ =>
    rw [hframes, List.any_cons, Bool.or_eq_true] at hin
    rw [JobPc.frames_withFrames (JobPc.hasStack_of_frames hframes)]
    obtain hself | hin := hin
    · simp only [Bool.and_eq_true, beq_iff_eq, bne_iff_ne, ne_eq] at hself
      exact .inr (hself.1 ▸ reported_setState hself.2)
    · exact .inl hin
  | _ => cases hin

theorem attended_next {a : Act PromiseReader JobOutcome}
    (hc : System.Attended (JobPc.isIn m) (SharedJob.Reported m) c)
    (h : jobSystem.next c a = some c') :
    System.Attended (JobPc.isIn m) (SharedJob.Reported m) c' := by
  refine hc.next h ?_ ?_
  · intro t pc s hw hreported
    obtain ⟨cv, rfl⟩ := jobWake_frame hw
    exact hreported
  · intro t pc o s pc' new _ hs hbefore
    have hmove := jobStep_move hs
    obtain hin | hreported := hbefore
    · exact (hmove.isIn hin).imp_right fun hreported => .inr (.inl hreported)
    · exact .inr (.inr (.inl (hreported.of_subset hmove.grows.2)))

/-- If no more calls are made, every call that went ahead reports success. -/
theorem reports_of_attended (hpolicy : CallPolicy allowed)
    (hc : System.Attended (JobPc.isIn m) (SharedJob.Reported m) c) :
    ∃ c', jobSystem.Reach allowed c c' ∧ c'.shared.Reported m := by
  obtain ⟨t, pc, hpc, hin⟩ | hreported := hc
  · exact reports_of_isIn hpolicy hpc hin
  · exact ⟨c, .refl, hreported⟩

/-- Two calls that go ahead both report success in the end. -/
theorem not_oneOutcome_of_attended (hpolicy : CallPolicy allowed) {n : ℕ} (hne : m ≠ n)
    (hm : System.Attended (JobPc.isIn m) (SharedJob.Reported m) c)
    (hn : System.Attended (JobPc.isIn n) (SharedJob.Reported n) c) :
    ∃ c', jobSystem.Reach allowed c c' ∧ ¬OneOutcome c' := by
  -- `n` stays on its way, or has reported, while `m` returns
  obtain ⟨c₁, hreach₁, hreported₁⟩ := reports_of_attended hpolicy hm
  have hn₁ : System.Attended (JobPc.isIn n) (SharedJob.Reported n) c₁ :=
    hreach₁.invariant hn fun _ _ _ _ hc _ h => attended_next hc h
  obtain ⟨c₂, hreach₂, k₂, hk₂⟩ := reports_of_attended hpolicy hn₁
  have hreported₂ : c₂.shared.Reported m :=
    hreach₂.invariant (P := fun c => c.shared.Reported m) hreported₁
      fun _ _ _ _ hc _ h => hc.of_subset (next_grows h)
  obtain ⟨k₁, hk₁⟩ := hreported₂
  refine ⟨c₂, hreach₁.trans hreach₂, fun hone => hne ?_⟩
  exact hone.only n k₂ hk₂ _ hk₁ (by simp [JobEvent.refuses])

theorem ClaimsJob.attended {a : Act PromiseReader JobOutcome} (hclaims : ClaimsJob c a)
    (h : jobSystem.next c a = some c') :
    System.Attended (JobPc.isIn c.shared.nextCall) (SharedJob.Reported c.shared.nextCall) c' := by
  obtain ⟨hstate, t, k, error, rfl, herror⟩ := hclaims
  obtain ⟨pc, s, pc', new, hpc, hs, rfl⟩ := System.stepAt_cases h
  have hmove : JobThreadMove c.shared t pc (.call k error) s pc' new := jobStep_move hs
  cases hmove with
  | call _ _ _ _ fs _ huser hmove =>
    have hstack := JobPc.frames_withFrames (JobPc.hasStack_of_inUserCode huser) (fs ++ pc.frames)
    cases hmove with
    | refused _ _ res _ hcreated =>
      obtain ⟨hasync, hfailed⟩ := hcreated hstate
      exact absurd (herror hasync) hfailed
    | executeJobAsync _ => exact .inr ⟨.executeJobAsync, by simp [JobCall.success]⟩
    | _ =>
      refine .inl ⟨t, _, Config.pc?_move_self hpc _ _ _, ?_⟩
      rw [JobPc.isIn, hstack]
      simp

theorem unsettled_attended {t : ℕ} {pc : JobPc} (hpc : c.pc? t = some pc)
    (hnumbered : Numbered c.shared pc) (hunsettled : pc.unsettled = true) :
    ∃ m < c.shared.nextCall, System.Attended (JobPc.isIn m) (SharedJob.Reported m) c := by
  have hframes : (pc.frames.any fun f => f.kind == .cancelJob) = true →
      ∃ m < c.shared.nextCall, System.Attended (JobPc.isIn m) (SharedJob.Reported m) c := by
    intro hany
    obtain ⟨f, hf, hkind⟩ := List.any_eq_true.mp hany
    refine ⟨f.call, hnumbered.frames f hf, .inl ⟨t, pc, hpc, List.any_eq_true.mpr ⟨f, hf, ?_⟩⟩⟩
    rw [beq_iff_eq] at hkind
    simp [hkind]
  cases pc with
  | spawned m =>
    obtain ⟨hm, hreported⟩ := hnumbered.spawned m rfl
    exact ⟨m, hm, .inr ⟨.executeJobAsync, hreported⟩⟩
  | _ => exact hframes hunsettled

end Policy

/-! ## One outcome -/

/-- The calls of a client have one outcome exactly when each that goes ahead finds the
    job settled. -/
theorem one_outcome_iff (params : JobParams)
    {allowed : JobConfig → Act PromiseReader JobOutcome → Prop} (hpolicy : CallPolicy allowed) :
    (∀ c, jobSystem.Reach allowed (jobInit params) c → OneOutcome c) ↔
      ∀ c a c', jobSystem.Reach allowed (jobInit params) c → allowed c a →
        jobSystem.next c a = some c' → Undisputed c a := by
  constructor
  · intro hone c a c' hreach hallowed hnext hclaims t pc hpc
    by_contra hunsettled
    rw [Bool.not_eq_false] at hunsettled
    have hinit : System.Threadwise (fun s _ => Numbered s) (jobInit params) := by
      intro t pc hpc
      cases t with
      | zero =>
        cases hpc
        exact ⟨nofun, nofun⟩
      | succ t => cases hpc
    obtain ⟨-, hnumbered⟩ :=
      numbered_upholds.reach (fun e he => absurd he List.not_mem_nil) hinit hreach
    -- an older call `m` has reported success or will, and so will the one that goes ahead now
    obtain ⟨m, hm, hbefore⟩ := unsettled_attended hpc (hnumbered t pc hpc) hunsettled
    obtain ⟨c₁, hreach₁, hnot⟩ := not_oneOutcome_of_attended hpolicy (Nat.ne_of_lt hm)
      (attended_next hbefore hnext) (hclaims.attended hnext)
    exact hnot (hone c₁ ((hreach.tail hallowed hnext).trans hreach₁))
  · intro hundisputed c hreach
    have hphase : InPhase params c := hreach.invariant (.init params)
      fun c a c' hreach hc hallowed hnext =>
        hc.next (hundisputed c a c' hreach hallowed hnext) hnext
    exact hphase.oneOutcome

/-- A job with neither a promise nor a cancellation callback. -/
def plainJob : JobParams := ⟨0, some 0, none, none, none⟩

theorem one_outcome_iff_plainJob :
    (∀ c, jobSystem.Reach Undisputed (jobInit plainJob) c → OneOutcome c) ↔
      ∀ c a c', jobSystem.Reach Undisputed (jobInit plainJob) c → Undisputed c a →
        jobSystem.next c a = some c' → Undisputed c a :=
  one_outcome_iff plainJob fun _ _ hother ⟨_, t, k, error, ha, _⟩ => absurd ha (hother t k error)

/-- Only the owner makes calls. -/
def ByOwner (_ : JobConfig) : Act PromiseReader JobOutcome → Prop
  | .step t (.call _ _) => t = 0
  | _ => True

instance (c : JobConfig) : (a : Act PromiseReader JobOutcome) → Decidable (ByOwner c a)
  | .step t (.call _ _) => inferInstanceAs (Decidable (t = 0))
  | .step _ (.proceed _) => .isTrue trivial
  | .call _ _ => .isTrue trivial
  | .wake _ => .isTrue trivial

/-- The owner leaves the job to two threads, before the first has come to its test. -/
def twiceExecutedJob : JobConfig :=
  jobSystem.checkedRun ByOwner (jobInit plainJob)
    [.step 0 (.call .executeJobAsync 0), .step 0 (.call .executeJobAsync 0)] (by decide)

theorem not_one_outcome : ¬∀ c, jobSystem.Reach ByOwner (jobInit plainJob) c → OneOutcome c := by
  intro hone
  have hsuccesses := (hone twiceExecutedJob (.checkedRun _ _ _ _)).successes
  exact absurd hsuccesses (by decide)

end BoomPar
