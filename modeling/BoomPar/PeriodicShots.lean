-- SUMMARY: Accepted resumes and single shots of a periodic job are neither lost nor multiplied.
import BoomPar.JobStops

/-!
# Resumes and single shots

The event vector is emptied at every update, and an update heeds only some of
its bits. That nothing accepted is lost rests on which events a state accepts:
what an update drops could not have been placed since the last one, or gives way
to an event of higher priority.
-/

namespace BoomPar

open Monitor

/-- The runner consumed the event vector. -/
def PeriodicJobEvent.isUpdate : PeriodicJobEvent → Bool
  | .updated _ _ => true
  | _ => false

/-- The position in the log right after the last update. -/
def consumedLength (log : List PeriodicJobEvent) : ℕ :=
  (log.rdropWhile fun e => !e.isUpdate).length

/-- The event is pending on `pjob`, or is accepted in `log` before its first update. -/
def Gathered (pjob : PeriodicJob) (log : List PeriodicJobEvent) (e : PeriodicJobControl) : Prop :=
  pjob.eventVector.has e = true ∨ .sent e ∈ log.takeWhile fun x => !x.isUpdate

/-- Thread `t` sends the event `e` in a transition, and it is accepted. -/
structure Accepts (c c' : PeriodicConfig) (t : ℕ) (e : PeriodicJobControl) : Prop where
  call : c.pc? t = some (.send e)
  next : ∃ o, periodicSystem.next c (.step t o) = some c'
  accepted : c'.pc? t = some (.returned (.sent e true))

theorem Accepts.cases {c c' : PeriodicConfig} {t : ℕ} {e : PeriodicJobControl}
    (h : Accepts c c' t e) :
    c.shared.state.accepts e = true ∧ c'.shared.state = c.shared.state ∧
      c'.shared.eventVector = c.shared.eventVector.set e := by
  obtain ⟨o, hnext⟩ := h.next
  have hmoved := System.next_step (S := periodicSystem) (o := o) h.call rfl
  obtain rfl := Option.some.inj (hmoved.symm.trans hnext)
  have hres := h.accepted
  rw [Config.pc?_move_self h.call] at hres
  rw [Config.move_shared]
  obtain ⟨-, hcontrol⟩ | ⟨haccepts, hcontrol⟩ := c.shared.control_cases e
  · rw [hcontrol] at hres
    cases hres
  · rw [hcontrol]
    exact ⟨haccepts, rfl, rfl⟩

@[simp] theorem PeriodicJobEvent.note_isUpdated (e : PeriodicJobEvent) :
    e.note.isUpdated = e.isUpdate := by
  cases e <;> rfl

theorem PeriodicJobEvent.note_sends {x : PeriodicJobEvent} {e : PeriodicJobControl} :
    x.note.sends e = true ↔ x = .sent e := by
  cases x with
  | sent e' => simp [PeriodicJobEvent.note, Note.sends]
  | _ => simp [PeriodicJobEvent.note, Note.sends]

theorem gathers_beforeUpdate_iff {pjob : PeriodicJob} {pc : PeriodicPc}
    {log : List PeriodicJobEvent} {e : PeriodicJobControl} :
    EventMachine.gathers PeriodicJobEvent.note (pjob.phase pc)
      (EventMachine.beforeUpdate PeriodicJobEvent.note log) e = true ↔ Gathered pjob log e := by
  simp only [EventMachine.gathers, EventMachine.beforeUpdate, PeriodicJobEvent.note_isUpdated,
    Bool.or_eq_true, List.any_eq_true, PeriodicJobEvent.note_sends, exists_eq_right]
  exact Iff.rfl

/-- From an accepted event on, what happens is a run of the machine. -/
theorem Accepts.run {c c' c₂ : PeriodicConfig} {t : ℕ} {e : PeriodicJobControl}
    (h : Accepts c c' t e) (hc : RunnerInv c)
    (hreach : periodicSystem.Reach (fun _ _ => True) c' c₂) {log : List PeriodicJobEvent}
    (hlog : c₂.shared.log = c'.shared.log ++ log) :
    ∃ pc pc', (c'.shared.phase pc).stand ≠ .turned ∧
      PeriodicRun (c'.shared.phase pc) log (c₂.shared.phase pc') := by
  obtain ⟨o, hnext⟩ := h.next
  have hc' := hc.next hnext
  obtain ⟨pc, pc', log', hpc, -, hlog', hrun⟩ := periodic_run hc' hreach
  obtain rfl : log' = log := List.append_cancel_left (hlog'.symm.trans hlog)
  refine ⟨pc, pc', fun hturned => ?_, hrun⟩
  have hat := hc'.position 0 pc hpc
  obtain ⟨haccepts, hstate, -⟩ := h.cases
  have hdone : pc = .runnerDone := by
    cases pc <;> first | rfl | cases hturned
  rw [hdone, hstate] at hat
  rw [show c.shared.state = .shutdown from hat] at haccepts
  cases e <;> cases haccepts

/-! ## Each run has its single shot -/

/-- The machine runs single shots only. -/
def ShotsOnly (p : Phase PeriodicJobState PeriodicJobControl) : Prop :=
  (p.state = .paused ∨ p.state = .singleShotOnPaused ∨ p.state = .shutdown) ∧
    p.pending .resume = false

/-- The calls that are due or pending. -/
def shotsAhead (p : Phase PeriodicJobState PeriodicJobControl) : ℕ :=
  p.due.toNat + (p.pending .singleShot).toNat

/-- Without a resume, an update leads to a single shot only if one was pending. -/
theorem ShotsOnly.next {p : Phase PeriodicJobState PeriodicJobControl} (hp : ShotsOnly p)
    (expired : Bool) :
    periodicMachine.next p.state p.pending expired = .paused ∨
      periodicMachine.next p.state p.pending expired = .shutdown ∨
      (periodicMachine.next p.state p.pending expired = .singleShotOnPaused ∧
        p.pending .singleShot = true) := by
  cases hshutdown : p.pending .shutdown with
  | true => exact .inr (.inl (periodic_next_shutdown (.inr hshutdown)))
  | false =>
    simp only [periodicMachine, PeriodicJobState.next, hshutdown]
    obtain ⟨hstate | hstate | hstate, hresume⟩ := hp
    · rw [hstate, hresume]
      cases p.pending .singleShot with
      | false => exact .inl rfl
      | true => exact .inr (.inr ⟨rfl, rfl⟩)
    · rw [hstate, hresume]
      exact .inl rfl
    · rw [hstate]
      exact .inr (.inl rfl)

theorem ShotsOnly.step {p q : Phase PeriodicJobState PeriodicJobControl} {x : PeriodicJobEvent}
    (hp : ShotsOnly p) (hx : x ≠ .sent .resume) (h : periodicMachine.Step p x.note q) :
    ShotsOnly q ∧ shotsAhead q + (x == .invoked).toNat ≤
      shotsAhead p + (x == .sent .singleShot).toNat := by
  cases x with
  | sent e =>
    cases h with
    | sent _ _ _ =>
      cases e with
      | resume => exact absurd rfl hx
      | singleShot =>
        refine ⟨⟨hp.1, hp.2⟩, ?_⟩
        have hle : (true : Bool).toNat ≤ (p.pending .singleShot).toNat + 1 := Nat.le_add_left _ _
        exact Nat.add_le_add_left hle p.due.toNat
      | _ => exact ⟨⟨hp.1, hp.2⟩, le_rfl⟩
  | updated before after =>
    cases h with
    | updated expired hidle =>
      obtain hnext | hnext | ⟨hnext, hshot⟩ := hp.next expired
      · rw [hnext]
        exact ⟨⟨.inl rfl, rfl⟩, Nat.zero_le _⟩
      · rw [hnext]
        exact ⟨⟨.inr (.inr rfl), rfl⟩, Nat.zero_le _⟩
      · rw [hnext]
        refine ⟨⟨.inr (.inl rfl), rfl⟩, ?_⟩
        rw [shotsAhead, shotsAhead, hshot]
        exact Nat.le_add_left _ _
  | blocked time =>
    cases h with
    | blocked hturned => exact ⟨⟨hp.1, hp.2⟩, Nat.add_le_add_right (Nat.zero_le _) _⟩
  | invoked =>
    cases h with
    | invoked hdue =>
      refine ⟨⟨hp.1, hp.2⟩, ?_⟩
      simp [shotsAhead, Phase.due, hdue, Nat.add_comm]
  | _ => cases h with | other => exact ⟨hp, le_rfl⟩

/-- A single shot that is pending was accepted after the last update. -/
theorem pending_shot_unconsumed {pjob : PeriodicJob} {periodicJobFunction : Ptr} {n : ℕ}
    {allocated threadError : Bool} {c : PeriodicConfig}
    (hnew : PeriodicJob.new periodicJobFunction n allocated threadError = some pjob)
    (h : PeriodicReach pjob c) :
    (c.shared.eventVector.has .singleShot).toNat ≤
      (c.shared.log.rtakeWhile fun e => !e.isUpdate).countP (· == .sent .singleShot) := by
  obtain ⟨hstate, hzero⟩ := PeriodicJob.state_of_new hnew
  cases hshot : c.shared.eventVector.has .singleShot with
  | false => exact Nat.zero_le _
  | true =>
    obtain ⟨q, q', log, hq, -, hlog, hrun⟩ := periodic_run (runnerInv_init hstate) h
    obtain rfl : c.shared.log = log := hlog.trans (by
      rw [periodicInit, (PeriodicJob.new_fresh hnew).2, List.nil_append])
    obtain ⟨x, hx, hsends⟩ := hrun.sent_of_pending (e := .singleShot) (fun e => by
      rw [PeriodicJob.phase, periodicInit, hzero, EventVector.has_zero]) hshot
    rw [PeriodicJobEvent.note_sends] at hsends
    simp only [EventMachine.sinceUpdate, PeriodicJobEvent.note_isUpdated] at hx
    exact List.countP_pos_iff.mpr ⟨x, hx, by rw [hsends]; rfl⟩

/-- Until the next resume, the calls of the function that start have single shots of
    their own: accepted and not consumed when the job was paused, or accepted later. -/
theorem runs_matched {pjob : PeriodicJob} {periodicJobFunction : Ptr} {n : ℕ}
    {allocated threadError : Bool} {c c' : PeriodicConfig}
    (hnew : PeriodicJob.new periodicJobFunction n allocated threadError = some pjob)
    (h : PeriodicReach pjob c) (hpaused : c.shared.state = .paused)
    (hresume : c.shared.eventVector.resumeCalled = false)
    (hreach : periodicSystem.Reach (fun _ _ => True) c c') {mid post : List PeriodicJobEvent}
    (hlog : c'.shared.log = c.shared.log ++ (mid ++ post)) (hmid : .sent .resume ∉ mid) :
    Matched (· == .invoked) (· == .sent .singleShot) (consumedLength c.shared.log)
      c.shared.log.length (c.shared.log ++ mid) := by
  obtain ⟨hstate, -⟩ := PeriodicJob.state_of_new hnew
  have hrunner : RunnerInv c := runner_invariant hstate h
  obtain ⟨pc, pc', log, hpc, -, hlog', hrun⟩ := periodic_run hrunner hreach
  obtain rfl : log = mid ++ post := List.append_cancel_left (hlog'.symm.trans hlog)
  have hidle : (c.shared.phase pc).due = false := by
    have hat := hrunner.position 0 pc hpc
    rw [hpaused] at hat
    cases pc with
    | runnerInvoke => cases hat
    | _ => rfl
  have hpending := pending_shot_unconsumed hnew h
  have hmatched := matched_of_countP_le (f := (· == PeriodicJobEvent.invoked))
    (g := (· == PeriodicJobEvent.sent .singleShot))
    (c.shared.log.rdropWhile fun e => !e.isUpdate)
    (c.shared.log.rtakeWhile fun e => !e.isUpdate) mid ?_ ?_
  · rwa [List.rdropWhile_append_rtakeWhile] at hmatched
  · intro x hx
    rw [beq_iff_eq] at hx
    rw [hx]
    rfl
  · rintro pre ⟨rest, rfl⟩
    rw [List.append_assoc] at hrun
    obtain ⟨q, hpre, -⟩ := hrun.split
    have hcount := hpre.countP_le (P := ShotsOnly) (R := fun x => x ≠ .sent .resume)
      (φ := shotsAhead) (f := (· == PeriodicJobEvent.invoked))
      (g := (· == PeriodicJobEvent.sent .singleShot)) (fun hp hx hs => hp.step hx hs)
      ⟨.inl hpaused, hresume⟩ (fun x hx hresumed => hmid ?_)
    · have hahead : shotsAhead (c.shared.phase pc) =
          (c.shared.eventVector.has .singleShot).toNat := by
        rw [shotsAhead, hidle]
        exact Nat.zero_add _
      omega
    · exact hresumed ▸ List.mem_append_left _ hx

/-! ## What is accepted is heeded -/

/-- An update that consumes a single shot runs it, unless it stops the job instead. -/
theorem next_of_singleShot {state : PeriodicJobState} {pending : PeriodicJobControl → Bool}
    (haccepts : state.accepts .singleShot = true) (hshot : pending .singleShot = true)
    (hshutdown : pending .shutdown = false) (hpause : state = .waiting → pending .pause = false)
    (expired : Bool) :
    periodicMachine.runs (periodicMachine.next state pending expired) = true := by
  simp only [periodicMachine, PeriodicJobState.next, hshutdown]
  cases state with
  | paused =>
    rw [hshot]
    cases pending .resume <;> rfl
  | waiting =>
    rw [hpause rfl, hshot]
    rfl
  | _ => cases haccepts

/-- An update that consumes a resume resumes the job, unless it shuts it down. -/
theorem next_of_resume {state : PeriodicJobState} {pending : PeriodicJobControl → Bool}
    (haccepts : state.accepts .resume = true) (hresume : pending .resume = true)
    (hshutdown : pending .shutdown = false) (expired : Bool) :
    (state = .paused ∧ periodicMachine.next state pending expired = .running) ∨
      (state = .singleShotOnPaused ∧ periodicMachine.next state pending expired = .waiting) := by
  simp only [periodicMachine, PeriodicJobState.next, hshutdown, hresume]
  cases state with
  | paused => exact .inl ⟨rfl, rfl⟩
  | singleShotOnPaused => exact .inr ⟨rfl, rfl⟩
  | _ => cases haccepts

/-- The runner starts a call before it waits again after an accepted single shot,
    unless an event of higher priority came before it was consumed. -/
theorem shot_runs {c c₁ c₂ : PeriodicConfig} {t : ℕ} (hc : RunnerInv c)
    (hshot : Accepts c c₁ t .singleShot) (hreach : periodicSystem.Reach (fun _ _ => True) c₁ c₂)
    {mid post : List PeriodicJobEvent} {time : Option ℕ}
    (hlog : c₂.shared.log = c₁.shared.log ++ (mid ++ .blocked time :: post)) :
    .invoked ∈ mid ∨ Gathered c₁.shared mid .shutdown ∨
      (c.shared.state = .waiting ∧ Gathered c₁.shared mid .pause) := by
  obtain ⟨haccepts, hstate, hevents⟩ := hshot.cases
  obtain ⟨pc, pc', hstand, hrun⟩ := hshot.run hc hreach hlog
  by_cases hshutdown : Gathered c₁.shared mid .shutdown
  · exact .inr (.inl hshutdown)
  by_cases hpause : c.shared.state = .waiting ∧ Gathered c₁.shared mid .pause
  · exact .inr (.inr hpause)
  left
  obtain ⟨x, hx, hinvoked⟩ := hrun.invoked_before_block hstand rfl fun expired => by
    have hgathered : ∀ e, EventMachine.gathers PeriodicJobEvent.note (c₁.shared.phase pc)
        (EventMachine.beforeUpdate PeriodicJobEvent.note mid) e = true ↔
        Gathered c₁.shared mid e := fun e => gathers_beforeUpdate_iff
    refine next_of_singleShot ?_ ((hgathered _).mpr (.inl ?_)) ?_ (fun hwaiting => ?_) expired
    · rw [PeriodicJob.phase, hstate]
      exact haccepts
    · rw [hevents, EventVector.has_set, Function.update_self]
    · exact Bool.eq_false_iff.mpr fun h => hshutdown ((hgathered _).mp h)
    · exact Bool.eq_false_iff.mpr fun h =>
        hpause ⟨hstate.symm.trans hwaiting, (hgathered _).mp h⟩
  have hnote : x = .invoked := by
    cases x <;> first | rfl | cases hinvoked
  exact hnote ▸ hx

/-- The first update after an accepted resume resumes the job, whatever else came,
    unless a shutdown did. -/
theorem resume_heeded {c c₁ c₂ : PeriodicConfig} {t : ℕ} (hc : RunnerInv c)
    (hresume : Accepts c c₁ t .resume) (hreach : periodicSystem.Reach (fun _ _ => True) c₁ c₂)
    {mid post : List PeriodicJobEvent} {before after : PeriodicJobState}
    (hlog : c₂.shared.log = c₁.shared.log ++ (mid ++ .updated before after :: post))
    (hmid : ∀ e ∈ mid, e.isUpdate = false) :
    Gathered c₁.shared mid .shutdown ∨ (before = .paused ∧ after = .running) ∨
      (before = .singleShotOnPaused ∧ after = .waiting) := by
  obtain ⟨haccepts, hstate, hevents⟩ := hresume.cases
  obtain ⟨pc, pc', -, hrun⟩ := hresume.run hc hreach hlog
  by_cases hshutdown : Gathered c₁.shared mid .shutdown
  · exact .inl hshutdown
  right
  have hquiet : ∀ e ∈ mid, e.note.isUpdated = false := fun e he => by
    rw [PeriodicJobEvent.note_isUpdated, hmid e he]
  have hbefore : EventMachine.beforeUpdate PeriodicJobEvent.note mid = mid :=
    List.takeWhile_eq_self_iff.mpr fun e he => by rw [hquiet e he]; rfl
  have hgathered : ∀ e, EventMachine.gathers PeriodicJobEvent.note (c₁.shared.phase pc) mid e =
      true ↔ Gathered c₁.shared mid e := fun e => by
    have hiff := @gathers_beforeUpdate_iff c₁.shared pc mid e
    rwa [hbefore] at hiff
  obtain ⟨hbefore', expired, hafter⟩ := hrun.next_update hquiet rfl
  have hshutdown' : EventMachine.gathers PeriodicJobEvent.note (c₁.shared.phase pc) mid .shutdown =
      false := Bool.eq_false_iff.mpr fun h => hshutdown ((hgathered _).mp h)
  have hresume' : EventMachine.gathers PeriodicJobEvent.note (c₁.shared.phase pc) mid .resume =
      true := by
    refine (hgathered _).mpr (.inl ?_)
    rw [hevents, EventVector.has_set, Function.update_self]
  have haccepts' : (c₁.shared.phase pc).state.accepts .resume = true := by
    rw [PeriodicJob.phase, hstate]
    exact haccepts
  have hnext := next_of_resume haccepts' hresume' hshutdown' expired
  rw [← hafter, ← hbefore'] at hnext
  exact hnext

/-- A single shot is taken from the paused or from the waiting job. -/
theorem state_of_shot {state shot : PeriodicJobState} {pending : PeriodicJobControl → Bool}
    {expired : Bool} (h : shot = periodicMachine.next state pending expired) :
    (shot = .singleShotOnPaused → state = .paused) ∧
      (shot = .singleShotOnWaiting → state = .waiting) := by
  simp only [periodicMachine, PeriodicJobState.next] at h
  cases state with
  | paused => exact ⟨fun _ => rfl, fun hshot => by grind⟩
  | waiting => exact ⟨fun hshot => by grind, fun _ => rfl⟩
  | _ => constructor <;> intro hshot <;> grind

/-- A single shot during which no event is accepted leads back to where it was taken from. -/
theorem shot_returns {p q : Phase PeriodicJobState PeriodicJobControl}
    {pre mid post : List PeriodicJobEvent} {before shot before' after : PeriodicJobState}
    (h : PeriodicRun p (pre ++ .updated before shot :: (mid ++ .updated before' after :: post)) q)
    (hshot : shot = .singleShotOnPaused ∨ shot = .singleShotOnWaiting)
    (hmid : ∀ e ∈ mid, e.isUpdate = false ∧ ∀ k, e ≠ .sent k) :
    before' = shot ∧ after = before ∧ (shot = .singleShotOnPaused ∧ after = .paused ∨
      shot = .singleShotOnWaiting ∧ after = .waiting) := by
  obtain ⟨q₁, -, hrun⟩ := h.split
  obtain ⟨q₂, hstep, hrun⟩ := hrun.cons_inv
  obtain ⟨hbefore, ⟨expired, htaken⟩, hstate, hpending⟩ := hstep.of_updated
  have hquiet : ∀ e ∈ mid, e.note.isUpdated = false := fun e he => by
    rw [PeriodicJobEvent.note_isUpdated, (hmid e he).1]
  obtain ⟨hbefore', expired', hafter⟩ := hrun.next_update hquiet rfl
  have hnothing : EventMachine.gathers PeriodicJobEvent.note q₂ mid = fun _ => false := by
    funext k
    rw [EventMachine.gathers, hpending, Bool.false_or, List.any_eq_false]
    intro e he hsends
    exact (hmid e he).2 k (PeriodicJobEvent.note_sends.mp hsends)
  rw [hstate] at hbefore' hafter
  rw [hnothing] at hafter
  obtain ⟨hpaused, hwaiting⟩ := state_of_shot htaken
  obtain rfl | rfl := hshot
  · refine ⟨hbefore', ?_, .inl ⟨rfl, hafter⟩⟩
    rw [hbefore, hpaused rfl]
    exact hafter
  · refine ⟨hbefore', ?_, .inr ⟨rfl, hafter⟩⟩
    rw [hbefore, hwaiting rfl]
    exact hafter

/-! ## No single shot and no resume is lost -/

/-- What an accepted resume and an accepted single shot bring about, seen from `c`. -/
structure ShotsHeld (c : PeriodicConfig) : Prop where
  /-- Until the next resume each call that starts on the paused job has a single shot
      of its own, not consumed at `c` or accepted later. -/
  matched : c.shared.state = .paused → c.shared.eventVector.resumeCalled = false →
    ∀ c', periodicSystem.Reach (fun _ _ => True) c c' →
    ∀ mid post, c'.shared.log = c.shared.log ++ (mid ++ post) → .sent .resume ∉ mid →
    Matched (· == .invoked) (· == .sent .singleShot) (consumedLength c.shared.log)
      c.shared.log.length (c.shared.log ++ mid)
  /-- After a single shot a call starts before the runner waits again. -/
  shot_runs : ∀ t c₁, Accepts c c₁ t .singleShot →
    ∀ c₂, periodicSystem.Reach (fun _ _ => True) c₁ c₂ →
    ∀ mid time post, c₂.shared.log = c₁.shared.log ++ (mid ++ .blocked time :: post) →
    .invoked ∈ mid ∨ Gathered c₁.shared mid .shutdown ∨
      (c.shared.state = .waiting ∧ Gathered c₁.shared mid .pause)
  /-- The first update after a resume resumes the job. -/
  resume_heeded : ∀ t c₁, Accepts c c₁ t .resume →
    ∀ c₂, periodicSystem.Reach (fun _ _ => True) c₁ c₂ →
    ∀ mid before after post,
      c₂.shared.log = c₁.shared.log ++ (mid ++ .updated before after :: post) →
    (∀ e ∈ mid, e.isUpdate = false) →
    Gathered c₁.shared mid .shutdown ∨ (before = .paused ∧ after = .running) ∨
      (before = .singleShotOnPaused ∧ after = .waiting)
  /-- A single shot during which no event is accepted leads back to where it was taken from. -/
  shot_returns : ∀ pre before shot mid before' after post,
    c.shared.log = pre ++ .updated before shot :: (mid ++ .updated before' after :: post) →
    shot = .singleShotOnPaused ∨ shot = .singleShotOnWaiting →
    (∀ e ∈ mid, e.isUpdate = false ∧ ∀ k, e ≠ .sent k) →
    before' = shot ∧ after = before ∧ (shot = .singleShotOnPaused ∧ after = .paused ∨
      shot = .singleShotOnWaiting ∧ after = .waiting)

/-- Accepted resumes and single shots are neither lost nor multiplied. -/
theorem shots_neither_lost_nor_multiplied {pjob : PeriodicJob} {periodicJobFunction : Ptr} {n : ℕ}
    {allocated threadError : Bool} {c : PeriodicConfig}
    (hnew : PeriodicJob.new periodicJobFunction n allocated threadError = some pjob)
    (h : PeriodicReach pjob c) : ShotsHeld c where
  matched hpaused hresume c' hreach mid post hlog hmid :=
    runs_matched hnew h hpaused hresume hreach hlog hmid
  shot_runs t c₁ hshot c₂ hreach mid time post hlog :=
    shot_runs (runner_invariant (PeriodicJob.state_of_new hnew).1 h) hshot hreach hlog
  resume_heeded t c₁ hresume c₂ hreach mid before after post hlog hmid :=
    resume_heeded (runner_invariant (PeriodicJob.state_of_new hnew).1 h) hresume hreach hlog hmid
  shot_returns pre before shot mid before' after post hlog hshot hmid := by
    obtain ⟨pc, pc', log, -, -, hlog', hrun⟩ :=
      periodic_run (runnerInv_init (PeriodicJob.state_of_new hnew).1) h
    obtain rfl : c.shared.log = log := hlog'.trans (by
      rw [periodicInit, (PeriodicJob.new_fresh hnew).2, List.nil_append])
    rw [hlog] at hrun
    exact BoomPar.shot_returns hrun hshot hmid

/-- A single shot is called on the paused job. -/
def shotOnPaused : PeriodicConfig :=
  periodicSystem.run (periodicInit tenMicroseconds) [.step 0 0, .call (.send .singleShot) 0]
    (by decide)

def shotAccepted : PeriodicConfig := (periodicSystem.next shotOnPaused (.step 1 0)).get (by decide)

/-- The function is called for it, and the job is paused again. -/
def pausedAfterShot : PeriodicConfig :=
  periodicSystem.run shotAccepted [.step 0 0, .step 0 0, .step 0 0, .step 0 0] (by decide)

/-- Then the job is resumed. -/
def resumeOnPaused : PeriodicConfig :=
  periodicSystem.run pausedAfterShot [.call (.send .resume) 0] (by decide)

def resumeAccepted : PeriodicConfig :=
  (periodicSystem.next resumeOnPaused (.step 2 0)).get (by decide)

def resumedAgain : PeriodicConfig := periodicSystem.run resumeAccepted [.step 0 0] (by decide)

/-- A single shot is called while it waits for its period. -/
def shotOnWaiting : PeriodicConfig :=
  periodicSystem.run resumedAgain
    [.step 0 0, .step 0 0, .step 0 0, .call (.send .singleShot) 0] (by decide)

def shotAcceptedOnWaiting : PeriodicConfig :=
  (periodicSystem.next shotOnWaiting (.step 3 0)).get (by decide)

/-- The function is called for it, and the job waits again. -/
def waitingAfterShot : PeriodicConfig :=
  periodicSystem.run shotAcceptedOnWaiting [.step 0 4, .step 0 0, .step 0 0, .step 0 0] (by decide)

theorem shots_neither_lost_nor_multiplied_waitingAfterShot :
    Matched (· == .invoked) (· == .sent .singleShot) 1 2 pausedAfterShot.shared.log ∧
    (∃ mid, pausedAfterShot.shared.log = shotAccepted.shared.log ++ (mid ++ [.blocked none]) ∧
      .invoked ∈ mid) ∧
    (∃ before after,
      resumedAgain.shared.log = resumeAccepted.shared.log ++ [.updated before after] ∧
        before = .paused ∧ after = .running) ∧
    (∃ mid, waitingAfterShot.shared.log =
        shotAcceptedOnWaiting.shared.log ++ (mid ++ [.blocked (some 10)]) ∧ .invoked ∈ mid) ∧
    ∃ pre after, waitingAfterShot.shared.log = pre ++ .updated .waiting .singleShotOnWaiting ::
      ([.invoked, .ended] ++ .updated .singleShotOnWaiting after :: [.blocked (some 10)]) ∧
        after = .waiting := by
  have hheld : ∀ {c}, PeriodicReach tenMicroseconds c → ShotsHeld c :=
    shots_neither_lost_nor_multiplied (Option.some_get _).symm
  have hcalled : PeriodicReach tenMicroseconds shotOnPaused := .run _ _ _
  have haccepts : Accepts shotOnPaused shotAccepted 1 .singleShot :=
    ⟨by decide, ⟨0, (Option.some_get _).symm⟩, by decide⟩
  have hagain : periodicSystem.Reach (fun _ _ => True) shotAccepted pausedAfterShot := .run _ _ _
  have htaken : periodicSystem.Reach (fun _ _ => True) shotOnPaused pausedAfterShot :=
    (System.Reach.refl.tail trivial (Option.some_get _).symm).trans hagain
  have hresume : PeriodicReach tenMicroseconds resumeOnPaused :=
    (hcalled.trans htaken).trans (.run _ _ _)
  have hresumes : Accepts resumeOnPaused resumeAccepted 2 .resume :=
    ⟨by decide, ⟨0, (Option.some_get _).symm⟩, by decide⟩
  have hresumed : periodicSystem.Reach (fun _ _ => True) resumeAccepted resumedAgain := .run _ _ _
  have hwaits : PeriodicReach tenMicroseconds shotOnWaiting :=
    ((hresume.tail trivial (Option.some_get _).symm).trans hresumed).trans (.run _ _ _)
  have hshoots : Accepts shotOnWaiting shotAcceptedOnWaiting 3 .singleShot :=
    ⟨by decide, ⟨0, (Option.some_get _).symm⟩, by decide⟩
  have hshot : periodicSystem.Reach (fun _ _ => True) shotAcceptedOnWaiting waitingAfterShot :=
    .run _ _ _
  have hwaiting : PeriodicReach tenMicroseconds waitingAfterShot :=
    (hwaits.tail trivial (Option.some_get _).symm).trans hshot
  have hnever : ∀ {pjob : PeriodicJob} {mid : List PeriodicJobEvent},
      pjob.eventVector.shutdownCalled = false → .sent .shutdown ∉ mid →
      ¬Gathered pjob mid .shutdown := by
    rintro pjob mid hbit hsent (hhas | hmem)
    · rw [show pjob.eventVector.has .shutdown = false from hbit] at hhas
      cases hhas
    · exact hsent ((List.takeWhile_prefix _).subset hmem)
  refine ⟨?_, ?_, ?_, ?_, ?_⟩
  · exact (hheld hcalled).matched (by decide) (by decide) _ htaken
      (pausedAfterShot.shared.log.drop 2) [] (by decide) (by decide)
  · refine ⟨(pausedAfterShot.shared.log.drop 3).dropLast, by decide, ?_⟩
    rcases (hheld hcalled).shot_runs 1 _ haccepts _ hagain
      (pausedAfterShot.shared.log.drop 3).dropLast none [] (by decide) with
      hruns | hshut | ⟨hstate, -⟩
    · exact hruns
    · exact absurd hshut (hnever (by decide) (by decide))
    · exact absurd hstate (by decide)
  · refine ⟨.paused, .running, by decide, ?_⟩
    rcases (hheld hresume).resume_heeded 2 _ hresumes _ hresumed [] .paused .running [] (by decide)
      (by decide) with hshut | hruns | ⟨hstate, -⟩
    · exact absurd hshut (hnever (by decide) (by decide))
    · exact hruns
    · cases hstate
  · refine ⟨(waitingAfterShot.shared.log.drop 15).dropLast, by decide, ?_⟩
    rcases (hheld hwaits).shot_runs 3 _ hshoots _ hshot
      (waitingAfterShot.shared.log.drop 15).dropLast (some 10) [] (by decide) with
      hruns | hshut | ⟨-, hbit | hsent⟩
    · exact hruns
    · exact absurd hshut (hnever (by decide) (by decide))
    · exact absurd hbit (by decide)
    · exact absurd hsent (by decide)
  · refine ⟨waitingAfterShot.shared.log.take 16, .waiting, by decide, ?_⟩
    exact ((hheld hwaiting).shot_returns (waitingAfterShot.shared.log.take 16) .waiting
      .singleShotOnWaiting [.invoked, .ended] .singleShotOnWaiting .waiting [.blocked (some 10)]
      (by decide) (.inr rfl) (by simp [PeriodicJobEvent.isUpdate])).2.1

end BoomPar
