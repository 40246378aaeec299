-- SUMMARY: What an accepted wake-up of an alarm job brings about, and how a pause that came before it takes it away.
import BoomPar.AlarmUpdates

/-!
# Wake-ups

An accepted wake-up is consumed by the next update of the runner. That update
leads to the running job, and the function is called before the runner blocks
again, unless an event of higher priority is consumed with it.
-/

namespace BoomPar

open Monitor

/-- The runner consumed the event vector. -/
def AlarmJobEvent.isUpdate : AlarmJobEvent → Bool
  | .updated _ _ => true
  | _ => false

/-- The runner begins to wait, with a timeout or without. -/
def AlarmJobEvent.blocks : AlarmJobEvent → Bool
  | .blocked => true
  | .timedWait _ _ => true
  | _ => false

/-- The event is pending on the job, or is accepted in `log` before its first update. -/
def AlarmJob.Gathers (ajob : AlarmJob) (log : List AlarmJobEvent) (e : AlarmJobControl) : Prop :=
  ajob.eventVector.has e = true ∨ .sent e ∈ log.takeWhile fun x => !x.isUpdate

/-- Thread `t` wakes the job up in a transition, and the call returns 1. -/
structure WakesUp (c c' : AlarmConfig) (t : ℕ) : Prop where
  call : c.pc? t = some (.send .wakeUp)
  next : ∃ o, alarmSystem.next c (.step t o) = some c'
  accepted : c'.pc? t = some (.returned (.sent .wakeUp true))

theorem WakesUp.cases {c c' : AlarmConfig} {t : ℕ} (h : WakesUp c c' t) :
    c.shared.state.accepts .wakeUp = true ∧ c'.shared.state = c.shared.state ∧
      c'.shared.eventVector = c.shared.eventVector.set .wakeUp := by
  obtain ⟨o, hnext⟩ := h.next
  have hmoved := System.next_step (S := alarmSystem) (o := o) h.call rfl
  obtain rfl := Option.some.inj (hmoved.symm.trans hnext)
  have hres := h.accepted
  rw [Config.pc?_move_self h.call] at hres
  rw [Config.move_shared]
  obtain ⟨-, hcontrol⟩ | ⟨haccepts, hcontrol⟩ := c.shared.control_cases .wakeUp
  · rw [hcontrol] at hres
    cases hres
  · rw [hcontrol]
    exact ⟨haccepts, rfl, rfl⟩

@[simp] theorem AlarmJobEvent.note_isUpdated (e : AlarmJobEvent) :
    e.note.isUpdated = e.isUpdate := by
  cases e <;> rfl

theorem AlarmJobEvent.note_blocked {e : AlarmJobEvent} (h : e.blocks = true) :
    e.note = .blocked := by
  cases e <;> first | rfl | cases h

theorem AlarmJobEvent.eq_invoked {e : AlarmJobEvent} (h : e.note = .invoked) : e = .invoked := by
  cases e <;> first | rfl | cases h

theorem AlarmJobEvent.note_sends {x : AlarmJobEvent} {e : AlarmJobControl} :
    x.note.sends e = true ↔ x = .sent e := by
  cases x with
  | sent e' => simp [AlarmJobEvent.note, Note.sends]
  | _ => simp [AlarmJobEvent.note, Note.sends]

theorem AlarmJob.gathers_iff {ajob : AlarmJob} {pc : AlarmPc} {log : List AlarmJobEvent}
    {e : AlarmJobControl} :
    EventMachine.gathers AlarmJobEvent.note (ajob.phase pc)
      (EventMachine.beforeUpdate AlarmJobEvent.note log) e = true ↔ ajob.Gathers log e := by
  simp only [EventMachine.gathers, EventMachine.beforeUpdate, AlarmJobEvent.note_isUpdated,
    Bool.or_eq_true, List.any_eq_true, AlarmJobEvent.note_sends, exists_eq_right]
  exact Iff.rfl

/-- From an accepted wake-up on, what happens is a run of the machine. -/
theorem WakesUp.run {c c' c₂ : AlarmConfig} {t : ℕ} (h : WakesUp c c' t) (hc : AlarmRunnerInv c)
    (hreach : alarmSystem.Reach (fun _ _ => True) c' c₂) {log : List AlarmJobEvent}
    (hlog : c₂.shared.log = c'.shared.log ++ log) :
    ∃ pc pc', (c'.shared.phase pc).stand ≠ .turned ∧
      AlarmRun (c'.shared.phase pc) log (c₂.shared.phase pc') := by
  obtain ⟨o, hnext⟩ := h.next
  have hc' : AlarmRunnerInv c' :=
    hc.reach (.tail .refl trivial hnext : alarmSystem.Reach (fun _ _ => True) c c')
  obtain ⟨pc, pc', log', hpc, -, hlog', hrun⟩ := alarm_run hc' hreach
  obtain rfl : log' = log := List.append_cancel_left (hlog'.symm.trans hlog)
  refine ⟨pc, pc', fun hturned => ?_, hrun⟩
  have hat := hc'.holds hpc
  obtain ⟨haccepts, hstate, -⟩ := h.cases
  have hdone : pc = .runnerDone := by
    cases pc <;> first | rfl | cases hturned
  rw [hdone, hstate] at hat
  rw [show c.shared.state = .shutdown from hat] at haccepts
  cases haccepts

/-! ## The update that consumes it -/

/-- What an update with a wake-up pending leads to, by the priority of the events. -/
theorem alarm_next_of_wakeUp {state : AlarmJobState} {pending : AlarmJobControl → Bool}
    (haccepts : state.accepts .wakeUp = true) (hwake : pending .wakeUp = true) (expired : Bool) :
    alarmMachine.next state pending expired =
      if pending .shutdown = true then .shutdown
      else if state = .waiting ∧ pending .pause = true then .paused
      else .running := by
  cases hshutdown : pending .shutdown with
  | true => exact alarm_next_shutdown (.inr hshutdown)
  | false =>
    simp only [alarmMachine, AlarmJobState.next, hshutdown]
    cases state with
    | paused =>
      rw [hwake]
      rfl
    | waiting =>
      rw [hwake]
      cases pending .pause <;> rfl
    | _ => cases haccepts

/-- The events that the first update after the wake-up consumes. -/
theorem WakesUp.next_gathers {c c₁ : AlarmConfig} {t : ℕ} (h : WakesUp c c₁ t) (pc : AlarmPc)
    (log : List AlarmJobEvent) (expired : Bool) [Decidable (c₁.shared.Gathers log .shutdown)]
    [Decidable (c₁.shared.Gathers log .pause)] :
    alarmMachine.next (c₁.shared.phase pc).state
        (EventMachine.gathers AlarmJobEvent.note (c₁.shared.phase pc)
          (EventMachine.beforeUpdate AlarmJobEvent.note log)) expired =
      if c₁.shared.Gathers log .shutdown then .shutdown
      else if c.shared.state = .waiting ∧ c₁.shared.Gathers log .pause then .paused
      else .running := by
  obtain ⟨haccepts, hstate, hevents⟩ := h.cases
  rw [show (c₁.shared.phase pc).state = c.shared.state from hstate, alarm_next_of_wakeUp haccepts]
  · simp only [AlarmJob.gathers_iff]
  · refine AlarmJob.gathers_iff.mpr (.inl ?_)
    rw [hevents, AlarmEventVector.has_set, Function.update_self]

/-- What a wake-up that was accepted between `c` and `c₁` brings about. -/
structure WakeUpHeeded (c c₁ : AlarmConfig) : Prop where
  /-- The function is called before the runner blocks again, unless a shutdown, or a
      pause of the waiting job, is consumed together with the wake-up. -/
  runs : ∀ c₂, alarmSystem.Reach (fun _ _ => True) c₁ c₂ →
    ∀ mid e post, c₂.shared.log = c₁.shared.log ++ (mid ++ e :: post) → e.blocks = true →
    ¬ c₁.shared.Gathers mid .shutdown →
    ¬ (c.shared.state = .waiting ∧ c₁.shared.Gathers mid .pause) → .invoked ∈ mid
  /-- The first update follows the priority of the events. -/
  update : ∀ c₂, alarmSystem.Reach (fun _ _ => True) c₁ c₂ →
    ∀ mid before after post,
    c₂.shared.log = c₁.shared.log ++ (mid ++ .updated before after :: post) →
    (∀ e ∈ mid, e.isUpdate = false) → before = c.shared.state ∧
      (c₁.shared.Gathers mid .shutdown → after = .shutdown) ∧
      (¬ c₁.shared.Gathers mid .shutdown →
        c.shared.state = .waiting ∧ c₁.shared.Gathers mid .pause → after = .paused) ∧
      (¬ c₁.shared.Gathers mid .shutdown →
        ¬ (c.shared.state = .waiting ∧ c₁.shared.Gathers mid .pause) → after = .running)

theorem WakesUp.runs {c c₁ c₂ : AlarmConfig} {t : ℕ} (h : WakesUp c c₁ t) (hc : AlarmRunnerInv c)
    (hreach : alarmSystem.Reach (fun _ _ => True) c₁ c₂) {mid post : List AlarmJobEvent}
    {e : AlarmJobEvent} (hlog : c₂.shared.log = c₁.shared.log ++ (mid ++ e :: post))
    (he : e.blocks = true) (hshutdown : ¬ c₁.shared.Gathers mid .shutdown)
    (hpause : ¬ (c.shared.state = .waiting ∧ c₁.shared.Gathers mid .pause)) : .invoked ∈ mid := by
  classical
  obtain ⟨pc, pc', hstand, hrun⟩ := h.run hc hreach hlog
  obtain ⟨x, hx, hinvoked⟩ :=
    hrun.invoked_before_block hstand (AlarmJobEvent.note_blocked he) fun expired => by
      rw [h.next_gathers, if_neg hshutdown, if_neg hpause]
      rfl
  exact AlarmJobEvent.eq_invoked hinvoked ▸ hx

theorem WakesUp.update {c c₁ c₂ : AlarmConfig} {t : ℕ} (h : WakesUp c c₁ t)
    (hc : AlarmRunnerInv c) (hreach : alarmSystem.Reach (fun _ _ => True) c₁ c₂)
    {mid post : List AlarmJobEvent} {before after : AlarmJobState}
    (hlog : c₂.shared.log = c₁.shared.log ++ (mid ++ .updated before after :: post))
    (hmid : ∀ e ∈ mid, e.isUpdate = false) : before = c.shared.state ∧
      (c₁.shared.Gathers mid .shutdown → after = .shutdown) ∧
      (¬ c₁.shared.Gathers mid .shutdown →
        c.shared.state = .waiting ∧ c₁.shared.Gathers mid .pause → after = .paused) ∧
      (¬ c₁.shared.Gathers mid .shutdown →
        ¬ (c.shared.state = .waiting ∧ c₁.shared.Gathers mid .pause) → after = .running) := by
  classical
  obtain ⟨pc, pc', -, hrun⟩ := h.run hc hreach hlog
  have hquiet : ∀ e ∈ mid, e.note.isUpdated = false := fun e he => by
    rw [AlarmJobEvent.note_isUpdated, hmid e he]
  have hall : EventMachine.beforeUpdate AlarmJobEvent.note mid = mid :=
    List.takeWhile_eq_self_iff.mpr fun e he => by rw [hquiet e he]; rfl
  obtain ⟨hbefore, expired, hafter⟩ := hrun.next_update hquiet rfl
  have hnext := h.next_gathers pc mid expired
  rw [hall, ← hafter] at hnext
  refine ⟨hbefore.trans h.cases.2.1, ?_, ?_, ?_⟩
  · intro hshutdown
    rw [hnext, if_pos hshutdown]
  · intro hshutdown hpause
    rw [hnext, if_neg hshutdown, if_pos hpause]
  · intro hshutdown hpause
    rw [hnext, if_neg hshutdown, if_neg hpause]

/-- An accepted wake-up is heeded according to its priority. -/
theorem wakeUp_heeded_by_priority {alarmSetFunction alarmJobFunction : Ptr}
    {allocated threadError : Bool} {ajob : AlarmJob} {c c₁ : AlarmConfig} {t : ℕ}
    (hnew : AlarmJob.new alarmSetFunction alarmJobFunction allocated threadError = some ajob)
    (h : AlarmReach ajob c) (hwakes : WakesUp c c₁ t) : WakeUpHeeded c c₁ where
  runs _ hreach _ _ _ hlog he hshutdown hpause :=
    hwakes.runs (alarm_runner_invariant (AlarmJob.state_of_new hnew).1 h) hreach hlog he hshutdown
      hpause
  update _ hreach _ _ _ _ hlog hmid :=
    hwakes.update (alarm_runner_invariant (AlarmJob.state_of_new hnew).1 h) hreach hlog hmid

/-- The job waits with a period of 9, a pause is accepted, and a wake-up call is about
    to be. -/
def pausedThenWoken : AlarmConfig :=
  alarmSystem.run (alarmInit newAlarm)
    [.call (.send .wakeUp) ⟨0, 0⟩, .step 1 ⟨0, 0⟩, .step 0 ⟨0, 0⟩, .step 0 ⟨0, 0⟩, .step 0 ⟨0, 0⟩,
      .step 0 ⟨9, 0⟩, .call (.send .pause) ⟨0, 0⟩, .step 2 ⟨0, 0⟩,
      .call (.send .wakeUp) ⟨0, 0⟩] (by decide)

def wakeUpPending : AlarmConfig := alarmSystem.run pausedThenWoken [.step 3 ⟨0, 0⟩] (by decide)

theorem wakeUp_heeded_by_priority_pausedThenWoken : WakeUpHeeded pausedThenWoken wakeUpPending :=
  wakeUp_heeded_by_priority (Option.some_get _).symm (.run (alarmInit newAlarm) _ (by decide))
    (t := 3) ⟨by decide, ⟨⟨0, 0⟩, by decide⟩, by decide⟩

/-- The runner consumes both, drops the wake-up and blocks in the paused state. -/
def wakeUpDropped : AlarmConfig := alarmSystem.run wakeUpPending [.step 0 ⟨0, 3⟩] (by decide)

/-- No call is made after the accepted wake-up, no shutdown was made at all, and the
    runner blocks without calling the function. -/
theorem wakeUp_dropped_after_pause :
    AlarmReach newAlarm pausedThenWoken ∧ WakesUp pausedThenWoken wakeUpPending 3 ∧
      .sent .shutdown ∉ pausedThenWoken.shared.log ∧
      alarmSystem.next wakeUpPending (.step 0 ⟨0, 3⟩) = some wakeUpDropped ∧
      wakeUpDropped.shared.log = wakeUpPending.shared.log ++
        [.elapsed 6, .updated .waiting .paused, .blocked] :=
  ⟨.run _ _ _, ⟨by decide, ⟨⟨0, 0⟩, by decide⟩, by decide⟩, by decide, by decide, by decide⟩

end BoomPar
