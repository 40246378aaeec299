-- SUMMARY: What an accepted pause or shutdown guarantees of a periodic job and of an alarm job.
import BoomPar.AlarmThreads
import BoomPar.PeriodicEvents
import BoomPar.PeriodicPause

/-!
# Stop events

The runner decides to call the function of the job under `job_lock` and calls it
after the release, so one call can still come after an event that stops the job.
No more than that one comes, and whoever waits for the stop is woken by it.
-/

namespace BoomPar

open Monitor

/-! ## The machines stop -/

/-- What holds of a periodic job from an accepted pause to the next resume or single shot. -/
def PeriodicJobState.Paused (state : PeriodicJobState) (pending : PeriodicJobControl → Bool) :
    Prop :=
  pending .shutdown = true ∨
    match state with
    | .shutdown => True
    | .paused => pending .resume = false ∧ pending .singleShot = false
    | .singleShotOnPaused => False
    | _ => pending .pause = true

/-- What holds of an alarm job from an accepted pause to the next wake-up. -/
def AlarmJobState.Paused (state : AlarmJobState) (pending : AlarmJobControl → Bool) : Prop :=
  pending .shutdown = true ∨
    match state with
    | .shutdown => True
    | .paused => pending .wakeUp = false
    | _ => pending .pause = true

theorem periodic_next_shutdown {state : PeriodicJobState} {pending : PeriodicJobControl → Bool}
    {expired : Bool} (h : state = .shutdown ∨ pending .shutdown = true) :
    periodicMachine.next state pending expired = .shutdown := by
  refine if_pos ?_
  obtain rfl | hpending := h
  · exact Bool.or_true _
  · rw [hpending]
    rfl

theorem alarm_next_shutdown {state : AlarmJobState} {pending : AlarmJobControl → Bool}
    {expired : Bool} (h : state = .shutdown ∨ pending .shutdown = true) :
    alarmMachine.next state pending expired = .shutdown := by
  refine if_pos ?_
  obtain rfl | hpending := h
  · exact Bool.or_true _
  · rw [hpending]
    rfl

theorem periodic_shutdown_halts :
    periodicMachine.Halts (fun _ => True) fun state pending =>
      state = .shutdown ∨ pending .shutdown = true :=
  .of_final rfl fun _ _ _ => periodic_next_shutdown

theorem alarm_shutdown_halts :
    alarmMachine.Halts (fun _ => True) fun state pending =>
      state = .shutdown ∨ pending .shutdown = true :=
  .of_final rfl fun _ _ _ => alarm_next_shutdown

theorem periodic_pause_halts :
    periodicMachine.Halts (fun e => e.runs = false) PeriodicJobState.Paused where
  sent {s pending e} hp haccepts hok := by
    obtain hshutdown | hp := hp
    · left
      cases e with
      | shutdown => rfl
      | _ => exact hshutdown
    · cases e with
      | shutdown => exact .inl rfl
      | pause =>
        right
        cases s with
        | paused => cases haccepts
        | singleShotOnPaused => cases hp
        | shutdown => trivial
        | _ => rfl
      | _ => cases hok
  updated {s pending} expired hp := by
    cases hshutdown : pending .shutdown with
    | true =>
      rw [periodic_next_shutdown (.inr hshutdown)]
      exact ⟨rfl, .inr trivial⟩
    | false =>
      have hp := hp.resolve_left (Bool.eq_false_iff.mp hshutdown)
      have hnext : periodicMachine.next s pending expired = .paused ∨
          periodicMachine.next s pending expired = .shutdown := by
        simp only [periodicMachine, PeriodicJobState.next, hshutdown]
        cases s with
        | shutdown => exact .inr rfl
        | paused => rw [hp.1, hp.2]; exact .inl rfl
        | singleShotOnPaused => cases hp
        | _ => rw [show pending .pause = true from hp]; exact .inl rfl
      obtain hnext | hnext := hnext <;> rw [hnext]
      · exact ⟨rfl, .inr ⟨rfl, rfl⟩⟩
      · exact ⟨rfl, .inr trivial⟩

theorem alarm_pause_halts :
    alarmMachine.Halts (fun e => e ≠ .wakeUp) AlarmJobState.Paused where
  sent {s pending e} hp haccepts hok := by
    obtain hshutdown | hp := hp
    · left
      cases e with
      | shutdown => rfl
      | _ => exact hshutdown
    · cases e with
      | shutdown => exact .inl rfl
      | pause =>
        right
        cases s with
        | paused => cases haccepts
        | shutdown => trivial
        | _ => rfl
      | wakeUp => exact absurd rfl hok
  updated {s pending} expired hp := by
    cases hshutdown : pending .shutdown with
    | true =>
      rw [alarm_next_shutdown (.inr hshutdown)]
      exact ⟨rfl, .inr trivial⟩
    | false =>
      have hp := hp.resolve_left (Bool.eq_false_iff.mp hshutdown)
      have hnext : alarmMachine.next s pending expired = .paused ∨
          alarmMachine.next s pending expired = .shutdown := by
        simp only [alarmMachine, AlarmJobState.next, hshutdown]
        cases s with
        | shutdown => exact .inr rfl
        | paused => rw [show pending .wakeUp = false from hp]; exact .inl rfl
        | _ => rw [show pending .pause = true from hp]; exact .inl rfl
      obtain hnext | hnext := hnext <;> rw [hnext]
      · exact ⟨rfl, .inr rfl⟩
      · exact ⟨rfl, .inr trivial⟩

/-! ## Who waits for the stop -/

/-- A thread in a wait loop on `stop_wait` whose condition is not met. -/
def PeriodicMustWait (pjob : PeriodicJob) (pc : PeriodicPc) : Prop :=
  ∃ k, pc = .stopWaiting k ∧ k.stopped pjob.state = false

def AlarmMustWait (ajob : AlarmJob) (pc : AlarmPc) : Prop :=
  ∃ k, pc = .stopWaiting k ∧ k.alarmStopped ajob.state = false

theorem StopWaiter.stopped_eq_false {state : PeriodicJobState}
    (h : state.runs = true ∨ state = .waiting) (k : StopWaiter) : k.stopped state = false := by
  cases state with
  | paused => obtain h | h := h <;> cases h
  | shutdown => obtain h | h := h <;> cases h
  | _ => cases k <;> rfl

theorem StopWaiter.alarmStopped_eq_false {state : AlarmJobState}
    (h : state = .running ∨ state = .waiting) (k : StopWaiter) : k.alarmStopped state = false := by
  obtain rfl | rfl := h <;> cases k <;> rfl

theorem PeriodicMustWait.congr {pjob p' : PeriodicJob} {pc : PeriodicPc}
    (h : PeriodicMustWait pjob pc) (hstate : p'.state = pjob.state) : PeriodicMustWait p' pc := by
  obtain ⟨k, hpc, hgoes⟩ := h
  exact ⟨k, hpc, hstate ▸ hgoes⟩

theorem AlarmMustWait.congr {ajob p' : AlarmJob} {pc : AlarmPc} (h : AlarmMustWait ajob pc)
    (hstate : p'.state = ajob.state) : AlarmMustWait p' pc := by
  obtain ⟨k, hpc, hgoes⟩ := h
  exact ⟨k, hpc, hstate ▸ hgoes⟩

theorem PeriodicMustWait.goes {pjob : PeriodicJob} {k : StopWaiter}
    (h : PeriodicMustWait pjob (.stopWaiting k)) : k.stopped pjob.state = false := by
  obtain ⟨k', hk, hgoes⟩ := h
  cases hk
  exact hgoes

theorem AlarmMustWait.goes {ajob : AlarmJob} {k : StopWaiter}
    (h : AlarmMustWait ajob (.stopWaiting k)) : k.alarmStopped ajob.state = false := by
  obtain ⟨k', hk, hgoes⟩ := h
  cases hk
  exact hgoes

/-- A turn of the runner wakes every waiter, or comes to a state that nobody waits for. -/
theorem LoopTurn.stopWait {pjob p' : PeriodicJob} {t total : ℕ} {pc' : PeriodicPc}
    (h : LoopTurn pjob t total p' pc') :
    p'.stopWait = ∅ ∨
      (p'.stopWait = pjob.stopWait ∧ ∀ k : StopWaiter, k.stopped p'.state = false) := by
  cases h with
  | shutdown p _ _ => exact .inl rfl
  | paused p _ _ => exact .inl rfl
  | waiting p time hp hstate _ =>
    refine .inr ⟨?_, StopWaiter.stopped_eq_false (.inr hstate)⟩
    rw [hp]
    rfl
  | run p hp hruns =>
    refine .inr ⟨?_, StopWaiter.stopped_eq_false (.inl hruns)⟩
    rw [hp]
    rfl

theorem AlarmTurn.stopWait {ajob p' : AlarmJob} {t total : ℕ} {pc' : AlarmPc}
    (h : AlarmTurn ajob t total p' pc') :
    p'.stopWait = ∅ ∨
      (p'.stopWait = ajob.stopWait ∧ ∀ k : StopWaiter, k.alarmStopped p'.state = false) := by
  cases h with
  | shutdown p _ _ => exact .inl rfl
  | paused p _ _ => exact .inl rfl
  | waiting p time hp hstate _ =>
    refine .inr ⟨?_, StopWaiter.alarmStopped_eq_false (.inr hstate)⟩
    rw [hp]
    rfl
  | run p hp hstate =>
    refine .inr ⟨?_, StopWaiter.alarmStopped_eq_false (.inl hstate)⟩
    rw [hp]
    rfl

theorem PeriodicMove.mem_stopWait {pjob p' : PeriodicJob} {t remaining u : ℕ} {pc pc' : PeriodicPc}
    (h : PeriodicMove pjob t remaining pc p' pc') (hu : u ∈ p'.stopWait) :
    (u = t ∧ PeriodicMustWait p' pc') ∨
      (u ∈ pjob.stopWait ∧ ∀ q, PeriodicMustWait pjob q → PeriodicMustWait p' q) := by
  cases h with
  | loop pc total p p' pc' hat hturn =>
    obtain hnone | ⟨hsame, hgoes⟩ := hturn.stopWait
    · rw [hnone] at hu
      exact absurd hu (Finset.notMem_empty u)
    · right
      constructor
      · rw [hsame] at hu
        cases hat <;> exact hu
      · rintro q ⟨k, rfl, -⟩
        exact ⟨k, rfl, hgoes k⟩
  | send e res _ =>
    obtain ⟨_, _, _, hframe, -, -⟩ := pjob.control_frame e
    rw [hframe] at hu ⊢
    exact .inr ⟨hu, fun q hq => hq.congr rfl⟩
  | updatePeriod n res _ =>
    obtain ⟨_, _, hframe, -⟩ := pjob.updatePeriod_frame n
    rw [hframe] at hu ⊢
    exact .inr ⟨hu, fun q hq => hq.congr rfl⟩
  | stopWait pc k _ hgoes =>
    obtain rfl | hold := CondVar.mem_wait.mp hu
    · exact .inl ⟨rfl, k, rfl, hgoes⟩
    · exact .inr ⟨hold, fun q hq => hq.congr rfl⟩
  | delete =>
    obtain ⟨_, _, _, hframe, -, -⟩ := pjob.control_frame .shutdown
    rw [hframe] at hu ⊢
    exact .inr ⟨hu, fun q hq => hq.congr rfl⟩
  | _ => exact .inr ⟨hu, fun q hq => hq.congr rfl⟩

theorem AlarmMove.mem_stopWait {ajob p' : AlarmJob} {t u : ℕ} {o : AlarmOutcome} {pc pc' : AlarmPc}
    (h : AlarmMove ajob t o pc p' pc') (hu : u ∈ p'.stopWait) :
    (u = t ∧ AlarmMustWait p' pc') ∨
      (u ∈ ajob.stopWait ∧ ∀ q, AlarmMustWait ajob q → AlarmMustWait p' q) := by
  have hcontrol : ∀ e, (ajob.control e).1.stopWait = ajob.stopWait := by
    intro e
    obtain ⟨-, hcontrol⟩ | ⟨-, hcontrol⟩ := ajob.control_cases e <;> rw [hcontrol]
  cases h with
  | loop pc total p p' pc' hat hturn =>
    obtain hnone | ⟨hsame, hgoes⟩ := hturn.stopWait
    · rw [hnone] at hu
      exact absurd hu (Finset.notMem_empty u)
    · right
      constructor
      · rw [hsame] at hu
        cases hat with
        | set p _ hset =>
          obtain ⟨f, -, rfl⟩ := Option.map_eq_some_iff.mp hset
          exact hu
        | _ => exact hu
      · rintro q ⟨k, rfl, -⟩
        exact ⟨k, rfl, hgoes k⟩
  | send e res _ =>
    exact .inr ⟨hcontrol e ▸ hu, fun q hq => hq.congr (ajob.control_state e)⟩
  | stopWait pc k _ hgoes =>
    obtain rfl | hold := CondVar.mem_wait.mp hu
    · exact .inl ⟨rfl, k, rfl, hgoes⟩
    · exact .inr ⟨hold, fun q hq => hq.congr rfl⟩
  | delete =>
    exact .inr ⟨hcontrol .shutdown ▸ hu, fun q hq => hq.congr (ajob.control_state .shutdown)⟩
  | _ => exact .inr ⟨hu, fun q hq => hq.congr rfl⟩

theorem periodic_keepsWaiting :
    System.KeepsWaiting periodicSystem PeriodicJob.stopWait PeriodicMustWait where
  resume {s t pc o s' pc' new} hs hmust := by
    obtain ⟨k, rfl, -⟩ := hmust
    intro ht
    have hstuck : periodicStep s t (.stopWaiting k) o = none := if_pos ht
    cases hstuck.symm.trans hs
  step hs u hu := (periodicStep_move hs).1.mem_stopWait hu
  wake {s t pc s'} hs u hu := by
    cases pc with
    | runnerPaused total => cases hs; exact ⟨hu, fun q hq => hq.congr rfl⟩
    | runnerWaiting total time => cases hs; exact ⟨hu, fun q hq => hq.congr rfl⟩
    | stopWaiting k => cases hs; exact ⟨Finset.mem_of_mem_erase hu, fun q hq => hq.congr rfl⟩
    | _ => cases hs

theorem alarm_keepsWaiting :
    System.KeepsWaiting alarmSystem AlarmJob.stopWait AlarmMustWait where
  resume {s t pc o s' pc' new} hs hmust := by
    obtain ⟨k, rfl, -⟩ := hmust
    intro ht
    have hstuck : alarmStep s t (.stopWaiting k) o = none := if_pos ht
    cases hstuck.symm.trans hs
  step hs u hu := (alarmStep_move hs).1.mem_stopWait hu
  wake hs u hu := by
    obtain ⟨_, _, hsub, rfl⟩ := alarmWake_frame hs
    exact ⟨hsub hu, fun q hq => hq.congr rfl⟩

/-! ## Accepted events -/

theorem PeriodicJob.new_fresh {periodicJobFunction : Ptr} {n : ℕ} {allocated threadError : Bool}
    {pjob : PeriodicJob}
    (h : PeriodicJob.new periodicJobFunction n allocated threadError = some pjob) :
    pjob.stopWait = ∅ ∧ pjob.log = [] := by
  unfold PeriodicJob.new at h
  split at h
  · cases h
  · obtain ⟨period, -, h⟩ := Option.bind_eq_some_iff.mp h
    split at h
    · cases h
    · cases h
      exact ⟨rfl, rfl⟩

/-- The call sent the event and returned 1. -/
def PeriodicPc.accepted (e : PeriodicJobControl) : PeriodicPc → Bool
  | .returned (.sent e' res) => res && e' == e
  | _ => false

/-- The call of `delete_periodic_job` has sent its shutdown, or found it refused. -/
def PeriodicPc.deletes (e : PeriodicJobControl) : PeriodicPc → Bool
  | .stopTest .delete => e == .shutdown
  | .stopWaiting .delete => e == .shutdown
  | .returned (.stopped .delete) => e == .shutdown
  | _ => false

theorem PeriodicJob.control_count (pjob : PeriodicJob) (e e' : PeriodicJobControl) :
    (pjob.control e).1.log.count (.sent e') =
      pjob.log.count (.sent e') + ((pjob.control e).2 && e == e').toNat := by
  obtain ⟨-, hcontrol⟩ | ⟨-, hcontrol⟩ := pjob.control_cases e
  · rw [hcontrol]
    rfl
  · rw [hcontrol]
    cases e <;> cases e' <;> simp [List.count_append]

theorem LoopAt.count_sent {pjob p : PeriodicJob} {t remaining total : ℕ} {pc : PeriodicPc}
    (h : LoopAt pjob t remaining pc total p) (e : PeriodicJobControl) :
    p.log.count (.sent e) = pjob.log.count (.sent e) := by
  cases h with
  | top => rfl
  | paused total _ => rfl
  | waiting total time elapsed _ _ => simp [PeriodicJob.record, List.count_append]

theorem LoopTurn.count_sent {pjob p' : PeriodicJob} {t total : ℕ} {pc' : PeriodicPc}
    (h : LoopTurn pjob t total p' pc') (e : PeriodicJobControl) :
    p'.log.count (.sent e) = pjob.log.count (.sent e) := by
  have hconsume : (pjob.consumeEventsAndUpdateState total).log.count (.sent e) =
      pjob.log.count (.sent e) := by
    simp [PeriodicJob.consumeEventsAndUpdateState, List.count_append]
  cases h with
  | shutdown p hp _ => simpa [hp] using hconsume
  | paused p hp _ => simpa [hp, List.count_append] using hconsume
  | waiting p time hp _ _ => simpa [hp, List.count_append] using hconsume
  | run p hp _ => simpa [hp] using hconsume

/-- An entry for the event is an event that this call sent, or that a deletion did. -/
theorem PeriodicMove.count_sent {pjob p' : PeriodicJob} {t remaining : ℕ} {pc pc' : PeriodicPc}
    (h : PeriodicMove pjob t remaining pc p' pc') (e : PeriodicJobControl) :
    pjob.log.count (.sent e) + (pc'.accepted e).toNat ≤
        p'.log.count (.sent e) + (pc.accepted e).toNat ∧
      p'.log.count (.sent e) + (pc.accepted e).toNat + (pc.deletes e).toNat ≤
        pjob.log.count (.sent e) + (pc'.accepted e).toNat + (pc'.deletes e).toNat := by
  cases h with
  | loop pc total p p' pc' hat hturn =>
    have hcount := (hturn.count_sent e).trans (hat.count_sent e)
    cases hat <;> cases hturn <;> exact ⟨hcount.ge, hcount.le⟩
  | invoke => simp [PeriodicJob.record, List.count_append, PeriodicPc.accepted, PeriodicPc.deletes]
  | ended => simp [PeriodicJob.record, List.count_append, PeriodicPc.accepted, PeriodicPc.deletes]
  | call k => cases k <;> exact ⟨le_rfl, le_rfl⟩
  | send e' res hres =>
    have hcount := pjob.control_count e' e
    rw [hres] at hcount
    exact ⟨hcount.ge, hcount.le⟩
  | updatePeriod n res _ =>
    obtain ⟨_, _, hframe, -⟩ := pjob.updatePeriod_frame n
    rw [hframe]
    exact ⟨le_rfl, le_rfl⟩
  | getPeriod => exact ⟨le_rfl, le_rfl⟩
  | stopPass pc k hat _ => cases hat <;> cases k <;> exact ⟨le_rfl, le_rfl⟩
  | stopWait pc k hat _ => cases hat <;> cases k <;> exact ⟨le_rfl, le_rfl⟩
  | delete =>
    have hcount := pjob.control_count .shutdown e
    have hdeletes : (PeriodicPc.stopTest .delete).deletes e = (.shutdown == e) := by
      cases e <;> rfl
    rw [hcount, hdeletes]
    refine ⟨Nat.le_add_right _ _, ?_⟩
    refine Nat.add_le_add_left ?_ (pjob.log.count (.sent e))
    cases (pjob.control .shutdown).2 <;> simp

theorem periodic_tallies (e : PeriodicJobControl) :
    System.Tallies periodicSystem (fun pjob => pjob.log.count (.sent e)) (PeriodicPc.accepted e)
      (PeriodicPc.deletes e) where
  start _ _ := rfl
  new hs := by
    obtain ⟨-, rfl⟩ := periodicStep_move hs
    exact fun r hr => absurd hr List.not_mem_nil
  atLeast hs := ((periodicStep_move hs).1.count_sent e).1
  atMost hs := ((periodicStep_move hs).1.count_sent e).2
  wake hs := by
    obtain ⟨_, _, rfl⟩ := periodicWake_frame hs
    rfl

/-- The entries for an event are the calls that sent it and returned 1, and for a
    shutdown perhaps the deletions, which do not return what their shutdown did. -/
theorem periodic_sent_returned {periodicJobFunction : Ptr} {n : ℕ} {allocated threadError : Bool}
    {pjob : PeriodicJob} {c : PeriodicConfig}
    (hnew : PeriodicJob.new periodicJobFunction n allocated threadError = some pjob)
    (h : PeriodicReach pjob c) (e : PeriodicJobControl) :
    c.count (PeriodicPc.accepted e) ≤ c.shared.log.count (.sent e) ∧
      c.shared.log.count (.sent e) ≤
        c.count (PeriodicPc.accepted e) + c.count (PeriodicPc.deletes e) := by
  have hempty : pjob.log.count (.sent e) = 0 := by
    rw [(PeriodicJob.new_fresh hnew).2]
    rfl
  refine (periodic_tallies e).reach ⟨?_, ?_⟩ h
  · exact Nat.zero_le _
  · exact hempty.le.trans (Nat.zero_le _)

/-- The call sent the event and returned 1. -/
def AlarmPc.accepted (e : AlarmJobControl) : AlarmPc → Bool
  | .returned (.sent e' res) => res && e' == e
  | _ => false

/-- The call of `delete_alarm_job` has sent its shutdown, or found it refused. -/
def AlarmPc.deletes (e : AlarmJobControl) : AlarmPc → Bool
  | .stopTest .delete => e == .shutdown
  | .stopWaiting .delete => e == .shutdown
  | .returned (.stopped .delete) => e == .shutdown
  | _ => false

theorem AlarmJob.control_count (ajob : AlarmJob) (e e' : AlarmJobControl) :
    (ajob.control e).1.log.count (.sent e') =
      ajob.log.count (.sent e') + ((ajob.control e).2 && e == e').toNat := by
  obtain ⟨-, hcontrol⟩ | ⟨-, hcontrol⟩ := ajob.control_cases e
  · rw [hcontrol]
    rfl
  · rw [hcontrol]
    cases e <;> cases e' <;> simp [List.count_append]

theorem AlarmLoopAt.count_sent {ajob p : AlarmJob} {t total : ℕ} {o : AlarmOutcome} {pc : AlarmPc}
    (h : AlarmLoopAt ajob t o pc total p) (e : AlarmJobControl) :
    p.log.count (.sent e) = ajob.log.count (.sent e) := by
  cases h with
  | top _ => rfl
  | set p _ hset =>
    obtain ⟨f, -, rfl⟩ := Option.map_eq_some_iff.mp hset
    simp [List.count_append]
  | paused total _ => rfl
  | waiting total time elapsed _ _ => simp [AlarmJob.record, List.count_append]

theorem AlarmTurn.count_sent {ajob p' : AlarmJob} {t total : ℕ} {pc' : AlarmPc}
    (h : AlarmTurn ajob t total p' pc') (e : AlarmJobControl) :
    p'.log.count (.sent e) = ajob.log.count (.sent e) := by
  have hconsume : (ajob.consumeEventsAndUpdateState total).log.count (.sent e) =
      ajob.log.count (.sent e) := by
    simp [AlarmJob.consumeEventsAndUpdateState, List.count_append]
  cases h with
  | shutdown p hp _ => simpa [hp] using hconsume
  | paused p hp _ => simpa [hp, List.count_append] using hconsume
  | waiting p time hp _ _ => simpa [hp, List.count_append] using hconsume
  | run p hp _ => simpa [hp] using hconsume

theorem AlarmMove.count_sent {ajob p' : AlarmJob} {t : ℕ} {o : AlarmOutcome} {pc pc' : AlarmPc}
    (h : AlarmMove ajob t o pc p' pc') (e : AlarmJobControl) :
    ajob.log.count (.sent e) + (pc'.accepted e).toNat ≤
        p'.log.count (.sent e) + (pc.accepted e).toNat ∧
      p'.log.count (.sent e) + (pc.accepted e).toNat + (pc.deletes e).toNat ≤
        ajob.log.count (.sent e) + (pc'.accepted e).toNat + (pc'.deletes e).toNat := by
  cases h with
  | loop pc total p p' pc' hat hturn =>
    have hcount := (hturn.count_sent e).trans (hat.count_sent e)
    cases hat <;> cases hturn <;> exact ⟨hcount.ge, hcount.le⟩
  | invoke => simp [AlarmJob.record, List.count_append, AlarmPc.accepted, AlarmPc.deletes]
  | ended => simp [AlarmJob.record, List.count_append, AlarmPc.accepted, AlarmPc.deletes]
  | call k => cases k <;> exact ⟨le_rfl, le_rfl⟩
  | send e' res hres =>
    have hcount := ajob.control_count e' e
    rw [hres] at hcount
    exact ⟨hcount.ge, hcount.le⟩
  | stopPass pc k hat _ => cases hat <;> cases k <;> exact ⟨le_rfl, le_rfl⟩
  | stopWait pc k hat _ => cases hat <;> cases k <;> exact ⟨le_rfl, le_rfl⟩
  | delete =>
    have hcount := ajob.control_count .shutdown e
    have hdeletes : (AlarmPc.stopTest .delete).deletes e = (.shutdown == e) := by
      cases e <;> rfl
    rw [hcount, hdeletes]
    refine ⟨Nat.le_add_right _ _, ?_⟩
    refine Nat.add_le_add_left ?_ (ajob.log.count (.sent e))
    cases (ajob.control .shutdown).2 <;> simp

theorem alarm_tallies (e : AlarmJobControl) :
    System.Tallies alarmSystem (fun ajob => ajob.log.count (.sent e)) (AlarmPc.accepted e)
      (AlarmPc.deletes e) where
  start _ _ := rfl
  new hs := by
    obtain ⟨-, rfl⟩ := alarmStep_move hs
    exact fun r hr => absurd hr List.not_mem_nil
  atLeast hs := ((alarmStep_move hs).1.count_sent e).1
  atMost hs := ((alarmStep_move hs).1.count_sent e).2
  wake hs := by
    obtain ⟨_, _, -, rfl⟩ := alarmWake_frame hs
    rfl

theorem alarm_sent_returned {alarmSetFunction alarmJobFunction : Ptr}
    {allocated threadError : Bool} {ajob : AlarmJob} {c : AlarmConfig}
    (hnew : AlarmJob.new alarmSetFunction alarmJobFunction allocated threadError = some ajob)
    (h : AlarmReach ajob c) (e : AlarmJobControl) :
    c.count (AlarmPc.accepted e) ≤ c.shared.log.count (.sent e) ∧
      c.shared.log.count (.sent e) ≤
        c.count (AlarmPc.accepted e) + c.count (AlarmPc.deletes e) := by
  obtain ⟨-, -, -, hlog⟩ := AlarmJob.state_of_new hnew
  have hempty : ajob.log.count (.sent e) = 0 := by
    rw [hlog]
    rfl
  refine (alarm_tallies e).reach ⟨?_, ?_⟩ h
  · exact Nat.zero_le _
  · exact hempty.le.trans (Nat.zero_le _)

/-! ## The bounds -/

/-- What an accepted shutdown and an accepted pause guarantee of a periodic job. -/
structure PeriodicStops (c : PeriodicConfig) : Prop where
  /-- After a shutdown at most one more call of the function starts. -/
  after_shutdown : EventMachine.AtMostOneAfter (· == .sent .shutdown) (fun _ => false)
    (· == .invoked) c.shared.log
  /-- After a pause at most one more starts until a resume or a single shot is accepted. -/
  after_pause : EventMachine.AtMostOneAfter (· == .sent .pause)
    (fun e => e == .sent .resume || e == .sent .singleShot) (· == .invoked) c.shared.log
  shutdown_final : c.shared.state = .shutdown →
    ∀ c', periodicSystem.Reach (fun _ _ => True) c c' → c'.shared.state = .shutdown ∧
      (∀ t, c'.pc? t ≠ some .runnerInvoking) ∧
      c'.shared.log.countP (· == .invoked) = c.shared.log.countP (· == .invoked)
  paused_idle : c.shared.state = .paused → ∀ t, c.pc? t ≠ some .runnerInvoking
  /-- Whoever is blocked in `wait_for_shutdown`, also from `delete`, waits for it. -/
  shutdown_awaited : ∀ t ∈ c.shared.stopWait,
    c.pc? t = some (.stopWaiting .shutdown) ∨ c.pc? t = some (.stopWaiting .delete) →
    c.shared.state ≠ .shutdown
  pause_awaited : ∀ t ∈ c.shared.stopWait, c.pc? t = some (.stopWaiting .pauseOrShutdown) →
    c.shared.state ≠ .shutdown ∧ c.shared.state ≠ .paused

/-- What an accepted shutdown and an accepted pause guarantee of an alarm job. -/
structure AlarmStops (c : AlarmConfig) : Prop where
  /-- After a shutdown at most one more call of `alarm_job_function` starts. -/
  after_shutdown : EventMachine.AtMostOneAfter (· == .sent .shutdown) (fun _ => false)
    (· == .invoked) c.shared.log
  /-- After a pause at most one more starts until a wake-up is accepted. -/
  after_pause : EventMachine.AtMostOneAfter (· == .sent .pause) (· == .sent .wakeUp)
    (· == .invoked) c.shared.log
  shutdown_final : c.shared.state = .shutdown →
    ∀ c', alarmSystem.Reach (fun _ _ => True) c c' → c'.shared.state = .shutdown ∧
      (∀ t, c'.pc? t ≠ some .runnerInvoking) ∧
      c'.shared.log.countP (· == .invoked) = c.shared.log.countP (· == .invoked)
  paused_idle : c.shared.state = .paused → ∀ t, c.pc? t ≠ some .runnerInvoking
  /-- Whoever is blocked in `wait_for_shutdown`, also from `delete`, waits for it. -/
  shutdown_awaited : ∀ t ∈ c.shared.stopWait,
    c.pc? t = some (.stopWaiting .shutdown) ∨ c.pc? t = some (.stopWaiting .delete) →
    c.shared.state ≠ .shutdown
  pause_awaited : ∀ t ∈ c.shared.stopWait, c.pc? t = some (.stopWaiting .pauseOrShutdown) →
    c.shared.state ≠ .shutdown ∧ c.shared.state ≠ .paused

@[simp] theorem PeriodicJobEvent.note_isInvoked (e : PeriodicJobEvent) :
    e.note.isInvoked = (e == .invoked) := by
  cases e <;> rfl

@[simp] theorem AlarmJobEvent.note_isInvoked (e : AlarmJobEvent) :
    e.note.isInvoked = (e == .invoked) := by
  cases e <;> rfl

/-- Once the job is shut down nothing more happens to it. -/
theorem periodic_shutdown_final {c c' : PeriodicConfig} (hc : RunnerInv c)
    (hstate : c.shared.state = .shutdown) (h : periodicSystem.Reach (fun _ _ => True) c c') :
    c'.shared.state = .shutdown ∧
      c'.shared.log.countP (· == .invoked) = c.shared.log.countP (· == .invoked) := by
  obtain ⟨pc, pc', log, hpc, -, hlog, hrun⟩ := periodic_run hc h
  have hdue : (c.shared.phase pc).due = false := by
    have hat := hc.position 0 pc hpc
    rw [hstate] at hat
    cases pc with
    | runnerInvoke => cases hat
    | _ => rfl
  obtain ⟨hfinal, hcount⟩ := hrun.of_final hstate hdue rfl fun _ _ =>
    periodic_next_shutdown (.inl rfl)
  simp only [PeriodicJobEvent.note_isInvoked] at hcount
  exact ⟨hfinal, by rw [hlog, List.countP_append, hcount, Nat.add_zero]⟩

theorem alarm_shutdown_final {c c' : AlarmConfig} (hc : AlarmRunnerInv c)
    (hstate : c.shared.state = .shutdown) (h : alarmSystem.Reach (fun _ _ => True) c c') :
    c'.shared.state = .shutdown ∧
      c'.shared.log.countP (· == .invoked) = c.shared.log.countP (· == .invoked) := by
  obtain ⟨pc, pc', log, hpc, -, hlog, hrun⟩ := alarm_run hc h
  have hdue : (c.shared.phase pc).due = false := by
    have hat := hc.holds hpc
    rw [hstate] at hat
    cases pc with
    | runnerInvoke => cases hat
    | _ => rfl
  obtain ⟨hfinal, hcount⟩ := hrun.of_final hstate hdue rfl fun _ _ =>
    alarm_next_shutdown (.inl rfl)
  simp only [AlarmJobEvent.note_isInvoked] at hcount
  exact ⟨hfinal, by rw [hlog, List.countP_append, hcount, Nat.add_zero]⟩

/-- The function does not run while the state is none that runs it. -/
theorem RunnerInv.not_invoking {c : PeriodicConfig} (hc : RunnerInv c)
    (hruns : c.shared.state.runs = false) (t : ℕ) : c.pc? t ≠ some .runnerInvoking := by
  intro ht
  have hat : c.shared.state.runs = true := hc.position t _ ht
  rw [hruns] at hat
  cases hat

theorem AlarmRunnerInv.not_invoking {c : AlarmConfig} (hc : AlarmRunnerInv c)
    (hstate : c.shared.state ≠ .running) (t : ℕ) : c.pc? t ≠ some .runnerInvoking := by
  intro ht
  obtain rfl := hc.only t _ ht rfl
  exact hstate (hc.holds ht)

/-- In a run at most one call of the function starts after a shutdown. -/
theorem periodic_after_shutdown {p q : Phase PeriodicJobState PeriodicJobControl}
    {log : List PeriodicJobEvent} (h : PeriodicRun p log q) :
    EventMachine.AtMostOneAfter (· == .sent .shutdown) (fun _ => false) (· == .invoked) log := by
  have hbound : EventMachine.AtMostOneAfter (· == .sent .shutdown) (fun _ => false)
      (fun e => e.note.isInvoked) log := by
    refine periodic_shutdown_halts.atMostOneAfter ?_ (fun _ _ _ _ => trivial) h
    intro e he
    rw [beq_iff_eq] at he
    exact ⟨.shutdown, he ▸ rfl, fun _ _ _ => .inr (Function.update_self _ _ _)⟩
  simpa only [PeriodicJobEvent.note_isInvoked] using hbound

theorem alarm_after_shutdown {p q : Phase AlarmJobState AlarmJobControl}
    {log : List AlarmJobEvent} (h : AlarmRun p log q) :
    EventMachine.AtMostOneAfter (· == .sent .shutdown) (fun _ => false) (· == .invoked) log := by
  have hbound : EventMachine.AtMostOneAfter (· == .sent .shutdown) (fun _ => false)
      (fun e => e.note.isInvoked) log := by
    refine alarm_shutdown_halts.atMostOneAfter ?_ (fun _ _ _ _ => trivial) h
    intro e he
    rw [beq_iff_eq] at he
    exact ⟨.shutdown, he ▸ rfl, fun _ _ _ => .inr (Function.update_self _ _ _)⟩
  simpa only [AlarmJobEvent.note_isInvoked] using hbound

/-- In a run at most one starts after a pause, until the job is made to run again. -/
theorem periodic_after_pause {p q : Phase PeriodicJobState PeriodicJobControl}
    {log : List PeriodicJobEvent} (h : PeriodicRun p log q) :
    EventMachine.AtMostOneAfter (· == .sent .pause)
      (fun e => e == .sent .resume || e == .sent .singleShot) (· == .invoked) log := by
  have hbound : EventMachine.AtMostOneAfter (· == .sent .pause)
      (fun e => e == .sent .resume || e == .sent .singleShot)
      (fun e => e.note.isInvoked) log := by
    refine periodic_pause_halts.atMostOneAfter ?_ ?_ h
    · intro e he
      rw [beq_iff_eq] at he
      refine ⟨.pause, he ▸ rfl, fun s pending haccepts => .inr ?_⟩
      cases s with
      | paused => cases haccepts
      | singleShotOnPaused => cases haccepts
      | shutdown => trivial
      | _ => exact Function.update_self _ _ _
    · intro e k he hkind
      cases e with
      | sent k' =>
        cases hkind
        cases k with
        | resume => cases he
        | singleShot => cases he
        | _ => rfl
      | _ => cases hkind
  simpa only [PeriodicJobEvent.note_isInvoked] using hbound

theorem alarm_after_pause {p q : Phase AlarmJobState AlarmJobControl}
    {log : List AlarmJobEvent} (h : AlarmRun p log q) :
    EventMachine.AtMostOneAfter (· == .sent .pause) (· == .sent .wakeUp) (· == .invoked) log := by
  have hbound : EventMachine.AtMostOneAfter (· == .sent .pause) (· == .sent .wakeUp)
      (fun e => e.note.isInvoked) log := by
    refine alarm_pause_halts.atMostOneAfter ?_ ?_ h
    · intro e he
      rw [beq_iff_eq] at he
      refine ⟨.pause, he ▸ rfl, fun s pending haccepts => .inr ?_⟩
      cases s with
      | paused => cases haccepts
      | shutdown => trivial
      | _ => exact Function.update_self _ _ _
    · rintro e k he hkind rfl
      cases e with
      | sent k' => cases hkind; cases he
      | _ => cases hkind
  simpa only [AlarmJobEvent.note_isInvoked] using hbound

theorem periodic_stops {pjob : PeriodicJob} {periodicJobFunction : Ptr} {n : ℕ}
    {allocated threadError : Bool} {c : PeriodicConfig}
    (hnew : PeriodicJob.new periodicJobFunction n allocated threadError = some pjob)
    (h : PeriodicReach pjob c) : PeriodicStops c := by
  obtain ⟨hpaused, -⟩ := PeriodicJob.state_of_new hnew
  obtain ⟨hnobody, hempty⟩ := PeriodicJob.new_fresh hnew
  have hrunner : RunnerInv c := runner_invariant hpaused h
  have hwaiting : System.StillWaiting PeriodicJob.stopWait PeriodicMustWait c :=
    periodic_keepsWaiting.reach (.of_empty hnobody) h
  obtain ⟨pc, pc', log, -, -, hlog, hrun⟩ := periodic_run (runnerInv_init hpaused) h
  obtain rfl : c.shared.log = log := hlog.trans (by rw [periodicInit, hempty, List.nil_append])
  refine ⟨periodic_after_shutdown hrun, periodic_after_pause hrun, ?_, ?_, ?_, ?_⟩
  · intro hstate c' hreach
    obtain ⟨hfinal, hcount⟩ := periodic_shutdown_final hrunner hstate hreach
    refine ⟨hfinal, (hrunner.reach hreach).not_invoking ?_, hcount⟩
    rw [hfinal]
    rfl
  · intro hstate
    refine hrunner.not_invoking ?_
    rw [hstate]
    rfl
  · rintro t ht (hpc | hpc)
    · exact ne_of_beq_false (PeriodicMustWait.goes (hwaiting.must ht hpc))
    · exact ne_of_beq_false (PeriodicMustWait.goes (hwaiting.must ht hpc))
  · intro t ht hpc
    obtain ⟨hshutdown, hstate⟩ :=
      Bool.or_eq_false_iff.mp (PeriodicMustWait.goes (hwaiting.must ht hpc))
    exact ⟨ne_of_beq_false hshutdown, ne_of_beq_false hstate⟩

theorem alarm_stops {ajob : AlarmJob} {alarmSetFunction alarmJobFunction : Ptr}
    {allocated threadError : Bool} {c : AlarmConfig}
    (hnew : AlarmJob.new alarmSetFunction alarmJobFunction allocated threadError = some ajob)
    (h : AlarmReach ajob c) : AlarmStops c := by
  obtain ⟨hpaused, -, hnobody, hempty⟩ := AlarmJob.state_of_new hnew
  have hrunner : AlarmRunnerInv c := alarm_runner_invariant hpaused h
  have hwaiting : System.StillWaiting AlarmJob.stopWait AlarmMustWait c :=
    alarm_keepsWaiting.reach (.of_empty hnobody) h
  obtain ⟨pc, pc', log, -, -, hlog, hrun⟩ := alarm_run (alarmRunnerInv_init hpaused) h
  obtain rfl : c.shared.log = log := hlog.trans (by rw [alarmInit, hempty, List.nil_append])
  refine ⟨alarm_after_shutdown hrun, alarm_after_pause hrun, ?_, ?_, ?_, ?_⟩
  · intro hstate c' hreach
    obtain ⟨hfinal, hcount⟩ := alarm_shutdown_final hrunner hstate hreach
    refine ⟨hfinal, (hrunner.reach hreach).not_invoking ?_, hcount⟩
    rw [hfinal]
    exact nofun
  · intro hstate
    refine hrunner.not_invoking ?_
    rw [hstate]
    exact nofun
  · rintro t ht (hpc | hpc)
    · exact ne_of_beq_false (AlarmMustWait.goes (hwaiting.must ht hpc))
    · exact ne_of_beq_false (AlarmMustWait.goes (hwaiting.must ht hpc))
  · intro t ht hpc
    obtain ⟨hshutdown, hstate⟩ :=
      Bool.or_eq_false_iff.mp (AlarmMustWait.goes (hwaiting.must ht hpc))
    exact ⟨ne_of_beq_false hshutdown, ne_of_beq_false hstate⟩

/-- Accepted stop events bound what still runs, of a periodic job and of an alarm job. -/
theorem stop_events_bound_runs :
    (∀ {periodicJobFunction : Ptr} {n : ℕ} {allocated threadError : Bool} {pjob : PeriodicJob}
      {c : PeriodicConfig},
      PeriodicJob.new periodicJobFunction n allocated threadError = some pjob →
      PeriodicReach pjob c → PeriodicStops c) ∧
    (∀ {alarmSetFunction alarmJobFunction : Ptr} {allocated threadError : Bool} {ajob : AlarmJob}
      {c : AlarmConfig},
      AlarmJob.new alarmSetFunction alarmJobFunction allocated threadError = some ajob →
      AlarmReach ajob c → AlarmStops c) :=
  ⟨periodic_stops, alarm_stops⟩

/-- A job is paused when its runner has decided to call the function, and calls it. -/
def pausedBeforeCall : PeriodicConfig :=
  periodicSystem.run (periodicInit tenMicroseconds)
    [.step 0 0, .call (.send .resume) 0, .step 1 0, .step 0 0, .call (.send .pause) 0, .step 2 0,
      .step 0 0, .step 0 0, .step 0 0] (by decide)

/-- The paused job is shut down while a client waits for it. -/
def shutdownAwaited : PeriodicConfig :=
  periodicSystem.run pausedBeforeCall
    [.call .waitForShutdown 0, .step 3 0, .call (.send .shutdown) 0, .step 4 0] (by decide)

/-- A new alarm job with both functions. -/
def newAlarm : AlarmJob := (AlarmJob.new (some 0) (some 1) true false).get rfl

/-- The alarm job is woken and shut down before it calls its function. -/
def stoppedAlarm : AlarmConfig :=
  alarmSystem.run (alarmInit newAlarm)
    [.step 0 ⟨0, 0⟩, .call (.send .wakeUp) ⟨0, 0⟩, .step 1 ⟨0, 0⟩, .step 0 ⟨0, 0⟩,
      .call (.send .shutdown) ⟨0, 0⟩, .step 2 ⟨0, 0⟩, .step 0 ⟨0, 0⟩, .step 0 ⟨0, 0⟩,
      .step 0 ⟨9, 0⟩] (by decide)

theorem stop_events_bound_runs_stoppedJobs :
    (∃ pre mid, pausedBeforeCall.shared.log = pre ++ .sent .pause :: (mid ++ []) ∧
      .invoked ∈ mid ∧ mid.countP (· == .invoked) ≤ 1) ∧
    (∀ t, pausedBeforeCall.pc? t ≠ some .runnerInvoking) ∧
    (3 ∈ shutdownAwaited.shared.stopWait ∧ shutdownAwaited.shared.state ≠ .shutdown) ∧
    (∃ pre mid, stoppedAlarm.shared.log = pre ++ .sent .shutdown :: (mid ++ []) ∧
      .invoked ∈ mid ∧ mid.countP (· == .invoked) ≤ 1) ∧
    ∀ c, alarmSystem.Reach (fun _ _ => True) stoppedAlarm c → c.shared.state = .shutdown := by
  have hpaused : PeriodicReach tenMicroseconds pausedBeforeCall := .run _ _ _
  have hperiodic : ∀ {c}, PeriodicReach tenMicroseconds c → PeriodicStops c :=
    stop_events_bound_runs.1 (Option.some_get _).symm
  have halarm : AlarmStops stoppedAlarm :=
    stop_events_bound_runs.2 (Option.some_get _).symm (.run _ _ _)
  refine ⟨?_, ?_, ⟨by decide, ?_⟩, ?_, ?_⟩
  · have hlog : pausedBeforeCall.shared.log =
        pausedBeforeCall.shared.log.take 4 ++
          .sent .pause :: (pausedBeforeCall.shared.log.drop 5 ++ []) := by
      decide
    refine ⟨_, _, hlog, by decide, ?_⟩
    exact (hperiodic hpaused).after_pause _ _ _ _ hlog rfl (by decide)
  · exact (hperiodic hpaused).paused_idle (by decide)
  · exact (hperiodic (hpaused.trans (.run _ _ _))).shutdown_awaited 3 (by decide) (.inl (by decide))
  · have hlog : stoppedAlarm.shared.log =
        stoppedAlarm.shared.log.take 4 ++
          .sent .shutdown :: (stoppedAlarm.shared.log.drop 5 ++ []) := by
      decide
    refine ⟨_, _, hlog, by decide, ?_⟩
    exact halarm.after_shutdown _ _ _ _ hlog rfl (by decide)
  · exact fun c hreach => (halarm.shutdown_final (by decide) c hreach).1

end BoomPar
