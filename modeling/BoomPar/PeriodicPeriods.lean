-- SUMMARY: The runner accounts for every microsecond that it waits for its period, whenever the period is updated and however its waits end.
import BoomPar.JobStops

/-!
# The period of the periodic job

`periodic_job_runner` waits for its period in parts: an event, an update of the
period or a spurious wake-up ends a timed wait early, and the runner adds what
elapsed of it to `total_time_waited_for`. The next part is the difference of two
unsigned numbers, of which clients can change one in between.
-/

namespace BoomPar

open Monitor

/-! ## The account -/

/-- What an event makes of the time waited for. -/
def PeriodicJobEvent.account (total : ℕ) : PeriodicJobEvent → ℕ
  | .elapsed time => total + time
  | .ended => 0
  | _ => total

/-- The sum of the times that timed waits reported since the function last returned. -/
def timeWaited (log : List PeriodicJobEvent) : ℕ :=
  log.foldl PeriodicJobEvent.account 0

/-- `total_time_waited_for` where the runner blocks. -/
def PeriodicPc.totalTimeWaitedFor? : PeriodicPc → Option ℕ
  | .runnerPaused total => some total
  | .runnerWaiting total _ => some total
  | _ => none

/-- No event is pending that an update of a waiting job prefers to its period. -/
def EventVector.NoneBeforePeriod (v : EventVector) : Prop :=
  v.shutdownCalled = false ∧ v.pauseCalled = false ∧ v.singleShotCalled = false

/-- What a transition adds to the log, seen from the period in force. -/
structure Accounted (pjob p' : PeriodicJob) (log : List PeriodicJobEvent) : Prop where
  log_eq : p'.log = pjob.log ++ log
  /-- A timed wait is for what is left of the period, which is a time that ends. -/
  blocked : ∀ time, .blocked (some time) ∈ log →
    timeWaited p'.log < pjob.periodInMicroseconds.microseconds ∧
      time = pjob.periodInMicroseconds.microseconds - timeWaited p'.log ∧
      time ≠ nonBlocking ∧ time ≠ blocking
  /-- An update of a waiting job runs it exactly when the period is over. -/
  updated : ∀ after, .updated .waiting after ∈ log →
    (after = .running ↔ pjob.eventVector.NoneBeforePeriod ∧
      pjob.periodInMicroseconds.microseconds ≤ timeWaited p'.log)
  /-- Nothing but an update runs a waiting job. -/
  started : pjob.state = .waiting → p'.state = .running → .updated .waiting .running ∈ log

@[simp] theorem timeWaited_nil : timeWaited [] = 0 := rfl

@[simp] theorem timeWaited_append (log : List PeriodicJobEvent) (e : PeriodicJobEvent) :
    timeWaited (log ++ [e]) = e.account (timeWaited log) := by
  rw [timeWaited, List.foldl_append]
  rfl

/-- Only what elapses and the end of a call change the time waited. -/
theorem timeWaited_append_of_quiet {log log' : List PeriodicJobEvent}
    (h : ∀ x ∈ log', ∀ total, x.account total = total) :
    timeWaited (log ++ log') = timeWaited log := by
  induction log' generalizing log with
  | nil => rw [List.append_nil]
  | cons x log' ih =>
    rw [← List.singleton_append, ← List.append_assoc,
      ih fun y hy => h y (List.mem_cons_of_mem _ hy), timeWaited_append,
      h x List.mem_cons_self]

/-! ## Updates -/

namespace PeriodicJob

/-- A job that goes on waiting has not waited for its period. -/
theorem lt_of_nextState_waiting {pjob : PeriodicJob} {total : ℕ}
    (h : pjob.nextState total = .waiting) (hruns : pjob.state.runs = true → total = 0) :
    total < pjob.periodInMicroseconds.microseconds := by
  cases hstate : pjob.state with
  | paused =>
    simp only [nextState, hstate] at h
    split_ifs at h
  | waiting =>
    simp only [nextState, hstate] at h
    split_ifs at h with _ _ _ hover
    exact Nat.lt_of_not_le hover
  | shutdown =>
    simp only [nextState, hstate] at h
    cases h
  | _ =>
    -- a call of the function is behind, and `total_time_waited_for` starts anew
    rw [hruns (by rw [hstate]; rfl)]
    exact pjob.periodInMicroseconds.pos

theorem nextState_running_iff {pjob : PeriodicJob} (h : pjob.state = .waiting) (total : ℕ) :
    pjob.nextState total = .running ↔
      pjob.eventVector.NoneBeforePeriod ∧ pjob.periodInMicroseconds.microseconds ≤ total := by
  simp only [nextState, h, EventVector.NoneBeforePeriod]
  split_ifs <;> simp_all

end PeriodicJob

/-! ## The runner -/

/-- `total_time_waited_for` is the time waited, and a timed wait cannot overflow it. -/
def TotalAt (log : List PeriodicJobEvent) : PeriodicPc → Prop
  | .runnerTop => timeWaited log = 0
  | .runnerPaused total => total = timeWaited log
  | .runnerWaiting total time => total = timeWaited log ∧ total + time < blocking
  | _ => True

/-- The runner is where the state puts it, and its account is right. -/
structure AccountAt (pjob : PeriodicJob) (pc : PeriodicPc) : Prop where
  position : RunnerAt pjob.state pc
  total : TotalAt pjob.log pc
  bounded : timeWaited pjob.log < blocking

/-- The runner consumes the events with an account that is right. -/
structure AccountBefore (pjob p : PeriodicJob) (total : ℕ) : Prop where
  log_eq : ∃ log, p.log = pjob.log ++ log ∧ ∀ x ∈ log, ∃ time, x = .elapsed time
  total_eq : total = timeWaited p.log
  bounded : total < blocking
  fresh : p.state.runs = true → total = 0

theorem LoopAt.frame {pjob p : PeriodicJob} {t remaining total : ℕ} {pc : PeriodicPc}
    (h : LoopAt pjob t remaining pc total p) : p = { pjob with log := p.log } := by
  cases h with
  | top => rfl
  | paused total _ => rfl
  | waiting total time elapsed _ _ => rfl

theorem LoopAt.account {pjob p : PeriodicJob} {t remaining total : ℕ} {pc : PeriodicPc}
    (h : LoopAt pjob t remaining pc total p) (hat : AccountAt pjob pc) :
    AccountBefore pjob p total := by
  cases h with
  | top =>
    exact ⟨⟨[], (List.append_nil _).symm, fun x hx => absurd hx List.not_mem_nil⟩,
      hat.total.symm, Nat.lt_of_le_of_lt (Nat.zero_le _) hat.bounded, fun _ => rfl⟩
  | paused total _ =>
    refine ⟨⟨[], (List.append_nil _).symm, fun x hx => absurd hx List.not_mem_nil⟩,
      hat.total, hat.total ▸ hat.bounded, fun hruns => ?_⟩
    -- a pause keeps the total, and leads to a call of the function before the next wait
    have hstate : pjob.state = .paused := hat.position
    rw [hstate] at hruns
    cases hruns
  | waiting total time elapsed _ helapsed =>
    obtain ⟨htotal, hlt⟩ : total = timeWaited pjob.log ∧ total + time < blocking := hat.total
    have htime : time < blocking := by omega
    -- a timed wait only lowers the time that it is given
    have hleft : leftOf time remaining ≤ time := by
      rw [leftOf, if_neg (Nat.ne_of_lt htime)]
      exact Nat.min_le_right _ _
    have hexact : elapsed = time - leftOf time remaining := by
      rw [helapsed, uint64Sub_of_le hleft (Nat.le_of_lt htime)]
    have hsum : uint64Add total elapsed = total + elapsed :=
      uint64Add_of_le (by omega)
    refine ⟨⟨[.elapsed elapsed], rfl, fun x hx => ⟨elapsed, List.mem_singleton.mp hx⟩⟩, ?_, ?_,
      fun hruns => ?_⟩
    · rw [PeriodicJob.record, timeWaited_append, hsum, htotal]
      rfl
    · omega
    · have hstate : pjob.state = .waiting := hat.position
      rw [PeriodicJob.record, hstate] at hruns
      cases hruns

/-- A turn of the loop updates the state, and then may block. -/
theorem LoopTurn.log_eq {p p' : PeriodicJob} {t total : ℕ} {pc' : PeriodicPc}
    (h : LoopTurn p t total p' pc') :
    ∃ rest, p'.log = p.log ++ .updated p.state p'.state :: rest ∧
      ∀ x ∈ rest, ∃ time, x = .blocked time ∧
        ∀ n, time = some n → pc' = .runnerWaiting total n := by
  cases h with
  | shutdown q hq _ =>
    refine ⟨[], by rw [hq]; rfl, fun x hx => absurd hx List.not_mem_nil⟩
  | paused q hq _ =>
    refine ⟨[.blocked none], by rw [hq]; exact List.append_assoc _ _ _, fun x hx => ?_⟩
    exact ⟨none, List.mem_singleton.mp hx, fun n hn => nomatch hn⟩
  | waiting q time hq _ _ =>
    refine ⟨[.blocked (some time)], by rw [hq]; exact List.append_assoc _ _ _, fun x hx => ?_⟩
    refine ⟨some time, List.mem_singleton.mp hx, fun n hn => ?_⟩
    cases hn
    rfl
  | run q hq _ =>
    refine ⟨[], by rw [hq]; rfl, fun x hx => absurd hx List.not_mem_nil⟩

/-- A turn that waits, waits for what is left of the period. -/
theorem LoopTurn.time_eq {p p' : PeriodicJob} {t total total' time : ℕ}
    (h : LoopTurn p t total p' (.runnerWaiting total' time))
    (hfresh : p.state.runs = true → total = 0) :
    total' = total ∧ total < p.periodInMicroseconds.microseconds ∧
      time = p.periodInMicroseconds.microseconds - total := by
  cases h with
  | waiting q _ hq hstate htime =>
    have hnext : p.nextState total = .waiting := by
      rw [hq] at hstate
      exact hstate
    have hlt := PeriodicJob.lt_of_nextState_waiting hnext hfresh
    refine ⟨rfl, hlt, ?_⟩
    rw [htime, hq]
    exact uint64Sub_of_le (Nat.le_of_lt hlt) (Nat.le_of_lt p.periodInMicroseconds.lt)

theorem LoopTurn.totalAt {p p' : PeriodicJob} {t total : ℕ} {pc' : PeriodicPc}
    (h : LoopTurn p t total p' pc') (hwaited : timeWaited p'.log = total)
    (hfresh : p.state.runs = true → total = 0) : TotalAt p'.log pc' := by
  cases h with
  | shutdown q _ _ => exact trivial
  | paused q _ _ => exact hwaited.symm
  | waiting q time hq hstate htime =>
    have hturn : LoopTurn p t total _ _ := .waiting q time hq hstate htime
    obtain ⟨-, hlt, hleft⟩ := hturn.time_eq hfresh
    have hperiod := p.periodInMicroseconds.lt
    exact ⟨hwaited.symm, by omega⟩
  | run q _ _ => exact trivial

/-- A turn that begins with a right account adds what it should to the log. -/
theorem LoopTurn.accounted {pjob p p' : PeriodicJob} {t total : ℕ} {pc' : PeriodicPc}
    {log rest : List PeriodicJobEvent} (h : LoopTurn p t total p' pc')
    (hframe : p = { pjob with log := p.log }) (hwaited : timeWaited p'.log = total)
    (hfresh : p.state.runs = true → total = 0) (hlog : p.log = pjob.log ++ log)
    (helapsed : ∀ x ∈ log, ∃ time, x = .elapsed time)
    (hrest : p'.log = p.log ++ .updated p.state p'.state :: rest)
    (hblocked : ∀ x ∈ rest, ∃ time, x = .blocked time ∧
      ∀ n, time = some n → pc' = .runnerWaiting total n) :
    Accounted pjob p' (log ++ .updated p.state p'.state :: rest) := by
  have hperiod : p.periodInMicroseconds = pjob.periodInMicroseconds := by rw [hframe]
  have hevents : p.eventVector = pjob.eventVector := by rw [hframe]
  have hstate : p.state = pjob.state := by rw [hframe]
  have hnext : p'.state = p.nextState total := h.events.1
  refine ⟨by rw [hrest, hlog, List.append_assoc], fun time hmem => ?_, fun after hmem => ?_,
    fun hwaiting hrunning => ?_⟩
  · obtain hmem | hmem := List.mem_append.mp hmem
    · obtain ⟨_, hx⟩ := helapsed _ hmem
      cases hx
    · obtain hx | hmem := List.mem_cons.mp hmem
      · cases hx
      · obtain ⟨_, hx, hpc'⟩ := hblocked _ hmem
        cases hx
        -- the wait that begins is the one that the turn leaves the runner in
        rw [hpc' time rfl] at h
        obtain ⟨-, hlt, htime⟩ := h.time_eq hfresh
        have hpos : nonBlocking = 0 := rfl
        have hbound := p.periodInMicroseconds.lt
        rw [hwaited, ← hperiod]
        exact ⟨hlt, htime, by omega, by omega⟩
  · obtain hmem | hmem := List.mem_append.mp hmem
    · obtain ⟨_, hx⟩ := helapsed _ hmem
      cases hx
    · obtain hx | hmem := List.mem_cons.mp hmem
      · obtain ⟨hwaiting, rfl⟩ := PeriodicJobEvent.updated.inj hx
        rw [hnext, hwaited, ← hperiod, ← hevents]
        exact PeriodicJob.nextState_running_iff hwaiting.symm total
      · obtain ⟨_, hx, -⟩ := hblocked _ hmem
        cases hx
  · rw [hstate, hwaiting, hrunning]
    exact List.mem_append_right _ List.mem_cons_self

/-- A turn that begins with a right account leaves one. -/
theorem LoopTurn.account {pjob p p' : PeriodicJob} {t total : ℕ} {pc' : PeriodicPc}
    (h : LoopTurn p t total p' pc') (hframe : p = { pjob with log := p.log })
    (hbefore : AccountBefore pjob p total) :
    TotalAt p'.log pc' ∧ timeWaited p'.log < blocking ∧ ∃ log, Accounted pjob p' log := by
  obtain ⟨log, hlog, helapsed⟩ := hbefore.log_eq
  obtain ⟨rest, hrest, hblocked⟩ := h.log_eq
  have hwaited : timeWaited p'.log = total := by
    rw [hrest, hbefore.total_eq]
    refine timeWaited_append_of_quiet fun x hx n => ?_
    obtain rfl | hx := List.mem_cons.mp hx
    · rfl
    · obtain ⟨time, rfl, -⟩ := hblocked x hx
      rfl
  exact ⟨h.totalAt hwaited hbefore.fresh, hwaited ▸ hbefore.bounded, _,
    h.accounted hframe hwaited hbefore.fresh hlog helapsed hrest hblocked⟩

/-! ## The system -/

/-- A transition that neither waits nor updates adds nothing to account for. -/
theorem Accounted.of_quiet {pjob p' : PeriodicJob} {log : List PeriodicJobEvent}
    (hlog : p'.log = pjob.log ++ log) (hstate : p'.state = pjob.state)
    (hquiet : ∀ x ∈ log, (∀ time, x ≠ .blocked time) ∧ ∀ before after, x ≠ .updated before after) :
    Accounted pjob p' log where
  log_eq := hlog
  blocked time hmem := absurd rfl ((hquiet _ hmem).1 _)
  updated after hmem := absurd rfl ((hquiet _ hmem).2 _ _)
  started hwaiting hrunning := by
    rw [hstate, hwaiting] at hrunning
    cases hrunning

/-- What a transition of a client leaves to the runner. -/
structure LeavesAccount (pjob p' : PeriodicJob) : Prop where
  state_eq : p'.state = pjob.state
  log_eq : p'.log = pjob.log ∨ ∃ e, p'.log = pjob.log ++ [.sent e]

theorem LeavesAccount.timeWaited_eq {pjob p' : PeriodicJob} (h : LeavesAccount pjob p') :
    timeWaited p'.log = timeWaited pjob.log := by
  obtain hlog | ⟨e, hlog⟩ := h.log_eq
  · rw [hlog]
  · rw [hlog, timeWaited_append]
    rfl

theorem LeavesAccount.accounted {pjob p' : PeriodicJob} (h : LeavesAccount pjob p') :
    ∃ log, Accounted pjob p' log := by
  obtain hlog | ⟨e, hlog⟩ := h.log_eq
  · exact ⟨[], .of_quiet (hlog.trans (List.append_nil _).symm) h.state_eq
      fun x hx => absurd hx List.not_mem_nil⟩
  · refine ⟨_, .of_quiet hlog h.state_eq fun x hx => ?_⟩
    rw [List.mem_singleton.mp hx]
    exact ⟨nofun, nofun⟩

theorem LeavesAccount.accountAt {pjob p' : PeriodicJob} {pc : PeriodicPc}
    (h : LeavesAccount pjob p') (hat : AccountAt pjob pc) : AccountAt p' pc where
  position := h.state_eq ▸ hat.position
  total := by
    have htotal := hat.total
    cases pc <;> simp only [TotalAt, h.timeWaited_eq] at htotal ⊢ <;> exact htotal
  bounded := h.timeWaited_eq ▸ hat.bounded

theorem PeriodicJob.control_leavesAccount (pjob : PeriodicJob) (e : PeriodicJobControl) :
    LeavesAccount pjob (pjob.control e).1 := by
  obtain ⟨-, hcontrol⟩ | ⟨-, hcontrol⟩ := pjob.control_cases e
  · rw [hcontrol]
    exact ⟨rfl, .inl rfl⟩
  · rw [hcontrol]
    exact ⟨rfl, .inr ⟨e, rfl⟩⟩

/-- The runner keeps its account, and the clients leave it alone. -/
theorem PeriodicMove.account {pjob p' : PeriodicJob} {t remaining : ℕ} {pc pc' : PeriodicPc}
    (h : PeriodicMove pjob t remaining pc p' pc') :
    (pc.isRunner = true ∧ (AccountAt pjob pc → TotalAt p'.log pc' ∧
        timeWaited p'.log < blocking ∧ ∃ log, Accounted pjob p' log)) ∨
      (pc.isRunner = false ∧ LeavesAccount pjob p') := by
  cases h with
  | loop pc total p p' pc' hloop hturn =>
    exact .inl ⟨by cases hloop <;> rfl, fun hat => hturn.account hloop.frame (hloop.account hat)⟩
  | invoke =>
    refine .inl ⟨rfl, fun hat => ⟨trivial, ?_, [.invoked], .of_quiet rfl rfl fun x hx => ?_⟩⟩
    · rw [PeriodicJob.record, timeWaited_append]
      exact hat.bounded
    · rw [List.mem_singleton.mp hx]
      exact ⟨by rintro _ ⟨⟩, by rintro _ _ ⟨⟩⟩
  | ended =>
    -- the next call of `periodic_job_runner`'s inner loop starts from zero, and so does the account
    have hzero : timeWaited (pjob.record .ended).log = 0 := timeWaited_append _ _
    refine .inl ⟨rfl, fun _ => ⟨hzero, hzero ▸ by decide, [.ended],
      .of_quiet rfl rfl fun x hx => ?_⟩⟩
    rw [List.mem_singleton.mp hx]
    exact ⟨by rintro _ ⟨⟩, by rintro _ _ ⟨⟩⟩
  | call k => exact .inr ⟨rfl, rfl, .inl rfl⟩
  | send e res _ => exact .inr ⟨rfl, pjob.control_leavesAccount e⟩
  | updatePeriod n res _ =>
    obtain ⟨_, _, hframe, -⟩ := pjob.updatePeriod_frame n
    rw [hframe]
    exact .inr ⟨rfl, rfl, .inl rfl⟩
  | getPeriod => exact .inr ⟨rfl, rfl, .inl rfl⟩
  | stopPass pc k hat _ => exact .inr ⟨by cases hat <;> rfl, rfl, .inl rfl⟩
  | stopWait pc k hat _ => exact .inr ⟨by cases hat <;> rfl, rfl, .inl rfl⟩
  | delete => exact .inr ⟨rfl, pjob.control_leavesAccount .shutdown⟩

theorem account_serves : System.Serves periodicSystem PeriodicPc.isRunner AccountAt where
  start _ _ := rfl
  new hs := by
    obtain ⟨-, rfl⟩ := periodicStep_move hs
    exact fun q hq => absurd hq List.not_mem_nil
  step hs := by
    obtain ⟨hmove, -⟩ := periodicStep_move hs
    obtain ⟨hrunner, hrunner', hposition⟩ | ⟨hclient, hclient', -⟩ := hmove.runner
    · obtain ⟨-, haccount⟩ | ⟨hclient, -⟩ := hmove.account
      · refine .inl ⟨hrunner, hrunner', fun hat => ?_⟩
        obtain ⟨htotal, hbounded, -⟩ := haccount hat
        exact ⟨hposition hat.position, htotal, hbounded⟩
      · rw [hrunner] at hclient
        cases hclient
    · obtain ⟨hrunner, -⟩ | ⟨-, hleaves⟩ := hmove.account
      · rw [hclient] at hrunner
        cases hrunner
      · exact .inr ⟨hclient, hclient', fun q _ hat => hleaves.accountAt hat⟩
  wake hs q _ hat := by
    obtain ⟨_, _, rfl⟩ := periodicWake_frame hs
    exact ⟨hat.position, hat.total, hat.bounded⟩

/-- A transition adds what it should to the log. -/
theorem accounted_next {c c' : PeriodicConfig} {a : Act PeriodicJobCall ℕ}
    (hc : System.Sole PeriodicPc.isRunner AccountAt c) (h : periodicSystem.next c a = some c') :
    ∃ log, Accounted c.shared c'.shared log := by
  have hstay : Accounted c.shared c.shared [] :=
    .of_quiet (List.append_nil _).symm rfl fun x hx => absurd hx List.not_mem_nil
  refine System.Moves.stable (R := fun p => ∃ log, Accounted c.shared p log) h ?_ ?_ ⟨[], hstay⟩
  · intro t pc o p' pc' new hmoves hs _
    obtain ⟨hmove, -⟩ := periodicStep_move hs
    obtain ⟨hrunner, haccount⟩ | ⟨-, hleaves⟩ := hmove.account
    · obtain ⟨-, hpc⟩ := hmoves.of_start (fun _ => rfl) hrunner
      obtain rfl := hc.only t pc hpc hrunner
      exact (haccount (hc.holds hpc)).2.2
    · exact hleaves.accounted
  · intro t pc p' hw _
    obtain ⟨_, _, rfl⟩ := periodicWake_frame hw
    exact ⟨[], .of_quiet (List.append_nil _).symm rfl fun x hx => absurd hx List.not_mem_nil⟩

/-! ## The time waited for -/

/-- What the runner has made of its waits at `c`, and what the next transition makes of it. -/
structure PeriodAccounts (c : PeriodicConfig) : Prop where
  /-- `total_time_waited_for` is the sum of what the timed waits reported. -/
  total : ∀ t pc total, c.pc? t = some pc → pc.totalTimeWaitedFor? = some total →
    total = timeWaited c.shared.log
  /-- The sum fits `uint64_t`. -/
  bounded : timeWaited c.shared.log < blocking
  next : ∀ a c', periodicSystem.next c a = some c' → ∃ log, Accounted c.shared c'.shared log

/-- No time waited for is lost or counted twice, and no timed wait is for a time that
    underflowed. -/
theorem period_accounts {pjob : PeriodicJob} {periodicJobFunction : Ptr} {n : ℕ}
    {allocated threadError : Bool} {c : PeriodicConfig}
    (hnew : PeriodicJob.new periodicJobFunction n allocated threadError = some pjob)
    (h : PeriodicReach pjob c) : PeriodAccounts c := by
  have hpaused : pjob.state = .paused := (PeriodicJob.state_of_new hnew).1
  have hwaited : timeWaited pjob.log = 0 := by
    rw [(PeriodicJob.new_fresh hnew).2]
    rfl
  have hinit : System.Sole PeriodicPc.isRunner AccountAt (periodicInit pjob) :=
    ⟨(runnerInv_init hpaused).only, .runnerTop, rfl, rfl, .inl hpaused, hwaited,
      hwaited ▸ by decide⟩
  have hsole := account_serves.reach hinit h
  obtain ⟨pc₀, hpc₀, -, hat⟩ := hsole.first
  refine ⟨fun t pc total hpc htotal => ?_, hat.bounded, fun a c' hn => accounted_next hsole hn⟩
  have hrunner : pc.isRunner = true := by
    cases pc <;> first | rfl | cases htotal
  obtain rfl := hsole.only t pc hpc hrunner
  have haccount := (hsole.holds hpc).total
  cases pc with
  | runnerPaused n =>
    cases htotal
    exact haccount
  | runnerWaiting n time =>
    cases htotal
    exact haccount.1
  | _ => cases htotal

/-- The period is lowered below what the runner has waited for in a wait that ended early. -/
def partlyWaitedJob : PeriodicConfig :=
  periodicSystem.run (periodicInit tenMicroseconds)
    [.step 0 0, .call (.send .resume) 0, .step 1 0, .step 0 0, .step 0 0, .step 0 0, .step 0 0,
      .wake 0, .step 0 4, .call (.updatePeriod 5) 0, .step 2 0] (by decide)

theorem period_accounts_partlyWaitedJob :
    timeWaited partlyWaitedJob.shared.log = 6 ∧ PeriodAccounts partlyWaitedJob :=
  ⟨by decide, period_accounts (Option.some_get _).symm (.run _ _ _)⟩

end BoomPar
