-- SUMMARY: Pushers of an array-list queue under a fair scheduler: while poppers come none waits for ever for room.
import BoomPar.QueueAgreement
import BoomPar.QueueProgress

/-!
# Pushers get through

A pusher can stay blocked although there is room: a pop wakes one pusher, and a
queue that grows makes room for more. It does not stay so for ever. A queue whose
limit is not 0 is left with an element by whoever pushes or waits to push, and the
pop of that element wakes the next pusher.
-/

namespace BoomPar

open Monitor

variable {α : Type*}

/-- A client does not set the limit 0, at which nothing can be pushed. -/
def QueuePc.setsRoom : QueuePc α → Bool
  | .called (.updateMaxCapacity n) => decide (0 < n)
  | _ => true

/-- A push that waits for room without a timeout. -/
def QueuePc.waitsForEver : QueuePc α → Bool
  | .fullWait _ timeout => timeout == blocking
  | _ => false

/-- The environment gives a push the room that it asks for, and no error to a wait
    without a timeout; a client leaves some room. -/
def QueueState.cooperates (s : QueueState α) (pc : QueuePc α) (o : Outcome) : Bool :=
  match s.queue with
  | .linkedlist _ => true
  | .arraylist sq =>
    (!(pc.pushes && sq.isFull && !sq.atLimit) || decide (sq.qp.capacity < o.capacity.getD 0)) &&
      !(pc.waitsForEver && o.waitError) && pc.setsRoom

/-- What the environment and the clients owe an array list. -/
structure SyncQueue.Cooperates (sq : SyncQueue α) (pc : QueuePc α) (o : Outcome) : Prop where
  grows : pc.pushes = true → sq.isFull = true → sq.atLimit = false →
    sq.qp.capacity < o.capacity.getD 0
  waits : pc.waitsForEver = true → o.waitError = false
  sets : pc.setsRoom = true

theorem QueueState.cooperates_iff {s : QueueState α} {sq : SyncQueue α}
    (hsq : s.queue = .arraylist sq) {pc : QueuePc α} {o : Outcome} :
    s.cooperates pc o = true ↔ sq.Cooperates pc o := by
  rw [cooperates, hsq]
  simp only [Bool.and_eq_true, Bool.or_eq_true, Bool.not_eq_true', decide_eq_true_iff]
  constructor
  · rintro ⟨⟨hgrows, hwaits⟩, hsets⟩
    refine ⟨fun hpushes hfull hlimit => hgrows.resolve_left ?_, fun hever => ?_, hsets⟩
    · simp [hpushes, hfull, hlimit]
    · simpa [hever] using hwaits
  · rintro ⟨hgrows, hwaits, hsets⟩
    refine ⟨⟨?_, ?_⟩, hsets⟩
    · cases hpushes : pc.pushes <;> cases hfull : sq.isFull <;> cases hlimit : sq.atLimit <;> simp
      exact hgrows hpushes hfull hlimit
    · cases hever : pc.waitsForEver <;> simp
      exact hwaits hever

/-- The queue is an array list with a limit other than 0. -/
def QueueState.HasRoom (s : QueueState α) : Prop :=
  ∃ sq, s.queue = .arraylist sq ∧ 0 < sq.maxCapacity

theorem SyncQueue.contents_ne_nil_of_atLimit {sq : SyncQueue α} (hmax : 0 < sq.maxCapacity)
    (h : sq.atLimit = true) : sq.qp.contents ≠ [] := by
  obtain ⟨hfull, hlimit⟩ := atLimit_iff.mp h
  intro hnil
  rw [hnil, List.length_nil] at hfull
  rw [← hfull] at hlimit
  exact absurd hmax (not_lt.mpr hlimit)

/-- Below the limit there is room, or the list grows. -/
theorem SyncQueue.pushAfterWait_of_room {sq : SyncQueue α} (hopen : sq.isClosed = false)
    (hlimit : sq.atLimit = false) (d : α) {o : Outcome}
    (hgrow : sq.isFull = true → sq.atLimit = false → sq.qp.capacity < o.capacity.getD 0) :
    (sq.pushAfterWait d o).2 = true := by
  rw [← Bool.not_eq_false, pushAfterWait_fails_iff hopen d fun hfull => hgrow hfull hlimit, hlimit]
  exact Bool.false_ne_true

/-- A push leaves the queue closed, or with elements. -/
theorem SyncQueue.push_leaves (sq : SyncQueue α) (hmax : 0 < sq.maxCapacity) (t : ℕ) (d : α)
    (timeout : ℕ) (waitError : Bool) {o : Outcome}
    (hgrow : sq.isFull = true → sq.atLimit = false → sq.qp.capacity < o.capacity.getD 0) :
    (sq.push t d timeout waitError o).1.isClosed = true ∨
      (sq.push t d timeout waitError o).1.qp.contents ≠ [] := by
  unfold SyncQueue.push
  split
  · rename_i hwait
    rw [pushMustWait_eq, Bool.and_eq_true] at hwait
    exact .inr (contents_ne_nil_of_atLimit hmax hwait.1.2)
  · cases hclosed : sq.isClosed with
    | true => exact .inl ((sq.pushAfterWait_isClosed d o).trans hclosed)
    | false =>
      right
      cases hlimit : sq.atLimit with
      | true =>
        rw [pushAfterWait_of_atLimit hlimit]
        exact contents_ne_nil_of_atLimit hmax hlimit
      | false =>
        have hpushed := pushAfterWait_of_room hclosed hlimit d hgrow
        have hcontents := (sq.pushAfterWait_channel t d o).contents_eq
        rw [hpushed, if_pos rfl, channel_contents] at hcontents
        rw [hcontents]
        exact List.concat_ne_nil d _

/-- A push without a timeout, into an open queue, waits or succeeds. -/
theorem SyncQueue.push_blocking (sq : SyncQueue α) (hopen : sq.isClosed = false) (t : ℕ) (d : α)
    {o : Outcome}
    (hgrow : sq.isFull = true → sq.atLimit = false → sq.qp.capacity < o.capacity.getD 0) :
    (sq.push t d blocking false o).2 = none ∨ (sq.push t d blocking false o).2 = some true := by
  unfold SyncQueue.push
  split
  · exact .inl rfl
  · rename_i hgo
    right
    refine congrArg some (pushAfterWait_of_room hopen ?_ d hgrow)
    rw [← Bool.not_eq_true]
    intro hlimit
    refine hgo ⟨?_, rfl, by decide⟩
    rw [pushMustWait_eq, hopen, hlimit]
    rfl

theorem LimitMove.limit_pos {sq sq' : SyncQueue α} {t : ℕ} {o : Outcome} {pc : QueuePc α}
    (h : LimitMove sq t o pc sq') (hmax : 0 < sq.maxCapacity) (hset : pc.setsRoom = true) :
    0 < sq'.maxCapacity := by
  cases h with
  | push d timeout => rwa [SyncQueue.push_maxCapacity]
  | pushResume d timeout _ => rwa [SyncQueue.pushResume, SyncQueue.push_maxCapacity]
  | pop timeout => rwa [SyncQueue.pop_maxCapacity]
  | popResume timeout => rwa [SyncQueue.popResume, SyncQueue.pop_maxCapacity]
  | updateMaxCapacity n => exact of_decide_eq_true hset
  | _ => exact hmax

section

variable [DecidableEq α] {s s' : QueueState α} {t : ℕ} {pc pc' : QueuePc α}
  {new : List (QueuePc α)} {o : Outcome}

theorem queueStep_hasRoom (h : queueStep s t pc o = some (s', pc', new)) (hs : s.HasRoom)
    (hco : s.cooperates pc o = true) : s'.HasRoom := by
  obtain ⟨sq, hsq, hmax⟩ := hs
  obtain ⟨sq', hsq', hmove⟩ := queueStep_arraylist hsq h
  exact ⟨sq', hsq', hmove.limit_pos hmax ((QueueState.cooperates_iff hsq).mp hco).sets⟩

omit [DecidableEq α] in
theorem queueWake_hasRoom (h : queueWake s t pc = some s') (hs : s.HasRoom) : s'.HasRoom := by
  obtain ⟨sq, hsq, hmax⟩ := hs
  obtain rfl | rfl := queueWake_cases h
  · refine ⟨{ sq with qFullWait := sq.qFullWait.erase t }, ?_, hmax⟩
    simp only [hsq, JobQueue.wakeFull]
  · refine ⟨{ sq with qEmptyWait := sq.qEmptyWait.erase t }, ?_, hmax⟩
    simp only [hsq, JobQueue.wakeEmpty]

/-- Only a pusher comes to wait for room. -/
theorem queueStep_pushes (h : queueStep s t pc o = some (s', pc', new))
    (hwaits : pc.waitsForRoom = true ∨ pc'.waitsForRoom = true) : pc.pushes = true := by
  rcases hwaits with hwaits | hwaits
  · cases pc with
    | fullWait d timeout => rfl
    | _ => cases hwaits
  · cases (queueStep_cases h).2 with
    | push d timeout q r _ => rfl
    | pushResume d timeout q r _ _ => rfl
    | pop timeout q r _ => cases r <;> cases hwaits
    | popResume timeout q r _ _ => cases r <;> cases hwaits
    | _ => cases hwaits

/-- A pusher leaves the queue closed, or with elements. -/
theorem queueStep_leaves (h : queueStep s t pc o = some (s', pc', new)) (hs : s.HasRoom)
    (hco : s.cooperates pc o = true) (hpushes : pc.pushes = true) :
    s'.closed = true ∨ s'.contents ≠ [] := by
  obtain ⟨sq, hsq, hmax⟩ := hs
  have hgrow := ((QueueState.cooperates_iff hsq).mp hco).grows hpushes
  have hpush : ∀ {d : α} {timeout : ℕ} {r : SyncQueue α × Option Bool},
      (s.afterPush d timeout (.arraylist r.1, r.2)).1 = s' →
      (r.1.isClosed = true ∨ r.1.qp.contents ≠ []) → s'.closed = true ∨ s'.contents ≠ [] := by
    rintro d timeout r rfl hleaves
    rw [QueueState.closed, QueueState.contents, afterPush_queue]
    exact hleaves
  cases pc with
  | called k =>
    cases k with
    | push d timeout =>
      simp only [queueStep, hsq, Option.some.injEq] at h
      exact hpush (congrArg Prod.fst h) (sq.push_leaves hmax t d timeout false hgrow)
    | _ => cases hpushes
  | fullWait d timeout =>
    simp only [queueStep, hsq, Option.ite_none_left_eq_some, Option.some.injEq] at h
    exact hpush (congrArg Prod.fst h.2)
      (SyncQueue.push_leaves { sq with qFullWaitThreadCount := sq.qFullWaitThreadCount - 1 }
        hmax t d (leftOf timeout o.remaining) o.waitError hgrow)
  | _ => cases hpushes

/-- A push of `d` without a timeout is under way. -/
def QueuePc.PushesForEver (d : α) : QueuePc α → Prop
  | .called (.push e timeout) => e = d ∧ timeout = blocking
  | .fullWait e timeout => e = d ∧ timeout = blocking
  | _ => False

/-- It goes on waiting, or it returns, and returns 0 only from a closed queue. -/
theorem queueStep_pushesForEver {d : α} (h : queueStep s t pc o = some (s', pc', new))
    (hs : s.HasRoom) (hco : s.cooperates pc o = true) (hpc : pc.PushesForEver d) :
    pc' = .fullWait d blocking ∨ ∃ isPushed,
      pc' = .returned (.push d blocking) (.pushed isPushed) ∧
        (isPushed = false → s.closed = true) := by
  obtain ⟨sq, hsq, -⟩ := hs
  have howes := (QueueState.cooperates_iff hsq).mp hco
  have hpush : ∀ {r : SyncQueue α × Option Bool},
      s.afterPush d blocking (.arraylist r.1, r.2) = (s', pc', new) →
      (sq.isClosed = false → r.2 = none ∨ r.2 = some true) →
      pc' = .fullWait d blocking ∨ ∃ isPushed,
        pc' = .returned (.push d blocking) (.pushed isPushed) ∧
          (isPushed = false → s.closed = true) := by
    rintro ⟨q', _ | isPushed⟩ heq hopen
    · cases heq
      exact .inl rfl
    · cases heq
      refine .inr ⟨isPushed, rfl, ?_⟩
      rintro rfl
      rw [QueueState.closed, hsq]
      by_contra hnot
      rcases hopen (Bool.eq_false_iff.mpr hnot) with hnone | htrue
      · cases hnone
      · cases htrue
  cases pc with
  | called k =>
    cases k with
    | push e timeout =>
      obtain ⟨rfl, rfl⟩ := hpc
      simp only [queueStep, hsq, Option.some.injEq] at h
      exact hpush h fun hopen => sq.push_blocking hopen t e (howes.grows rfl)
    | _ => cases hpc
  | fullWait e timeout =>
    obtain ⟨rfl, rfl⟩ := hpc
    simp only [queueStep, hsq, Option.ite_none_left_eq_some, Option.some.injEq, JobQueue.pushResume,
      SyncQueue.pushResume, leftOf_blocking, howes.waits (beq_self_eq_true _)] at h
    exact hpush h.2 fun hopen =>
      SyncQueue.push_blocking { sq with qFullWaitThreadCount := sq.qFullWaitThreadCount - 1 }
        hopen t e (howes.grows rfl)
  | _ => cases hpc

/-- A queue without a limit keeps no push waiting. -/
theorem queueStep_unbounded (h : queueStep s t pc o = some (s', pc', new))
    (htop : s.queue.getMaxCapacity = ⊤) : pc'.waitsForRoom = false := by
  have hpush : ∀ {q : JobQueue α} (d : α) (timeout : ℕ) (waitError : Bool),
      q.getMaxCapacity = ⊤ → (q.push t d timeout waitError o).2 ≠ none := by
    intro q d timeout waitError htop
    cases q with
    | linkedlist lsq => exact Option.some_ne_none _
    | arraylist sq =>
      simp [JobQueue.push, SyncQueue.push, SyncQueue.pushMustWait_of_unbounded htop]
  have hafter : ∀ {d : α} {timeout : ℕ} {r : JobQueue α × Option Bool},
      s.afterPush d timeout r = (s', pc', new) → r.2 ≠ none → pc'.waitsForRoom = false := by
    rintro d timeout ⟨q, _ | isPushed⟩ heq hsome
    · exact absurd rfl hsome
    · cases heq
      rfl
  have hpop : ∀ {timeout : ℕ} {r : JobQueue α × Option (Option α)},
      s.afterPop timeout r = (s', pc', new) → pc'.waitsForRoom = false := by
    rintro timeout ⟨q, _ | d⟩ heq
    · cases heq
      rfl
    · cases heq
      rfl
  cases pc with
  | called k =>
    cases k with
    | push d timeout => exact hafter (Option.some.inj h) (hpush d timeout false htop)
    | pop timeout => exact hpop (Option.some.inj h)
    | _ => cases h; rfl
  | fullWait d timeout =>
    simp only [queueStep, Option.ite_none_left_eq_some, Option.some.injEq] at h
    refine hafter h.2 ?_
    cases hq : s.queue with
    | linkedlist lsq => exact Option.some_ne_none _
    | arraylist sq =>
      rw [hq] at htop
      exact hpush (q := .arraylist { sq with qFullWaitThreadCount := sq.qFullWaitThreadCount - 1 })
        d _ _ htop
  | emptyWait timeout =>
    simp only [queueStep, Option.ite_none_left_eq_some, Option.some.injEq] at h
    exact hpop h.2
  | returned k r => cases h

end

/-! ## Runs -/

section

variable [DecidableEq α]

/-- The environment and the clients cooperate in a transition. -/
def Cooperates (c : QueueConfig α) (a : Act (QueueCall α) Outcome) : Prop :=
  ((queueSystem α).runs? c a).all (fun r => c.shared.cooperates r.1 r.2) = true

instance (c : QueueConfig α) (a : Act (QueueCall α) Outcome) : Decidable (Cooperates c a) :=
  inferInstanceAs (Decidable (_ = _))

/-- A run for ever of the threads on an array-list queue, with cooperation. -/
abbrev CooperativeRun (α : Type*) [DecidableEq α] (maxCapacity : WithTop ℕ) :=
  System.FairRun (queueSystem α) Cooperates (queueInit (.arraylist (.init maxCapacity)))

omit [DecidableEq α] in
/-- A growth by one, and no error, is cooperation. -/
theorem QueueState.cooperates_exists (s : QueueState α) {pc : QueuePc α}
    (hsets : pc.setsRoom = true) : ∃ o, s.cooperates pc o = true := by
  cases hq : s.queue with
  | linkedlist lsq => exact ⟨.resize 1, by rw [cooperates, hq]⟩
  | arraylist sq =>
    exact ⟨.resize (sq.qp.capacity + 1), (cooperates_iff hq).mpr
      ⟨fun _ _ _ => Nat.lt_succ_self _, fun _ => rfl, hsets⟩⟩

theorem cooperates_step {c : QueueConfig α} {t : ℕ} {pc : QueuePc α} (hpc : c.pc? t = some pc)
    (hsets : pc.setsRoom = true) : ∃ o, Cooperates c (.step t o) := by
  obtain ⟨o, ho⟩ := c.shared.cooperates_exists hsets
  refine ⟨o, ?_⟩
  rw [Cooperates, System.runs?, hpc]
  exact ho

theorem Cooperates.of_moves {c : QueueConfig α} {a : Act (QueueCall α) Outcome} {t : ℕ}
    {pc : QueuePc α} {o : Outcome} (h : Cooperates c a)
    (hmoves : System.Moves (queueSystem α) c a t pc o) : c.shared.cooperates pc o = true := by
  rcases hmoves with ⟨rfl, hpc⟩ | ⟨k, rfl, rfl⟩
  · rwa [Cooperates, System.runs?, hpc] at h
  · exact h

theorem hasRoom_reach {maxCapacity : WithTop ℕ} (hmax : 0 < maxCapacity) {c : QueueConfig α}
    (h : (queueSystem α).Reach Cooperates (queueInit (.arraylist (.init maxCapacity))) c) :
    c.shared.HasRoom := by
  refine h.invariant (P := fun c => c.shared.HasRoom) ⟨_, rfl, hmax⟩ ?_
  intro c a c' _ hc hco hn
  exact System.Moves.stable hn (fun hmoves hs hc => queueStep_hasRoom hs hc (hco.of_moves hmoves))
    queueWake_hasRoom hc

theorem poppers_cooperate : PoppersMayStep (Cooperates : QueueConfig α → _ → Prop) :=
  fun hpc => cooperates_step hpc rfl

/-- A pusher that is woken can step. -/
theorem pusher_canStep {c : QueueConfig α} {t : ℕ} {pc : QueuePc α} (hpc : c.pc? t = some pc)
    (hwaits : pc.waitsForRoom = true) (hwoken : t ∉ c.shared.fullWait) :
    System.CanStep (queueSystem α) Cooperates c t := by
  cases pc with
  | fullWait d timeout =>
    obtain ⟨o, ho⟩ := cooperates_step hpc rfl
    have hgoes : c.shared.rests t (.fullWait d timeout) = false := decide_eq_false hwoken
    exact .of_isSome hpc ho (queueStep_isSome hgoes)
  | _ => cases hwaits

theorem queue_sends {maxCapacity : WithTop ℕ} (hmax : 0 < maxCapacity) :
    Channel.Sends (queueSystem α) Cooperates (queueInit (.arraylist (.init maxCapacity)))
      (fun s => s.queue.channel) QueuePc.waitsForRoom where
  init := Channel.sendersAwake_empty
  room hreach hco hmoves hs hwaits :=
    queueStep_leaves hs (hasRoom_reach hmax hreach) (hco.of_moves hmoves)
      (queueStep_pushes hs hwaits)
  can _ := pusher_canStep

/-- A closed queue keeps no pusher. -/
theorem pusher_stops_of_closed {maxCapacity : WithTop ℕ} (r : CooperativeRun α maxCapacity) {n : ℕ}
    (hclosed : (r.config n).shared.closed = true) (t : ℕ) :
    ∃ m, n ≤ m ∧ ¬∃ pc, (r.config m).pc? t = some pc ∧ pc.waitsForRoom = true := by
  by_contra hnever
  have hwaits : ∀ m, n ≤ m → ∃ pc, (r.config m).pc? t = some pc ∧ pc.waitsForRoom = true :=
    fun m hnm => by_contra fun hnot => hnever ⟨m, hnm, hnot⟩
  have hstays : ∀ m, n ≤ m → (r.config m).shared.closed = true := fun m hnm =>
    r.stable (P := fun c => c.shared.closed = true) (fun _ hc _ hn => closed_next hc hn)
      hclosed hnm
  obtain ⟨m, hnm, o, hact⟩ := r.fair t n fun m hnm => by
    obtain ⟨pc, hpc, hwaitsm⟩ := hwaits m hnm
    refine pusher_canStep hpc hwaitsm ?_
    have hreceived := queue_received (.arraylist maxCapacity) (poppers_cooperate (α := α))
    rw [QueueState.fullWait, (hreceived.sound (r.reach m)).awake.closed_full (hstays m hnm)]
    exact Finset.notMem_empty t
  obtain ⟨pc, s, pc', new, hpc, hs, hmove⟩ := System.stepAt_cases (r.move hact).2
  obtain ⟨q, hq, hwaitsm⟩ := hwaits (m + 1) (hnm.trans (Nat.le_succ m))
  rw [hmove, Config.pc?_move_self hpc] at hq
  cases hq
  obtain ⟨k, res, rfl⟩ := QueuePc.eq_returned ((queueStep_cases hs).2.returns (hstays m hnm))
  cases hwaitsm

/-- No pusher waits for ever for room. -/
theorem pusher_stops {maxCapacity : WithTop ℕ} (hmax : 0 < maxCapacity)
    (r : CooperativeRun α maxCapacity) (hcomes : ∀ n, ∃ m, n ≤ m ∧ PopperComes r m) {N : ℕ}
    (hbound : ∀ m, (r.config m).shared.pushed.length ≤ N) (n t : ℕ) :
    ∃ m, n ≤ m ∧ ¬∃ pc, (r.config m).pc? t = some pc ∧ pc.waitsForRoom = true := by
  have hq : (JobQueue.arraylist (.init maxCapacity) : JobQueue α).Fresh := .arraylist maxCapacity
  by_cases hopen : ∀ m, n ≤ m → (r.config m).shared.closed = false
  · have hreceived := queue_received hq (poppers_cooperate (α := α))
    refine hreceived.senders_pass (queue_sends hmax) r ?_ hopen (N := N) ?_ t
    · exact fun n => (hcomes n).imp fun m hm => ⟨hm.1, hm.2.receiverComes⟩
    · exact fun m => (queue_sent hq r m).le.trans (hbound m)
  · obtain ⟨l, hnl, hclosed⟩ : ∃ l, n ≤ l ∧ (r.config l).shared.closed = true := by
      simpa only [not_forall, exists_prop, Bool.not_eq_false] using hopen
    exact (pusher_stops_of_closed r hclosed t).imp fun m hm => ⟨hnl.trans hm.1, hm.2⟩

/-- A push of `d` without a timeout waits, or it returned, 0 only from a closed queue. -/
def PushSettles (d : α) (t : ℕ) (c : QueueConfig α) : Prop :=
  c.pc? t = some (.fullWait d blocking) ∨ ∃ isPushed,
    c.pc? t = some (.returned (.push d blocking) (.pushed isPushed)) ∧
      (isPushed = false → c.shared.closed = true)

theorem PushSettles.next {maxCapacity : WithTop ℕ} (hmax : 0 < maxCapacity) {d : α} {t : ℕ}
    {c c' : QueueConfig α} {a : Act (QueueCall α) Outcome}
    (hreach : (queueSystem α).Reach Cooperates (queueInit (.arraylist (.init maxCapacity))) c)
    (hc : PushSettles d t c) (hco : Cooperates c a) (h : (queueSystem α).next c a = some c') :
    PushSettles d t c' := by
  rcases hc with hpc | ⟨isPushed, hpc, hclosed⟩
  · by_cases ha : ∃ o, a = .step t o
    · obtain ⟨o, rfl⟩ := ha
      obtain ⟨pc, s, pc', new, hpc₁, hs, rfl⟩ := System.stepAt_cases h
      rw [hpc] at hpc₁
      cases hpc₁
      have hstep : queueStep c.shared t (.fullWait d blocking) o = some (s, pc', new) := hs
      have hself := Config.pc?_move_self hpc s pc' new
      rcases queueStep_pushesForEver hstep (hasRoom_reach hmax hreach)
        (hco.of_moves (.inl ⟨rfl, hpc⟩)) ⟨rfl, rfl⟩ with rfl | ⟨isPushed, rfl, hrefused⟩
      · exact .inl hself
      · exact .inr ⟨isPushed, hself, fun hfalse => closed_next (hrefused hfalse) h⟩
    · exact .inl (System.next_other h hpc fun o ho => ha ⟨o, ho⟩).1
  · exact .inr ⟨isPushed, System.next_pc?_of_stuck h (fun _ _ => rfl) hpc,
      fun hfalse => closed_next (hclosed hfalse) h⟩

/-- In every fair run of the threads on an array-list queue with a limit other than 0,
    in which poppers come again and again and pushes do not succeed for ever, every
    push that waits without a timeout returns, and it returns 0 only if the queue is
    closed. -/
theorem blocked_pushers_return {maxCapacity : WithTop ℕ} (hmax : 0 < maxCapacity)
    (r : CooperativeRun α maxCapacity) (hcomes : ∀ n, ∃ m, n ≤ m ∧ PopperComes r m) {N : ℕ}
    (hbound : ∀ m, (r.config m).shared.pushed.length ≤ N) {n t : ℕ} {d : α}
    (hpc : (r.config n).pc? t = some (.fullWait d blocking)) :
    ∃ m, n ≤ m ∧ ∃ isPushed,
      (r.config m).pc? t = some (.returned (.push d blocking) (.pushed isPushed)) ∧
        (isPushed = false → (r.config m).shared.closed = true) := by
  obtain ⟨m, hnm, hstops⟩ := pusher_stops hmax r hcomes hbound n t
  have hsettles : PushSettles d t (r.config m) :=
    r.stable (P := PushSettles d t) (fun hreach hc hco hn => hc.next hmax hreach hco hn)
      (.inl hpc) hnm
  rcases hsettles with hwaits | hreturned
  · exact absurd ⟨_, hwaits, rfl⟩ hstops
  · exact ⟨m, hnm, hreturned⟩

end

/-- A pusher that resumes makes more room than it uses, and leaves another one blocked
    behind it until the next pop. -/
def strandedPusherRun : CooperativeRun ℕ 1 :=
  .ofCheck _
    [.call (.push 7 blocking) (.resize 1), .call (.push 8 blocking) (.resize 1),
      .call (.push 9 blocking) (.resize 1), .call (.pop blocking) ⟨1, false, blocking, some 0⟩,
      .step 1 (.resize 4), .call (.pop blocking) (.resize 4), .step 2 (.resize 4),
      .call (.pop blocking) (.resize 4), .call (.pop blocking) (.resize 4)]
    (by decide) (System.not_canStep QueueState.rests queueStep_eq_none (by decide))

theorem blocked_pushers_return_strandedPusherRun :
    ∃ m, 5 ≤ m ∧ ∃ isPushed, (strandedPusherRun.config m).pc? 2 =
        some (.returned (.push 9 blocking) (.pushed isPushed)) ∧
      (isPushed = false → (strandedPusherRun.config m).shared.closed = true) := by
  have hlast : ∀ m, strandedPusherRun.config (max m 9) = strandedPusherRun.config 9 := by
    intro m
    rw [strandedPusherRun, System.FairRun.ofCheck_config (le_max_right m 9),
      System.FairRun.ofCheck_config (le_refl 9)]
  refine blocked_pushers_return (N := 3) (by decide) strandedPusherRun (fun n => ?_) (fun m => ?_)
    (by decide)
  · refine ⟨max n 9, le_max_left _ _, .inl ⟨6, blocking, ?_⟩⟩
    rw [hlast]
    decide
  · have hle := (pushed_stays strandedPusherRun (le_max_left m 9)).length_le
    rw [hlast] at hle
    exact hle.trans (by decide)

end BoomPar
