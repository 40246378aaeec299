-- SUMMARY: Completion queues under a fair scheduler: every completed promise is popped as long as poppers come.
import BoomPar.CompletionQueue
import BoomPar.QueueService

/-!
# Every completion is popped

Between the completion of a promise and its pop lie the callback of the thread that
completed it, which may have to wait for room, and the elements queued before it. The
queue is one that only a shortage of room keeps waiting: an unbounded one, or one
that is not pushed to for ever. In a fair run the callbacks return, those that push to
a queue once their push does.
-/

namespace BoomPar

open Monitor

/-! ## Cooperation -/

section

variable (callbacks : ℕ → PushCallback)

/-- The environment and the clients cooperate with the queue that a transition is on. -/
def CompletionCooperates (c : CompletionConfig) (a : Act CompletionCall Outcome) : Prop :=
  ((completionSystem callbacks).runs? c a).all (fun r =>
    (r.1.enters? callbacks).all fun u => (c.shared.queues u.1).cooperates u.2 r.2) = true

instance (c : CompletionConfig) (a : Act CompletionCall Outcome) :
    Decidable (CompletionCooperates callbacks c a) :=
  inferInstanceAs (Decidable (_ = _))

/-- A run for ever of the clients of the promises and the queues, with cooperation. -/
abbrev CompletionRun (maxCapacity : ℕ → WithTop ℕ) :=
  System.FairRun (completionSystem callbacks) (CompletionCooperates callbacks)
    (completionInit maxCapacity)

end

section

variable {callbacks : ℕ → PushCallback} {c : CompletionConfig} {t sq : ℕ} {pc : CompletionPc}
  {qpc : QueuePc ℕ}

theorem CompletionCooperates.of_moves {a : Act CompletionCall Outcome} {o : Outcome}
    (h : CompletionCooperates callbacks c a)
    (hmoves : System.Moves (completionSystem callbacks) c a t pc o)
    (henters : pc.enters? callbacks = some (sq, qpc)) :
    (c.shared.queues sq).cooperates qpc o = true := by
  have hruns : (completionSystem callbacks).runs? c a = some (pc, o) := by
    rcases hmoves with ⟨rfl, hpc⟩ | ⟨k, rfl, rfl⟩
    · rw [System.runs?, hpc]
      rfl
    · rfl
  rw [CompletionCooperates, hruns] at h
  simpa [henters] using h

/-- A thread has returned, or is blocked. -/
def CompletionState.rests (s : CompletionState) (t : ℕ) : CompletionPc → Bool
  | .promise p .getWaiting => decide (t ∈ (s.promises p).promise.promiseWait)
  | .promise _ (.returned _) => true
  | .promise _ _ => false
  | .callback _ sq _ pc => (s.queues sq).rests t pc
  | .queue sq pc => (s.queues sq).rests t pc

theorem completionStep_eq_none {s : CompletionState} {o : Outcome} (h : s.rests t pc = true) :
    completionStep callbacks s t pc o = none := by
  have hqueue : ∀ {sq : ℕ} {qpc : QueuePc ℕ} {place : QueuePc ℕ → CompletionPc},
      (s.queues sq).rests t qpc = true →
      (queueStep (s.queues sq) t qpc o).map (s.afterQueue sq place) = none := by
    intro sq qpc place hrests
    rw [queueStep_eq_none hrests]
    rfl
  cases pc with
  | promise p ppc =>
    cases ppc with
    | getWaiting =>
      have hblocked : t ∈ (s.promises p).promise.promiseWait := of_decide_eq_true h
      simp [completionStep, promiseStep, hblocked]
    | returned r => rfl
    | _ => cases h
  | callback p sq r qpc => exact hqueue h
  | queue sq qpc => exact hqueue h

/-- A thread can enter a queue at a control state that does not rest. -/
theorem completion_canStep (hpc : c.pc? t = some pc)
    (henters : pc.enters? callbacks = some (sq, qpc))
    (hgoes : (c.shared.queues sq).rests t qpc = false) (hsets : qpc.setsRoom = true) :
    System.CanStep (completionSystem callbacks) (CompletionCooperates callbacks) c t := by
  obtain ⟨o, ho⟩ := (c.shared.queues sq).cooperates_exists hsets
  have hstep : (queueStep (c.shared.queues sq) t qpc o).isSome = true := queueStep_isSome hgoes
  refine .of_isSome (o := o) hpc ?_ ?_
  · rw [CompletionCooperates, System.runs?, hpc]
    simpa [henters] using ho
  · cases pc with
    | promise p ppc =>
      cases ppc with
      | callback pcc r =>
        cases henters
        simpa [completionSystem, completionStep,
          pushToSyncQueueOnPromiseCompletionCallbackFunction] using hstep
      | _ => cases henters
    | callback p sq' r qpc' =>
      cases henters
      simpa [completionSystem, completionStep] using hstep
    | queue sq' qpc' =>
      cases henters
      simpa [completionSystem, completionStep] using hstep

theorem CompletionPc.enters_of_on (hon : pc.on? sq = some qpc) :
    pc.enters? callbacks = some (sq, qpc) := by
  cases pc with
  | promise p ppc => cases hon
  | callback p sq' r qpc' =>
    obtain ⟨rfl, hqpc⟩ := Option.ite_none_right_eq_some.mp hon
    cases hqpc
    rfl
  | queue sq' qpc' =>
    obtain ⟨rfl, hqpc⟩ := Option.ite_none_right_eq_some.mp hon
    cases hqpc
    rfl

end

/-! ## A queue as a channel of all threads -/

/-- The thread waits for an element of queue `sq`. -/
def CompletionPc.waitsForElement (sq : ℕ) (pc : CompletionPc) : Bool :=
  (pc.on? sq).any QueuePc.waitsForElement

/-- The thread waits for room in queue `sq`. -/
def CompletionPc.waitsForRoom (sq : ℕ) (pc : CompletionPc) : Bool :=
  (pc.on? sq).any QueuePc.waitsForRoom

theorem completion_uses (callbacks : ℕ → PushCallback) (sq : ℕ) :
    Channel.Uses (completionSystem callbacks) (fun s => (s.queues sq).queue.channel)
      (CompletionPc.waitsForElement sq) (CompletionPc.waitsForRoom sq) where
  start t k := by
    have hstart : (completionSystem callbacks).start t k = k.start := rfl
    rw [hstart, CompletionPc.waitsForElement, CompletionPc.waitsForRoom]
    obtain hnone | ⟨k', hcalled⟩ := k.start_on sq
    · rw [hnone]
      exact ⟨rfl, rfl⟩
    · rw [hcalled]
      exact ⟨rfl, rfl⟩
  step {s t pc o s' pc' new} hs := by
    simp only [CompletionPc.waitsForElement, CompletionPc.waitsForRoom]
    rcases completionStep_queue hs sq with ⟨hsame, hpc, hpc'⟩ | ⟨qpc, qpc', hq, -, hpc', hpc⟩
    · rw [hsame, hpc, hpc']
      exact .idle
    · have hmove := (queueStep_cases hq).2.channel
      rw [hpc']
      rcases hpc with hpc | ⟨hpc, p, rfl⟩
      · rw [hpc]
        exact hmove
      · rw [hpc]
        exact hmove
  new hs pc hpc := by
    rw [(completionStep_move hs).2] at hpc
    cases hpc
  wake {s t pc s'} hs := by
    rcases completionWake_queue hs sq with hsame | ⟨qpc, hq⟩
    · exact ⟨_, Finset.Subset.rfl, _, Finset.Subset.rfl, by rw [hsame]⟩
    · exact queueSystem_uses.wake hq

theorem completion_received (callbacks : ℕ → PushCallback) (maxCapacity : ℕ → WithTop ℕ)
    (sq : ℕ) :
    Channel.Received (completionSystem callbacks) (CompletionCooperates callbacks)
      (completionInit maxCapacity) (fun s => (s.queues sq).queue.channel)
      (CompletionPc.waitsForElement sq) (CompletionPc.waitsForRoom sq)
      fun s => (s.queues sq).popped.length where
  uses := completion_uses callbacks sq
  init := .init rfl rfl rfl
  step hs := by
    rcases completionStep_queue hs sq with ⟨hsame, -⟩ | ⟨qpc, qpc', hq, -⟩
    · rw [hsame]
      exact .inr ⟨rfl, List.prefix_rfl⟩
    · exact (queueStep_cases hq).2.received
  wake hs := by
    rcases completionWake_queue hs sq with hsame | ⟨qpc, hq⟩
    · rw [hsame]
    · rw [(queueWake_frame hq).2.1]
  can {c t pc} _ hpc he hwoken := by
    obtain ⟨qpc, hon, hwaits⟩ := (Option.any_eq_true _ _).mp he
    cases qpc with
    | emptyWait timeout =>
      exact completion_canStep hpc (CompletionPc.enters_of_on hon) (decide_eq_false hwoken) rfl
    | _ => cases hwaits

theorem completion_hasRoom {callbacks : ℕ → PushCallback} {maxCapacity : ℕ → WithTop ℕ} {sq : ℕ}
    (hmax : 0 < maxCapacity sq) {c : CompletionConfig}
    (h : (completionSystem callbacks).Reach (CompletionCooperates callbacks)
      (completionInit maxCapacity) c) : (c.shared.queues sq).HasRoom := by
  refine h.invariant (P := fun c => (c.shared.queues sq).HasRoom) ⟨_, rfl, hmax⟩ ?_
  intro c a c' _ hc hco hn
  refine System.Moves.stable (R := fun s => (s.queues sq).HasRoom) hn ?_ ?_ hc
  · intro t pc o s' pc' new hmoves hs hc
    rcases completionStep_queue hs sq with ⟨hsame, -⟩ | ⟨qpc, qpc', hq, henters, -⟩
    · exact hsame ▸ hc
    · exact queueStep_hasRoom hq hc (hco.of_moves hmoves henters)
  · intro t pc s' hs hc
    rcases completionWake_queue hs sq with hsame | ⟨qpc, hq⟩
    · exact hsame ▸ hc
    · exact queueWake_hasRoom hq hc

theorem completion_sends (callbacks : ℕ → PushCallback) {maxCapacity : ℕ → WithTop ℕ} {sq : ℕ}
    (hmax : 0 < maxCapacity sq) :
    Channel.Sends (completionSystem callbacks) (CompletionCooperates callbacks)
      (completionInit maxCapacity) (fun s => (s.queues sq).queue.channel)
      (CompletionPc.waitsForRoom sq) where
  init := Channel.sendersAwake_empty
  room {c a t pc o s' pc' new} hreach hco hmoves hs hwaits := by
    simp only [CompletionPc.waitsForRoom] at hwaits
    rcases completionStep_queue hs sq with ⟨-, hpc, hpc'⟩ | ⟨qpc, qpc', hq, henters, hpc', hpc⟩
    · rw [hpc, hpc'] at hwaits
      rcases hwaits with hwaits | hwaits <;> cases hwaits
    · refine queueStep_leaves hq (completion_hasRoom hmax hreach) (hco.of_moves hmoves henters)
        (queueStep_pushes hq ?_)
      rw [hpc'] at hwaits
      rcases hpc with hpc | ⟨hpc, p, rfl⟩
      · rw [hpc] at hwaits
        exact hwaits
      · exact hwaits.imp_left fun hnone => by rw [hpc] at hnone; cases hnone
  can {c t pc} _ hpc hf hwoken := by
    obtain ⟨qpc, hon, hwaits⟩ := (Option.any_eq_true _ _).mp hf
    cases qpc with
    | fullWait d timeout =>
      exact completion_canStep hpc (CompletionPc.enters_of_on hon) (decide_eq_false hwoken) rfl
    | _ => cases hwaits

/-! ## The way of a callback -/

/-- The callback of promise `p` has entered its push to `sq`: it waits, or it is over, and
    it was refused only by a closed queue. -/
inductive Entered (p sq : ℕ) (s : CompletionState) : CompletionPc → Prop
  | waits (r : PromiseResult) : Entered p sq s (.callback p sq r (.fullWait p blocking))
  | returned (r : PromiseResult) (isPushed : Bool) :
      (isPushed = false → (s.queues sq).closed = true) →
      Entered p sq s (.callback p sq r (.returned (.push p blocking) (.pushed isPushed)))

/-- The callback of promise `p`, which pushes to `sq`, is about to run. -/
inductive IsCalled (callbacks : ℕ → PushCallback) (p sq : ℕ) : CompletionPc → Prop
  | intro (pcc : ℕ) (r : PromiseResult) : (callbacks pcc).callbackParam = sq →
      IsCalled callbacks p sq (.promise p (.callback pcc r))

section Way

variable {callbacks : ℕ → PushCallback} {p sq : ℕ}

section Step

variable {s s' : CompletionState} {t : ℕ} {o : Outcome} {pc pc' : CompletionPc}
  {new : List CompletionPc}

theorem Entered.mono (h : Entered p sq s pc)
    (hclosed : (s.queues sq).closed = true → (s'.queues sq).closed = true) :
    Entered p sq s' pc := by
  cases h with
  | waits r => exact .waits r
  | returned r isPushed hrefused =>
    exact .returned r isPushed fun hfalse => hclosed (hrefused hfalse)

/-- The callback enters its push, and goes on with it. -/
theorem completionStep_entered (hs : completionStep callbacks s t pc o = some (s', pc', new))
    (hroom : (s.queues sq).HasRoom)
    (hco : ∀ qpc, pc.enters? callbacks = some (sq, qpc) → (s.queues sq).cooperates qpc o = true)
    (hpc : IsCalled callbacks p sq pc ∨ Entered p sq s pc) : Entered p sq s' pc' := by
  have hpush : ∀ {s₁ : CompletionState} {r : PromiseResult} {qpc qpc' : QueuePc ℕ}
      {qs : QueueState ℕ}, queueStep (s.queues sq) t qpc o = some (qs, qpc', []) →
      (s.queues sq).cooperates qpc o = true → qpc.PushesForEver p →
      Entered p sq (s₁.setQueue sq qs) (.callback p sq r qpc') := by
    intro s₁ r qpc qpc' qs hq hco hever
    rcases queueStep_pushesForEver hq hroom hco hever with rfl | ⟨isPushed, rfl, hrefused⟩
    · exact .waits r
    · refine .returned r isPushed fun hfalse => ?_
      rw [CompletionState.setQueue_self]
      exact (queueStep_cases hq).2.closed_of_closed (hrefused hfalse)
  obtain ⟨hmove, -⟩ := completionStep_move hs
  cases hmove with
  | promise p' ppc ps ppc' hnot _ =>
    rcases hpc with ⟨pcc, r, _⟩ | hentered
    · exact absurd rfl (hnot pcc r)
    · cases hentered
  | invoke p' pcc r sq' qs qpc' hsq hq =>
    rcases hpc with ⟨_, _, hparam⟩ | hentered
    · obtain rfl : sq' = sq := hsq.trans hparam
      exact hpush hq (hco _ (by rw [hsq]; rfl)) ⟨rfl, rfl⟩
    · cases hentered
  | callback p' sq' r qpc qs qpc' hq =>
    rcases hpc with hcalled | hentered
    · cases hcalled
    · cases hentered with
      | waits r => exact hpush hq (hco _ rfl) ⟨rfl, rfl⟩
      | returned r isPushed _ => cases hq
  | queue sq' qpc qs qpc' _ =>
    rcases hpc with hpc | hpc <;> cases hpc

/-- A thread that comes to run the callback is about to call it. -/
theorem completionStep_isCalled (hs : completionStep callbacks s t pc o = some (s', pc', new))
    (hpc : pc.handsOver callbacks p sq = false) (hpc' : pc'.handsOver callbacks p sq = true) :
    IsCalled callbacks p sq pc' := by
  obtain ⟨hmove, -⟩ := completionStep_move hs
  cases hmove with
  | promise p' ppc ps ppc' _ _ =>
    cases ppc' with
    | callback pcc r =>
      simp only [CompletionPc.handsOver, Bool.and_eq_true, beq_iff_eq] at hpc'
      obtain ⟨rfl, hparam⟩ := hpc'
      exact .intro pcc r hparam
    | _ => cases hpc'
  | invoke p' pcc r sq' qs qpc' hsq _ =>
    subst hsq
    simp only [CompletionPc.handsOver] at hpc hpc'
    rw [hpc] at hpc'
    cases hpc'
  | callback p' sq' r qpc qs qpc' _ =>
    simp only [CompletionPc.handsOver] at hpc hpc'
    rw [hpc] at hpc'
    cases hpc'
  | queue sq' qpc qs qpc' _ => cases hpc'

end Step

variable {maxCapacity : ℕ → WithTop ℕ} {c c' : CompletionConfig} {a : Act CompletionCall Outcome}

theorem completion_closed_next (h : (completionSystem callbacks).next c a = some c')
    (hc : (c.shared.queues sq).closed = true) : (c'.shared.queues sq).closed = true :=
  completion_queue_next (R := fun s => s.closed = true) h sq
    (fun hq => (queueStep_cases hq).2.closed_of_closed) queueWake_closed hc

/-- Whoever runs a callback is about to call it, or has entered the push. -/
theorem handsOver_reach (hmax : 0 < maxCapacity sq)
    (h : (completionSystem callbacks).Reach (CompletionCooperates callbacks)
      (completionInit maxCapacity) c) {t : ℕ} {pc : CompletionPc} (hpc : c.pc? t = some pc)
    (hhands : pc.handsOver callbacks p sq = true) :
    IsCalled callbacks p sq pc ∨ Entered p sq c.shared pc := by
  revert t pc
  refine h.invariant (P := fun c => ∀ {t pc}, c.pc? t = some pc →
    pc.handsOver callbacks p sq = true → IsCalled callbacks p sq pc ∨ Entered p sq c.shared pc)
    ?_ ?_
  · intro t pc hnone
    cases hnone
  intro c a c' hreach hc hco hn t pc' hpc' hhands'
  by_cases hold : c.pc? t = some pc'
  · exact (hc hold hhands').imp_right fun hentered => hentered.mono (completion_closed_next hn)
  · rcases System.next_moved hn hpc' hold with
      ⟨pc, o, new, hpc, hs⟩ | ⟨u, q, o, s, q₁, new, hs, hmem⟩
    · cases hhands : pc.handsOver callbacks p sq with
      | false => exact .inl (completionStep_isCalled hs hhands hhands')
      | true =>
        rcases hpc with ⟨rfl, hpc⟩ | ⟨k, -, -, rfl⟩
        · have hroom := completion_hasRoom hmax hreach
          refine .inr (completionStep_entered hs hroom ?_ (hc hpc hhands))
          exact fun qpc henters => hco.of_moves (.inl ⟨rfl, hpc⟩) henters
        · have hstart := (handsOver_balanced callbacks p sq).start t k
          simp only [hhands] at hstart
          cases hstart
    · rw [(completionStep_move hs).2] at hmem
      cases hmem

/-! ## Runs -/

/-- A popper of queue `sq` is there: one that waits, or one that enters the queue. -/
def CompletionPopperComes (r : CompletionRun callbacks maxCapacity) (sq n : ℕ) : Prop :=
  (∃ t timeout, (r.config n).pc? t = some (.queue sq (.emptyWait timeout))) ∨
    ∃ timeout o, r.act n = some (.call (.queue sq (.pop timeout)) o)

theorem CompletionPopperComes.receiverComes {r : CompletionRun callbacks maxCapacity} {n : ℕ}
    (h : CompletionPopperComes r sq n) :
    Channel.ReceiverComes (fun s => (s.queues sq).queue.channel)
      (CompletionPc.waitsForElement sq) (fun s => (s.queues sq).popped.length) r n := by
  rcases h with ⟨t, timeout, hpc⟩ | ⟨timeout, o, hact⟩
  · refine .inl ⟨t, _, hpc, ?_⟩
    simp [CompletionPc.waitsForElement, CompletionPc.on?, QueuePc.waitsForElement]
  · refine .inr fun hne => ?_
    obtain ⟨pc, s, pc', new, hpc, hs, hmove⟩ := System.stepAt_cases (r.move hact).2
    rw [Config.pc?_push_self] at hpc
    cases hpc
    have hstep : (queueStep ((r.config n).shared.queues sq) (r.config n).threads.length
        (.called (.pop timeout)) o).map ((r.config n).shared.afterQueue sq (.queue sq)) =
        some (s, pc', new) := hs
    obtain ⟨-, qs, qpc', hq, rfl, -⟩ := afterQueue_cases hstep
    rw [hmove, Config.move_shared]
    simp only [CompletionState.setQueue_self]
    exact queueStep_pop hq hne

theorem completion_accounts (r : CompletionRun callbacks maxCapacity) (sq n : ℕ) :
    ((r.config n).shared.queues sq).popped ++ ((r.config n).shared.queues sq).contents =
      ((r.config n).shared.queues sq).pushed :=
  completion_fifo ((r.reach n).mono fun _ _ _ => trivial) sq

theorem completion_pushed_stays (r : CompletionRun callbacks maxCapacity) (sq : ℕ) {n m : ℕ}
    (hnm : n ≤ m) :
    ((r.config n).shared.queues sq).pushed <+: ((r.config m).shared.queues sq).pushed := by
  apply r.stable (P := fun c => ((r.config n).shared.queues sq).pushed <+:
    (c.shared.queues sq).pushed) ?_ List.prefix_rfl hnm
  intro c a c' _ hc _ hn
  refine completion_queue_next (R := fun s => ((r.config n).shared.queues sq).pushed <+: s.pushed)
    hn sq (fun hq hc => hc.trans (queueStep_cases hq).2.pushed_extends) ?_ hc
  intro s t pc s' hq hc
  rw [(queueWake_frame hq).1]
  exact hc

theorem completion_sent (r : CompletionRun callbacks maxCapacity) (sq n : ℕ) :
    Channel.sent (fun s : CompletionState => (s.queues sq).queue.channel)
      (fun s => (s.queues sq).popped.length) (r.config n).shared =
      ((r.config n).shared.queues sq).pushed.length := by
  rw [← completion_accounts r sq n, List.length_append]
  rfl

/-- Thread `t` has entered its push. -/
def EnteredBy (p sq t : ℕ) (c : CompletionConfig) : Prop :=
  ∃ pc, c.pc? t = some pc ∧ Entered p sq c.shared pc

theorem EnteredBy.next (hmax : 0 < maxCapacity sq)
    (hreach : (completionSystem callbacks).Reach (CompletionCooperates callbacks)
      (completionInit maxCapacity) c) {t : ℕ} (hc : EnteredBy p sq t c)
    (hco : CompletionCooperates callbacks c a)
    (h : (completionSystem callbacks).next c a = some c') : EnteredBy p sq t c' := by
  obtain ⟨pc, hpc, hentered⟩ := hc
  by_cases ha : ∃ o, a = .step t o
  · obtain ⟨o, rfl⟩ := ha
    obtain ⟨q, s, pc', new, hq, hs, rfl⟩ := System.stepAt_cases h
    rw [hpc] at hq
    cases hq
    refine ⟨pc', Config.pc?_move_self hpc s pc' new, ?_⟩
    exact completionStep_entered hs (completion_hasRoom hmax hreach)
      (fun qpc henters => hco.of_moves (.inl ⟨rfl, hpc⟩) henters) (.inr hentered)
  · refine ⟨pc, (System.next_other h hpc fun o ho => ha ⟨o, ho⟩).1, ?_⟩
    exact hentered.mono (completion_closed_next h)

/-- The scheduler lets a callback that is to be called enter its push. -/
theorem called_enters (hmax : 0 < maxCapacity sq) (r : CompletionRun callbacks maxCapacity)
    {n t : ℕ} {pc : CompletionPc} (hpc : (r.config n).pc? t = some pc)
    (hcalled : IsCalled callbacks p sq pc) :
    ∃ m, n ≤ m ∧ EnteredBy p sq t (r.config m) := by
  refine r.eventually_by t (P := fun c => c.pc? t = some pc) (Q := EnteredBy p sq t) (fun _ => 0)
    ?_ ?_ ?_ hpc
  · rintro m - hpc -
    obtain ⟨pcc, r, hparam⟩ := hcalled
    have henters : (CompletionPc.promise p (.callback pcc r)).enters? callbacks =
        some (sq, .called (.push p blocking)) := by
      rw [← hparam]
      rfl
    exact completion_canStep hpc henters rfl rfl
  · rintro m o - hpc - hact
    obtain ⟨hco, hnext⟩ := r.move hact
    obtain ⟨q, s, pc', new, hq, hs, hmove⟩ := System.stepAt_cases hnext
    rw [hpc] at hq
    cases hq
    rw [hmove]
    refine .inl ⟨pc', Config.pc?_move_self hpc s pc' new, ?_⟩
    exact completionStep_entered hs (completion_hasRoom hmax (r.reach m))
      (fun qpc henters => hco.of_moves (.inl ⟨rfl, hpc⟩) henters) (.inl hcalled)
  · rintro m a - hpc - hact ha
    exact .inr ⟨(System.next_other (r.move hact).2 hpc ha).1, le_rfl⟩

/-- The queue is kept waiting by a shortage of room only: it has no limit, or it is not
    pushed to for ever. -/
def RoomComes (r : CompletionRun callbacks maxCapacity) (sq : ℕ) : Prop :=
  (∀ m, ((r.config m).shared.queues sq).queue.getMaxCapacity = ⊤) ∨
    ∃ N, ∀ m, ((r.config m).shared.queues sq).pushed.length ≤ N

/-- Without a limit no thread waits for room. -/
theorem nobody_waits (r : CompletionRun callbacks maxCapacity)
    (htop : ∀ m, ((r.config m).shared.queues sq).queue.getMaxCapacity = ⊤) (n : ℕ) :
    System.Free (CompletionPc.waitsForRoom sq) (r.config n) := by
  refine r.keep (P := System.Free (CompletionPc.waitsForRoom sq)) ?_ ?_ (Nat.zero_le n)
  · intro m a _ hact hfree
    refine hfree.next_of_moves (r.move hact).2 fun {t pc o s' pc' new} _ hs => ⟨?_, ?_⟩
    · simp only [CompletionPc.waitsForRoom]
      rcases completionStep_queue hs sq with ⟨-, -, hpc'⟩ | ⟨qpc, qpc', hq, -, hpc', -⟩
      · rw [hpc']
        rfl
      · rw [hpc']
        exact queueStep_unbounded hq (htop m)
    · rw [(completionStep_move hs).2]
      exact nofun
  · rw [r.init]
    intro t pc hnone
    cases hnone

theorem pusher_passes (hmax : 0 < maxCapacity sq) (r : CompletionRun callbacks maxCapacity)
    (hcomes : ∀ n, ∃ m, n ≤ m ∧ CompletionPopperComes r sq m)
    (hopen : ∀ m, ((r.config m).shared.queues sq).closed = false) (hroom : RoomComes r sq)
    (n t : ℕ) :
    ∃ m, n ≤ m ∧ ¬∃ pc, (r.config m).pc? t = some pc ∧ pc.waitsForRoom sq = true := by
  rcases hroom with htop | ⟨N, hbound⟩
  · refine ⟨n, le_rfl, ?_⟩
    rintro ⟨pc, hpc, hwaits⟩
    rw [nobody_waits r htop n t pc hpc] at hwaits
    cases hwaits
  · refine (completion_received callbacks maxCapacity sq).senders_pass
      (completion_sends callbacks hmax) r ?_ (fun m _ => hopen m) (N := N) ?_ t
    · exact fun n => (hcomes n).imp fun m hm => ⟨hm.1, hm.2.receiverComes⟩
    · exact fun m => (completion_sent r sq m).le.trans (hbound m)

/-- In every fair run on any number of promises and queues, a queue that stays open, to
    which poppers come again and again, and which has no limit or is not pushed to for
    ever, gives out every promise that is complete and has a callback for it. -/
theorem completed_promises_are_popped (hmax : 0 < maxCapacity sq)
    (r : CompletionRun callbacks maxCapacity)
    (hcomes : ∀ n, ∃ m, n ≤ m ∧ CompletionPopperComes r sq m)
    (hopen : ∀ m, ((r.config m).shared.queues sq).closed = false) (hroom : RoomComes r sq) {n : ℕ}
    (hcomplete : ((r.config n).shared.promises p).promise.completesTo callbacks sq = true) :
    ∃ m, n ≤ m ∧ p ∈ ((r.config m).shared.queues sq).popped := by
  have hone := count_handsOver ((r.reach n).mono fun _ _ _ => trivial) p sq
  rw [hcomplete, Bool.toNat_true] at hone
  obtain ⟨t, pc, hpc, hhands⟩ := Config.exists_of_count_pos (hone ▸ Nat.one_pos)
  -- the callback enters its push
  obtain ⟨m, hnm, hentered⟩ : ∃ m, n ≤ m ∧ EnteredBy p sq t (r.config m) := by
    rcases handsOver_reach hmax (r.reach n) hpc hhands with hcalled | hentered
    · exact called_enters hmax r hpc hcalled
    · exact ⟨n, le_rfl, pc, hpc, hentered⟩
  -- and comes out of it
  obtain ⟨l, hml, hpasses⟩ := pusher_passes hmax r hcomes hopen hroom m t
  have hlater : EnteredBy p sq t (r.config l) :=
    r.stable (P := EnteredBy p sq t) (fun hreach hc hco hn => hc.next hmax hreach hco hn)
      hentered hml
  obtain ⟨pc', hpc', hover⟩ := hlater
  have hmem : p ∈ ((r.config l).shared.queues sq).pushed := by
    have hreach := (r.reach l).mono fun _ _ _ => trivial
    cases hover with
    | waits res =>
      refine absurd ⟨_, hpc', ?_⟩ hpasses
      simp [CompletionPc.waitsForRoom, CompletionPc.on?, QueuePc.waitsForRoom]
    | returned res isPushed hrefused =>
      cases isPushed with
      | false =>
        rw [hopen l] at hrefused
        cases hrefused rfl
      | true =>
        rw [← List.count_pos_iff, ← count_pushed hreach]
        refine Config.count_pos hpc' ?_
        simp [CompletionPc.pushed, CompletionPc.on?, QueuePc.pushed]
  -- the elements before it are popped, and then it is
  obtain ⟨i, hi⟩ := List.getElem?_of_mem hmem
  have hlt : i < ((r.config l).shared.queues sq).pushed.length :=
    (List.getElem?_eq_some_iff.mp hi).1
  rw [← completion_sent r sq l] at hlt
  obtain ⟨k, hlk, hpopped⟩ := (completion_received callbacks maxCapacity sq).all_received r
    (fun n => (hcomes n).imp fun m hm => ⟨hm.1, hm.2.receiverComes⟩) hlt
  have hfifo : ((r.config k).shared.queues sq).Fifo := completion_accounts r sq k
  exact ⟨k, hnm.trans (hml.trans hlk), List.mem_of_getElem?
    (hfifo.popped_getElem? (completion_pushed_stays r sq hlk) hi hpopped)⟩

end Way

/-- Two callbacks push to a queue with room for one: the second one waits for the pop of
    the first promise. -/
def waitingCallbackRun : CompletionRun oneQueue fun _ => 1 :=
  .ofCheck _
    [.call (.promise 3 (.setCallback 1)) (.resize 1),
      .call (.promise 4 (.setCallback 1)) (.resize 1),
      .call (.promise 3 (.setResult (some 7))) (.resize 1),
      .call (.promise 4 (.setResult none)) (.resize 1), .step 2 (.resize 1), .step 3 (.resize 1),
      .call (.queue 0 (.pop blocking)) (.resize 1), .step 3 (.resize 1),
      .call (.queue 0 (.pop blocking)) (.resize 1), .call (.queue 0 (.pop blocking)) (.resize 1)]
    (by decide) (System.not_canStep CompletionState.rests completionStep_eq_none (by decide))

theorem completed_promises_are_popped_waitingCallbackRun :
    ∃ m, 4 ≤ m ∧ 4 ∈ ((waitingCallbackRun.config m).shared.queues 0).popped := by
  have hlast : ∀ m, waitingCallbackRun.config (max m 10) = waitingCallbackRun.config 10 := by
    intro m
    rw [waitingCallbackRun, System.FairRun.ofCheck_config (le_max_right m 10),
      System.FairRun.ofCheck_config (le_refl 10)]
  refine completed_promises_are_popped (by decide) waitingCallbackRun (fun n => ?_) (fun m => ?_)
    (.inr ⟨2, fun m => ?_⟩) (by decide)
  · refine ⟨max n 10, le_max_left _ _, .inl ⟨6, blocking, ?_⟩⟩
    rw [hlast]
    decide
  · rw [← Bool.not_eq_true]
    intro hclosed
    have hlater := waitingCallbackRun.stable (P := fun c => (c.shared.queues 0).closed = true)
      (fun _ hc _ hn => completion_closed_next hn hc) hclosed (le_max_left m 10)
    rw [hlast] at hlater
    exact absurd hlater (by decide)
  · have hle := (completion_pushed_stays waitingCallbackRun 0 (le_max_left m 10)).length_le
    rw [hlast] at hle
    exact hle.trans (by decide)

end BoomPar
