-- SUMMARY: A job queue under a fair scheduler: closing it releases every call, and what is pushed is popped as long as poppers come.
import BoomPar.Monitor.ChannelService
import BoomPar.QueueFifo

/-!
# Progress of a job queue

A wait of a push or a pop may be without a timeout. What ends it is the close of
the queue, or an element: a popper that waits while elements are queued is awake,
or others are that take them.
-/

namespace BoomPar

open Monitor

variable {α : Type*}

/-- A run of the threads on the queue `q` for ever. -/
abbrev QueueRun [DecidableEq α] (q : JobQueue α) :=
  System.FairRun (queueSystem α) (fun _ _ => True) (queueInit q)

/-- A call that returned, or that is blocked. -/
def QueueState.rests (s : QueueState α) (t : ℕ) : QueuePc α → Bool
  | .called _ => false
  | .fullWait _ _ => t ∈ s.fullWait
  | .emptyWait _ => t ∈ s.emptyWait
  | .returned _ _ => true

section

variable [DecidableEq α] {s s' : QueueState α} {t : ℕ} {o : Outcome} {pc pc' : QueuePc α}

theorem queueStep_eq_none (h : s.rests t pc = true) : queueStep s t pc o = none := by
  cases pc with
  | called k => cases h
  | fullWait d timeout => exact if_pos (of_decide_eq_true h)
  | emptyWait timeout => exact if_pos (of_decide_eq_true h)
  | returned k r => rfl

theorem queueStep_isSome (h : s.rests t pc = false) : (queueStep s t pc o).isSome = true := by
  cases pc with
  | called k => cases k <;> rfl
  | fullWait d timeout =>
    have hwoken : t ∉ s.queue.channel.fullWait := of_decide_eq_false h
    simp only [queueStep, if_neg hwoken]
    rfl
  | emptyWait timeout =>
    have hwoken : t ∉ s.queue.channel.emptyWait := of_decide_eq_false h
    simp only [queueStep, if_neg hwoken]
    rfl
  | returned k r => cases h

end

/-! ## A closed queue -/

/-- How many sections a call on a closed queue has before it. -/
def QueuePc.left : QueuePc α → ℕ
  | .returned _ _ => 0
  | _ => 1

theorem QueuePc.eq_returned {pc : QueuePc α} (h : pc.left = 0) : ∃ k r, pc = .returned k r := by
  cases pc with
  | returned k r => exact ⟨k, r, rfl⟩
  | _ => cases h

/-- A push of `d` on its way, or refused. -/
def QueuePc.isRefused (d : α) : QueuePc α → Prop
  | .fullWait e _ => e = d
  | .returned (.push e _) (.pushed isPushed) => e = d ∧ isPushed = false
  | _ => False

/-- On a closed queue a call is over with its next section. -/
theorem QueueMove.returns {s s' : QueueState α} {t : ℕ} {o : Outcome} {pc pc' : QueuePc α}
    (h : QueueMove s t o pc s' pc') (hs : s.closed = true) : pc'.left = 0 := by
  have hpop : ∀ {ch : Channel α} {quit : Bool} {q : JobQueue α} {r : Option (Option α)},
      ch.Pop t quit q.channel r → ch.closed = true → ∃ d, r = some d := by
    intro ch quit q r hch hclosed
    generalize q.channel = ch' at hch
    cases hch with
    | wait hopen _ _ =>
      rw [hclosed] at hopen
      cases hopen
    | nothing _ _ => exact ⟨none, rfl⟩
    | take d _ _ _ => exact ⟨some d, rfl⟩
  cases h with
  | push d timeout q r hch =>
    obtain ⟨rfl, -⟩ := hch.of_closed hs
    rfl
  | pushResume d timeout q r _ hch =>
    obtain ⟨rfl, -⟩ := hch.of_closed hs
    rfl
  | pop timeout q r hch =>
    obtain ⟨d, rfl⟩ := hpop hch hs
    rfl
  | popResume timeout q r _ hch =>
    obtain ⟨d, rfl⟩ := hpop hch hs
    rfl
  | close => rfl
  | updateMaxCapacity n => rfl
  | query k r _ _ => rfl

/-- A pusher that the close of the queue woke is refused. -/
theorem QueueMove.refused {s s' : QueueState α} {t : ℕ} {o : Outcome} {pc pc' : QueuePc α} {d : α}
    (h : QueueMove s t o pc s' pc') (hs : s.closed = true) (hpc : pc.isRefused d) :
    pc'.isRefused d := by
  cases h with
  | pushResume e timeout q r _ hch =>
    obtain ⟨rfl, -⟩ := hch.of_closed hs
    exact ⟨hpc, rfl⟩
  | _ => cases hpc

theorem QueuePc.of_isRefused {d : α} {k : QueueCall α} {res : QueueResult α}
    (h : (QueuePc.returned k res).isRefused d) :
    ∃ timeout, k = .push d timeout ∧ res = .pushed false := by
  unfold QueuePc.isRefused at h
  split at h
  · rename_i heq
    cases heq
  · rename_i e timeout isPushed heq
    cases heq
    obtain ⟨rfl, rfl⟩ := h
    exact ⟨timeout, rfl, rfl⟩
  · cases h

section

variable [DecidableEq α] {q : JobQueue α}

theorem queue_rests_of_closed (hq : q.Fresh) {c : QueueConfig α} (h : QueueReach q c)
    (hclosed : c.shared.closed = true) {t : ℕ} {pc : QueuePc α} (hleft : 0 < pc.left) :
    c.shared.rests t pc = false := by
  have hawake := (queue_invariant hq h).awake
  cases pc with
  | called k => rfl
  | fullWait d timeout =>
    simp only [QueueState.rests, QueueState.fullWait, hawake.closed_full hclosed]
    rfl
  | emptyWait timeout =>
    simp only [QueueState.rests, QueueState.emptyWait, hawake.closed_empty hclosed]
    rfl
  | returned k r => exact absurd hleft (Nat.lt_irrefl 0)

theorem queue_returns (hq : q.Fresh) :
    System.Returns (queueSystem α) (fun _ _ => True) (queueInit q)
      (fun c => c.shared.closed = true) (fun _ => QueuePc.left) where
  keep _ hclosed _ hn := closed_next hclosed hn
  can hc hclosed hpc hleft :=
    .of_isSome (o := .resize 1) hpc trivial
      (queueStep_isSome (queue_rests_of_closed hq hc hclosed hleft))
  step _ hclosed _ hleft hs := by
    rw [(queueStep_cases hs).2.returns hclosed]
    exact hleft
  other _ _ _ _ _ := le_rfl
  wake _ _ _ _ := le_rfl

/-- In every fair run of the threads on a queue of either representation, once the
    queue is closed every call returns, and a push that was blocked returns 0. -/
theorem closed_queue_releases (hq : q.Fresh) (r : QueueRun q) {n t : ℕ} {pc : QueuePc α}
    (hclosed : (r.config n).shared.closed = true) (hpc : (r.config n).pc? t = some pc) :
    ∃ m, n ≤ m ∧ ∃ k res, (r.config m).pc? t = some (.returned k res) ∧
      ∀ d timeout, pc = .fullWait d timeout →
        ∃ timeout', k = .push d timeout' ∧ res = .pushed false := by
  obtain ⟨m, hnm, -, pc', hpc', hleft⟩ := (queue_returns hq).eventually r hclosed hpc
  obtain ⟨k, res, rfl⟩ := QueuePc.eq_returned hleft
  refine ⟨m, hnm, k, res, hpc', ?_⟩
  rintro d timeout rfl
  have hstays : ∀ l, n ≤ l → (r.config l).shared.closed = true := fun l hnl =>
    r.stable (P := fun c => c.shared.closed = true) (fun _ hc _ hn => closed_next hc hn) hclosed hnl
  obtain ⟨pc', hpc₁, hrefused⟩ := r.follow (R := fun s => s.closed = true)
    (P := QueuePc.isRefused d) (fun hs hc hpc => (queueStep_cases hs).2.refused hc hpc)
    hstays hpc (Eq.refl d) hnm
  rw [hpc'] at hpc₁
  cases hpc₁
  exact QueuePc.of_isRefused hrefused

end

/-- A pusher blocks on a queue without room, and another thread closes the queue. -/
def refusedPusherRun : QueueRun (JobQueue.arraylist (.init 0) : JobQueue ℕ) :=
  .ofCheck _ [.call (.push 7 blocking) (.resize 1), .call .close (.resize 1), .step 0 (.resize 1)]
    (by decide) (System.not_canStep QueueState.rests queueStep_eq_none (by decide))

theorem closed_queue_releases_refusedPusherRun :
    ∃ m, 2 ≤ m ∧ ∃ k res, (refusedPusherRun.config m).pc? 0 = some (.returned k res) ∧
      ∀ d timeout, QueuePc.fullWait 7 blocking = .fullWait d timeout →
        ∃ timeout', k = .push d timeout' ∧ res = .pushed false :=
  closed_queue_releases (.arraylist 0) refusedPusherRun (by decide) (by decide)

/-! ## A queue with elements -/

/-- A section pops the first element, or leaves the elements in their places. -/
theorem QueueMove.received {s s' : QueueState α} {t : ℕ} {o : Outcome} {pc pc' : QueuePc α}
    (h : QueueMove s t o pc s' pc') :
    (s'.popped.length = s.popped.length + 1 ∧ s'.contents = s.contents.tail) ∨
      (s'.popped.length = s.popped.length ∧ s.contents <+: s'.contents) := by
  have hpush : ∀ {ch : Channel α} {d : α} {timeout : ℕ} {q : JobQueue α} {r : Option Bool},
      ch.Push t d q.channel r → ch.contents = s.contents →
      (s.afterPush d timeout (q, r)).1.popped.length = s.popped.length ∧
        s.contents <+: (s.afterPush d timeout (q, r)).1.contents := by
    intro ch d timeout q r hch hcontents
    rw [afterPush_popped, QueueState.contents, QueueState.contents, afterPush_queue,
      hch.contents_eq, hcontents]
    exact ⟨rfl, List.prefix_append _ _⟩
  have hpop : ∀ {ch : Channel α} {quit : Bool} {timeout : ℕ} {q : JobQueue α}
      {r : Option (Option α)}, ch.Pop t quit q.channel r → ch.contents = s.contents →
      ((s.afterPop timeout (q, r)).1.popped.length = s.popped.length + 1 ∧
          (s.afterPop timeout (q, r)).1.contents = s.contents.tail) ∨
        ((s.afterPop timeout (q, r)).1.popped.length = s.popped.length ∧
          s.contents <+: (s.afterPop timeout (q, r)).1.contents) := by
    intro ch quit timeout q r hch hcontents
    have hnew := hch.contents_eq
    rw [hcontents] at hnew
    rw [afterPop_popped, List.length_append, QueueState.contents, QueueState.contents,
      afterPop_queue]
    change _ ++ _ = s.queue.channel.contents at hnew
    rw [← hnew]
    rcases r with _ | _ | d
    · exact .inr ⟨rfl, List.prefix_rfl⟩
    · exact .inr ⟨rfl, List.prefix_rfl⟩
    · exact .inl ⟨rfl, rfl⟩
  cases h with
  | push d timeout q r hch => exact .inr (hpush hch rfl)
  | pushResume d timeout q r _ hch => exact .inr (hpush hch rfl)
  | pop timeout q r hch => exact hpop hch rfl
  | popResume timeout q r _ hch => exact hpop hch rfl
  | close =>
    rw [QueueState.contents, QueueState.contents, JobQueue.close_channel]
    exact .inr ⟨rfl, List.prefix_rfl⟩
  | updateMaxCapacity n =>
    obtain ⟨b, hb⟩ := s.queue.updateMaxCapacity_channel n
    rw [QueueState.contents, QueueState.contents, hb]
    exact .inr ⟨rfl, List.prefix_rfl⟩
  | query k r _ _ => exact .inr ⟨rfl, List.prefix_rfl⟩

/-- What was pushed stays in the history. -/
theorem QueueMove.pushed_extends {s s' : QueueState α} {t : ℕ} {o : Outcome} {pc pc' : QueuePc α}
    (h : QueueMove s t o pc s' pc') : s.pushed <+: s'.pushed := by
  cases h with
  | push d timeout q r _ =>
    rw [afterPush_pushed]
    exact List.prefix_append _ _
  | pushResume d timeout q r _ _ =>
    rw [afterPush_pushed]
    exact List.prefix_append _ _
  | pop timeout q r _ => rw [afterPop_pushed]
  | popResume timeout q r _ _ => rw [afterPop_pushed]
  | _ => exact List.prefix_rfl

section

variable [DecidableEq α] {q : JobQueue α}
  {ok : QueueConfig α → Act (QueueCall α) Outcome → Prop}

/-- A popper that waits is allowed some step. -/
def PoppersMayStep (ok : QueueConfig α → Act (QueueCall α) Outcome → Prop) : Prop :=
  ∀ {c : QueueConfig α} {t timeout}, c.pc? t = some (.emptyWait timeout) → ∃ o, ok c (.step t o)

/-- A pop that enters a queue with elements takes one. -/
theorem queueStep_pop {s s' : QueueState α} {t timeout : ℕ} {o : Outcome} {pc' : QueuePc α}
    {new : List (QueuePc α)} (h : queueStep s t (.called (.pop timeout)) o = some (s', pc', new))
    (hs : s.contents ≠ []) : s.popped.length < s'.popped.length := by
  obtain ⟨d, rest, hcons⟩ := List.exists_cons_of_ne_nil hs
  obtain ⟨hr, -⟩ := (s.queue.pop_channel t timeout false o).of_cons hcons
  simp only [queueStep, Option.some.injEq] at h
  generalize s.queue.pop t timeout false o = r at h hr
  obtain ⟨q, r⟩ := r
  cases hr
  cases h
  simp

theorem queue_received (hq : q.Fresh) (hok : PoppersMayStep ok) :
    Channel.Received (queueSystem α) ok (queueInit q) (fun s => s.queue.channel)
      QueuePc.waitsForElement QueuePc.waitsForRoom fun s => s.popped.length where
  uses := queueSystem_uses
  init := .init hq.channel_eq rfl rfl
  step hs := (queueStep_cases hs).2.received
  wake hs := congrArg List.length (queueWake_frame hs).2.1
  can {c t pc} _ hpc he hwoken := by
    cases pc with
    | emptyWait timeout =>
      obtain ⟨o, ho⟩ := hok hpc
      have hgoes : c.shared.rests t (.emptyWait timeout) = false := decide_eq_false hwoken
      exact .of_isSome hpc ho (queueStep_isSome hgoes)
    | _ => cases he

theorem pushed_stays (r : System.FairRun (queueSystem α) ok (queueInit q)) {n m : ℕ}
    (hnm : n ≤ m) : (r.config n).shared.pushed <+: (r.config m).shared.pushed := by
  apply r.stable (P := fun c => (r.config n).shared.pushed <+: c.shared.pushed) ?_
    List.prefix_rfl hnm
  intro c a c' _ hc _ hn
  rcases System.next_runs_cases hn with ⟨t, pc, o, pc', new, -, hs⟩ | ⟨t, pc, -, hs⟩
  · exact hc.trans (queueStep_cases hs).2.pushed_extends
  · rw [(queueWake_frame hs).1]
    exact hc

theorem queue_accounts (hq : q.Fresh) (r : System.FairRun (queueSystem α) ok (queueInit q))
    (n : ℕ) :
    (r.config n).shared.popped ++ (r.config n).shared.contents = (r.config n).shared.pushed :=
  (queue_fifo hq ((r.reach n).mono fun _ _ _ => trivial)).1

theorem queue_sent (hq : q.Fresh) (r : System.FairRun (queueSystem α) ok (queueInit q)) (n : ℕ) :
    Channel.sent (fun s => s.queue.channel) (fun s : QueueState α => s.popped.length)
      (r.config n).shared = (r.config n).shared.pushed.length := by
  rw [← queue_accounts hq r n, List.length_append]
  rfl

/-- A popper is there: one that waits, or one that enters the queue. -/
def PopperComes {q : JobQueue α} (r : System.FairRun (queueSystem α) ok (queueInit q)) (n : ℕ) :
    Prop :=
  (∃ t timeout, (r.config n).pc? t = some (.emptyWait timeout)) ∨
    ∃ timeout o, r.act n = some (.call (.pop timeout) o)

theorem PopperComes.receiverComes {r : System.FairRun (queueSystem α) ok (queueInit q)} {n : ℕ}
    (h : PopperComes r n) :
    Channel.ReceiverComes (fun s => s.queue.channel) QueuePc.waitsForElement
      (fun s => s.popped.length) r n := by
  rcases h with ⟨t, timeout, hpc⟩ | ⟨timeout, o, hact⟩
  · exact .inl ⟨t, _, hpc, rfl⟩
  · refine .inr fun hne => ?_
    obtain ⟨s, pc', hs, hshared, -⟩ := next_call (r.move hact).2
    rw [hshared]
    exact queueStep_pop hs hne

omit [DecidableEq α] in
/-- An element is popped in the place in which it was pushed. -/
theorem QueueState.Fifo.popped_getElem? {s s' : QueueState α} (hs : s'.Fifo)
    (hkept : s.pushed <+: s'.pushed) {i : ℕ} {d : α} (hd : s.pushed[i]? = some d)
    (hi : i < s'.popped.length) : s'.popped[i]? = some d := by
  obtain ⟨hlt, rfl⟩ := List.getElem?_eq_some_iff.mp hd
  have hlater := List.prefix_iff_getElem?.mp hkept i hlt
  rwa [← hs, List.getElem?_append_left hi] at hlater

/-- In every fair run of the threads on a queue to which poppers come again and
    again, every element whose push succeeds is popped, each in its turn. -/
theorem pushed_elements_are_popped (hq : q.Fresh) (r : QueueRun q)
    (hcomes : ∀ n, ∃ m, n ≤ m ∧ PopperComes r m) {n i : ℕ} {d : α}
    (hpushed : (r.config n).shared.pushed[i]? = some d) :
    ∃ m, n ≤ m ∧ (r.config m).shared.popped[i]? = some d := by
  have hok : PoppersMayStep fun (_ : QueueConfig α) _ => True := fun _ => ⟨.resize 1, trivial⟩
  have hi : i < (r.config n).shared.pushed.length := (List.getElem?_eq_some_iff.mp hpushed).1
  rw [← queue_sent hq r n] at hi
  obtain ⟨m, hnm, hpopped⟩ := (queue_received hq hok).all_received r
    (fun n => (hcomes n).imp fun m hm => ⟨hm.1, hm.2.receiverComes⟩) hi
  have hfifo : (r.config m).shared.Fifo := queue_accounts hq r m
  exact ⟨m, hnm, hfifo.popped_getElem? (pushed_stays r hnm) hpushed hpopped⟩

end

/-- A popper waits, another thread pushes an element, and a second popper comes to stay. -/
def servedPopperRun : QueueRun (JobQueue.linkedlist .init : JobQueue ℕ) :=
  .ofCheck _
    [.call (.pop blocking) (.resize 1), .call (.push 7 blocking) (.resize 1),
      .call (.pop blocking) (.resize 1), .step 0 (.resize 1)]
    (by decide) (System.not_canStep QueueState.rests queueStep_eq_none (by decide))

theorem pushed_elements_are_popped_servedPopperRun :
    ∃ m, 2 ≤ m ∧ (servedPopperRun.config m).shared.popped[0]? = some 7 := by
  apply pushed_elements_are_popped .linkedlist servedPopperRun ?_ (by decide)
  intro n
  refine ⟨max n 4, le_max_left _ _, .inl ⟨0, blocking, ?_⟩⟩
  rw [servedPopperRun, System.FairRun.ofCheck_config (le_max_right n 4)]
  decide

end BoomPar
