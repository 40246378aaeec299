-- SUMMARY: A job queue is a closable FIFO: nothing is lost, duplicated or reordered by any interleaving of its operations.
import BoomPar.QueueThreads

/-!
# First in, first out

Every transition of the threads keeps the elements that were popped, followed by
those still in the queue, equal to the elements whose push succeeded.
-/

namespace BoomPar

open Monitor

variable {α : Type*}

def QueueState.contents (s : QueueState α) : List α := s.queue.channel.contents
def QueueState.closed (s : QueueState α) : Bool := s.queue.channel.closed

/-- The history of the queue accounts for its contents. -/
def QueueState.Fifo (s : QueueState α) : Prop := s.popped ++ s.contents = s.pushed

/-! ## What one section returns -/

theorem afterPush_returned {s : QueueState α} {d : α} {timeout : ℕ} {q : JobQueue α}
    {r : Option Bool} {k : QueueCall α} {res : QueueResult α}
    (h : (s.afterPush d timeout (q, r)).2.1 = .returned k res) :
    ∃ isPushed, r = some isPushed ∧ k = .push d timeout ∧ res = .pushed isPushed := by
  cases r with
  | none => cases h
  | some isPushed => cases h; exact ⟨isPushed, rfl, rfl, rfl⟩

theorem afterPop_returned {s : QueueState α} {timeout : ℕ} {q : JobQueue α}
    {r : Option (Option α)} {k : QueueCall α} {res : QueueResult α}
    (h : (s.afterPop timeout (q, r)).2.1 = .returned k res) :
    ∃ d, r = some d ∧ k = .pop timeout ∧ res = .popped d := by
  cases r with
  | none => cases h
  | some d => cases h; exact ⟨d, rfl, rfl, rfl⟩

theorem afterPush_pushed (s : QueueState α) (d : α) (timeout : ℕ) (q : JobQueue α)
    (r : Option Bool) : (s.afterPush d timeout (q, r)).1.pushed =
      s.pushed ++ (if r = some true then [d] else []) := by
  cases r with
  | none => simp [QueueState.afterPush]
  | some b => simp [QueueState.afterPush]

@[simp] theorem afterPush_popped (s : QueueState α) (d : α) (timeout : ℕ)
    (r : JobQueue α × Option Bool) : (s.afterPush d timeout r).1.popped = s.popped := by
  obtain ⟨q, _ | b⟩ := r <;> rfl

@[simp] theorem afterPop_pushed (s : QueueState α) (timeout : ℕ)
    (r : JobQueue α × Option (Option α)) : (s.afterPop timeout r).1.pushed = s.pushed := by
  obtain ⟨q, _ | d⟩ := r <;> rfl

theorem afterPop_popped (s : QueueState α) (timeout : ℕ) (q : JobQueue α)
    (r : Option (Option α)) : (s.afterPop timeout (q, r)).1.popped =
      s.popped ++ r.join.toList := by
  cases r with
  | none => simp [QueueState.afterPop]
  | some d => simp [QueueState.afterPop]

/-! ## The history through a step -/

theorem afterPush_fifo {s : QueueState α} (hs : s.Fifo) {t : ℕ} {d : α} (timeout : ℕ)
    {q : JobQueue α} {r : Option Bool} {ch : Channel α} (hch : ch.Push t d q.channel r)
    (hcontents : ch.contents = s.contents) : (s.afterPush d timeout (q, r)).1.Fifo := by
  have hnew := hch.contents_eq
  unfold QueueState.Fifo at hs ⊢
  rw [afterPush_pushed, afterPush_popped, ← hs, List.append_assoc, ← hcontents, ← hnew]
  simp only [QueueState.contents, afterPush_queue]

theorem afterPop_fifo {s : QueueState α} (hs : s.Fifo) {t : ℕ} (timeout : ℕ) {quit : Bool}
    {q : JobQueue α} {r : Option (Option α)} {ch : Channel α} (hch : ch.Pop t quit q.channel r)
    (hcontents : ch.contents = s.contents) : (s.afterPop timeout (q, r)).1.Fifo := by
  have hnew := hch.contents_eq
  unfold QueueState.Fifo at hs ⊢
  rw [afterPop_pushed, afterPop_popped, ← hs, ← hcontents, ← hnew, List.append_assoc]
  simp only [QueueState.contents, afterPop_queue]

theorem QueueMove.fifo {s s' : QueueState α} {t : ℕ} {o : Outcome} {pc pc' : QueuePc α}
    (h : QueueMove s t o pc s' pc') (hs : s.Fifo) : s'.Fifo := by
  cases h with
  | push d timeout q r hch => exact afterPush_fifo hs timeout hch rfl
  | pushResume d timeout q r _ hch => exact afterPush_fifo hs _ hch rfl
  | pop timeout q r hch => exact afterPop_fifo hs timeout hch rfl
  | popResume timeout q r _ hch => exact afterPop_fifo hs _ hch rfl
  | close =>
    rw [QueueState.Fifo, QueueState.contents, JobQueue.close_channel]
    exact hs
  | updateMaxCapacity n =>
    obtain ⟨b, hb⟩ := s.queue.updateMaxCapacity_channel n
    rw [QueueState.Fifo, QueueState.contents, hb]
    exact hs
  | query k r _ _ => exact hs

/-- What the section of a push that returns does: an accepted element is the new
    last one of an open queue, and a refused one leaves no trace. -/
theorem QueueMove.of_pushed {s s' : QueueState α} {t : ℕ} {o : Outcome} {pc : QueuePc α}
    {k : QueueCall α} {isPushed : Bool}
    (h : QueueMove s t o pc s' (.returned k (.pushed isPushed))) :
    (isPushed = false → s'.contents = s.contents) ∧ (s.closed = true → isPushed = false) := by
  have hpush : ∀ {d : α} {timeout : ℕ} {q : JobQueue α} {r : Option Bool} {ch : Channel α},
      ch.Push t d q.channel r → ch.contents = s.contents → ch.closed = s.closed →
      (s.afterPush d timeout (q, r)).2.1 = .returned k (.pushed isPushed) →
      (isPushed = false → (s.afterPush d timeout (q, r)).1.contents = s.contents) ∧
        (s.closed = true → isPushed = false) := by
    intro d timeout q r ch hch hcontents hclosed hr
    obtain ⟨b, rfl, -, hb⟩ := afterPush_returned hr
    cases hb
    refine ⟨fun hfalse => ?_, fun hs => ?_⟩
    · have hnew := hch.contents_eq
      rw [hfalse, hcontents] at hnew
      simpa [QueueState.contents] using hnew
    · obtain ⟨hrefused, -⟩ := hch.of_closed (hclosed.trans hs)
      exact Option.some.inj hrefused
  generalize hpc' : QueuePc.returned k (.pushed isPushed) = pc' at h
  cases h with
  | push d timeout q r hch => exact hpush hch rfl rfl hpc'.symm
  | pushResume d timeout q r _ hch => exact hpush hch rfl rfl hpc'.symm
  | pop timeout q r hch =>
    obtain ⟨_, -, -, hres⟩ := afterPop_returned hpc'.symm
    cases hres
  | popResume timeout q r _ hch =>
    obtain ⟨_, -, -, hres⟩ := afterPop_returned hpc'.symm
    cases hres
  | close => cases hpc'
  | updateMaxCapacity n => cases hpc'
  | query k r hpushed _ => cases hpc'; exact absurd rfl (hpushed isPushed)

/-- A pop with the timeout `blocking` whose wait saw no error returns NULL only
    from a closed and empty queue. -/
theorem QueueMove.of_popped_none {s s' : QueueState α} {t : ℕ} {o : Outcome} {pc : QueuePc α}
    (h : QueueMove s t o pc s' (.returned (.pop blocking) (.popped none)))
    (ho : o.waitError = false) : s.closed = true ∧ s.contents = [] := by
  generalize hpc' : QueuePc.returned (.pop blocking) (.popped none) = pc' at h
  cases h with
  | push d timeout q r hch =>
    obtain ⟨_, -, hk, -⟩ := afterPush_returned hpc'.symm
    cases hk
  | pushResume d timeout q r _ hch =>
    obtain ⟨_, -, hk, -⟩ := afterPush_returned hpc'.symm
    cases hk
  | pop timeout q r hch =>
    obtain ⟨d, rfl, htimeout, hd⟩ := afterPop_returned hpc'.symm
    cases hd
    obtain ⟨hnil, hclosed | hquit⟩ := hch.of_nothing
    · exact ⟨hclosed, hnil⟩
    · cases htimeout
      cases hquit
  | popResume timeout q r _ hch =>
    obtain ⟨d, rfl, htimeout, hd⟩ := afterPop_returned hpc'.symm
    cases hd
    obtain ⟨hnil, hclosed | hquit⟩ := hch.of_nothing
    · exact ⟨hclosed, hnil⟩
    · rw [ho, ← (QueueCall.pop.inj htimeout)] at hquit
      cases hquit
  | close => cases hpc'
  | updateMaxCapacity n => cases hpc'
  | query k r _ hpopped => cases hpc'; exact absurd rfl (hpopped none)

theorem QueueMove.closed_of_closed {s s' : QueueState α} {t : ℕ} {o : Outcome}
    {pc pc' : QueuePc α} (h : QueueMove s t o pc s' pc') (hs : s.closed = true) :
    s'.closed = true := by
  cases h with
  | push d timeout q r hch =>
    rw [QueueState.closed, afterPush_queue, hch.closed_eq]
    exact hs
  | pushResume d timeout q r _ hch =>
    rw [QueueState.closed, afterPush_queue, hch.closed_eq]
    exact hs
  | pop timeout q r hch =>
    rw [QueueState.closed, afterPop_queue, hch.closed_eq]
    exact hs
  | popResume timeout q r _ hch =>
    rw [QueueState.closed, afterPop_queue, hch.closed_eq]
    exact hs
  | close => rw [QueueState.closed, JobQueue.close_channel]; rfl
  | updateMaxCapacity n =>
    obtain ⟨b, hb⟩ := s.queue.updateMaxCapacity_channel n
    rw [QueueState.closed, hb]
    exact hs
  | query k r _ _ => exact hs

theorem queueWake_frame {s s' : QueueState α} {t : ℕ} {pc : QueuePc α}
    (h : queueWake s t pc = some s') :
    s'.pushed = s.pushed ∧ s'.popped = s.popped ∧ s'.contents = s.contents ∧
      s'.closed = s.closed := by
  obtain rfl | rfl := queueWake_cases h
  · simp [QueueState.contents, QueueState.closed, JobQueue.wakeFull_channel]
  · simp [QueueState.contents, QueueState.closed, JobQueue.wakeEmpty_channel]

theorem queueWake_fifo {s s' : QueueState α} {t : ℕ} {pc : QueuePc α}
    (h : queueWake s t pc = some s') (hs : s.Fifo) : s'.Fifo := by
  obtain ⟨hpushed, hpopped, hcontents, -⟩ := queueWake_frame h
  simpa only [QueueState.Fifo, hpushed, hpopped, hcontents] using hs

theorem queueWake_closed {s s' : QueueState α} {t : ℕ} {pc : QueuePc α}
    (h : queueWake s t pc = some s') (hs : s.closed = true) : s'.closed = true := by
  rw [(queueWake_frame h).2.2.2]
  exact hs

/-! ## Runs -/

section Runs

variable [DecidableEq α] {c c' : QueueConfig α} {a : Act (QueueCall α) Outcome}

theorem fifo_next (hc : c.shared.Fifo) (h : (queueSystem α).next c a = some c') :
    c'.shared.Fifo :=
  System.next_stable h (fun hs => (queueStep_cases hs).2.fifo) queueWake_fifo hc

theorem closed_next (hc : c.shared.closed = true) (h : (queueSystem α).next c a = some c') :
    c'.shared.closed = true :=
  System.next_stable (R := fun s : QueueState α => s.closed = true) h
    (fun hs => (queueStep_cases hs).2.closed_of_closed) queueWake_closed hc

omit [DecidableEq α] in
theorem fifo_init {q : JobQueue α} (hq : q.Fresh) : (queueInit q).shared.Fifo := by
  simp only [queueInit, QueueState.Fifo, QueueState.contents, hq.channel_eq]
  rfl

/-- The section in which a call returns. -/
theorem QueueReturns.move {t : ℕ} {k : QueueCall α} {r : QueueResult α}
    (h : QueueReturns c a c' t k r) : ∃ pc o, a.outcome? = some o ∧
      QueueMove c.shared t o pc c'.shared (.returned k r) := by
  obtain ⟨hn, hbefore, hafter⟩ := h
  -- no operation of a queue creates a thread
  obtain ⟨pc, o, new, hpc, hs⟩ := System.next_moved_of_notMem hn hafter hbefore fun hs => by
    rw [(queueStep_cases hs).1]
    exact List.not_mem_nil
  obtain ⟨rfl, -⟩ | ⟨k', rfl, -, -⟩ := hpc
  · exact ⟨pc, o, rfl, (queueStep_cases hs).2⟩
  · exact ⟨pc, o, rfl, (queueStep_cases hs).2⟩

/-- A call takes its first section at once. -/
theorem next_call {k : QueueCall α} {o : Outcome}
    (h : (queueSystem α).next c (.call k o) = some c') :
    ∃ s pc', queueStep c.shared c.threads.length (.called k) o = some (s, pc', []) ∧
      c'.shared = s ∧ c'.pc? c.threads.length = some pc' := by
  obtain ⟨pc, s, pc', new, hpc, hs, rfl⟩ := System.stepAt_cases h
  rw [Config.pc?_push_self] at hpc
  cases hpc
  obtain ⟨rfl, -⟩ := queueStep_cases hs
  exact ⟨s, pc', hs, rfl, Config.pc?_move_self (Config.pc?_push_self c _) _ _ _⟩

theorem call_close {o : Outcome} (h : (queueSystem α).next c (.call .close o) = some c') :
    c'.shared.contents = c.shared.contents ∧ c'.shared.closed = true := by
  obtain ⟨s, pc', hs, hshared, -⟩ := next_call h
  cases hs
  simp only [hshared, QueueState.contents, QueueState.closed, JobQueue.close_channel]
  exact ⟨rfl, rfl⟩

/-- A pop that finds elements takes the first one without waiting. -/
theorem call_pop {timeout : ℕ} {o : Outcome} {d : α} {rest : List α}
    (h : (queueSystem α).next c (.call (.pop timeout) o) = some c')
    (hcons : c.shared.contents = d :: rest) :
    c'.pc? c.threads.length = some (.returned (.pop timeout) (.popped (some d))) ∧
      c'.shared.contents = rest := by
  obtain ⟨s, pc', hs, hshared, hpc'⟩ := next_call h
  have hch := c.shared.queue.pop_channel c.threads.length timeout false o
  obtain ⟨hr, hrest⟩ := hch.of_cons hcons
  simp only [queueStep, Option.some.injEq] at hs
  generalize c.shared.queue.pop c.threads.length timeout false o = r at hs hr hrest
  obtain ⟨q, r⟩ := r
  cases hr
  cases hs
  rw [hpc', hshared]
  exact ⟨rfl, hrest⟩

end Runs

/-! ## The queue as a FIFO -/

variable [DecidableEq α]

/-- A job queue of either representation is a FIFO through growth, shrinkage and
    closing: the history accounts for the contents; a refused push leaves no
    trace; nothing is pushed on a closed queue, whose elements stay and remain
    poppable; and a pop that waits forever returns NULL only when the queue is
    closed and empty. -/
theorem queue_fifo {q : JobQueue α} (hq : q.Fresh) {c : QueueConfig α} (h : QueueReach q c) :
    c.shared.popped ++ c.shared.contents = c.shared.pushed ∧
    (∀ a c' t d timeout, QueueReturns c a c' t (.push d timeout) (.pushed false) →
      c'.shared.contents = c.shared.contents) ∧
    (c.shared.closed = true → ∀ a c', (queueSystem α).next c a = some c' →
      c'.shared.closed = true ∧
      ∀ t d timeout isPushed, QueueReturns c a c' t (.push d timeout) (.pushed isPushed) →
        isPushed = false) ∧
    (∀ o c', (queueSystem α).next c (.call .close o) = some c' →
      c'.shared.contents = c.shared.contents ∧ c'.shared.closed = true) ∧
    (∀ d rest, c.shared.contents = d :: rest →
      ∀ timeout o c', (queueSystem α).next c (.call (.pop timeout) o) = some c' →
        c'.pc? c.threads.length = some (.returned (.pop timeout) (.popped (some d))) ∧
          c'.shared.contents = rest) ∧
    (∀ a c' t, QueueReturns c a c' t (.pop blocking) (.popped none) →
      (∀ o, a.outcome? = some o → o.waitError = false) →
      c.shared.closed = true ∧ c.shared.contents = []) := by
  have hfifo : c.shared.Fifo :=
    h.invariant (fifo_init hq) fun _ _ _ _ hc _ hn => fifo_next hc hn
  refine ⟨hfifo, ?_, ?_, fun o c' => call_close, fun d rest hcons timeout o c' hn =>
    call_pop hn hcons, ?_⟩
  · intro a c' t d timeout hr
    obtain ⟨pc, o, -, hmove⟩ := hr.move
    exact hmove.of_pushed.1 rfl
  · intro hclosed a c' hn
    refine ⟨closed_next hclosed hn, ?_⟩
    intro t d timeout isPushed hr
    obtain ⟨pc, o, -, hmove⟩ := hr.move
    exact hmove.of_pushed.2 hclosed
  · intro a c' t hr herror
    obtain ⟨pc, o, ho, hmove⟩ := hr.move
    exact hmove.of_popped_none (herror o ho)

/-- Of two pushed elements one is popped. -/
def onePopped : QueueConfig ℕ :=
  (queueSystem ℕ).run (queueInit (.arraylist (.init ⊤)))
    [.call (.push 7 blocking) (.resize 1), .call (.push 8 blocking) (.resize 2),
      .call (.pop blocking) (.resize 2)] (by decide)

/-- Then the queue is closed. -/
def closedAfterPop : QueueConfig ℕ :=
  ((queueSystem ℕ).next onePopped (.call .close (.resize 2))).get (by decide)

/-- A push on it is refused. -/
def refusedAfterClose : QueueConfig ℕ :=
  ((queueSystem ℕ).next closedAfterPop (.call (.push 9 blocking) (.resize 2))).get (by decide)

/-- The other element is popped. -/
def poppedAfterClose : QueueConfig ℕ :=
  ((queueSystem ℕ).next refusedAfterClose (.call (.pop blocking) (.resize 2))).get (by decide)

/-- The next pop returns NULL. -/
def nullAfterClose : QueueConfig ℕ :=
  ((queueSystem ℕ).next poppedAfterClose (.call (.pop blocking) (.resize 2))).get (by decide)

theorem queue_fifo_nullAfterClose :
    (onePopped.shared.popped = [7] ∧ onePopped.shared.contents = [8] ∧
      onePopped.shared.popped ++ onePopped.shared.contents = onePopped.shared.pushed) ∧
    (closedAfterPop.shared.contents = onePopped.shared.contents ∧
      closedAfterPop.shared.closed = true) ∧
    (refusedAfterClose.shared.contents = closedAfterPop.shared.contents ∧
      refusedAfterClose.shared.closed = true) ∧
    (poppedAfterClose.pc? 5 = some (.returned (.pop blocking) (.popped (some 8))) ∧
      poppedAfterClose.shared.contents = []) ∧
    (nullAfterClose.pc? 6 = some (.returned (.pop blocking) (.popped none)) ∧
      poppedAfterClose.shared.closed = true ∧ poppedAfterClose.shared.contents = []) := by
  have hone : QueueReach (.arraylist (.init ⊤)) onePopped := .run _ _ _
  have hclosed : QueueReach (.arraylist (.init ⊤)) closedAfterPop :=
    hone.tail trivial (Option.some_get _).symm
  have hrefused : QueueReach (.arraylist (.init ⊤)) refusedAfterClose :=
    hclosed.tail trivial (Option.some_get _).symm
  have hpopped : QueueReach (.arraylist (.init ⊤)) poppedAfterClose :=
    hrefused.tail trivial (Option.some_get _).symm
  obtain ⟨haccount, -, -, hcloses, -, -⟩ := queue_fifo (.arraylist ⊤) hone
  obtain ⟨-, hkeeps, hrefuses, -, -, -⟩ := queue_fifo (.arraylist ⊤) hclosed
  obtain ⟨-, -, -, -, hpops, -⟩ := queue_fifo (.arraylist ⊤) hrefused
  obtain ⟨-, -, -, -, -, hnull⟩ := queue_fifo (.arraylist ⊤) hpopped
  refine ⟨⟨by decide, by decide, haccount⟩, ?_, ⟨?_, ?_⟩, ?_, by decide, ?_⟩
  · exact hcloses _ _ (Option.some_get _).symm
  · exact hkeeps _ _ 4 9 blocking ⟨(Option.some_get _).symm, by decide, by decide⟩
  · exact (hrefuses (by decide) _ _ (Option.some_get _).symm).1
  · exact hpops 8 [] (by decide) blocking _ _ (Option.some_get _).symm
  · exact hnull (.call (.pop blocking) (.resize 2)) nullAfterClose 6
      ⟨(Option.some_get _).symm, by decide, by decide⟩ fun o ho => by cases ho; rfl

end BoomPar
