-- SUMMARY: The linked-list queue and the unbounded array-list queue behind a job queue are bisimilar.
import BoomPar.Monitor.Bisimulation
import BoomPar.QueueCapacity

/-!
# Two representations

Without a limit the array list grows whenever it is full, so the wait for room
and its condition variable stay unused and the array-list queue is the
linked-list one, up to its capacity.
-/

namespace BoomPar

open Monitor

variable {α : Type*}

/-- The outcomes of two transitions, up to the capacity of a resize. -/
def Outcome.Agrees (o o' : Outcome) : Prop :=
  o.woken = o'.woken ∧ o.waitError = o'.waitError ∧ o.remaining = o'.remaining

/-- A linked-list queue and an array-list queue without a limit, the same to their users. -/
inductive JobQueue.Agrees : JobQueue α → JobQueue α → Prop
  | intro (lsq : SyncLlQueue α) (sq : SyncQueue α) :
      lsq.channel = sq.channel → sq.maxCapacity = ⊤ → Agrees (.linkedlist lsq) (.arraylist sq)

/-- The queues agree, and so do the histories of their elements. -/
def QueueState.Agrees (s s' : QueueState α) : Prop :=
  s.queue.Agrees s'.queue ∧ s.pushed = s'.pushed ∧ s.popped = s'.popped

/-! ## The critical sections -/

namespace SyncQueue

theorem hasCapacityCrossed_of_unbounded {sq : SyncQueue α} (h : sq.maxCapacity = ⊤) :
    sq.hasCapacityCrossedMaxCapacityLimits = false := by
  simp [hasCapacityCrossedMaxCapacityLimits, h]

theorem pushMustWait_of_unbounded {sq : SyncQueue α} (h : sq.maxCapacity = ⊤) :
    sq.pushMustWait = false := by
  simp [pushMustWait, hasCapacityCrossed_of_unbounded h]

/-- A push into an open queue without a limit appends, if the growth that it may need succeeds. -/
theorem push_of_unbounded {sq : SyncQueue α} (h : sq.maxCapacity = ⊤)
    (hopen : sq.isClosed = false) (t : ℕ) (d : α) (timeout : ℕ) (waitError : Bool) {o : Outcome}
    (hgrow : sq.isFull = true → sq.qp.capacity < o.capacity.getD 0) :
    (sq.push t d timeout waitError o).1.channel =
      { sq.channel with
        contents := sq.qp.contents ++ [d]
        emptyWait := sq.qEmptyWait.signalIf (0 < sq.qEmptyWaitThreadCount) o.woken } ∧
    (sq.push t d timeout waitError o).2 = some true := by
  have hlimit : sq.atLimit = false := by
    simp [atLimit, hasCapacityCrossed_of_unbounded h]
  have hpushed : (sq.pushAfterWait d o).2 = true := by
    rw [← Bool.not_eq_false, pushAfterWait_fails_iff hopen d hgrow, hlimit]
    exact Bool.false_ne_true
  simp only [push, pushMustWait_of_unbounded h, Bool.false_eq_true, false_and, if_false]
  refine ⟨?_, congrArg some hpushed⟩
  revert hpushed
  simp only [pushAfterWait, hopen, Bool.false_eq_true, if_false]
  obtain ⟨hp, hcontents⟩ | ⟨hp, -⟩ := (sq.expandForPush o).pushBack_cases d
  · rw [contents_expandForPush] at hcontents
    simp [channel, hp, hcontents, hopen]
  · simp [hp]

theorem push_of_closed {sq : SyncQueue α} (hclosed : sq.isClosed = true) (t : ℕ) (d : α)
    (timeout : ℕ) (waitError : Bool) (o : Outcome) :
    sq.push t d timeout waitError o = (sq, some false) := by
  simp [push, pushMustWait, pushAfterWait, hclosed]

/-- A pop that does not wait removes the front element; without pushers waiting
    for room it wakes no one. -/
theorem popAfterWait_of_unbounded {sq : SyncQueue α} (hwait : sq.qFullWait = ∅) (o : Outcome) :
    (sq.popAfterWait o).1.channel = { sq.channel with contents := sq.qp.contents.tail } ∧
      (sq.popAfterWait o).2 = sq.qp.contents.head? := by
  obtain ⟨d, rest, hcons, hp, hrest, -⟩ | ⟨hnil, hp, hsame⟩ := sq.qp.popFront_cases
  · simp [popAfterWait, channel, hp, hrest, hwait, hcons, Arraylist.getFront]
  · simp [popAfterWait, channel, hp, hsame, hwait, hnil]

end SyncQueue

theorem SyncLlQueue.popAfterWait_eq (sq : SyncLlQueue α) :
    sq.popAfterWait.1.channel = { sq.channel with contents := sq.qp.contents.tail } ∧
      sq.popAfterWait.2 = sq.qp.contents.head? := by
  obtain ⟨d, rest, hcons, hp, hrest⟩ | ⟨hnil, hp, hsame⟩ := sq.qp.removeHead_cases
  · simp [popAfterWait, channel, hp, hrest, hcons, Singlylist.getHead]
  · simp [popAfterWait, channel, hp, hsame, hnil]

namespace JobQueue.Agrees

variable {q q' : JobQueue α}

theorem channel_eq (h : q.Agrees q') : q.channel = q'.channel := by
  cases h with
  | intro lsq sq hch htop => exact hch

theorem push [DecidableEq α] (h : q.Agrees q') (t : ℕ) {d : α} (hd : d ∉ q.channel.contents)
    (timeout : ℕ) (waitError : Bool) {o o' : Outcome} (ho : o.Agrees o')
    (hgrow : ∀ sq, q' = .arraylist sq → sq.isFull = true → sq.qp.capacity < o'.capacity.getD 0) :
    (q.push t d timeout waitError o).1.Agrees (q'.push t d timeout waitError o').1 ∧
      (q.push t d timeout waitError o).2 = (q'.push t d timeout waitError o').2 := by
  cases h with
  | intro lsq sq hch htop =>
    have hclosed : lsq.isClosed = sq.isClosed := congrArg Channel.closed hch
    cases hopen : sq.isClosed with
    | true =>
      rw [JobQueue.push, JobQueue.push, SyncQueue.push_of_closed hopen, SyncLlQueue.push,
        if_pos (hclosed.trans hopen)]
      exact ⟨.intro lsq sq hch htop, rfl⟩
    | false =>
      obtain ⟨hchannel, hresult⟩ := SyncQueue.push_of_unbounded htop hopen t d timeout waitError
        (hgrow sq rfl)
      have hinsert : lsq.qp.insertTail d = (⟨lsq.qp.contents ++ [d]⟩, true) := if_neg hd
      rw [JobQueue.push, JobQueue.push, SyncLlQueue.push, if_neg (by rw [hclosed, hopen]; simp)]
      simp only [hinsert, Bool.true_and, hresult, and_true]
      refine .intro _ _ ?_ ((sq.push_maxCapacity t d timeout waitError o').trans htop)
      rw [hchannel, ← hch, ho.1]
      simp only [SyncLlQueue.channel, SyncQueue.channel, Channel.mk.injEq] at hch ⊢
      simp [hch]

theorem pop (h : q.Agrees q') (t : ℕ) (timeout : ℕ) (waitError : Bool) (o o' : Outcome) :
    (q.pop t timeout waitError o).1.Agrees (q'.pop t timeout waitError o').1 ∧
      (q.pop t timeout waitError o).2 = (q'.pop t timeout waitError o').2 := by
  cases h with
  | intro lsq sq hch htop =>
    have hclosed : lsq.isClosed = sq.isClosed := congrArg Channel.closed hch
    have hcontents : lsq.qp.contents = sq.qp.contents := congrArg Channel.contents hch
    have hfull : ∅ = sq.qFullWait := congrArg Channel.fullWait hch
    have hmust : (!lsq.isClosed && lsq.qp.isEmpty) = (!sq.isClosed && sq.qp.isEmpty) := by
      rw [hclosed, Singlylist.isEmpty, hcontents, Arraylist.isEmpty]
    have hmax := sq.pop_maxCapacity t timeout waitError o'
    rw [JobQueue.pop, JobQueue.pop]
    revert hmax
    simp only [SyncLlQueue.pop, SyncQueue.pop, hmust]
    split
    · intro _
      refine ⟨.intro _ _ ?_ htop, rfl⟩
      simp only [SyncLlQueue.channel, SyncQueue.channel, Channel.mk.injEq] at hch ⊢
      simp [hch]
    · intro hmax
      obtain ⟨hl, hlres⟩ := lsq.popAfterWait_eq
      obtain ⟨hs, hsres⟩ := SyncQueue.popAfterWait_of_unbounded hfull.symm o'
      refine ⟨.intro _ _ ?_ (hmax.trans htop), ?_⟩
      · rw [hl, hs, hch, hcontents]
      · rw [hlres, hsres, hcontents]

theorem popResume (h : q.Agrees q') (t : ℕ) (timeout : ℕ) {o o' : Outcome} (ho : o.Agrees o') :
    (q.popResume t timeout o).1.Agrees (q'.popResume t timeout o').1 ∧
      (q.popResume t timeout o).2 = (q'.popResume t timeout o').2 := by
  cases h with
  | intro lsq sq hch htop =>
    have hresumed : JobQueue.Agrees
        (.linkedlist { lsq with qEmptyWaitThreadCount := lsq.qEmptyWaitThreadCount - 1 })
        (.arraylist { sq with qEmptyWaitThreadCount := sq.qEmptyWaitThreadCount - 1 }) := by
      refine .intro _ _ ?_ htop
      simp only [SyncLlQueue.channel, SyncQueue.channel, Channel.mk.injEq] at hch ⊢
      simp [hch]
    have hpop := hresumed.pop t (leftOf timeout o.remaining) o.waitError o o'
    rw [ho.2.1, ho.2.2] at hpop
    rw [JobQueue.popResume, JobQueue.popResume, SyncLlQueue.popResume, SyncQueue.popResume, ho.2.1,
      ho.2.2]
    exact hpop

theorem close (h : q.Agrees q') : q.close.Agrees q'.close := by
  cases h with
  | intro lsq sq hch htop =>
    refine .intro _ _ ?_ htop
    rw [lsq.close_channel, sq.close_channel, hch]

theorem wakeEmpty (h : q.Agrees q') (t : ℕ) : (q.wakeEmpty t).Agrees (q'.wakeEmpty t) := by
  cases h with
  | intro lsq sq hch htop =>
    refine .intro _ _ ?_ htop
    simp only [SyncLlQueue.channel, SyncQueue.channel, Channel.mk.injEq] at hch ⊢
    simp [hch]

theorem wakeFull (h : q.Agrees q') (t : ℕ) : (q.wakeFull t).Agrees (q'.wakeFull t) := by
  cases h with
  | intro lsq sq hch htop =>
    refine .intro _ _ ?_ htop
    simp only [SyncLlQueue.channel, SyncQueue.channel, Channel.mk.injEq] at hch ⊢
    simp [← hch]

theorem isEmpty_eq (h : q.Agrees q') : q.isEmpty = q'.isEmpty := by
  rw [Bool.eq_iff_iff, isEmpty_iff, isEmpty_iff, h.channel_eq]

theorem getMaxCapacity_eq (h : q.Agrees q') : q.getMaxCapacity = q'.getMaxCapacity := by
  cases h with
  | intro lsq sq hch htop => exact htop.symm

theorem getThreadsWaitingOnEmpty_eq (h : q.Agrees q') :
    q.getThreadsWaitingOnEmpty = q'.getThreadsWaitingOnEmpty := by
  rw [JobQueue.getThreadsWaitingOnEmpty_eq, JobQueue.getThreadsWaitingOnEmpty_eq, h.channel_eq]

theorem getThreadsWaitingOnFull_eq (h : q.Agrees q') :
    q.getThreadsWaitingOnFull = q'.getThreadsWaitingOnFull := by
  cases h with
  | intro lsq sq hch htop => exact congrArg Channel.fullCount hch

end JobQueue.Agrees

theorem JobQueue.Agrees.cases {q q' : JobQueue α} (h : q.Agrees q') :
    ∃ lsq sq, q = .linkedlist lsq ∧ q' = .arraylist sq := by
  cases h with
  | intro lsq sq hch htop => exact ⟨lsq, sq, rfl, rfl⟩

/-! ## The threads -/

/-- The calls that both representations serve, with an element that is not queued. -/
def QueuePc.Served (q : JobQueue α) : QueuePc α → Prop
  | .called (.push d _) => d ∉ q.channel.contents
  | .called (.updateMaxCapacity _) => False
  | .called .isFull => False
  | _ => True

theorem queueWake_agrees {s s' : QueueState α} (h : s.Agrees s') (t : ℕ) (pc : QueuePc α) :
    Option.Rel QueueState.Agrees (queueWake s t pc) (queueWake s' t pc) := by
  obtain ⟨hqueue, hpushed, hpopped⟩ := h
  cases pc with
  | called k => exact .none
  | returned k r => exact .none
  | fullWait d timeout =>
    simp only [queueWake, hqueue.channel_eq]
    split
    · exact .some ⟨hqueue.wakeFull t, hpushed, hpopped⟩
    · exact .none
  | emptyWait timeout =>
    simp only [queueWake, hqueue.channel_eq]
    split
    · exact .some ⟨hqueue.wakeEmpty t, hpushed, hpopped⟩
    · exact .none

theorem QueuePc.served_congr {q q' : JobQueue α} (h : q.channel = q'.channel) (pc : QueuePc α) :
    pc.Served q ↔ pc.Served q' := by
  cases pc with
  | called k => cases k <;> simp [Served, h]
  | _ => exact Iff.rfl

/-- The same threads, none of them waiting for room, on queues that agree. -/
structure ConfigsAgree (c d : QueueConfig α) : Prop where
  alike : c.Alike QueueState.Agrees d
  noWait : ∀ t pc, c.pc? t = some pc → pc.waitsForRoom = false

theorem configsAgree_init :
    ConfigsAgree (queueInit (.linkedlist .init) : QueueConfig α)
      (queueInit (.arraylist (.init ⊤))) where
  alike := ⟨⟨.intro _ _ rfl rfl, rfl, rfl⟩, rfl⟩
  noWait t pc hpc := by cases hpc

/-- What the clients see: each call with its result, the elements in and out, and
    the threads that are blocked and that are woken. -/
structure ClientView (α : Type*) where
  threads : List (QueuePc α)
  pushed : List α
  popped : List α
  blockedPoppers : Finset ℕ
  wokenPoppers : Finset ℕ
  blockedPushers : Finset ℕ
  wokenPushers : Finset ℕ

def clientView (c : QueueConfig α) : ClientView α where
  threads := c.threads
  pushed := c.shared.pushed
  popped := c.shared.popped
  blockedPoppers := blockedPoppers c
  wokenPoppers := wokenPoppers c
  blockedPushers := blockedPushers c
  wokenPushers := wokenPushers c

theorem ConfigsAgree.view_eq {c d : QueueConfig α} (h : ConfigsAgree c d) :
    clientView c = clientView d := by
  obtain ⟨⟨hqueue, hpushed, hpopped⟩, hthreads⟩ := h.alike
  have hempty : c.shared.emptyWait = d.shared.emptyWait :=
    congrArg Channel.emptyWait hqueue.channel_eq
  have hfull : c.shared.fullWait = d.shared.fullWait :=
    congrArg Channel.fullWait hqueue.channel_eq
  simp only [clientView, hthreads, hpushed, hpopped, blockedPoppers, wokenPoppers, blockedPushers,
    wokenPushers, System.blocked, System.woken, h.alike.those_eq, hempty, hfull]

section Bisimulation

variable [DecidableEq α]

theorem queueStep_agrees {s s' : QueueState α} (h : s.Agrees s') {t : ℕ} {pc : QueuePc α}
    {o o' : Outcome} (ho : o.Agrees o') (hserved : pc.Served s.queue)
    (hroom : pc.waitsForRoom = false)
    (hgrow : pc.pushes = true → ∀ sq, s'.queue = .arraylist sq → sq.isFull = true →
      sq.qp.capacity < o'.capacity.getD 0) :
    Option.Rel (StepAlike QueueState.Agrees) (queueStep s t pc o) (queueStep s' t pc o') := by
  obtain ⟨hqueue, hpushed, hpopped⟩ := h
  have hpush : ∀ d timeout, ∀ {r r' : JobQueue α × Option Bool}, r.1.Agrees r'.1 ∧ r.2 = r'.2 →
      StepAlike QueueState.Agrees (s.afterPush d timeout r) (s'.afterPush d timeout r') := by
    rintro d timeout ⟨q, r⟩ ⟨q', r'⟩ ⟨hq, rfl⟩
    cases r with
    | none => exact ⟨⟨hq, hpushed, hpopped⟩, rfl⟩
    | some b => exact ⟨⟨hq, congrArg (· ++ _) hpushed, hpopped⟩, rfl⟩
  have hpop : ∀ timeout, ∀ {r r' : JobQueue α × Option (Option α)}, r.1.Agrees r'.1 ∧ r.2 = r'.2 →
      StepAlike QueueState.Agrees (s.afterPop timeout r) (s'.afterPop timeout r') := by
    rintro timeout ⟨q, r⟩ ⟨q', r'⟩ ⟨hq, rfl⟩
    cases r with
    | none => exact ⟨⟨hq, hpushed, hpopped⟩, rfl⟩
    | some d => exact ⟨⟨hq, hpushed, congrArg (· ++ _) hpopped⟩, rfl⟩
  cases pc with
  | returned k r => exact .none
  | fullWait d timeout => cases hroom
  | emptyWait timeout =>
    simp only [queueStep, hqueue.channel_eq]
    split
    · exact .none
    · rw [ho.2.2]
      exact .some (hpop _ (hqueue.popResume t timeout ho))
  | called k =>
    cases k with
    | push d timeout => exact .some (hpush _ _ (hqueue.push t hserved timeout false ho (hgrow rfl)))
    | pop timeout => exact .some (hpop _ (hqueue.pop t timeout false o o'))
    | close => exact .some ⟨⟨hqueue.close, hpushed, hpopped⟩, rfl⟩
    | updateMaxCapacity n => cases hserved
    | isFull => cases hserved
    | isEmpty =>
      refine .some ⟨⟨hqueue, hpushed, hpopped⟩, ?_⟩
      rw [hqueue.isEmpty_eq]
    | getMaxCapacity =>
      refine .some ⟨⟨hqueue, hpushed, hpopped⟩, ?_⟩
      rw [hqueue.getMaxCapacity_eq]
    | getThreadsWaitingOnEmpty =>
      refine .some ⟨⟨hqueue, hpushed, hpopped⟩, ?_⟩
      rw [hqueue.getThreadsWaitingOnEmpty_eq]
    | getThreadsWaitingOnFull =>
      refine .some ⟨⟨hqueue, hpushed, hpopped⟩, ?_⟩
      rw [hqueue.getThreadsWaitingOnFull_eq]

/-- No push of the linked list waits for room. -/
theorem queueStep_linkedlist {s s' : QueueState α} {t : ℕ} {pc pc' : QueuePc α}
    {new : List (QueuePc α)} {o : Outcome} {lsq : SyncLlQueue α} (hlsq : s.queue = .linkedlist lsq)
    (h : queueStep s t pc o = some (s', pc', new)) : new = [] ∧ pc'.waitsForRoom = false := by
  refine ⟨(queueStep_cases h).1, ?_⟩
  cases pc with
  | returned k r => cases h
  | fullWait d timeout =>
    simp only [queueStep, hlsq] at h
    split at h <;> cases h
    rfl
  | emptyWait timeout =>
    simp only [queueStep] at h
    split at h
    · cases h
    · generalize s.queue.popResume t timeout o = r at h
      obtain ⟨q, _ | d⟩ := r <;> cases h <;> rfl
  | called k =>
    cases k with
    | push d timeout =>
      simp only [queueStep, hlsq] at h
      cases h
      rfl
    | pop timeout =>
      simp only [queueStep] at h
      generalize s.queue.pop t timeout false o = r at h
      obtain ⟨q, _ | d⟩ := r <;> cases h <;> rfl
    | _ => cases h; rfl

/-- The transitions of the comparison: no element is pushed while it is queued, only
    the calls that both representations serve are made, and allocations succeed. -/
def Compared (c : QueueConfig α) (a : Act (QueueCall α) Outcome) : Prop :=
  pushesGrow c a = true ∧
    ∀ pc o, (queueSystem α).runs? c a = some (pc, o) → pc.Served c.shared.queue

variable (α) in
/-- The clients of a job queue against themselves, with any capacities allocated. -/
def clients : Comparison (QueueState α) (QueueState α) (QueuePc α) (QueuePc α) (QueueCall α)
    Outcome Outcome (ClientView α) where
  left := queueSystem α
  right := queueSystem α
  okLeft := Compared
  okRight := Compared
  outcomes := Outcome.Agrees
  viewLeft := clientView
  viewRight := clientView

theorem linkedlist_noWait_next {c c' : QueueConfig α} {a : Act (QueueCall α) Outcome}
    {lsq : SyncLlQueue α} (hlsq : c.shared.queue = .linkedlist lsq)
    (hc : ∀ t pc, c.pc? t = some pc → pc.waitsForRoom = false)
    (h : (queueSystem α).next c a = some c') :
    ∀ t pc, c'.pc? t = some pc → pc.waitsForRoom = false := by
  intro t pc hpc
  by_cases hold : c.pc? t = some pc
  · exact hc t pc hold
  · have hnew : ∀ {s u pc₀ o s' pc₁ new},
        (queueSystem α).step s u pc₀ o = some (s', pc₁, new) → pc ∉ new := by
      intro s u pc₀ o s' pc₁ new hstep
      rw [(queueStep_cases hstep).1]
      exact List.not_mem_nil
    obtain ⟨pc₀, o, new, hthread, hstep⟩ := System.next_moved_of_notMem h hpc hold hnew
    exact (queueStep_linkedlist hlsq hstep).2

theorem ConfigsAgree.runs?_noWait {c d : QueueConfig α} (h : ConfigsAgree c d)
    {a : Act (QueueCall α) Outcome} {pc : QueuePc α} {o : Outcome}
    (hruns : (queueSystem α).runs? c a = some (pc, o)) : pc.waitsForRoom = false := by
  cases a with
  | call k o' =>
    cases hruns
    rfl
  | step t o' =>
    obtain ⟨pc', hpc, heq⟩ := Option.map_eq_some_iff.mp hruns
    cases heq
    exact h.noWait t pc hpc
  | wake t => cases hruns

/-- Matched transitions of configurations that agree are both stuck, or both lead
    to configurations that agree. -/
theorem ConfigsAgree.next {c d : QueueConfig α} (h : ConfigsAgree c d)
    {a b : Act (QueueCall α) Outcome} (hab : a.Matches Outcome.Agrees b) (ha : Compared c a)
    (hb : Compared d b) :
    Option.Rel ConfigsAgree ((queueSystem α).next c a) ((queueSystem α).next d b) := by
  obtain ⟨lsq, sq, hlsq, hsq⟩ := h.alike.1.1.cases
  have hrel : Option.Rel (Config.Alike QueueState.Agrees) ((queueSystem α).next c a)
      ((queueSystem α).next d b) := by
    refine h.alike.next hab rfl ?_ fun t pc _ => queueWake_agrees h.alike.1 t pc
    intro t pc o o' hruns hruns' ho
    refine queueStep_agrees h.alike.1 ho (ha.2 pc o hruns) (h.runs?_noWait hruns) ?_
    intro hpushes sq' hsq' hfull
    have hgrow := hb.1
    simpa [pushesGrow, hsq', hruns', hpushes, hfull] using hgrow
  exact rel_mono hrel fun c' d' hc' _ halike =>
    ⟨halike, linkedlist_noWait_next hlsq h.noWait hc'⟩

/-- What the linked list does, the array list does with one more slot at hand. -/
theorem ConfigsAgree.forth {c d : QueueConfig α} (h : ConfigsAgree c d)
    {a : Act (QueueCall α) Outcome} (ha : Compared c a) :
    ∃ b, a.Matches Outcome.Agrees b ∧ Compared d b := by
  obtain ⟨lsq, sq, hlsq, hsq⟩ := h.alike.1.1.cases
  refine ⟨a.mapOutcome fun o => { o with capacity := some (sq.qp.capacity + 1) },
    Act.matches_mapOutcome (fun o => ⟨rfl, rfl, rfl⟩) a, ?_, ?_⟩
  · rw [pushesGrow, System.runs?_mapOutcome, hsq]
    cases (queueSystem α).runs? d a with
    | none => rfl
    | some r => simp
  · intro pc o hruns
    rw [System.runs?_mapOutcome, Option.map_eq_some_iff] at hruns
    obtain ⟨⟨pc', o'⟩, hruns, heq⟩ := hruns
    cases heq
    rw [← h.alike.runs?_eq (S := queueSystem α) rfl a] at hruns
    exact (QueuePc.served_congr h.alike.1.1.channel_eq _).mp (ha.2 _ _ hruns)

/-- What the array list does, the linked list does. -/
theorem ConfigsAgree.back {c d : QueueConfig α} (h : ConfigsAgree c d)
    {b : Act (QueueCall α) Outcome} (hb : Compared d b) :
    ∃ a, a.Matches Outcome.Agrees b ∧ Compared c a := by
  obtain ⟨lsq, sq, hlsq, hsq⟩ := h.alike.1.1.cases
  refine ⟨b, ?_, ?_, ?_⟩
  · cases b with
    | call k o => exact .call k ⟨rfl, rfl, rfl⟩
    | step t o => exact .step t ⟨rfl, rfl, rfl⟩
    | wake t => exact .wake t
  · rw [pushesGrow, hlsq]
  · intro pc o hruns
    rw [h.alike.runs?_eq (T := queueSystem α) rfl b] at hruns
    exact (QueuePc.served_congr h.alike.1.1.channel_eq _).mpr (hb.2 _ _ hruns)

theorem configsAgree_isBisimulation : (clients α).IsBisimulation ConfigsAgree :=
  .of_rel (fun _ _ h => h.view_eq) (fun _ _ _ _ h hab ha hb => h.next hab ha hb)
    (fun _ _ _ h ha => h.forth ha) (fun _ _ _ h hb => h.back hb)

/-- A push of thread `t` is blocked or woken, but has not returned. -/
def PushWaits (c : QueueConfig α) (t : ℕ) : Prop :=
  ∃ d timeout, c.pc? t = some (.fullWait d timeout)

/-- The linked-list queue and the array-list queue without a limit are bisimilar,
    with the same results, blocked threads and wake-ups, and in neither a push waits. -/
theorem representations_bisimilar :
    (clients α).Bisimilar (queueInit (.linkedlist .init)) (queueInit (.arraylist (.init ⊤))) ∧
    (∀ c, (queueSystem α).Reach Compared (queueInit (.linkedlist .init)) c → ∀ t, ¬PushWaits c t) ∧
    ∀ c, (queueSystem α).Reach Compared (queueInit (.arraylist (.init ⊤))) c →
      ∀ t, ¬PushWaits c t := by
  refine ⟨⟨_, configsAgree_isBisimulation, configsAgree_init⟩, ?_, ?_⟩
  · rintro c hc t ⟨d, timeout, hpc⟩
    obtain ⟨c', -, hagree⟩ := configsAgree_isBisimulation.reach_right configsAgree_init hc
    exact Bool.noConfusion (hagree.noWait t _ hpc)
  · rintro d hd t ⟨e, timeout, hpc⟩
    obtain ⟨c, -, hagree⟩ := configsAgree_isBisimulation.reach_left configsAgree_init hd
    exact Bool.noConfusion (hagree.noWait t _ ((hagree.alike.pc?_eq t).trans hpc))

end Bisimulation

end BoomPar
