-- SUMMARY: Pushers of the array-list queue against its limit: exactly which push strands the pushers blocked behind it.
import BoomPar.QueueWakeups

/-!
# Wake-ups of pushers

A pop wakes one pusher, and a raised limit wakes them all, but only when the
queue happens to be full. A push that resumes last and leaves room behind it is
the one step after which a pusher can stay blocked with its condition gone.
-/

namespace BoomPar

open Monitor

variable {α : Type*}

namespace SyncQueue

/-- The condition a pusher waits on: the array list is full and its capacity
    reached the limit. -/
def atLimit (sq : SyncQueue α) : Bool :=
  sq.isFull && sq.hasCapacityCrossedMaxCapacityLimits

/-- A pusher is blocked on an open queue only while another one is woken, or its
    condition holds. -/
def Settled (sq : SyncQueue α) : Prop :=
  sq.isClosed = false → sq.qFullWait.Nonempty →
    sq.qFullWait.card < sq.qFullWaitThreadCount ∨ sq.atLimit = true

/-- One element fills the capacity, after a growth when the array list is full,
    and that capacity reaches the limit. -/
def FillsLimit (sq : SyncQueue α) (o : Outcome) : Prop :=
  (if sq.isFull = true then o.capacity else some sq.qp.capacity) =
      some (sq.qp.elementCount + 1) ∧
    sq.maxCapacity ≤ (sq.qp.elementCount + 1 : ℕ)

instance (sq : SyncQueue α) (o : Outcome) : Decidable (sq.FillsLimit o) :=
  inferInstanceAs (Decidable (_ ∧ _))

theorem isFull_iff {sq : SyncQueue α} :
    sq.isFull = true ↔ sq.qp.contents.length = sq.qp.capacity := by
  simp [isFull, Arraylist.isFull]

theorem hasCapacityCrossed_iff {sq : SyncQueue α} :
    sq.hasCapacityCrossedMaxCapacityLimits = true ↔ sq.maxCapacity ≤ sq.qp.capacity := by
  unfold hasCapacityCrossedMaxCapacityLimits
  split
  · rename_i htop
    have hcapacity : (sq.qp.capacity : WithTop ℕ) ≠ ⊤ := WithTop.coe_ne_top
    simp [htop, hcapacity]
  · exact decide_eq_true_iff

theorem atLimit_iff {sq : SyncQueue α} :
    sq.atLimit = true ↔ sq.qp.contents.length = sq.qp.capacity ∧
      sq.maxCapacity ≤ sq.qp.capacity := by
  rw [atLimit, Bool.and_eq_true, isFull_iff, hasCapacityCrossed_iff]

theorem pushMustWait_eq (sq : SyncQueue α) : sq.pushMustWait = (!sq.isClosed && sq.atLimit) :=
  Bool.and_assoc _ _ _

/-! ## Pushing -/

/-- A push changes nothing that a waiting pusher depends on while the limit is reached. -/
theorem pushAfterWait_of_atLimit {sq : SyncQueue α} (h : sq.atLimit = true) (d : α) (o : Outcome) :
    sq.pushAfterWait d o = (sq, false) := by
  obtain ⟨hfull, hlimit⟩ := Bool.and_eq_true_iff.mp h
  have hexpand : sq.expandForPush o = sq.qp := by simp [expandForPush, hlimit]
  have hpush : sq.qp.pushBack d = (sq.qp, false) := by
    simp [Arraylist.pushBack, (isFull_iff.mp hfull)]
  unfold pushAfterWait
  split
  · rfl
  · simp [hexpand, hpush]

theorem atLimit_pushAfterWait {sq : SyncQueue α} (hopen : sq.isClosed = false) (d : α)
    (o : Outcome) : (sq.pushAfterWait d o).1.atLimit = true ↔
      (if sq.qp.contents.length < (sq.expandForPush o).capacity then sq.qp.contents.length + 1
        else sq.qp.contents.length) = (sq.expandForPush o).capacity ∧
      sq.maxCapacity ≤ (sq.expandForPush o).capacity := by
  rw [atLimit_iff]
  simp [pushAfterWait, hopen, Arraylist.length_pushBack]

/-- After a push into an open queue below its limit the limit is reached exactly
    if the push took the last slot of a capacity that reaches it. -/
theorem atLimit_pushAfterWait_iff {sq : SyncQueue α} (hopen : sq.isClosed = false)
    (h : sq.atLimit = false) (d : α) (o : Outcome) :
    (sq.pushAfterWait d o).1.atLimit = true ↔ sq.FillsLimit o := by
  have hle := sq.qp.length_le
  have hlimit : ¬(sq.qp.contents.length = sq.qp.capacity ∧ sq.maxCapacity ≤ sq.qp.capacity) := by
    rw [← atLimit_iff, h]
    exact Bool.false_ne_true
  rw [atLimit_pushAfterWait hopen, FillsLimit, Arraylist.elementCount]
  cases hfull : sq.isFull with
  | false =>
    have hlt : sq.qp.contents.length < sq.qp.capacity := by
      refine Nat.lt_of_le_of_ne hle fun heq => ?_
      rw [isFull_iff.mpr heq] at hfull
      cases hfull
    have hexpand : sq.expandForPush o = sq.qp := by
      simp only [expandForPush]
      rw [if_neg]
      rintro ⟨hf, -⟩
      exact Bool.false_ne_true (hfull.symm.trans hf)
    simp only [hexpand, if_pos hlt, Bool.false_eq_true, if_false, Option.some.injEq]
    constructor
    · rintro ⟨heq, hmax⟩
      exact ⟨heq.symm, heq ▸ hmax⟩
    · rintro ⟨heq, hmax⟩
      exact ⟨heq.symm, heq ▸ hmax⟩
  | true =>
    have heq := isFull_iff.mp hfull
    have hroom : ¬sq.maxCapacity ≤ sq.qp.capacity := fun hmax => hlimit ⟨heq, hmax⟩
    have hcrossed : sq.hasCapacityCrossedMaxCapacityLimits = false := by
      rw [← Bool.not_eq_true, hasCapacityCrossed_iff]
      exact hroom
    have hexpand : sq.expandForPush o = sq.qp.expand o.capacity := by
      simp only [expandForPush]
      exact if_pos ⟨hfull, hcrossed⟩
    simp only [hexpand, Arraylist.capacity_expand, heq, if_true]
    cases hcap : o.capacity with
    | none => simpa using hroom
    | some k =>
      simp only [Option.getD_some, Option.some.injEq]
      by_cases hlt : sq.qp.capacity < k
      · simp only [Nat.max_eq_right (Nat.le_of_lt hlt), if_pos hlt]
        constructor
        · rintro ⟨hk, hmax⟩
          exact ⟨hk.symm, hk ▸ hmax⟩
        · rintro ⟨rfl, hmax⟩
          exact ⟨rfl, hmax⟩
      · -- the allocator gave no more room, so the push failed below the limit
        simp only [Nat.max_eq_left (Nat.le_of_not_lt hlt), if_neg (Nat.lt_irrefl _)]
        constructor
        · exact fun h => absurd h.2 hroom
        · rintro ⟨rfl, -⟩
          exact absurd (Nat.lt_succ_self _) hlt

@[simp] theorem pushAfterWait_qFullWait (sq : SyncQueue α) (d : α) (o : Outcome) :
    (sq.pushAfterWait d o).1.qFullWait = sq.qFullWait := by
  unfold pushAfterWait
  split <;> rfl

@[simp] theorem pushAfterWait_qFullWaitThreadCount (sq : SyncQueue α) (d : α) (o : Outcome) :
    (sq.pushAfterWait d o).1.qFullWaitThreadCount = sq.qFullWaitThreadCount := by
  unfold pushAfterWait
  split <;> rfl

@[simp] theorem pushAfterWait_isClosed (sq : SyncQueue α) (d : α) (o : Outcome) :
    (sq.pushAfterWait d o).1.isClosed = sq.isClosed := by
  unfold pushAfterWait
  split <;> rfl

/-! ## Settled queues -/

theorem Settled.push {sq : SyncQueue α} (h : sq.Settled) (t : ℕ) (d : α) (timeout : ℕ)
    (waitError : Bool) (o : Outcome) : (sq.push t d timeout waitError o).1.Settled := by
  unfold SyncQueue.push
  split
  · rename_i hwait
    rw [pushMustWait_eq, Bool.and_eq_true] at hwait
    exact fun _ _ => .inr hwait.1.2
  · cases hlimit : sq.atLimit with
    | true => rw [pushAfterWait_of_atLimit hlimit]; exact h
    | false =>
      intro hopen hne
      simp only [pushAfterWait_isClosed, pushAfterWait_qFullWait] at hopen hne
      obtain hlt | htrue := h hopen hne
      · exact .inl (by simpa using hlt)
      · rw [hlimit] at htrue
        cases htrue

/-- A pusher that resumes keeps the queue settled, unless it is the last woken
    one and leaves the blocked ones with room. -/
theorem settled_pushResume_iff {sq : SyncQueue α}
    (hlt : sq.qFullWait.card < sq.qFullWaitThreadCount)
    (t : ℕ) (d : α) (timeout : ℕ) (o : Outcome) : (sq.pushResume t d timeout o).1.Settled ↔
      (sq.isClosed = false → sq.qFullWait.Nonempty →
        sq.qFullWait.card + 1 = sq.qFullWaitThreadCount → sq.atLimit = false →
        sq.FillsLimit o) := by
  simp only [pushResume, SyncQueue.push]
  generalize hsq : { sq with qFullWaitThreadCount := sq.qFullWaitThreadCount - 1 } = resumed
  have hlimit : resumed.atLimit = sq.atLimit := by rw [← hsq]; rfl
  have hfills : resumed.FillsLimit o ↔ sq.FillsLimit o := by rw [← hsq]; rfl
  have hclosed : resumed.isClosed = sq.isClosed := by rw [← hsq]
  have hwait : resumed.qFullWait = sq.qFullWait := by rw [← hsq]
  have hcount : resumed.qFullWaitThreadCount = sq.qFullWaitThreadCount - 1 := by rw [← hsq]
  cases htrue : sq.atLimit with
  | true =>
    rw [htrue] at hlimit
    refine iff_of_true ?_ nofun
    split
    · exact fun _ _ => .inr htrue
    · rw [pushAfterWait_of_atLimit hlimit]
      exact fun _ _ => .inr hlimit
  | false =>
    rw [htrue] at hlimit
    rw [if_neg (by simp [pushMustWait_eq, hlimit])]
    simp only [Settled, pushAfterWait_isClosed, pushAfterWait_qFullWait,
      pushAfterWait_qFullWaitThreadCount, hclosed, hwait, hcount]
    refine forall_congr' fun hopen => forall_congr' fun _ => ?_
    rw [atLimit_pushAfterWait_iff (hclosed.trans hopen) hlimit, hfills]
    constructor
    · rintro (hmore | hf) hlast _
      · omega
      · exact hf
    · intro hf
      by_cases hlast : sq.qFullWait.card + 1 = sq.qFullWaitThreadCount
      · exact .inr (hf hlast trivial)
      · exact .inl (by omega)

theorem Settled.pop {sq : SyncQueue α} (h : sq.Settled)
    (hcard : sq.qFullWait.card ≤ sq.qFullWaitThreadCount) (t : ℕ) (timeout : ℕ)
    (waitError : Bool) (o : Outcome) : (sq.pop t timeout waitError o).1.Settled := by
  unfold SyncQueue.pop
  split
  · exact h
  · obtain ⟨d, rest, -, hp, -, -⟩ | ⟨hnil, hp, hsame⟩ := sq.qp.popFront_cases
    · -- a pop that took an element signals, so one pusher fewer is blocked
      intro hopen hne
      have hopen' : sq.isClosed = false := hopen
      simp only [popAfterWait, hp, hopen', Bool.not_false, Bool.and_true] at hne ⊢
      have hne₀ : sq.qFullWait.Nonempty := hne.mono fun u hu => CondVar.mem_of_mem_signalIf hu
      have hpos := Finset.card_pos.mpr hne₀
      have hcount : decide (0 < sq.qFullWaitThreadCount) = true := by
        simp only [decide_eq_true_eq]
        omega
      have := CondVar.card_signal o.woken hne₀
      simp only [Bool.true_and, hcount, CondVar.signalIf_true]
      exact .inl (by omega)
    · intro hopen hne
      simp only [popAfterWait, hp, Bool.and_false, Bool.false_and, CondVar.signalIf_false] at hne ⊢
      obtain hlt | hlimit := h hopen hne
      · exact .inl hlt
      · have hcap : sq.qp.capacity = 0 := by
          rw [← (atLimit_iff.mp hlimit).1, hnil]
          rfl
        have hshrink : shrinkAfterPop sq.qp o = sq.qp := by simp [shrinkAfterPop, hcap]
        refine .inr ?_
        rw [hsame, hshrink]
        exact hlimit

theorem Settled.close {sq : SyncQueue α} : sq.close.Settled := nofun

theorem Settled.updateMaxCapacity {sq : SyncQueue α} (h : sq.Settled)
    (hcard : sq.qFullWait.card ≤ sq.qFullWaitThreadCount) (n : WithTop ℕ) :
    (sq.updateMaxCapacity n).Settled := by
  intro hopen hne
  simp only [SyncQueue.updateMaxCapacity] at hne ⊢
  cases hwake : sq.qp.isFull && decide (0 < sq.qFullWaitThreadCount) &&
      decide (sq.maxCapacity < n) with
  | true =>
    rw [hwake, CondVar.broadcastIf_true] at hne
    exact absurd hne Finset.not_nonempty_empty
  | false =>
    rw [hwake, CondVar.broadcastIf_false] at hne
    obtain hlt | hlimit := h hopen hne
    · exact .inl hlt
    · -- the limit did not rise above the capacity, or the blocked pushers were woken
      obtain ⟨hfull, hmax⟩ := atLimit_iff.mp hlimit
      have hpos := Finset.card_pos.mpr hne
      have hle : n ≤ sq.maxCapacity := by
        rw [← not_lt]
        intro hlt
        have hcount : 0 < sq.qFullWaitThreadCount := by omega
        simp [hlt, hcount, Arraylist.isFull, hfull] at hwake
      exact .inr (atLimit_iff.mpr ⟨hfull, hle.trans hmax⟩)

theorem Settled.wakeFull {sq : SyncQueue α} (h : sq.Settled) (t : ℕ) :
    { sq with qFullWait := sq.qFullWait.erase t }.Settled := by
  intro hopen hne
  obtain hlt | hlimit := h hopen (hne.mono (Finset.erase_subset _ _))
  · exact .inl (Nat.lt_of_le_of_lt (Finset.card_erase_le) hlt)
  · exact .inr hlimit

end SyncQueue

/-! ## Threads on the array-list queue -/

/-- What a step does to the array-list queue. -/
inductive LimitMove (sq : SyncQueue α) (t : ℕ) (o : Outcome) : QueuePc α → SyncQueue α → Prop
  | push (d : α) (timeout : ℕ) :
      LimitMove sq t o (.called (.push d timeout)) (sq.push t d timeout false o).1
  | pushResume (d : α) (timeout : ℕ) : t ∉ sq.qFullWait →
      LimitMove sq t o (.fullWait d timeout) (sq.pushResume t d timeout o).1
  | pop (timeout : ℕ) :
      LimitMove sq t o (.called (.pop timeout)) (sq.pop t timeout false o).1
  | popResume (timeout : ℕ) :
      LimitMove sq t o (.emptyWait timeout) (sq.popResume t timeout o).1
  | close : LimitMove sq t o (.called .close) sq.close
  | updateMaxCapacity (n : WithTop ℕ) :
      LimitMove sq t o (.called (.updateMaxCapacity n)) (sq.updateMaxCapacity n)
  | query (k : QueueCall α) : LimitMove sq t o (.called k) sq

theorem queueStep_arraylist [DecidableEq α] {s s' : QueueState α} {t : ℕ} {pc pc' : QueuePc α}
    {new : List (QueuePc α)} {o : Outcome} {sq : SyncQueue α} (hsq : s.queue = .arraylist sq)
    (h : queueStep s t pc o = some (s', pc', new)) :
    ∃ sq', s'.queue = .arraylist sq' ∧ LimitMove sq t o pc sq' := by
  have hqueue : ∀ {r : QueueState α × QueuePc α × List (QueuePc α)}, r = (s', pc', new) →
      s'.queue = r.1.queue := fun hr => hr ▸ rfl
  cases pc with
  | returned k r => cases h
  | fullWait d timeout =>
    simp only [queueStep] at h
    split at h
    · cases h
    · rename_i hwoken
      rw [hsq] at hwoken
      refine ⟨_, ?_, .pushResume d timeout hwoken⟩
      rw [hqueue (Option.some.inj h), afterPush_queue, hsq]
      rfl
  | emptyWait timeout =>
    simp only [queueStep] at h
    split at h
    · cases h
    · refine ⟨_, ?_, .popResume timeout⟩
      rw [hqueue (Option.some.inj h), afterPop_queue, hsq]
      rfl
  | called k =>
    cases k with
    | push d timeout =>
      refine ⟨_, ?_, .push d timeout⟩
      rw [hqueue (Option.some.inj h), afterPush_queue, hsq]
      rfl
    | pop timeout =>
      refine ⟨_, ?_, .pop timeout⟩
      rw [hqueue (Option.some.inj h), afterPop_queue, hsq]
      rfl
    | close => cases h; exact ⟨sq.close, by rw [hsq]; rfl, .close⟩
    | updateMaxCapacity n =>
      cases h
      exact ⟨sq.updateMaxCapacity n, by rw [hsq]; rfl, .updateMaxCapacity n⟩
    | isFull => cases h; exact ⟨sq, hsq, .query _⟩
    | isEmpty => cases h; exact ⟨sq, hsq, .query _⟩
    | getMaxCapacity => cases h; exact ⟨sq, hsq, .query _⟩
    | getThreadsWaitingOnEmpty => cases h; exact ⟨sq, hsq, .query _⟩
    | getThreadsWaitingOnFull => cases h; exact ⟨sq, hsq, .query _⟩

/-- The pushers blocked on `q_full_wait`. -/
def blockedPushers (c : QueueConfig α) : Finset ℕ :=
  System.blocked QueueState.fullWait QueuePc.waitsForRoom c

/-- The pushers woken from `q_full_wait` that have not re-acquired the lock. -/
def wokenPushers (c : QueueConfig α) : Finset ℕ :=
  System.woken QueueState.fullWait QueuePc.waitsForRoom c

/-- While the queue is open and no pusher is woken, the condition of a blocked
    pusher holds. -/
def PushersNotLost (c : QueueConfig α) : Prop :=
  c.shared.queue.channel.closed = false → wokenPushers c = ∅ → (blockedPushers c).Nonempty →
    ∃ sq, c.shared.queue = .arraylist sq ∧ sq.isFull = true ∧ sq.maxCapacity ≤ sq.qp.capacity

/-- When the last woken pusher resumes on an open queue and finds room while
    others are still blocked, its element takes the last slot. -/
def LastPusherFills (c : QueueConfig α) (a : Act (QueueCall α) Outcome) : Prop :=
  ∀ t o d timeout sq, a = .step t o → c.pc? t = some (.fullWait d timeout) →
    c.shared.queue = .arraylist sq → sq.isClosed = false → wokenPushers c = {t} →
    (blockedPushers c).Nonempty → sq.atLimit = false → sq.FillsLimit o

theorem QueueInv.card_fullWait {c : QueueConfig α} (hc : QueueInv c) {sq : SyncQueue α}
    (hsq : c.shared.queue = .arraylist sq) :
    sq.qFullWait.card + (wokenPushers c).card = sq.qFullWaitThreadCount := by
  have hcount := hc.fullWait.card_add_card_woken
  rw [hc.fullCount] at hcount
  simp only [hsq] at hcount
  exact hcount

theorem QueueInv.blockedPushers_eq {c : QueueConfig α} (hc : QueueInv c) {sq : SyncQueue α}
    (hsq : c.shared.queue = .arraylist sq) : blockedPushers c = sq.qFullWait := by
  have hblocked : blockedPushers c = c.shared.queue.channel.fullWait := hc.fullWait.blocked_eq
  rw [hblocked, hsq]
  rfl

theorem QueueInv.settled_iff {c : QueueConfig α} (hc : QueueInv c) {sq : SyncQueue α}
    (hsq : c.shared.queue = .arraylist sq) : PushersNotLost c ↔ sq.Settled := by
  have hcard := hc.card_fullWait hsq
  rw [PushersNotLost, hc.blockedPushers_eq hsq, SyncQueue.Settled, ← Finset.card_eq_zero]
  simp only [hsq, JobQueue.arraylist.injEq, exists_eq_left', SyncQueue.isFull_iff,
    SyncQueue.atLimit_iff, JobQueue.channel, SyncQueue.channel_closed]
  refine forall_congr' fun hopen => ?_
  constructor
  · intro h hne
    by_cases hwoken : (wokenPushers c).card = 0
    · exact .inr (h hwoken hne)
    · exact .inl (by omega)
  · intro h hwoken hne
    exact (h hne).resolve_left (by omega)

theorem QueueInv.lastPusherFills_iff {c : QueueConfig α} (hc : QueueInv c) {sq : SyncQueue α}
    (hsq : c.shared.queue = .arraylist sq) {t : ℕ} {d : α} {timeout : ℕ}
    (hpc : c.pc? t = some (.fullWait d timeout)) (ht : t ∉ sq.qFullWait) (o : Outcome) :
    LastPusherFills c (.step t o) ↔
      (sq.isClosed = false → sq.qFullWait.Nonempty →
        sq.qFullWait.card + 1 = sq.qFullWaitThreadCount → sq.atLimit = false →
        sq.FillsLimit o) := by
  have hcard := hc.card_fullWait hsq
  have hmem : t ∈ wokenPushers c := by
    refine Finset.mem_sdiff.mpr ⟨Config.mem_those.mpr ⟨_, hpc, rfl⟩, ?_⟩
    rw [QueueState.fullWait, hsq]
    exact ht
  have hlast : wokenPushers c = {t} ↔ sq.qFullWait.card + 1 = sq.qFullWaitThreadCount := by
    rw [← hcard, Nat.add_left_cancel_iff]
    constructor
    · intro h
      rw [h, Finset.card_singleton]
    · intro h
      obtain ⟨u, hu⟩ := Finset.card_eq_one.mp h.symm
      rw [hu, Finset.mem_singleton] at hmem
      rw [hu, hmem]
  rw [← hlast, ← hc.blockedPushers_eq hsq]
  constructor
  · exact fun h hopen hne hw => h t o d timeout sq rfl hpc hsq hopen hw hne
  · intro h t' o' d' timeout' sq' ha _ hsq' hopen hw hne hroom
    cases ha
    cases hsq.symm.trans hsq'
    exact h hopen hne hw hroom

theorem LimitMove.settled {c : QueueConfig α} (hc : QueueInv c) {sq sq' : SyncQueue α}
    (hsq : c.shared.queue = .arraylist sq) (hs : sq.Settled) {t : ℕ} {o : Outcome}
    {pc : QueuePc α} (h : LimitMove sq t o pc sq') (hpc : pc.waitsForRoom = false) :
    sq'.Settled := by
  have hcard := Nat.le.intro (hc.card_fullWait hsq)
  cases h with
  | push d timeout => exact hs.push t d timeout false o
  | pushResume d timeout _ => cases hpc
  | pop timeout => exact hs.pop hcard t timeout false o
  | popResume timeout =>
    have hresumed : SyncQueue.Settled
        { sq with qEmptyWaitThreadCount := sq.qEmptyWaitThreadCount - 1 } := hs
    exact hresumed.pop hcard t _ _ o
  | close => exact .close
  | updateMaxCapacity n => exact hs.updateMaxCapacity hcard n
  | query k => exact hs

section Runs

variable [DecidableEq α]

/-- One transition keeps the queue settled exactly if the last woken pusher,
    should it be the one that moves, fills the queue. -/
theorem settled_next_iff {c c' : QueueConfig α} {a : Act (QueueCall α) Outcome}
    (hc : QueueInv c) {sq : SyncQueue α} (hsq : c.shared.queue = .arraylist sq)
    (hs : sq.Settled) (h : (queueSystem α).next c a = some c') :
    ∃ sq', c'.shared.queue = .arraylist sq' ∧ (sq'.Settled ↔ LastPusherFills c a) := by
  cases a with
  | call k o =>
    obtain ⟨pc, s, pc', new, hpc, hstep, rfl⟩ := System.stepAt_cases h
    rw [Config.pc?_push_self] at hpc
    cases hpc
    obtain ⟨sq', hsq', hmove⟩ := queueStep_arraylist hsq hstep
    exact ⟨sq', hsq', iff_of_true (hmove.settled hc hsq hs rfl) nofun⟩
  | step t o =>
    obtain ⟨pc, s, pc', new, hpc, hstep, rfl⟩ := System.stepAt_cases h
    obtain ⟨sq', hsq', hmove⟩ := queueStep_arraylist hsq hstep
    refine ⟨sq', hsq', ?_⟩
    cases hwaits : pc.waitsForRoom with
    | false =>
      refine iff_of_true (hmove.settled hc hsq hs hwaits) ?_
      intro t' o' d timeout sq₁ ha hpc'
      cases ha
      cases hpc.symm.trans hpc'
      cases hwaits
    | true =>
      cases hmove with
      | pushResume d timeout hwoken =>
        have hlt : sq.qFullWait.card < sq.qFullWaitThreadCount := by
          have hnot : t ∉ c.shared.queue.channel.fullWait := by
            rw [hsq]
            exact hwoken
          have hlt := hc.fullWait.card_lt hpc rfl hnot
          simp only [hc.fullCount, hsq] at hlt
          exact hlt
        rw [SyncQueue.settled_pushResume_iff hlt, hc.lastPusherFills_iff hsq hpc hwoken]
      | _ => cases hwaits
  | wake t =>
    obtain ⟨pc, s, hpc, hwake, rfl⟩ := System.next_wake_cases h
    obtain rfl | rfl := queueWake_cases hwake
    · exact ⟨_, by rw [hsq]; rfl, iff_of_true (hs.wakeFull t) nofun⟩
    · exact ⟨{ sq with qEmptyWait := sq.qEmptyWait.erase t }, by rw [hsq]; rfl,
        iff_of_true hs nofun⟩

/-- The arraylist queue stays one. -/
theorem arraylist_reach {m : WithTop ℕ} {c : QueueConfig α}
    (h : QueueReach (.arraylist (.init m)) c) : ∃ sq, c.shared.queue = .arraylist sq := by
  refine System.Reach.invariant (P := fun c => ∃ sq, c.shared.queue = .arraylist sq)
    ⟨_, rfl⟩ ?_ h
  intro c a c' _ hc _ hn
  refine System.next_induction (P := fun c => ∃ sq, c.shared.queue = .arraylist sq)
    ?_ ?_ ?_ hc hn
  · exact fun c k hc => hc
  · intro c t pc o s pc' new ⟨sq, hsq⟩ _ hs
    obtain ⟨sq', hsq', -⟩ := queueStep_arraylist hsq hs
    exact ⟨sq', hsq'⟩
  · intro c t pc s ⟨sq, hsq⟩ _ hs
    obtain rfl | rfl := queueWake_cases hs
    · exact ⟨{ sq with qFullWait := sq.qFullWait.erase t }, by rw [hsq]; rfl⟩
    · exact ⟨{ sq with qEmptyWait := sq.qEmptyWait.erase t }, by rw [hsq]; rfl⟩

/-- A run strands no pusher exactly if the last woken pusher always takes the
    last slot of a capacity that reaches the limit. -/
theorem pushers_not_lost_iff (m : WithTop ℕ) (as : List (Act (QueueCall α) Outcome)) :
    (∀ c, (queueSystem α).Visits (queueInit (.arraylist (.init m))) as c → PushersNotLost c) ↔
      ∀ c a c', (queueSystem α).Takes (queueInit (.arraylist (.init m))) as c a c' →
        LastPusherFills c a := by
  refine System.forall_visits_iff ?_ ?_ as
  · exact fun _ _ hne => absurd hne Finset.not_nonempty_empty
  · intro c a c' hreach hc hn
    have hinv := queue_invariant (.arraylist m) hreach
    obtain ⟨sq, hsq⟩ := arraylist_reach hreach
    obtain ⟨sq', hsq', hiff⟩ := settled_next_iff hinv hsq ((hinv.settled_iff hsq).mp hc) hn
    rw [QueueInv.settled_iff (queueSystem_uses.next hinv hn) hsq']
    exact hiff

/-- A full array list that has to grow gets more room. -/
def growthSucceeds (c : QueueConfig α) (a : Act (QueueCall α) Outcome) : Bool :=
  match c.shared.queue, a.outcome? with
  | .arraylist sq, some o => !sq.isFull || sq.qp.capacity < o.capacity.getD 0
  | _, _ => true

/-- Two pushers block on a full queue of limit 3; a pop wakes the first, and the
    limit is raised before it resumes and fills the queue again. -/
def strandedPusher : QueueConfig ℕ :=
  (queueSystem ℕ).checkedRun (fun c a => growthSucceeds c a = true)
    (queueInit (.arraylist (.init (3 : ℕ))))
    [.call (.push 1 blocking) (.resize 1), .call (.push 2 blocking) (.resize 3),
      .call (.push 3 blocking) (.resize 3), .call (.push 4 blocking) (.resize 7),
      .call (.push 5 blocking) (.resize 7), .call (.pop blocking) (.resize 7),
      .call (.updateMaxCapacity (10 : ℕ)) (.resize 7), .step 3 (.resize 7)] (by decide)

/-- The second pusher stays blocked, although the full array list could grow. -/
theorem pushers_lost : ∃ c : QueueConfig ℕ,
    (queueSystem ℕ).Reach (fun c a => growthSucceeds c a = true)
      (queueInit (.arraylist (.init (3 : ℕ)))) c ∧ ¬PushersNotLost c := by
  refine ⟨strandedPusher, .checkedRun _ _ _ _, ?_⟩
  intro h
  obtain ⟨sq, hsq, -, hmax⟩ := h (by decide) (by decide) (by decide)
  cases hsq
  revert hmax
  decide

end Runs

end BoomPar
