-- SUMMARY: Closable FIFO channels with waiting senders and receivers: the abstract operations and the invariant that no receiver misses a wake-up.
import BoomPar.Monitor.CondVar

/-!
# Closable FIFO channels

What a closable blocking queue is for, without its representation: a list of
elements, a closed flag, and the threads waiting for an element or for room.
Whether a sender finds room is left to the representation. Each side keeps a
count of its waiting threads, which includes those woken but not yet resumed.
-/

namespace Monitor

structure Channel (α : Type*) where
  contents : List α
  closed : Bool
  emptyWait : CondVar
  emptyCount : ℕ
  fullWait : CondVar
  fullCount : ℕ

namespace Channel

variable {α : Type*}

/-- A new channel. -/
def empty : Channel α := ⟨[], false, ∅, 0, ∅, 0⟩

/-- Thread `t` sends `d`: it waits, is refused, or appends the element and wakes
    one receiver. The result of a thread that waits is `none`. -/
inductive Push (ch : Channel α) (t : ℕ) (d : α) : Channel α → Option Bool → Prop
  | wait : ch.closed = false →
      Push ch t d { ch with fullWait := ch.fullWait.wait t, fullCount := ch.fullCount + 1 } none
  | refuse : Push ch t d ch (some false)
  | accept (u : ℕ) : ch.closed = false →
      Push ch t d
        { ch with
          contents := ch.contents ++ [d]
          emptyWait := ch.emptyWait.signalIf (0 < ch.emptyCount) u }
        (some true)

/-- Thread `t` receives: it waits for an element of an open empty channel unless
    it has to `quit`, finds nothing, or takes the first element and may wake a sender. -/
inductive Pop (ch : Channel α) (t : ℕ) (quit : Bool) : Channel α → Option (Option α) → Prop
  | wait : ch.closed = false → ch.contents = [] → quit = false →
      Pop ch t quit { ch with emptyWait := ch.emptyWait.wait t, emptyCount := ch.emptyCount + 1 }
        none
  | nothing : ch.contents = [] → (ch.closed = true ∨ quit = true) →
      Pop ch t quit ch (some none)
  | take (d : α) (rest : List α) (u : ℕ) : ch.contents = d :: rest →
      Pop ch t quit
        { ch with
          contents := rest
          fullWait := ch.fullWait.signalIf (!ch.closed && 0 < ch.fullCount) u }
        (some (some d))

/-- Close the channel; every waiting thread is woken. -/
def close (ch : Channel α) : Channel α :=
  { ch with
    closed := true
    fullWait := ch.fullWait.broadcastIf (!ch.closed && 0 < ch.fullCount)
    emptyWait := ch.emptyWait.broadcastIf (!ch.closed && 0 < ch.emptyCount) }

/-- A receiver that was woken takes itself out of the count. -/
def resumeEmpty (ch : Channel α) : Channel α := { ch with emptyCount := ch.emptyCount - 1 }

/-- A sender that was woken takes itself out of the count. -/
def resumeFull (ch : Channel α) : Channel α := { ch with fullCount := ch.fullCount - 1 }

/-- The counts cover the blocked threads. -/
structure Counted (ch : Channel α) : Prop where
  empty : ch.emptyWait.card ≤ ch.emptyCount
  full : ch.fullWait.card ≤ ch.fullCount

/-- No thread is blocked on a closed channel, and while a receiver is blocked on
    an open one there are no more elements than receivers woken but not yet
    resumed. -/
structure Awake (ch : Channel α) : Prop where
  closed_empty : ch.closed = true → ch.emptyWait = ∅
  closed_full : ch.closed = true → ch.fullWait = ∅
  elements : ch.closed = false → ch.emptyWait.Nonempty →
    ch.contents.length + ch.emptyWait.card ≤ ch.emptyCount

/-- How many receivers are woken and have not resumed. -/
def woken (ch : Channel α) : ℕ := ch.emptyCount - ch.emptyWait.card

theorem Awake.length_le_woken {ch : Channel α} (ha : Awake ch) (hne : ch.emptyWait.Nonempty) :
    ch.contents.length ≤ ch.woken := by
  cases hopen : ch.closed with
  | true =>
    rw [ha.closed_empty hopen] at hne
    exact absurd hne Finset.not_nonempty_empty
  | false => exact Nat.le_sub_of_add_le (ha.elements hopen hne)

/-! ## What one operation changes -/

section Push

variable {ch ch' : Channel α} {t : ℕ} {d : α} {r : Option Bool}

theorem Push.closed_eq (h : Push ch t d ch' r) : ch'.closed = ch.closed := by
  cases h <;> rfl

theorem Push.emptyCount_eq (h : Push ch t d ch' r) : ch'.emptyCount = ch.emptyCount := by
  cases h <;> rfl

theorem Push.fullCount_eq (h : Push ch t d ch' r) :
    ch'.fullCount = ch.fullCount + r.isNone.toNat := by
  cases h <;> rfl

theorem Push.emptyWait_subset (h : Push ch t d ch' r) : ch'.emptyWait ⊆ ch.emptyWait := by
  cases h with
  | wait _ => exact Finset.Subset.rfl
  | refuse => exact Finset.Subset.rfl
  | accept u _ => exact fun v hv => CondVar.mem_of_mem_signalIf hv

theorem Push.mem_fullWait (h : Push ch t d ch' r) {u : ℕ} (hu : u ∈ ch'.fullWait) :
    u ∈ ch.fullWait ∨ (u = t ∧ r = none) := by
  cases h with
  | wait _ =>
    obtain rfl | hu := CondVar.mem_wait.mp hu
    · exact .inr ⟨rfl, rfl⟩
    · exact .inl hu
  | refuse => exact .inl hu
  | accept u _ => exact .inl hu

/-- An accepted element is the new last one; nothing else changes the contents. -/
theorem Push.contents_eq (h : Push ch t d ch' r) :
    ch'.contents = ch.contents ++ (if r = some true then [d] else []) := by
  cases h <;> simp

theorem Push.of_closed (h : Push ch t d ch' r) (hc : ch.closed = true) :
    r = some false ∧ ch' = ch := by
  cases h with
  | wait ho => simp [hc] at ho
  | refuse => exact ⟨rfl, rfl⟩
  | accept u ho => simp [hc] at ho

end Push

section Pop

variable {ch ch' : Channel α} {t : ℕ} {quit : Bool} {r : Option (Option α)}

theorem Pop.closed_eq (h : Pop ch t quit ch' r) : ch'.closed = ch.closed := by
  cases h <;> rfl

theorem Pop.emptyCount_eq (h : Pop ch t quit ch' r) :
    ch'.emptyCount = ch.emptyCount + r.isNone.toNat := by
  cases h <;> rfl

theorem Pop.fullCount_eq (h : Pop ch t quit ch' r) : ch'.fullCount = ch.fullCount := by
  cases h <;> rfl

theorem Pop.fullWait_subset (h : Pop ch t quit ch' r) : ch'.fullWait ⊆ ch.fullWait := by
  cases h with
  | wait _ _ _ => exact Finset.Subset.rfl
  | nothing _ _ => exact Finset.Subset.rfl
  | take d rest u _ => exact fun v hv => CondVar.mem_of_mem_signalIf hv

theorem Pop.mem_emptyWait (h : Pop ch t quit ch' r) {u : ℕ} (hu : u ∈ ch'.emptyWait) :
    u ∈ ch.emptyWait ∨ (u = t ∧ r = none) := by
  cases h with
  | wait _ _ _ =>
    obtain rfl | hu := CondVar.mem_wait.mp hu
    · exact .inr ⟨rfl, rfl⟩
    · exact .inl hu
  | nothing _ _ => exact .inl hu
  | take d rest u _ => exact .inl hu

/-- The element returned is the first one; nothing else changes the contents. -/
theorem Pop.contents_eq (h : Pop ch t quit ch' r) :
    r.join.toList ++ ch'.contents = ch.contents := by
  cases h with
  | wait _ _ _ => rfl
  | nothing _ _ => rfl
  | take d rest u hcons => simp [hcons]

theorem Pop.of_nothing (h : Pop ch t quit ch' (some none)) :
    ch.contents = [] ∧ (ch.closed = true ∨ quit = true) := by
  cases h with
  | nothing hnil hq => exact ⟨hnil, hq⟩

theorem Pop.of_cons (h : Pop ch t quit ch' r) {d : α} {rest : List α}
    (hcons : ch.contents = d :: rest) : r = some (some d) ∧ ch'.contents = rest := by
  cases h with
  | wait _ hnil _ => simp [hcons] at hnil
  | nothing hnil _ => simp [hcons] at hnil
  | take d' rest' u hcons' =>
    obtain ⟨rfl, rfl⟩ := List.cons.inj (hcons.symm.trans hcons')
    exact ⟨rfl, rfl⟩

end Pop

theorem close_emptyWait_subset (ch : Channel α) : ch.close.emptyWait ⊆ ch.emptyWait :=
  fun _ hu => CondVar.mem_of_mem_broadcastIf hu

theorem close_fullWait_subset (ch : Channel α) : ch.close.fullWait ⊆ ch.fullWait :=
  fun _ hu => CondVar.mem_of_mem_broadcastIf hu

/-! ## Wake-ups -/

theorem awake_empty : Awake (empty : Channel α) where
  closed_empty _ := rfl
  closed_full _ := rfl
  elements := by simp [empty]

theorem Push.awake {ch ch' : Channel α} {t : ℕ} {d : α} {r : Option Bool}
    (h : Push ch t d ch' r) (hcard : ch.emptyWait.card ≤ ch.emptyCount) (ha : Awake ch) :
    Awake ch' := by
  cases h with
  | wait hopen =>
    refine ⟨ha.closed_empty, ?_, ha.elements⟩
    simp [hopen]
  | refuse => exact ha
  | accept u hopen =>
    refine ⟨by simp [hopen], by simp [hopen], ?_⟩
    intro _ hne
    by_cases hpos : 0 < ch.emptyCount
    · simp only [hpos, decide_true, CondVar.signalIf_true, List.length_append,
        List.length_singleton] at hne ⊢
      -- the signal wakes one receiver for the new element
      have hne₀ : ch.emptyWait.Nonempty := hne.mono fun u hu => CondVar.mem_of_mem_signal hu
      have := CondVar.card_signal u hne₀
      have := ha.elements hopen hne₀
      omega
    · simp only [hpos, decide_false, CondVar.signalIf_false] at hne
      have := Finset.card_pos.mpr hne
      omega

theorem Pop.awake {ch ch' : Channel α} {t : ℕ} {quit : Bool} {r : Option (Option α)}
    (h : Pop ch t quit ch' r) (hempty : ch.closed = true → ch.emptyWait = ∅)
    (hfull : ch.closed = true → ch.fullWait = ∅)
    (helem : ch.closed = false → ch.emptyWait.Nonempty →
      ch.contents.length + ch.emptyWait.card ≤ ch.emptyCount + 1)
    (hcard : ch.emptyWait.card ≤ ch.emptyCount) : Awake ch' := by
  cases h with
  | wait hopen hnil _ =>
    refine ⟨by simp [hopen], by simp [hopen], ?_⟩
    intro _ _
    have := Finset.card_insert_le t ch.emptyWait
    simp only [hnil, List.length_nil, CondVar.wait]
    omega
  | nothing hnil _ =>
    refine ⟨hempty, hfull, ?_⟩
    intro _ _
    simpa [hnil] using hcard
  | take d rest u hcons =>
    refine ⟨hempty, ?_, ?_⟩
    · intro hclosed
      simp [hfull hclosed]
    · intro hopen hne
      have := helem hopen hne
      rw [hcons, List.length_cons] at this
      simp only
      omega

/-- A receiver that just entered keeps the channel awake. -/
theorem Pop.awake_of_awake {ch ch' : Channel α} {t : ℕ} {quit : Bool} {r : Option (Option α)}
    (h : Pop ch t quit ch' r) (hc : Counted ch) (ha : Awake ch) : Awake ch' :=
  h.awake ha.closed_empty ha.closed_full
    (fun ho hne => Nat.le_succ_of_le (ha.elements ho hne)) hc.empty

/-- A receiver that resumes from its wait keeps the channel awake. -/
theorem Pop.awake_of_resume {ch ch' : Channel α} {t : ℕ} {quit : Bool} {r : Option (Option α)}
    (h : Pop ch.resumeEmpty t quit ch' r) (hlt : ch.emptyWait.card < ch.emptyCount)
    (ha : Awake ch) : Awake ch' := by
  refine h.awake ha.closed_empty ha.closed_full ?_ ?_
  · intro hopen hne
    have := ha.elements hopen hne
    simp only [resumeEmpty]
    omega
  · simp only [resumeEmpty]
    omega

theorem awake_resumeFull {ch : Channel α} (ha : Awake ch) : Awake ch.resumeFull :=
  ⟨ha.closed_empty, ha.closed_full, ha.elements⟩

/-- Closing wakes every thread that is blocked on either side. -/
theorem awake_close {ch : Channel α} (hc : Counted ch) (ha : Awake ch) : Awake ch.close := by
  refine ⟨fun _ => ?_, fun _ => ?_, by simp [close]⟩
  · cases hclosed : ch.closed with
    | true => simp [close, hclosed, ha.closed_empty hclosed]
    | false =>
      by_cases hpos : 0 < ch.emptyCount
      · simp [close, hclosed, hpos]
      · have := hc.empty
        have hnone : ch.emptyWait = ∅ := Finset.card_eq_zero.mp (by omega)
        simp [close, hclosed, hpos, hnone]
  · cases hclosed : ch.closed with
    | true => simp [close, hclosed, ha.closed_full hclosed]
    | false =>
      by_cases hpos : 0 < ch.fullCount
      · simp [close, hclosed, hpos]
      · have := hc.full
        have hnone : ch.fullWait = ∅ := Finset.card_eq_zero.mp (by omega)
        simp [close, hclosed, hpos, hnone]

/-- Fewer blocked receivers keep the channel awake: a spurious or timed wake-up. -/
theorem Awake.of_wakeEmpty {ch : Channel α} {cv : CondVar} (ha : Awake ch)
    (hsub : cv ⊆ ch.emptyWait) : Awake { ch with emptyWait := cv } where
  closed_empty h := Finset.subset_empty.mp (ha.closed_empty h ▸ hsub)
  closed_full := ha.closed_full
  elements hopen hne := by
    have := ha.elements hopen (hne.mono hsub)
    have := Finset.card_le_card hsub
    simp only
    omega

theorem Awake.of_wakeFull {ch : Channel α} {cv : CondVar} (ha : Awake ch)
    (hsub : cv ⊆ ch.fullWait) : Awake { ch with fullWait := cv } where
  closed_empty := ha.closed_empty
  closed_full h := Finset.subset_empty.mp (ha.closed_full h ▸ hsub)
  elements := ha.elements

end Channel

end Monitor
