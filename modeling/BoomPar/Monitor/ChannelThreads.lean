-- SUMMARY: Systems whose threads use a closable channel: the counts of the channel, who is blocked on it, and that no receiver misses a wake-up.
import BoomPar.Monitor.Channel
import BoomPar.Monitor.Rules

/-!
# Threads on a channel

A system uses a channel when each of its steps is one section of a send, a
receive or a close, or leaves the channel alone. Whoever shows this of a system
gets the invariants of the channel for every run.
-/

namespace Monitor

namespace Channel

variable {α : Type*}

/-- One section of thread `t` on a channel. The Booleans tell whether the thread
    waits for an element and for room, before and after the section. -/
inductive Move (ch : Channel α) (t : ℕ) : Bool → Bool → Channel α → Bool → Bool → Prop
  | idle : Move ch t false false ch false false
  | close : Move ch t false false ch.close false false
  | broadcastFull (b : Bool) :
      Move ch t false false { ch with fullWait := ch.fullWait.broadcastIf b } false false
  | push (d : α) (ch' : Channel α) (r : Option Bool) : ch.Push t d ch' r →
      Move ch t false false ch' false r.isNone
  | pushResume (d : α) (ch' : Channel α) (r : Option Bool) :
      t ∉ ch.fullWait → ch.resumeFull.Push t d ch' r → Move ch t false true ch' false r.isNone
  | pop (quit : Bool) (ch' : Channel α) (r : Option (Option α)) : ch.Pop t quit ch' r →
      Move ch t false false ch' r.isNone false
  | popResume (quit : Bool) (ch' : Channel α) (r : Option (Option α)) :
      t ∉ ch.emptyWait → ch.resumeEmpty.Pop t quit ch' r → Move ch t true false ch' r.isNone false

section Move

variable {ch ch' : Channel α} {t : ℕ} {e f e' f' : Bool}

theorem Move.emptyCount (h : Move ch t e f ch' e' f') (hle : e.toNat ≤ ch.emptyCount) :
    ch'.emptyCount + e.toNat = ch.emptyCount + e'.toNat := by
  cases h with
  | idle => rfl
  | close => rfl
  | broadcastFull b => rfl
  | push d _ r hch => exact hch.emptyCount_eq
  | pushResume d _ r _ hch => rw [hch.emptyCount_eq]; rfl
  | pop quit _ r hch => exact hch.emptyCount_eq
  | popResume quit _ r _ hch =>
    rw [hch.emptyCount_eq, Nat.add_right_comm]
    exact congrArg (· + r.isNone.toNat) (Nat.sub_add_cancel hle)

theorem Move.fullCount (h : Move ch t e f ch' e' f') (hle : f.toNat ≤ ch.fullCount) :
    ch'.fullCount + f.toNat = ch.fullCount + f'.toNat := by
  cases h with
  | idle => rfl
  | close => rfl
  | broadcastFull b => rfl
  | push d _ r hch => exact hch.fullCount_eq
  | pushResume d _ r _ hch =>
    rw [hch.fullCount_eq, Nat.add_right_comm]
    exact congrArg (· + r.isNone.toNat) (Nat.sub_add_cancel hle)
  | pop quit _ r hch => exact hch.fullCount_eq
  | popResume quit _ r _ hch => rw [hch.fullCount_eq]; rfl

theorem Move.notMem_emptyWait (h : Move ch t e f ch' e' f') (he : e = true) :
    t ∉ ch.emptyWait := by
  cases h with
  | popResume quit _ r hnot _ => exact hnot
  | _ => cases he

theorem Move.notMem_fullWait (h : Move ch t e f ch' e' f') (hf : f = true) :
    t ∉ ch.fullWait := by
  cases h with
  | pushResume d _ r hnot _ => exact hnot
  | _ => cases hf

theorem Move.mem_emptyWait (h : Move ch t e f ch' e' f') {u : ℕ} (hu : u ∈ ch'.emptyWait) :
    u ∈ ch.emptyWait ∨ (u = t ∧ e' = true) := by
  have hpop : ∀ {r : Option (Option α)}, u ∈ ch.emptyWait ∨ (u = t ∧ r = none) →
      u ∈ ch.emptyWait ∨ (u = t ∧ r.isNone = true) := by
    intro r h
    refine h.imp_right fun ⟨hu, hr⟩ => ⟨hu, ?_⟩
    rw [hr]
    rfl
  cases h with
  | idle => exact .inl hu
  | close => exact .inl (close_emptyWait_subset _ hu)
  | broadcastFull b => exact .inl hu
  | push d _ r hch => exact .inl (hch.emptyWait_subset hu)
  | pushResume d _ r _ hch => exact .inl (hch.emptyWait_subset hu)
  | pop quit _ r hch => exact hpop (hch.mem_emptyWait hu)
  | popResume quit _ r _ hch => exact hpop (hch.mem_emptyWait hu)

theorem Move.mem_fullWait (h : Move ch t e f ch' e' f') {u : ℕ} (hu : u ∈ ch'.fullWait) :
    u ∈ ch.fullWait ∨ (u = t ∧ f' = true) := by
  have hpush : ∀ {r : Option Bool}, u ∈ ch.fullWait ∨ (u = t ∧ r = none) →
      u ∈ ch.fullWait ∨ (u = t ∧ r.isNone = true) := by
    intro r h
    refine h.imp_right fun ⟨hu, hr⟩ => ⟨hu, ?_⟩
    rw [hr]
    rfl
  cases h with
  | idle => exact .inl hu
  | close => exact .inl (close_fullWait_subset _ hu)
  | broadcastFull b => exact .inl (CondVar.mem_of_mem_broadcastIf hu)
  | push d _ r hch => exact hpush (hch.mem_fullWait hu)
  | pushResume d _ r _ hch => exact hpush (hch.mem_fullWait hu)
  | pop quit _ r hch => exact .inl (hch.fullWait_subset hu)
  | popResume quit _ r _ hch => exact .inl (hch.fullWait_subset hu)

/-- A section keeps the channel awake; a receiver that resumes was woken. -/
theorem Move.awake (h : Move ch t e f ch' e' f') (hc : Counted ch)
    (hlt : e = true → ch.emptyWait.card < ch.emptyCount) (ha : Awake ch) : Awake ch' := by
  cases h with
  | idle => exact ha
  | close => exact awake_close hc ha
  | broadcastFull b => exact ha.of_wakeFull fun u hu => CondVar.mem_of_mem_broadcastIf hu
  | push d _ r hch => exact hch.awake hc.empty ha
  | pushResume d _ r _ hch => exact hch.awake hc.empty (awake_resumeFull ha)
  | pop quit _ r hch => exact hch.awake_of_awake hc ha
  | popResume quit _ r _ hch => exact hch.awake_of_resume (hlt rfl) ha

theorem Move.closed_of_closed (h : Move ch t e f ch' e' f') (hc : ch.closed = true) :
    ch'.closed = true := by
  cases h with
  | idle => exact hc
  | close => rfl
  | broadcastFull b => exact hc
  | push d _ r hch => rw [hch.closed_eq]; exact hc
  | pushResume d _ r _ hch => rw [hch.closed_eq]; exact hc
  | pop quit _ r hch => rw [hch.closed_eq]; exact hc
  | popResume quit _ r _ hch => rw [hch.closed_eq]; exact hc

/-- A closed channel takes no more elements. -/
theorem Move.contents_of_closed (h : Move ch t e f ch' e' f') (hc : ch.closed = true)
    (hnil : ch.contents = []) : ch'.contents = [] := by
  cases h with
  | idle => exact hnil
  | close => exact hnil
  | broadcastFull b => exact hnil
  | push d _ r hch => rw [(hch.of_closed hc).2]; exact hnil
  | pushResume d _ r _ hch => rw [(hch.of_closed hc).2]; exact hnil
  | pop quit _ r hch => exact (List.append_eq_nil_iff.mp (hch.contents_eq.trans hnil)).2
  | popResume quit _ r _ hch => exact (List.append_eq_nil_iff.mp (hch.contents_eq.trans hnil)).2

/-- A section appends an element, takes the first one, or leaves them all. -/
theorem Move.contents_cases (h : Move ch t e f ch' e' f') :
    (∃ d, ch'.contents = ch.contents ++ [d]) ∨ (∃ d, ch.contents = d :: ch'.contents) ∨
      ch'.contents = ch.contents := by
  have hpush : ∀ {chp : Channel α} {d : α} {r : Option Bool}, chp.Push t d ch' r →
      (∃ d, ch'.contents = chp.contents ++ [d]) ∨ ch'.contents = chp.contents := by
    intro chp d r hch
    cases hch with
    | wait _ => exact .inr rfl
    | refuse => exact .inr rfl
    | accept u _ => exact .inl ⟨d, rfl⟩
  have hpop : ∀ {chp : Channel α} {quit : Bool} {r : Option (Option α)},
      chp.Pop t quit ch' r →
      (∃ d, chp.contents = d :: ch'.contents) ∨ ch'.contents = chp.contents := by
    intro chp quit r hch
    cases hch with
    | wait _ _ _ => exact .inr rfl
    | nothing _ _ => exact .inr rfl
    | take d rest u hcons => exact .inl ⟨d, hcons⟩
  cases h with
  | push d _ r hch => exact (hpush hch).imp_right .inr
  | pushResume d _ r _ hch =>
    have hleft := hpush hch
    exact hleft.imp_right .inr
  | pop quit _ r hch => exact .inr (hpop hch)
  | popResume quit _ r _ hch =>
    have hleft := hpop hch
    exact .inr hleft
  | _ => exact .inr (.inr rfl)

/-- The elements of a closed channel do not become more. -/
theorem Move.length_le_of_closed (h : Move ch t e f ch' e' f') (hc : ch.closed = true) :
    ch'.contents.length ≤ ch.contents.length := by
  have hpop : ∀ {chp : Channel α} {quit : Bool} {r : Option (Option α)},
      chp.Pop t quit ch' r → ch'.contents.length ≤ chp.contents.length := by
    intro chp quit r hch
    rw [← hch.contents_eq, List.length_append]
    exact Nat.le_add_left _ _
  cases h with
  | push d _ r hch => rw [(hch.of_closed hc).2]
  | pushResume d _ r _ hch =>
    rw [(hch.of_closed hc).2]
    rfl
  | pop quit _ r hch => exact hpop hch
  | popResume quit _ r _ hch =>
    have hle := hpop hch
    exact hle
  | _ => rfl

end Move

/-! ## Systems that use a channel -/

section Uses

variable {σ τ κ ο : Type*}

/-- The steps of a system are sections on the channel `chan`, on which the threads
    wait at the control states `e` and `f`; a wake-up only unblocks. -/
structure Uses (S : System σ τ κ ο) (chan : σ → Channel α) (e f : τ → Bool) : Prop where
  start : ∀ t k, e (S.start t k) = false ∧ f (S.start t k) = false
  step : ∀ {s t pc o s' pc' new}, S.step s t pc o = some (s', pc', new) →
    (chan s).Move t (e pc) (f pc) (chan s') (e pc') (f pc')
  new : ∀ {s t pc o s' pc' new}, S.step s t pc o = some (s', pc', new) →
    ∀ pc ∈ new, e pc = false ∧ f pc = false
  wake : ∀ {s t pc s'}, S.wake s t pc = some s' →
    ∃ cv ⊆ (chan s).emptyWait, ∃ cv' ⊆ (chan s).fullWait,
      chan s' = { chan s with emptyWait := cv, fullWait := cv' }

/-- The counts of the channel are those of the waiting threads, whoever is blocked
    waits, and no receiver misses a wake-up. -/
structure Sound (chan : σ → Channel α) (e f : τ → Bool) (c : Config σ τ) : Prop where
  emptyCount : c.count e = (chan c.shared).emptyCount
  fullCount : c.count f = (chan c.shared).fullCount
  emptyWait : System.Blocked (fun s => (chan s).emptyWait) e c
  fullWait : System.Blocked (fun s => (chan s).fullWait) f c
  awake : (chan c.shared).Awake

variable {S : System σ τ κ ο} {chan : σ → Channel α} {e f : τ → Bool}

theorem sum_of_forall_false {new : List τ} {p : τ → Bool} (h : ∀ pc ∈ new, p pc = false) :
    (new.map fun pc => (p pc).toNat).sum = 0 := by
  rw [List.sum_eq_zero_iff]
  intro n hn
  obtain ⟨pc, hpc, rfl⟩ := List.mem_map.mp hn
  rw [h pc hpc]
  rfl

theorem Uses.balanced_emptyCount (hu : Uses S chan e f) :
    System.Balanced S (fun _ => True) (fun pc => (e pc).toNat) (fun _ => 0)
      (fun s => (chan s).emptyCount) where
  start t k := by rw [(hu.start t k).1]; rfl
  step {s t pc o s' pc' new} h _ hle := by
    rw [sum_of_forall_false fun pc hpc => (hu.new h pc hpc).1]
    exact (hu.step h).emptyCount hle
  wake h := by
    obtain ⟨_, _, _, _, hch⟩ := hu.wake h
    rw [hch]

theorem Uses.balanced_fullCount (hu : Uses S chan e f) :
    System.Balanced S (fun _ => True) (fun pc => (f pc).toNat) (fun _ => 0)
      (fun s => (chan s).fullCount) where
  start t k := by rw [(hu.start t k).2]; rfl
  step {s t pc o s' pc' new} h _ hle := by
    rw [sum_of_forall_false fun pc hpc => (hu.new h pc hpc).2]
    exact (hu.step h).fullCount hle
  wake h := by
    obtain ⟨_, _, _, _, hch⟩ := hu.wake h
    rw [hch]

theorem Uses.blocks_emptyWait (hu : Uses S chan e f) :
    System.Blocks S (fun s => (chan s).emptyWait) e where
  resume h he := (hu.step h).notMem_emptyWait he
  step h _ hmem := (hu.step h).mem_emptyWait hmem
  wake h := by
    obtain ⟨_, hsub, _, _, hch⟩ := hu.wake h
    rw [hch]
    exact hsub

theorem Uses.blocks_fullWait (hu : Uses S chan e f) :
    System.Blocks S (fun s => (chan s).fullWait) f where
  resume h hf := (hu.step h).notMem_fullWait hf
  step h _ hmem := (hu.step h).mem_fullWait hmem
  wake h := by
    obtain ⟨_, _, _, hsub, hch⟩ := hu.wake h
    rw [hch]
    exact hsub

theorem Sound.counted {c : Config σ τ} (hc : Sound chan e f c) : (chan c.shared).Counted where
  empty := hc.emptyCount ▸ hc.emptyWait.card_le
  full := hc.fullCount ▸ hc.fullWait.card_le

theorem Sound.push {c : Config σ τ} (hc : Sound chan e f c) {pc : τ} (he : e pc = false)
    (hf : f pc = false) : Sound chan e f (c.push pc) where
  emptyCount := by simpa [he] using hc.emptyCount
  fullCount := by simpa [hf] using hc.fullCount
  emptyWait := hc.emptyWait.push _
  fullWait := hc.fullWait.push _
  awake := hc.awake

theorem Uses.awake_next (hu : Uses S chan e f) {c c' : Config σ τ} {a : Act κ ο}
    (hc : Sound chan e f c) (h : S.next c a = some c') : (chan c'.shared).Awake := by
  cases a with
  | call k o =>
    obtain ⟨pc, s, pc', new, hpc, hs, rfl⟩ := System.stepAt_cases h
    refine (hu.step hs).awake hc.counted ?_ hc.awake
    intro he
    rw [Config.pc?_push_self] at hpc
    cases hpc
    rw [(hu.start _ k).1] at he
    cases he
  | step t o =>
    obtain ⟨pc, s, pc', new, hpc, hs, rfl⟩ := System.stepAt_cases h
    refine (hu.step hs).awake hc.counted ?_ hc.awake
    intro he
    exact hc.emptyCount ▸ hc.emptyWait.card_lt hpc he ((hu.step hs).notMem_emptyWait he)
  | wake t =>
    obtain ⟨pc, s, hpc, hs, rfl⟩ := System.next_wake_cases h
    obtain ⟨cv, hsub, cv', hsub', hch⟩ := hu.wake hs
    rw [hch]
    exact (hc.awake.of_wakeEmpty hsub).of_wakeFull hsub'

theorem Uses.next (hu : Uses S chan e f) {c c' : Config σ τ} {a : Act κ ο}
    (hc : Sound chan e f c) (h : S.next c a = some c') : Sound chan e f c' where
  emptyCount := hu.balanced_emptyCount.next' hc.emptyCount h
  fullCount := hu.balanced_fullCount.next' hc.fullCount h
  emptyWait := hu.blocks_emptyWait.next hc.emptyWait h
  fullWait := hu.blocks_fullWait.next hc.fullWait h
  awake := hu.awake_next hc h

/-- While a receiver waits at a channel with elements, one that waits is awake. -/
theorem Sound.exists_woken {c : Config σ τ} (hc : Sound chan e f c)
    (hne : (chan c.shared).contents ≠ []) {t : ℕ} {pc : τ} (hpc : c.pc? t = some pc)
    (he : e pc = true) :
    ∃ u q, c.pc? u = some q ∧ e q = true ∧ u ∉ (chan c.shared).emptyWait := by
  by_cases hnone : (chan c.shared).emptyWait = ∅
  · refine ⟨t, pc, hpc, he, ?_⟩
    rw [hnone]
    exact Finset.notMem_empty t
  · -- the signals of the sends cover the elements
    have hcovered := hc.awake.length_le_woken (Finset.nonempty_of_ne_empty hnone)
    have hcard := hc.emptyWait.card_add_card_woken
    have hpos := List.length_pos_of_ne_nil hne
    rw [hc.emptyCount] at hcard
    unfold woken at hcovered
    have hwoken : (System.woken (fun s => (chan s).emptyWait) e c).Nonempty := by
      apply Finset.card_pos.mp
      omega
    obtain ⟨u, hu⟩ := hwoken
    obtain ⟨hmem, hnot⟩ := Finset.mem_sdiff.mp hu
    obtain ⟨q, hq, heq⟩ := Config.mem_those.mp hmem
    exact ⟨u, q, hq, heq, hnot⟩

/-- The channel of a system that has not been used yet. -/
theorem Sound.init {c : Config σ τ} (hch : chan c.shared = empty) (he : c.count e = 0)
    (hf : c.count f = 0) : Sound chan e f c where
  emptyCount := by rw [he, hch]; rfl
  fullCount := by rw [hf, hch]; rfl
  emptyWait t ht := by simp only [hch] at ht; cases ht
  fullWait t ht := by simp only [hch] at ht; cases ht
  awake := hch ▸ awake_empty

end Uses

end Channel

end Monitor
