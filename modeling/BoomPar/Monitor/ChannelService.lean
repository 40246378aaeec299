-- SUMMARY: Channels under a fair scheduler: as long as receivers come every element is received, and every sender that waits for room gets through.
import BoomPar.Monitor.ChannelThreads
import BoomPar.Monitor.Fairness

/-!
# Service on a channel

The receivers drive a channel. While some come again and again, each element
moves to the front and is received; and each reception wakes a sender, so that a
sender stays blocked behind an empty channel only while another one is awake.
-/

namespace Monitor

namespace Channel

variable {α σ τ κ ο : Type*}

section Moves

variable {ch ch' : Channel α} {t : ℕ} {e f e' f' : Bool}

/-- A receiver that resumes takes the first element. -/
theorem Move.receives (h : Move ch t true f ch' e' f') {d : α} {rest : List α}
    (hcons : ch.contents = d :: rest) : ch'.contents = rest := by
  cases h with
  | popResume quit _ r _ hch => exact (hch.of_cons hcons).2

/-- A sender that resumes does not close the channel. -/
theorem Move.closed_eq_of_sender (h : Move ch t e true ch' e' f') : ch'.closed = ch.closed := by
  cases h with
  | pushResume d _ r _ hch => exact hch.closed_eq

/-- A sender stays blocked on an open channel only while there is an element to
    receive, or another sender is woken. -/
def SendersAwake (ch : Channel α) : Prop :=
  ch.closed = false → ch.fullWait.Nonempty →
    ch.contents ≠ [] ∨ ch.fullWait.card < ch.fullCount

theorem sendersAwake_empty : SendersAwake (empty : Channel α) :=
  fun _ hne => absurd hne Finset.not_nonempty_empty

/-- Fewer blocked senders keep the others awake. -/
theorem SendersAwake.of_subset {ch : Channel α} (ha : ch.SendersAwake) (cv : CondVar)
    {cv' : CondVar} (hsub : cv' ⊆ ch.fullWait) :
    SendersAwake { ch with emptyWait := cv, fullWait := cv' } := by
  intro hopen hne
  refine (ha hopen (hne.mono hsub)).imp_right fun hlt => ?_
  exact (Finset.card_le_card hsub).trans_lt hlt

/-- A reception wakes a sender for the element that it takes. -/
theorem Pop.sendersAwake {quit : Bool} {r : Option (Option α)} (h : Pop ch t quit ch' r)
    (hcard : ch.fullWait.card ≤ ch.fullCount) (ha : ch.SendersAwake) : ch'.SendersAwake := by
  cases h with
  | wait _ _ _ => exact ha
  | nothing _ _ => exact ha
  | take d rest u hcons =>
    intro hopen hne
    have hblocked : ch.fullWait.Nonempty :=
      hne.mono fun v hv => CondVar.mem_of_mem_signalIf hv
    have hpos : 0 < ch.fullCount := (Finset.card_pos.mpr hblocked).trans_le hcard
    have hcond : (!ch.closed && decide (0 < ch.fullCount)) = true := by
      rw [show ch.closed = false from hopen]
      exact decide_eq_true hpos
    have hsignal := CondVar.card_signal u hblocked
    simp only [hcond, CondVar.signalIf_true]
    exact .inr (by omega)

/-- A section keeps the senders awake, when it leaves an element or a closed channel
    to every sender that comes to wait for room or ceases to. -/
theorem Move.sendersAwake (h : Move ch t e f ch' e' f') (hcard : ch.fullWait.card ≤ ch.fullCount)
    (ha : ch.SendersAwake)
    (hroom : f = true ∨ f' = true → ch'.closed = true ∨ ch'.contents ≠ []) :
    ch'.SendersAwake := by
  have hleft : f = true ∨ f' = true → ch'.SendersAwake := by
    intro hf hopen _
    rcases hroom hf with hclosed | hne
    · rw [hopen] at hclosed
      cases hclosed
    · exact .inl hne
  cases h with
  | idle => exact ha
  | close => exact nofun
  | broadcastFull b =>
    exact ha.of_subset ch.emptyWait fun u hu => CondVar.mem_of_mem_broadcastIf hu
  | push d _ r hch =>
    cases hch with
    | wait _ => exact hleft (.inr rfl)
    | refuse => exact ha
    | accept u _ => exact fun _ _ => .inl (List.concat_ne_nil d ch.contents)
  | pushResume d _ r _ hch => exact hleft (.inl rfl)
  | pop quit _ r hch => exact hch.sendersAwake hcard ha
  | popResume quit _ r _ hch => exact Pop.sendersAwake hch hcard ha

end Moves

variable {S : System σ τ κ ο} {chan : σ → Channel α} {e f : τ → Bool}

theorem Uses.sendersAwake_next (hu : Uses S chan e f) {c c' : Config σ τ} {a : Act κ ο}
    (hc : Sound chan e f c) (ha : (chan c.shared).SendersAwake) (h : S.next c a = some c')
    (hroom : ∀ {t pc o pc' new}, System.Moves S c a t pc o →
      S.step c.shared t pc o = some (c'.shared, pc', new) → f pc = true ∨ f pc' = true →
      (chan c'.shared).closed = true ∨ (chan c'.shared).contents ≠ []) :
    (chan c'.shared).SendersAwake := by
  cases a with
  | call k o =>
    obtain ⟨pc, s, pc', new, hpc, hs, rfl⟩ := System.stepAt_cases h
    rw [Config.pc?_push_self] at hpc
    cases hpc
    exact (hu.step hs).sendersAwake hc.counted.full ha (hroom (.inr ⟨k, rfl, rfl⟩) hs)
  | step t o =>
    obtain ⟨pc, s, pc', new, hpc, hs, rfl⟩ := System.stepAt_cases h
    exact (hu.step hs).sendersAwake hc.counted.full ha (hroom (.inl ⟨rfl, hpc⟩) hs)
  | wake t =>
    obtain ⟨pc, s, hpc, hs, rfl⟩ := System.next_wake_cases h
    obtain ⟨cv, -, cv', hsub, hch⟩ := hu.wake hs
    rw [hch]
    exact ha.of_subset _ hsub

/-- While a sender waits at an open channel without elements, one that waits is awake. -/
theorem Sound.exists_sender_woken {c : Config σ τ} (hc : Sound chan e f c)
    (ha : (chan c.shared).SendersAwake) (hopen : (chan c.shared).closed = false)
    (hnil : (chan c.shared).contents = []) {t : ℕ} {pc : τ} (hpc : c.pc? t = some pc)
    (hf : f pc = true) :
    ∃ u q, c.pc? u = some q ∧ f q = true ∧ u ∉ (chan c.shared).fullWait := by
  by_cases hnone : (chan c.shared).fullWait = ∅
  · refine ⟨t, pc, hpc, hf, ?_⟩
    rw [hnone]
    exact Finset.notMem_empty t
  · have hlt := (ha hopen (Finset.nonempty_of_ne_empty hnone)).resolve_left fun hne => hne hnil
    have hcard := hc.fullWait.card_add_card_woken
    rw [hc.fullCount] at hcard
    have hwoken : (System.woken (fun s => (chan s).fullWait) f c).Nonempty := by
      apply Finset.card_pos.mp
      omega
    obtain ⟨u, hu⟩ := hwoken
    obtain ⟨hmem, hnot⟩ := Finset.mem_sdiff.mp hu
    obtain ⟨q, hq, hfq⟩ := Config.mem_those.mp hmem
    exact ⟨u, q, hq, hfq, hnot⟩

/-! ## Receivers -/

/-- A system on a channel that counts the elements received. Its steps take the first
    element or leave the elements in their places, and a woken receiver can step. -/
structure Received (S : System σ τ κ ο) (ok : Config σ τ → Act κ ο → Prop) (c₀ : Config σ τ)
    (chan : σ → Channel α) (e f : τ → Bool) (taken : σ → ℕ) : Prop where
  uses : Uses S chan e f
  init : Sound chan e f c₀
  step : ∀ {s t pc o s' pc' new}, S.step s t pc o = some (s', pc', new) →
    (taken s' = taken s + 1 ∧ (chan s').contents = (chan s).contents.tail) ∨
      (taken s' = taken s ∧ (chan s).contents <+: (chan s').contents)
  wake : ∀ {s t pc s'}, S.wake s t pc = some s' → taken s' = taken s
  can : ∀ {c t pc}, S.Reach ok c₀ c → c.pc? t = some pc → e pc = true →
    t ∉ (chan c.shared).emptyWait → System.CanStep S ok c t

section Received

variable {ok : Config σ τ → Act κ ο → Prop} {c₀ : Config σ τ} {taken : σ → ℕ}

/-- The elements received and those still there. -/
def sent (chan : σ → Channel α) (taken : σ → ℕ) (s : σ) : ℕ :=
  taken s + (chan s).contents.length

theorem Received.sound (hr : Received S ok c₀ chan e f taken) {c : Config σ τ}
    (h : S.Reach ok c₀ c) : Sound chan e f c :=
  h.invariant hr.init fun _ _ _ _ hc _ hn => hr.uses.next hc hn

theorem Received.wake_contents (hr : Received S ok c₀ chan e f taken) {s s' : σ} {t : ℕ} {pc : τ}
    (h : S.wake s t pc = some s') :
    (chan s').contents = (chan s).contents ∧ (chan s').closed = (chan s).closed := by
  obtain ⟨_, -, _, -, hch⟩ := hr.uses.wake h
  rw [hch]
  exact ⟨rfl, rfl⟩

theorem Received.next (hr : Received S ok c₀ chan e f taken) {c c' : Config σ τ} {a : Act κ ο}
    (h : S.next c a = some c') :
    (taken c'.shared = taken c.shared + 1 ∧
        (chan c'.shared).contents = (chan c.shared).contents.tail) ∨
      (taken c'.shared = taken c.shared ∧
        (chan c.shared).contents <+: (chan c'.shared).contents) := by
  rcases System.next_runs_cases h with ⟨t, pc, o, pc', new, -, hs⟩ | ⟨t, pc, -, hs⟩
  · exact hr.step hs
  · exact .inr ⟨hr.wake hs, (hr.wake_contents hs).1 ▸ List.prefix_rfl⟩

theorem Received.mono_next (hr : Received S ok c₀ chan e f taken) {c c' : Config σ τ} {a : Act κ ο}
    (h : S.next c a = some c') :
    taken c.shared ≤ taken c'.shared ∧ sent chan taken c.shared ≤ sent chan taken c'.shared := by
  unfold sent
  rcases hr.next h with ⟨htaken, hcontents⟩ | ⟨htaken, hkept⟩
  · rw [htaken, hcontents, List.length_tail]
    omega
  · have hlen := hkept.length_le
    omega

theorem Received.mono (hr : Received S ok c₀ chan e f taken) (r : System.FairRun S ok c₀) {n m : ℕ}
    (hnm : n ≤ m) :
    taken (r.config n).shared ≤ taken (r.config m).shared ∧
      sent chan taken (r.config n).shared ≤ sent chan taken (r.config m).shared := by
  apply r.stable (P := fun c => taken (r.config n).shared ≤ taken c.shared ∧
    sent chan taken (r.config n).shared ≤ sent chan taken c.shared) ?_ ⟨le_rfl, le_rfl⟩ hnm
  intro c a c' _ hc _ hn
  obtain ⟨htaken, hsent⟩ := hr.mono_next hn
  exact ⟨hc.1.trans htaken, hc.2.trans hsent⟩

/-- Thread `t` is a woken receiver, after `k` receptions, and finds elements. -/
structure ReceiverAwake (chan : σ → Channel α) (e : τ → Bool) (taken : σ → ℕ) (t k : ℕ)
    (c : Config σ τ) : Prop where
  waits : ∃ pc, c.pc? t = some pc ∧ e pc = true
  woken : t ∉ (chan c.shared).emptyWait
  elements : (chan c.shared).contents ≠ []
  taken : taken c.shared = k

theorem Received.receiver_leadsTo (hr : Received S ok c₀ chan e f taken)
    (r : System.FairRun S ok c₀) (t k : ℕ) :
    r.LeadsTo (ReceiverAwake chan e taken t k) fun c => k < taken c.shared := by
  refine r.leadsTo_by t ?_ ?_ ?_
  · intro c hreach hc
    obtain ⟨pc, hpc, he⟩ := hc.waits
    exact hr.can hreach hpc he hc.woken
  · intro c o c' _ hc h
    obtain ⟨pc, hpc, he⟩ := hc.waits
    obtain ⟨q, s, pc', new, hq, hs, rfl⟩ := System.stepAt_cases h
    rw [hpc] at hq
    cases hq
    obtain ⟨d, rest, hcons⟩ := List.exists_cons_of_ne_nil hc.elements
    have hmove := hr.uses.step hs
    rw [he] at hmove
    have hrest := hmove.receives hcons
    rw [Config.move_shared]
    rcases hr.step hs with ⟨htaken, -⟩ | ⟨-, hkept⟩
    · rw [htaken, hc.taken]
      exact Nat.lt_succ_self k
    · -- the element is gone, so it was received
      have hlen := hkept.length_le
      rw [hcons, hrest, List.length_cons] at hlen
      omega
  · intro c a c' _ hc hnot _ h
    obtain ⟨pc, hpc, he⟩ := hc.waits
    obtain ⟨hself, hchange⟩ := System.next_other h hpc hnot
    rcases hr.next h with ⟨htaken, -⟩ | ⟨htaken, hkept⟩
    · left
      rw [htaken, hc.taken]
      exact Nat.lt_succ_self k
    · refine .inr ⟨⟨pc, hself, he⟩, fun hmem => ?_, fun hnil => ?_, htaken.trans hc.taken⟩
      · rcases hchange with ⟨u, p, o, p', new, hne, -, hs⟩ | ⟨u, p, hs⟩
        · rcases hr.uses.blocks_emptyWait.step hs t hmem with hold | ⟨rfl, -⟩
          · exact hc.woken hold
          · exact hne rfl
        · exact hc.woken (hr.uses.blocks_emptyWait.wake hs hmem)
      · rw [hnil, List.prefix_nil] at hkept
        exact hc.elements hkept

/-- A receiver is there: one that waits, or one that takes an element at once. -/
def ReceiverComes (chan : σ → Channel α) (e : τ → Bool) (taken : σ → ℕ)
    (r : System.FairRun S ok c₀) (n : ℕ) : Prop :=
  (∃ t pc, (r.config n).pc? t = some pc ∧ e pc = true) ∨
    ((chan (r.config n).shared).contents ≠ [] →
      taken (r.config n).shared < taken (r.config (n + 1)).shared)

theorem Received.receives (hr : Received S ok c₀ chan e f taken) (r : System.FairRun S ok c₀)
    {n : ℕ} (hcomes : ReceiverComes chan e taken r n)
    (hne : (chan (r.config n).shared).contents ≠ []) :
    ∃ m, n ≤ m ∧ taken (r.config n).shared < taken (r.config m).shared := by
  rcases hcomes with ⟨t, pc, hpc, he⟩ | htakes
  · obtain ⟨u, q, hq, heq, hwoken⟩ := (hr.sound (r.reach n)).exists_woken hne hpc he
    exact hr.receiver_leadsTo r u _ n ⟨⟨q, hq, heq⟩, hwoken, hne, rfl⟩
  · exact ⟨n + 1, Nat.le_succ n, htakes hne⟩

/-- As long as receivers come, every element is received in its turn. -/
theorem Received.all_received (hr : Received S ok c₀ chan e f taken) (r : System.FairRun S ok c₀)
    (hcomes : ∀ n, ∃ m, n ≤ m ∧ ReceiverComes chan e taken r m) {n k : ℕ}
    (hk : k < sent chan taken (r.config n).shared) :
    ∃ m, n ≤ m ∧ k < taken (r.config m).shared := by
  -- each reception brings the element nearer to the front
  refine System.eventually_of_rank (P := fun n => k < sent chan taken (r.config n).shared)
    (fun n => k + 1 - taken (r.config n).shared) ?_ hk
  intro n hk
  obtain ⟨m, hnm, hcome⟩ := hcomes n
  obtain ⟨htaken, hsent⟩ := hr.mono r hnm
  by_cases hdone : k < taken (r.config m).shared
  · exact ⟨m, hnm, .inl hdone⟩
  · have hne : (chan (r.config m).shared).contents ≠ [] := by
      intro hnil
      have hlt := hk.trans_le hsent
      rw [sent, hnil, List.length_nil] at hlt
      omega
    obtain ⟨l, hml, hmore⟩ := hr.receives r hcome hne
    refine ⟨l, hnm.trans hml, .inr ⟨?_, by omega⟩⟩
    exact hk.trans_le (hsent.trans (hr.mono r hml).2)

/-! ## Senders -/

/-- A sender that comes to wait for room, or ceases to, leaves an element or a closed
    channel, and a woken sender can step. -/
structure Sends (S : System σ τ κ ο) (ok : Config σ τ → Act κ ο → Prop) (c₀ : Config σ τ)
    (chan : σ → Channel α) (f : τ → Bool) : Prop where
  init : (chan c₀.shared).SendersAwake
  room : ∀ {c a t pc o s' pc' new}, S.Reach ok c₀ c → ok c a → System.Moves S c a t pc o →
    S.step c.shared t pc o = some (s', pc', new) → f pc = true ∨ f pc' = true →
    (chan s').closed = true ∨ (chan s').contents ≠ []
  can : ∀ {c t pc}, S.Reach ok c₀ c → c.pc? t = some pc → f pc = true →
    t ∉ (chan c.shared).fullWait → System.CanStep S ok c t

theorem Received.sendersAwake (hr : Received S ok c₀ chan e f taken) (hs : Sends S ok c₀ chan f)
    {c : Config σ τ} (h : S.Reach ok c₀ c) : (chan c.shared).SendersAwake :=
  h.invariant (P := fun c => (chan c.shared).SendersAwake) hs.init
    fun _ _ _ hreach ha hok hn =>
      hr.uses.sendersAwake_next (hr.sound hreach) ha hn fun hmoves hstep =>
        hs.room hreach hok hmoves hstep

/-- Behind a woken sender an open channel comes to have an element. -/
theorem Received.sender_refills (hr : Received S ok c₀ chan e f taken)
    (hs : Sends S ok c₀ chan f) (r : System.FairRun S ok c₀) {n t : ℕ} {pc : τ}
    (hopen : ∀ m, n ≤ m → (chan (r.config m).shared).closed = false)
    (hpc : (r.config n).pc? t = some pc) (hf : f pc = true)
    (hwoken : t ∉ (chan (r.config n).shared).fullWait) :
    ∃ m, n ≤ m ∧ (chan (r.config m).shared).contents ≠ [] := by
  refine r.eventually_by t (P := fun c => c.pc? t = some pc ∧ t ∉ (chan c.shared).fullWait)
    (Q := fun c => (chan c.shared).contents ≠ []) (fun _ => 0) ?_ ?_ ?_ ⟨hpc, hwoken⟩
  · rintro m - ⟨hpcm, hwokenm⟩ -
    exact hs.can (r.reach m) hpcm hf hwokenm
  · rintro m o hnm ⟨hpcm, -⟩ - hact
    obtain ⟨hok, hnext⟩ := r.move hact
    obtain ⟨q, s, pc', new, hq, hstep, hmove⟩ := System.stepAt_cases hnext
    rw [hpcm] at hq
    cases hq
    rw [hmove, Config.move_shared]
    have hroom := hs.room (r.reach m) hok (.inl ⟨rfl, hpcm⟩) hstep (.inl hf)
    have hsection := hr.uses.step hstep
    rw [hf] at hsection
    rw [hsection.closed_eq_of_sender, hopen m hnm] at hroom
    exact .inl (hroom.resolve_left Bool.false_ne_true)
  · rintro m a - ⟨hpcm, hwokenm⟩ - hact ha
    obtain ⟨hself, hchange⟩ := System.next_other (r.move hact).2 hpcm ha
    refine .inr ⟨⟨hself, fun hmem => ?_⟩, le_rfl⟩
    rcases hchange with ⟨u, p, o, p', new, hne, -, hstep⟩ | ⟨u, p, hwake⟩
    · rcases hr.uses.blocks_fullWait.step hstep t hmem with hold | ⟨rfl, -⟩
      · exact hwokenm hold
      · exact hne rfl
    · exact hwokenm (hr.uses.blocks_fullWait.wake hwake hmem)

/-- If there is a bound on the number of elements sent, it settles. -/
theorem Received.sent_settles (hr : Received S ok c₀ chan e f taken) (r : System.FairRun S ok c₀)
    {N : ℕ} (hbound : ∀ m, sent chan taken (r.config m).shared ≤ N) (n : ℕ) :
    ∃ m, n ≤ m ∧
      ∀ l, m ≤ l → sent chan taken (r.config l).shared = sent chan taken (r.config m).shared := by
  refine System.eventually_of_rank (P := fun m => n ≤ m)
    (fun m => N + 1 - sent chan taken (r.config m).shared) ?_ le_rfl
  intro m hnm
  by_cases hend : ∀ l, m ≤ l →
      sent chan taken (r.config l).shared = sent chan taken (r.config m).shared
  · exact ⟨m, le_rfl, .inl hend⟩
  · obtain ⟨l, hml, hmore⟩ : ∃ l, m ≤ l ∧
        sent chan taken (r.config l).shared ≠ sent chan taken (r.config m).shared := by
      simpa only [not_forall, exists_prop] using hend
    have hle := (hr.mono r hml).2
    have hN := hbound l
    exact ⟨l, hml, .inr ⟨hnm.trans hml, by omega⟩⟩

/-- When no more is sent, the receivers leave the channel without elements for ever. -/
theorem Received.comes_empty (hr : Received S ok c₀ chan e f taken) (r : System.FairRun S ok c₀)
    (hcomes : ∀ n, ∃ m, n ≤ m ∧ ReceiverComes chan e taken r m) {m : ℕ}
    (hlast : ∀ l, m ≤ l →
      sent chan taken (r.config l).shared = sent chan taken (r.config m).shared) :
    ∃ l, m ≤ l ∧ ∀ k, l ≤ k → (chan (r.config k).shared).contents = [] := by
  obtain ⟨l, hml, hdone⟩ : ∃ l, m ≤ l ∧
      taken (r.config l).shared = sent chan taken (r.config m).shared := by
    by_cases hnone : sent chan taken (r.config m).shared = 0
    · refine ⟨m, le_rfl, ?_⟩
      rw [sent] at hnone ⊢
      omega
    · obtain ⟨l, hml, htaken⟩ := hr.all_received r hcomes (n := m)
        (k := sent chan taken (r.config m).shared - 1) (by omega)
      have hsame := hlast l hml
      rw [sent] at hsame
      exact ⟨l, hml, by omega⟩
  refine ⟨l, hml, fun k hlk => List.eq_nil_of_length_eq_zero ?_⟩
  have htaken := (hr.mono r hlk).1
  have hsame := hlast k (hml.trans hlk)
  rw [sent] at hsame
  omega

/-- As long as receivers come to a channel that stays open, and unless it is sent to
    for ever, no sender waits for ever for room. -/
theorem Received.senders_pass (hr : Received S ok c₀ chan e f taken) (hs : Sends S ok c₀ chan f)
    (r : System.FairRun S ok c₀)
    (hcomes : ∀ n, ∃ m, n ≤ m ∧ ReceiverComes chan e taken r m) {n N : ℕ}
    (hopen : ∀ m, n ≤ m → (chan (r.config m).shared).closed = false)
    (hbound : ∀ m, sent chan taken (r.config m).shared ≤ N) (t : ℕ) :
    ∃ m, n ≤ m ∧ ¬∃ pc, (r.config m).pc? t = some pc ∧ f pc = true := by
  obtain ⟨m, hnm, hlast⟩ := hr.sent_settles r hbound n
  obtain ⟨l, hml, hempty⟩ := hr.comes_empty r hcomes hlast
  have hnl := hnm.trans hml
  refine ⟨l, hnl, ?_⟩
  rintro ⟨pc, hpc, hf⟩
  -- a sender that is awake would send one more
  obtain ⟨u, q, hq, hfq, hwoken⟩ := (hr.sound (r.reach l)).exists_sender_woken
    (hr.sendersAwake hs (r.reach l)) (hopen l hnl) (hempty l le_rfl) hpc hf
  obtain ⟨k, hlk, hmore⟩ := hr.sender_refills hs r (fun k hlk => hopen k (hnl.trans hlk))
    hq hfq hwoken
  exact hmore (hempty k hlk)

end Received

end Channel

end Monitor
