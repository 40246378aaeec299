-- SUMMARY: How many bytes a write to the pipe accepts: the room up to the limit, unless the size that it requests wraps around.
import BoomPar.PipeStream
import BoomPar.PipeWakeups

/-!
# Progress of writes

A write that lacks room requests twice the bytes that it would then hold. The
sum is a `cy_uint`: for large writes it wraps around, and the capacity that is
requested falls short.
-/

namespace BoomPar

open Monitor

variable {δ : Type} {D : Dpipe δ} {contents : δ → List UInt8}

namespace SyncPipe

/-- The capacity that a write of `dataSize` bytes requests, if it requests one. -/
def requestedCapacity (D : Dpipe δ) (spyp : SyncPipe δ) (dataSize : ℕ) : Option ℕ :=
  if D.getCapacity spyp.pyp < spyp.maxCapacity ∧ D.getBytesWritable spyp.pyp < dataSize then
    some (min spyp.maxCapacity
      ((2 * D.getBytesReadable spyp.pyp + 2 * dataSize) % 2 ^ D.width))
  else none

theorem expandForWrite_eq (spyp : SyncPipe δ) (dataSize : ℕ) (allocated : Bool) :
    spyp.expandForWrite D dataSize allocated =
      (spyp.requestedCapacity D dataSize).elim spyp.pyp
        fun newCapacity => D.resize spyp.pyp newCapacity allocated := by
  unfold expandForWrite requestedCapacity
  split <;> rfl

/-- A write accepts as many of its bytes as there is room for up to the limit, and
    at least one, and requests no capacity below the current one. -/
structure WriteProgress (D : Dpipe δ) (contents : δ → List UInt8) (spyp : SyncPipe δ) (t : ℕ)
    (data : List UInt8) : Prop where
  written : (spyp.write D t data true).2 =
    some (min data.length (spyp.maxCapacity - (contents spyp.pyp).length))
  positive : 0 < min data.length (spyp.maxCapacity - (contents spyp.pyp).length)
  grows : ∀ newCapacity, spyp.requestedCapacity D data.length = some newCapacity →
    D.getCapacity spyp.pyp ≤ newCapacity

/-- The write has room already, or the capacity that it computes does not wrap
    around, or still reaches the limit. -/
def RequestFits (D : Dpipe δ) (spyp : SyncPipe δ) (dataSize : ℕ) : Prop :=
  D.getCapacity spyp.pyp = spyp.maxCapacity ∨ dataSize ≤ D.getBytesWritable spyp.pyp ∨
    2 * D.getBytesReadable spyp.pyp + 2 * dataSize < 2 ^ D.width ∨
    spyp.maxCapacity ≤ (2 * D.getBytesReadable spyp.pyp + 2 * dataSize) % 2 ^ D.width

instance (D : Dpipe δ) (spyp : SyncPipe δ) (dataSize : ℕ) :
    Decidable (spyp.RequestFits D dataSize) :=
  inferInstanceAs (Decidable (_ ∨ _ ∨ _ ∨ _))

/-- Resizes to the capacities that hold the contents, up to the limit, succeed. -/
def Resizes (D : Dpipe δ) (contents : δ → List UInt8) (spyp : SyncPipe δ) : Prop :=
  ∀ n, (contents spyp.pyp).length ≤ n → n ≤ spyp.maxCapacity →
    D.getCapacity (D.resize spyp.pyp n true) = n

/-- The write of an open pipe that is not full accepts what fits the capacity that
    the resize left. -/
theorem write_open (hD : D.Lawful contents) {spyp : SyncPipe δ} (t : ℕ) (data : List UInt8)
    (hopen : D.isClosed spyp.pyp = false) (hgoes : spyp.writeMustWait D = false) :
    (spyp.write D t data true).2 = some (min data.length
      (D.getCapacity (spyp.expandForWrite D data.length true) -
        (contents spyp.pyp).length)) := by
  obtain ⟨hcontents, hclosed, -⟩ := spyp.expandForWrite_keeps hD data.length true
  obtain ⟨hwritten, -⟩ := hD.write (spyp.expandForWrite D data.length true) data
    (hclosed.trans hopen)
  simp only [write, hgoes, writeAfterWait, hopen, hwritten, hD.writable, hcontents,
    Bool.false_eq_true, if_false]

/-- The capacity after the attempt to make room for a write. -/
theorem capacity_expandForWrite (hD : D.Lawful contents) {spyp : SyncPipe δ}
    (hresizes : spyp.Resizes D contents) (dataSize : ℕ) :
    D.getCapacity (spyp.expandForWrite D dataSize true) =
      (spyp.requestedCapacity D dataSize).elim (D.getCapacity spyp.pyp) fun newCapacity =>
        if (contents spyp.pyp).length ≤ newCapacity then newCapacity
        else D.getCapacity spyp.pyp := by
  rw [expandForWrite_eq]
  cases hrequest : spyp.requestedCapacity D dataSize with
  | none => rfl
  | some newCapacity =>
    have hle : newCapacity ≤ spyp.maxCapacity := by
      simp only [requestedCapacity, Option.ite_none_right_eq_some, Option.some.injEq] at hrequest
      rw [← hrequest.2]
      exact Nat.min_le_left _ _
    simp only [Option.elim_some]
    split
    · rename_i hfits
      exact hresizes newCapacity hfits hle
    · rename_i hshort
      obtain hsame | ⟨-, -, -, hfits⟩ := hD.resize spyp.pyp newCapacity true
      · rw [hsame]
      · exact absurd hfits hshort

/-- A sum that wraps around loses at least `W`. -/
theorem mod_add_le {x W : ℕ} (h : W ≤ x) : x % W + W ≤ x := by
  rw [Nat.mod_eq_sub_mod h]
  have := Nat.mod_le (x - W) W
  omega

/-- A request that wraps around below the limit leaves room for fewer bytes than the
    limit does. -/
theorem request_short {r d capacity limit W newCapacity : ℕ} (hr : r ≤ capacity)
    (hcapacity : capacity < limit) (hlimit : limit < W) (hroom : capacity - r < d)
    (hwrap : W ≤ 2 * r + 2 * d) (hnew : newCapacity = (2 * r + 2 * d) % W)
    (hshort : newCapacity < limit) :
    min d ((if r ≤ newCapacity then newCapacity else capacity) - r) ≠ min d (limit - r) := by
  have hloss := mod_add_le hwrap
  rw [← hnew] at hloss
  split <;> omega

theorem writeProgress_iff (hD : D.Lawful contents) {spyp : SyncPipe δ} (t : ℕ)
    {data : List UInt8} (hopen : D.isClosed spyp.pyp = false)
    (hgoes : spyp.writeMustWait D = false) (hcapacity : D.getCapacity spyp.pyp ≤ spyp.maxCapacity)
    (hlimit : spyp.maxCapacity < 2 ^ D.width) (hresizes : spyp.Resizes D contents)
    (hpos : 1 ≤ data.length) :
    spyp.WriteProgress D contents t data ↔ spyp.RequestFits D data.length := by
  have hholds := hD.contents_le spyp.pyp
  have hroom : (contents spyp.pyp).length < spyp.maxCapacity := by
    have hnot : ¬((contents spyp.pyp).length = D.getCapacity spyp.pyp ∧
        D.getCapacity spyp.pyp = spyp.maxCapacity) := by
      intro hfull
      rw [(writeMustWait_iff hD).mpr ⟨hopen, hfull⟩] at hgoes
      cases hgoes
    omega
  have hwrite := write_open hD t data hopen hgoes
  rw [capacity_expandForWrite hD hresizes] at hwrite
  unfold RequestFits
  rw [hD.readable, hD.writable]
  by_cases hrequests : D.getCapacity spyp.pyp < spyp.maxCapacity ∧
      D.getCapacity spyp.pyp - (contents spyp.pyp).length < data.length
  · have hrequest : spyp.requestedCapacity D data.length = some (min spyp.maxCapacity
        ((2 * (contents spyp.pyp).length + 2 * data.length) % 2 ^ D.width)) := by
      rw [requestedCapacity, hD.readable, hD.writable, if_pos hrequests]
    rw [hrequest, Option.elim_some] at hwrite
    by_cases hwrap : 2 ^ D.width ≤ 2 * (contents spyp.pyp).length + 2 * data.length
    · by_cases hshort :
        (2 * (contents spyp.pyp).length + 2 * data.length) % 2 ^ D.width < spyp.maxCapacity
      · -- the request wraps around to less than the limit
        rw [Nat.min_eq_right hshort.le] at hwrite
        refine iff_of_false (fun h => ?_) (by omega)
        have hsame := hwrite.symm.trans h.written
        exact request_short hholds hrequests.1 hlimit hrequests.2 hwrap rfl hshort
          (Option.some.inj hsame)
      · -- it wraps around, but the limit is reached
        have hreach := Nat.le_of_not_lt hshort
        rw [Nat.min_eq_left hreach, if_pos hroom.le] at hwrite
        refine iff_of_true ⟨hwrite, by omega, ?_⟩ (by omega)
        intro newCapacity hsome
        rw [hrequest, Nat.min_eq_left hreach] at hsome
        cases hsome
        exact hcapacity
    · have hmod : (2 * (contents spyp.pyp).length + 2 * data.length) % 2 ^ D.width =
          2 * (contents spyp.pyp).length + 2 * data.length :=
        Nat.mod_eq_of_lt (Nat.lt_of_not_le hwrap)
      rw [hmod] at hwrite
      refine iff_of_true ⟨?_, by omega, ?_⟩ (by omega)
      · rw [hwrite, Option.some.injEq]
        split <;> omega
      · intro newCapacity hsome
        rw [hrequest, hmod] at hsome
        cases hsome
        omega
  · have hrequest : spyp.requestedCapacity D data.length = none := by
      rw [requestedCapacity, hD.writable, if_neg hrequests]
    rw [hrequest, Option.elim_none] at hwrite
    refine iff_of_true ⟨?_, by omega, ?_⟩ (by omega)
    · rw [hwrite, Option.some.injEq]
      omega
    · intro newCapacity hsome
      rw [hrequest] at hsome
      cases hsome

end SyncPipe

/-! ## Reachable pipes -/

/-- In every open pipe that a run leads to, a write that does not wait makes progress
    exactly if it has room already, or its request does not wrap around below the limit. -/
theorem write_progress_iff (hD : D.Lawful contents) {maxCapacity : ℕ} {allocated : Bool}
    {spyp : SyncPipe δ} {c : PipeConfig δ}
    (hnew : SyncPipe.new D maxCapacity allocated = some spyp) (h : PipeReach D spyp c)
    (hlimit : maxCapacity < 2 ^ D.width) (hopen : D.isClosed c.shared.pipe.pyp = false)
    (hgoes : c.shared.pipe.writeMustWait D = false)
    (hresizes : c.shared.pipe.Resizes D contents) (t : ℕ) {data : List UInt8}
    (hpos : 1 ≤ data.length) :
    c.shared.pipe.WriteProgress D contents t data ↔
      c.shared.pipe.RequestFits D data.length := by
  obtain ⟨-, hzero, hmax, -, -⟩ := SyncPipe.new_fresh hD hnew
  have heffect := pipe_run_effect hD h
  have hlimit' : c.shared.pipe.maxCapacity = maxCapacity := heffect.limit.trans hmax
  have hbounded : D.getCapacity c.shared.pipe.pyp ≤ c.shared.pipe.maxCapacity := by
    rw [heffect.limit]
    exact heffect.bounded (by rw [pipeInit, hzero]; exact Nat.zero_le _)
  exact SyncPipe.writeProgress_iff hD t hopen hgoes hbounded (hlimit' ▸ hlimit) hresizes hpos

theorem BytePipe.resizes (width : ℕ) (spyp : SyncPipe BytePipe) :
    spyp.Resizes (BytePipe.dpipe width) BytePipe.contents := by
  intro n hle _
  have hresize : spyp.pyp.resize n true = ⟨spyp.pyp.contents, n, spyp.pyp.isClosed, hle⟩ :=
    dif_pos ⟨rfl, hle⟩
  exact congrArg BytePipe.capacity hresize

/-- Six bytes are offered to a new pipe of at most 4. -/
theorem write_progress_iff_newPipe :
    newPipe.WriteProgress (BytePipe.dpipe 64) BytePipe.contents 0 [1, 2, 3, 4, 5, 6] ↔
      newPipe.RequestFits (BytePipe.dpipe 64) 6 :=
  write_progress_iff (c := pipeInit newPipe) (BytePipe.lawful 64) (Option.some_get _).symm .refl
    (by decide) rfl (by decide) (BytePipe.resizes 64 newPipe) 0 (by decide)

/-- A pipe of at most 4 bytes, with sizes of 32 bits. -/
def newPipe32 : SyncPipe BytePipe := (SyncPipe.new (BytePipe.dpipe 32) 4 true).get rfl

/-- A new pipe accepts none of 2^31 bytes: twice as many are 0 modulo 2^32. -/
theorem write_progress_fails : ∃ data : List UInt8, 1 ≤ data.length ∧ data.length < 2 ^ 32 ∧
    (newPipe32.write (BytePipe.dpipe 32) 0 data true).2 = some 0 ∧
    ¬newPipe32.WriteProgress (BytePipe.dpipe 32) BytePipe.contents 0 data := by
  have hlength : (List.replicate (2 ^ 31) (0 : UInt8)).length = 2 ^ 31 := List.length_replicate
  have hwrite : (newPipe32.write (BytePipe.dpipe 32) 0 (List.replicate (2 ^ 31) 0) true).2 =
      some 0 := by
    rw [SyncPipe.write_open (BytePipe.lawful 32) 0 _ rfl (by decide), hlength]
    decide
  refine ⟨List.replicate (2 ^ 31) 0, ?_, ?_, hwrite, ?_⟩
  · rw [hlength]
    decide
  · rw [hlength]
    decide
  · intro h
    have hsome := hwrite.symm.trans h.written
    exact absurd (Option.some.inj hsome) h.positive.ne

end BoomPar
