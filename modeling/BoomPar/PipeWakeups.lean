-- SUMMARY: The capacity of a pipe stays within its limit, and no wake-up of its threads is lost.
import BoomPar.PipeStream

/-!
# Wake-ups of a pipe

Writers wait for the capacity to equal the limit, so no resize may go beyond it.
A read broadcasts only when it moved bytes; one that moved none leaves a full
pipe full, even where it resizes it.
-/

namespace BoomPar

open Monitor

variable {δ : Type} {D : Dpipe δ} {contents : δ → List UInt8}

/-- A writer sleeps, and the test of its loop holds. -/
def WriterMustWait (D : Dpipe δ) (s : PipeState δ) : PipePc → Prop
  | .writeWaiting _ => s.pipe.writeMustWait D = true
  | _ => False

/-- A reader sleeps, and the test of its loop holds. -/
def ReaderMustWait (D : Dpipe δ) (s : PipeState δ) : PipePc → Prop
  | .readWaiting _ => s.pipe.readMustWait D = true
  | _ => False

theorem WriterMustWait.keep {s s' : PipeState δ} {q : PipePc} (h : WriterMustWait D s q)
    (hmust : s.pipe.writeMustWait D = true → s'.pipe.writeMustWait D = true) :
    WriterMustWait D s' q := by
  cases q with
  | writeWaiting data => exact hmust h
  | _ => cases h

theorem ReaderMustWait.keep {s s' : PipeState δ} {q : PipePc} (h : ReaderMustWait D s q)
    (hmust : s.pipe.readMustWait D = true → s'.pipe.readMustWait D = true) :
    ReaderMustWait D s' q := by
  cases q with
  | readWaiting dataSize => exact hmust h
  | _ => cases h

theorem SyncPipe.writeMustWait_iff (hD : D.Lawful contents) {spyp : SyncPipe δ} :
    spyp.writeMustWait D = true ↔ D.isClosed spyp.pyp = false ∧
      (contents spyp.pyp).length = D.getCapacity spyp.pyp ∧
      D.getCapacity spyp.pyp = spyp.maxCapacity := by
  simp only [writeMustWait, Bool.and_eq_true, Bool.not_eq_true', beq_iff_eq, hD.full, and_assoc]

theorem SyncPipe.readMustWait_iff (hD : D.Lawful contents) {spyp : SyncPipe δ} :
    spyp.readMustWait D = true ↔ D.isClosed spyp.pyp = false ∧ contents spyp.pyp = [] := by
  simp only [readMustWait, Bool.and_eq_true, Bool.not_eq_true', hD.empty]

/-- A read of the full pipe that moves no byte leaves it full, at the same capacity. -/
theorem SyncPipe.shrinkAfterRead_full (hD : D.Lawful contents) {d : δ} {size : ℕ}
    (allocated : Bool) (hfull : (contents d).length = D.getCapacity d)
    (hnone : (D.read d size).2 = []) :
    (contents (shrinkAfterRead D (D.read d size).1 allocated)).length = D.getCapacity d ∧
      D.getCapacity (shrinkAfterRead D (D.read d size).1 allocated) = D.getCapacity d := by
  obtain ⟨htake, hdrop, hsame, -⟩ := hD.read d size
  have hcontents : contents (D.read d size).1 = contents d := by
    rw [htake] at hnone
    rw [hdrop, ← List.nil_append (List.drop size _), ← hnone, List.take_append_drop]
  rw [(shrinkAfterRead_keeps hD _ allocated).1, hcontents]
  refine ⟨hfull, ?_⟩
  unfold shrinkAfterRead
  split
  · obtain hstays | ⟨-, -, hcapacity, -⟩ := hD.resize (D.read d size).1
      (D.getBytesReadable (D.read d size).1) allocated
    · rw [hstays, hsame]
    · rw [hcapacity, hD.readable, hcontents, hfull]
  · exact hsame

theorem PipeMove.mem_full (hD : D.Lawful contents) {s s' : PipeState δ} {t u : ℕ}
    {allocated : Bool} {pc pc' : PipePc} (h : PipeMove D s t allocated pc s' pc')
    (hu : u ∈ s'.pipe.syncPipeFull) : (u = t ∧ WriterMustWait D s' pc') ∨
      (u ∈ s.pipe.syncPipeFull ∧ ∀ q, WriterMustWait D s q → WriterMustWait D s' q) := by
  cases h with
  | writeWait pc data _ hwait =>
    obtain rfl | hold := CondVar.mem_wait.mp hu
    · exact .inl ⟨rfl, hwait⟩
    · exact .inr ⟨hold, fun q hq => hq.keep id⟩
  | write pc data pyp n _ hgoes _ _ =>
    refine .inr ⟨hu, fun q hq => hq.keep fun hmust => ?_⟩
    rw [hgoes] at hmust
    cases hmust
  | read pc dataSize pyp data _ _ hdata hpyp =>
    refine .inr ⟨CondVar.mem_of_mem_broadcastIf hu, fun q hq => hq.keep fun hmust => ?_⟩
    obtain ⟨hopen, hfull, hlimit⟩ := (SyncPipe.writeMustWait_iff hD).mp hmust
    have hopen' : D.isClosed pyp = false := by
      rw [hpyp, (SyncPipe.shrinkAfterRead_keeps hD _ allocated).2.1,
        (hD.read s.pipe.pyp dataSize).2.2.2, hopen]
    have hnone : data = [] := by
      by_contra hsome
      have hbroadcast : (!D.isClosed pyp && decide (0 < data.length)) = true := by
        rw [hopen', Bool.not_false, Bool.true_and, decide_eq_true_eq]
        exact List.length_pos_iff.mpr hsome
      rw [hbroadcast] at hu
      exact Finset.notMem_empty u hu
    rw [hnone] at hdata
    obtain ⟨hfull', hcapacity⟩ := SyncPipe.shrinkAfterRead_full hD allocated hfull hdata.symm
    rw [← hpyp] at hfull' hcapacity
    exact (SyncPipe.writeMustWait_iff hD).mpr
      ⟨hopen', hfull'.trans hcapacity.symm, hcapacity.trans hlimit⟩
  | close _ => exact absurd hu (Finset.notMem_empty u)
  | _ => exact .inr ⟨hu, fun q hq => hq.keep id⟩

theorem PipeMove.mem_empty (hD : D.Lawful contents) {s s' : PipeState δ} {t u : ℕ}
    {allocated : Bool} {pc pc' : PipePc} (h : PipeMove D s t allocated pc s' pc')
    (hu : u ∈ s'.pipe.syncPipeEmpty) : (u = t ∧ ReaderMustWait D s' pc') ∨
      (u ∈ s.pipe.syncPipeEmpty ∧ ∀ q, ReaderMustWait D s q → ReaderMustWait D s' q) := by
  cases h with
  | readWait pc dataSize _ hwait =>
    obtain rfl | hold := CondVar.mem_wait.mp hu
    · exact .inl ⟨rfl, hwait⟩
    · exact .inr ⟨hold, fun q hq => hq.keep id⟩
  | read pc dataSize pyp data _ hgoes _ _ =>
    refine .inr ⟨hu, fun q hq => hq.keep fun hmust => ?_⟩
    rw [hgoes] at hmust
    cases hmust
  | write pc data pyp n _ _ hopen hwrite =>
    refine .inr ⟨CondVar.mem_of_mem_broadcastIf hu, fun q hq => hq.keep fun hmust => ?_⟩
    obtain ⟨-, hempty⟩ := (SyncPipe.readMustWait_iff hD).mp hmust
    have hnone : n = 0 := by
      by_contra hsome
      rw [decide_eq_true (Nat.pos_of_ne_zero hsome)] at hu
      exact Finset.notMem_empty u hu
    obtain ⟨hcontents, hclosed, -⟩ := s.pipe.expandForWrite_keeps hD data.length allocated
    have hwritten := hD.write (s.pipe.expandForWrite D data.length allocated) data
      (hclosed.trans hopen)
    rw [hwrite, hcontents, hempty, hnone, List.take_zero] at hwritten
    exact (SyncPipe.readMustWait_iff hD).mpr ⟨hwritten.2.2.2, hwritten.2.1⟩
  | close _ => exact absurd hu (Finset.notMem_empty u)
  | _ => exact .inr ⟨hu, fun q hq => hq.keep id⟩

theorem pipe_writers_keepWaiting (hD : D.Lawful contents) : System.KeepsWaiting (pipeSystem D)
    (fun s => s.pipe.syncPipeFull) (WriterMustWait D) where
  resume {s t pc o s' pc' new} hs hmust ht := by
    cases pc with
    | writeWaiting data =>
      have hstuck : pipeStep D s t (.writeWaiting data) o = none := if_pos ht
      cases hstuck.symm.trans hs
    | _ => cases hmust
  step hs u hu := (pipeStep_move hs).1.mem_full hD hu
  wake hs u hu := by
    obtain ⟨cv, -, cv', hsub, rfl⟩ := pipeWake_frame hs
    exact ⟨hsub hu, fun q hq => hq.keep id⟩

theorem pipe_readers_keepWaiting (hD : D.Lawful contents) : System.KeepsWaiting (pipeSystem D)
    (fun s => s.pipe.syncPipeEmpty) (ReaderMustWait D) where
  resume {s t pc o s' pc' new} hs hmust ht := by
    cases pc with
    | readWaiting dataSize =>
      have hstuck : pipeStep D s t (.readWaiting dataSize) o = none := if_pos ht
      cases hstuck.symm.trans hs
    | _ => cases hmust
  step hs u hu := (pipeStep_move hs).1.mem_empty hD hu
  wake hs u hu := by
    obtain ⟨cv, hsub, cv', -, rfl⟩ := pipeWake_frame hs
    exact ⟨hsub hu, fun q hq => hq.keep id⟩

/-- The capacity stays within the limit, and who sleeps on a pipe has to wait, in
    every interleaving of any calls. -/
theorem pipe_sleepers_must_wait (hD : D.Lawful contents) {maxCapacity : ℕ} {allocated : Bool}
    {spyp : SyncPipe δ} {c : PipeConfig δ}
    (hnew : SyncPipe.new D maxCapacity allocated = some spyp) (h : PipeReach D spyp c) :
    D.getCapacity c.shared.pipe.pyp ≤ maxCapacity ∧
      (∀ t ∈ c.shared.pipe.syncPipeFull, ∀ data, c.pc? t = some (.writeWaiting data) →
        D.isClosed c.shared.pipe.pyp = false ∧ D.isFull c.shared.pipe.pyp = true ∧
          D.getCapacity c.shared.pipe.pyp = maxCapacity) ∧
      ∀ t ∈ c.shared.pipe.syncPipeEmpty, ∀ dataSize, c.pc? t = some (.readWaiting dataSize) →
        D.isClosed c.shared.pipe.pyp = false ∧ D.isEmpty c.shared.pipe.pyp = true := by
  obtain ⟨-, hzero, hlimit, hnoReader, hnoWriter⟩ := SyncPipe.new_fresh hD hnew
  have heffect := pipe_run_effect hD h
  have hmax : c.shared.pipe.maxCapacity = maxCapacity := heffect.limit.trans hlimit
  refine ⟨?_, fun t ht data hpc => ?_, fun t ht dataSize hpc => ?_⟩
  · have hbounded := heffect.bounded (hzero.trans_le (Nat.zero_le _))
    exact hbounded.trans_eq hlimit
  · have hwaiting : System.StillWaiting (fun s => s.pipe.syncPipeFull) (WriterMustWait D) c :=
      (pipe_writers_keepWaiting hD).reach (.of_empty hnoWriter) h
    obtain ⟨hopen, hfull, hcapacity⟩ :=
      (SyncPipe.writeMustWait_iff hD).mp (hwaiting.must ht hpc)
    exact ⟨hopen, (hD.full _).mpr hfull, hcapacity.trans hmax⟩
  · have hwaiting : System.StillWaiting (fun s => s.pipe.syncPipeEmpty) (ReaderMustWait D) c :=
      (pipe_readers_keepWaiting hD).reach (.of_empty hnoReader) h
    obtain ⟨hopen, hempty⟩ := (SyncPipe.readMustWait_iff hD).mp (hwaiting.must ht hpc)
    exact ⟨hopen, (hD.empty _).mpr hempty⟩

/-- The pipe is filled to its limit, and a writer sleeps. -/
def fullPipe : PipeConfig BytePipe :=
  (pipeSystem (BytePipe.dpipe 64)).run (pipeInit newPipe)
    [.call (.write [1, 2, 3, 4, 5, 6]) true, .call (.write [7]) true, .call (.read 0) true]
    (by decide)

/-- A reader sleeps on the new pipe. -/
def emptyPipe : PipeConfig BytePipe :=
  (pipeSystem (BytePipe.dpipe 64)).run (pipeInit newPipe) [.call (.read 3) true] (by decide)

theorem pipe_sleepers_must_wait_fullPipe :
    fullPipe.shared.pipe.pyp.capacity ≤ 4 ∧ fullPipe.shared.pipe.pyp.capacity = 4 ∧
      emptyPipe.shared.pipe.pyp.contents.isEmpty = true := by
  have hfull := pipe_sleepers_must_wait (BytePipe.lawful 64) (Option.some_get _).symm
    (.run (pipeInit newPipe) _ (by decide) : PipeReach _ newPipe fullPipe)
  have hempty := pipe_sleepers_must_wait (BytePipe.lawful 64) (Option.some_get _).symm
    (.run (pipeInit newPipe) _ (by decide) : PipeReach _ newPipe emptyPipe)
  exact ⟨hfull.1, (hfull.2.1 1 (by decide) [7] (by decide)).2.2,
    (hempty.2.2 0 (by decide) 3 (by decide)).2⟩

end BoomPar
