-- SUMMARY: What each step of the pipe's threads can do, and what it does to the bytes in the pipe.
import BoomPar.SyncPipe

/-!
# Threads of the pipe

The sections of the writers, the readers and of `close_sync_pipe`, said once as a
relation, and their effect on the contents and the capacity of the `dpipe`, which
is all that the library promises of it.
-/

namespace BoomPar

open Monitor

variable {δ : Type} {D : Dpipe δ} {contents : δ → List UInt8}

/-- A writer is about to test its wait loop. -/
inductive PipeWriteAt (s : PipeState δ) (t : ℕ) : PipePc → List UInt8 → Prop
  | call (data : List UInt8) : PipeWriteAt s t (.write data) data
  | resume (data : List UInt8) : t ∉ s.pipe.syncPipeFull →
      PipeWriteAt s t (.writeWaiting data) data

/-- A reader is about to test its wait loop. -/
inductive PipeReadAt (s : PipeState δ) (t : ℕ) : PipePc → ℕ → Prop
  | call (dataSize : ℕ) : PipeReadAt s t (.read dataSize) dataSize
  | resume (dataSize : ℕ) : t ∉ s.pipe.syncPipeEmpty →
      PipeReadAt s t (.readWaiting dataSize) dataSize

/-- One case for each branch of each section, guards included. -/
inductive PipeMove (D : Dpipe δ) (s : PipeState δ) (t : ℕ) (allocated : Bool) :
    PipePc → PipeState δ → PipePc → Prop
  | writeWait (pc : PipePc) (data : List UInt8) : PipeWriteAt s t pc data →
      s.pipe.writeMustWait D = true →
      PipeMove D s t allocated pc
        { s with pipe := { s.pipe with syncPipeFull := s.pipe.syncPipeFull.wait t } }
        (.writeWaiting data)
  | writeClosed (pc : PipePc) (data : List UInt8) : PipeWriteAt s t pc data →
      D.isClosed s.pipe.pyp = true →
      PipeMove D s t allocated pc { s with log := s.log ++ [.put data 0] }
        (.returned (.wrote data 0))
  | write (pc : PipePc) (data : List UInt8) (pyp : δ) (n : ℕ) : PipeWriteAt s t pc data →
      s.pipe.writeMustWait D = false → D.isClosed s.pipe.pyp = false →
      D.write (s.pipe.expandForWrite D data.length allocated) data = (pyp, n) →
      PipeMove D s t allocated pc
        ⟨{ s.pipe with
            pyp := pyp
            syncPipeEmpty := s.pipe.syncPipeEmpty.broadcastIf (0 < n) },
          s.log ++ [.put data n]⟩
        (.returned (.wrote data n))
  | readWait (pc : PipePc) (dataSize : ℕ) : PipeReadAt s t pc dataSize →
      s.pipe.readMustWait D = true →
      PipeMove D s t allocated pc
        { s with pipe := { s.pipe with syncPipeEmpty := s.pipe.syncPipeEmpty.wait t } }
        (.readWaiting dataSize)
  | read (pc : PipePc) (dataSize : ℕ) (pyp : δ) (data : List UInt8) : PipeReadAt s t pc dataSize →
      s.pipe.readMustWait D = false → data = (D.read s.pipe.pyp dataSize).2 →
      pyp = SyncPipe.shrinkAfterRead D (D.read s.pipe.pyp dataSize).1 allocated →
      PipeMove D s t allocated pc
        ⟨{ s.pipe with
            pyp := pyp
            syncPipeFull :=
              s.pipe.syncPipeFull.broadcastIf (!D.isClosed pyp && 0 < data.length) },
          s.log ++ [.took data]⟩
        (.returned (.read dataSize data))
  | close : D.isClosed s.pipe.pyp = false →
      PipeMove D s t allocated .close
        { s with pipe := ⟨∅, ∅, s.pipe.maxCapacity, D.close s.pipe.pyp⟩ } (.returned .closed)
  | closeAgain : D.isClosed s.pipe.pyp = true →
      PipeMove D s t allocated .close s (.returned .closed)

theorem pipe_write_move {s s' : PipeState δ} {t : ℕ} {allocated : Bool} {pc pc' : PipePc}
    {data : List UInt8} {new : List PipePc} (hat : PipeWriteAt s t pc data)
    (h : quietly (s.write D t data allocated) = some (s', pc', new)) :
    PipeMove D s t allocated pc s' pc' ∧ new = [] := by
  simp only [PipeState.write, SyncPipe.write, SyncPipe.writeAfterWait] at h
  cases hwait : s.pipe.writeMustWait D with
  | true =>
    rw [hwait] at h
    cases h
    exact ⟨.writeWait pc data hat hwait, rfl⟩
  | false =>
    rw [hwait] at h
    cases hclosed : D.isClosed s.pipe.pyp with
    | true =>
      rw [hclosed] at h
      cases h
      exact ⟨.writeClosed pc data hat hclosed, rfl⟩
    | false =>
      rw [hclosed] at h
      cases h
      exact ⟨.write pc data _ _ hat hwait hclosed rfl, rfl⟩

theorem pipe_read_move {s s' : PipeState δ} {t : ℕ} {allocated : Bool} {pc pc' : PipePc}
    {dataSize : ℕ} {new : List PipePc} (hat : PipeReadAt s t pc dataSize)
    (h : quietly (s.read D t dataSize allocated) = some (s', pc', new)) :
    PipeMove D s t allocated pc s' pc' ∧ new = [] := by
  simp only [PipeState.read, SyncPipe.read, SyncPipe.readAfterWait] at h
  cases hwait : s.pipe.readMustWait D with
  | true =>
    rw [hwait] at h
    cases h
    exact ⟨.readWait pc dataSize hat hwait, rfl⟩
  | false =>
    rw [hwait] at h
    cases h
    exact ⟨.read pc dataSize _ _ hat hwait rfl rfl, rfl⟩

theorem pipeStep_move {s s' : PipeState δ} {t : ℕ} {allocated : Bool} {pc pc' : PipePc}
    {new : List PipePc} (h : pipeStep D s t pc allocated = some (s', pc', new)) :
    PipeMove D s t allocated pc s' pc' ∧ new = [] := by
  cases pc with
  | write data => exact pipe_write_move (.call data) h
  | writeWaiting data =>
    simp only [pipeStep] at h
    split at h
    · cases h
    · rename_i hwoken
      exact pipe_write_move (.resume data hwoken) h
  | read dataSize => exact pipe_read_move (.call dataSize) h
  | readWaiting dataSize =>
    simp only [pipeStep] at h
    split at h
    · cases h
    · rename_i hwoken
      exact pipe_read_move (.resume dataSize hwoken) h
  | close =>
    simp only [pipeStep, SyncPipe.close] at h
    cases hclosed : D.isClosed s.pipe.pyp with
    | true =>
      rw [hclosed] at h
      cases h
      exact ⟨.closeAgain hclosed, rfl⟩
    | false =>
      rw [hclosed] at h
      cases h
      exact ⟨.close hclosed, rfl⟩
  | returned r => cases h

/-- A wake-up unblocks a thread and changes nothing else. -/
theorem pipeWake_frame {s s' : PipeState δ} {t : ℕ} {pc : PipePc} (h : pipeWake s t pc = some s') :
    ∃ cv ⊆ s.pipe.syncPipeEmpty, ∃ cv' ⊆ s.pipe.syncPipeFull,
      s' = { s with pipe := { s.pipe with syncPipeEmpty := cv, syncPipeFull := cv' } } := by
  cases pc with
  | writeWaiting data =>
    cases h
    exact ⟨_, Finset.Subset.rfl, _, Finset.erase_subset _ _, rfl⟩
  | readWaiting dataSize =>
    cases h
    exact ⟨_, Finset.erase_subset _ _, _, Finset.Subset.rfl, rfl⟩
  | _ => cases h

/-! ## Effects on the dpipe -/

/-- A resize keeps what the pipe holds, within a limit that it requests no more than. -/
theorem Dpipe.Lawful.resize_keeps (hD : D.Lawful contents) (d : δ) {n limit : ℕ} (allocated : Bool)
    (hn : n ≤ limit) : contents (D.resize d n allocated) = contents d ∧
      D.isClosed (D.resize d n allocated) = D.isClosed d ∧
      (D.getCapacity d ≤ limit → D.getCapacity (D.resize d n allocated) ≤ limit) := by
  obtain hsame | ⟨hcontents, hclosed, hcapacity, -⟩ := hD.resize d n allocated
  · rw [hsame]
    exact ⟨rfl, rfl, id⟩
  · exact ⟨hcontents, hclosed, fun _ => hcapacity.trans_le hn⟩

theorem SyncPipe.expandForWrite_keeps (hD : D.Lawful contents) (spyp : SyncPipe δ) (dataSize : ℕ)
    (allocated : Bool) :
    contents (spyp.expandForWrite D dataSize allocated) = contents spyp.pyp ∧
      D.isClosed (spyp.expandForWrite D dataSize allocated) = D.isClosed spyp.pyp ∧
      (D.getCapacity spyp.pyp ≤ spyp.maxCapacity →
        D.getCapacity (spyp.expandForWrite D dataSize allocated) ≤ spyp.maxCapacity) := by
  unfold SyncPipe.expandForWrite
  split
  · exact hD.resize_keeps _ _ (Nat.min_le_left _ _)
  · exact ⟨rfl, rfl, id⟩

theorem SyncPipe.shrinkAfterRead_keeps (hD : D.Lawful contents) (pyp : δ) (allocated : Bool) :
    contents (shrinkAfterRead D pyp allocated) = contents pyp ∧
      D.isClosed (shrinkAfterRead D pyp allocated) = D.isClosed pyp ∧
      D.getCapacity (shrinkAfterRead D pyp allocated) ≤ D.getCapacity pyp := by
  unfold SyncPipe.shrinkAfterRead
  split
  · have hle : D.getBytesReadable pyp ≤ D.getCapacity pyp := hD.readable pyp ▸ hD.contents_le pyp
    obtain ⟨hcontents, hclosed, hcapacity⟩ := hD.resize_keeps pyp allocated hle
    exact ⟨hcontents, hclosed, hcapacity le_rfl⟩
  · exact ⟨rfl, rfl, le_rfl⟩

/-- What a move did to the `dpipe`: the bytes that it transferred, whether it is
    closed, and its capacity. -/
structure PipeEffect (D : Dpipe δ) (contents : δ → List UInt8) (s s' : PipeState δ) : Prop where
  carries : ∃ log, s'.log = s.log ++ log ∧
    Transfer.Carries (contents s.pipe.pyp) log (contents s'.pipe.pyp) ∧
    (D.isClosed s.pipe.pyp = true → Transfer.allIn log = [])
  stays_closed : D.isClosed s.pipe.pyp = true → D.isClosed s'.pipe.pyp = true
  limit : s'.pipe.maxCapacity = s.pipe.maxCapacity
  bounded : D.getCapacity s.pipe.pyp ≤ s.pipe.maxCapacity →
    D.getCapacity s'.pipe.pyp ≤ s.pipe.maxCapacity

/-- A section that transfers nothing and leaves the `dpipe` as it is. -/
theorem PipeEffect.of_same {s s' : PipeState δ} (hlog : s'.log = s.log)
    (hpyp : s'.pipe.pyp = s.pipe.pyp) (hlimit : s'.pipe.maxCapacity = s.pipe.maxCapacity) :
    PipeEffect D contents s s' := by
  refine ⟨⟨[], ?_, ?_, fun _ => rfl⟩, ?_, hlimit, ?_⟩
  · rw [hlog, List.append_nil]
  · rw [hpyp]
    exact .refl _
  · rw [hpyp]
    exact id
  · rw [hpyp]
    exact id

theorem PipeMove.effect (hD : D.Lawful contents) {s s' : PipeState δ} {t : ℕ} {allocated : Bool}
    {pc pc' : PipePc} (h : PipeMove D s t allocated pc s' pc') : PipeEffect D contents s s' := by
  cases h with
  | writeWait pc data _ _ => exact .of_same rfl rfl rfl
  | writeClosed pc data _ hclosed =>
    refine ⟨⟨[.put data 0], rfl, ?_, fun _ => rfl⟩, id, rfl, id⟩
    have hput := Transfer.Carries.put (contents s.pipe.pyp) data 0
    rw [List.take_zero, List.append_nil] at hput
    exact hput
  | write pc data pyp n _ _ hopen hwrite =>
    obtain ⟨hcontents, hclosed, hcapacity⟩ :=
      s.pipe.expandForWrite_keeps hD data.length allocated
    have hwritten := hD.write (s.pipe.expandForWrite D data.length allocated) data
      (hclosed.trans hopen)
    rw [hwrite] at hwritten
    obtain ⟨-, happend, hsame, hopen'⟩ := hwritten
    refine ⟨⟨[.put data n], rfl, ?_, fun hclosed' => ?_⟩, fun hclosed' => ?_, rfl, fun hle => ?_⟩
    · rw [happend, hcontents]
      exact .put _ data n
    · rw [hopen] at hclosed'
      cases hclosed'
    · rw [hopen] at hclosed'
      cases hclosed'
    · exact hsame.trans_le (hcapacity hle)
  | readWait pc dataSize _ _ => exact .of_same rfl rfl rfl
  | read pc dataSize pyp data _ _ hdata hpyp =>
    obtain ⟨htake, hdrop, hsame, hclosed⟩ := hD.read s.pipe.pyp dataSize
    obtain ⟨hcontents, hclosed', hcapacity⟩ :=
      SyncPipe.shrinkAfterRead_keeps hD (D.read s.pipe.pyp dataSize).1 allocated
    rw [← hpyp] at hcontents hclosed' hcapacity
    refine ⟨⟨[.took data], rfl, ?_, fun _ => rfl⟩, fun h => ?_, rfl, fun hle => ?_⟩
    · rw [hcontents, hdrop, hdata, htake]
      have htook := Transfer.Carries.took ((contents s.pipe.pyp).take dataSize)
        ((contents s.pipe.pyp).drop dataSize)
      rw [List.take_append_drop] at htook
      exact htook
    · exact hclosed'.trans (hclosed.trans h)
    · exact hcapacity.trans (hsame.trans_le hle)
  | close hopen =>
    obtain ⟨hcontents, hcapacity, hclosed⟩ := hD.close s.pipe.pyp
    refine ⟨⟨[], (List.append_nil _).symm, ?_, fun _ => rfl⟩, fun _ => hclosed, rfl, fun hle => ?_⟩
    · rw [hcontents]
      exact .refl _
    · exact hcapacity.trans_le hle
  | closeAgain _ => exact .of_same rfl rfl rfl

end BoomPar
