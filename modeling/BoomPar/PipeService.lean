-- SUMMARY: A pipe under a fair scheduler: closing it releases every call, what is written is read as long as readers come, and no writer is left behind.
import BoomPar.Monitor.Fairness
import BoomPar.PipeStream
import BoomPar.PipeWakeups

/-!
# Service of a pipe

The waits of a pipe have no timeout. A reader is released by bytes, a writer by
room, and both by the close. Broadcasts wake every sleeper, so a thread that waits
may have to wait again, but only because others read or wrote in between.
-/

namespace BoomPar

open Monitor

variable {δ : Type} {D : Dpipe δ} {contents : δ → List UInt8}

/-- A run of the threads on the pipe `spyp` for ever. -/
abbrev PipeRun (D : Dpipe δ) (spyp : SyncPipe δ) :=
  System.FairRun (pipeSystem D) (fun _ _ => True) (pipeInit spyp)

/-- A call that returned, or that is blocked. -/
def PipeState.rests (s : PipeState δ) (t : ℕ) : PipePc → Bool
  | .writeWaiting _ => t ∈ s.pipe.syncPipeFull
  | .readWaiting _ => t ∈ s.pipe.syncPipeEmpty
  | .returned _ => true
  | _ => false

theorem pipeStep_eq_none {s : PipeState δ} {t : ℕ} {pc : PipePc} {allocated : Bool}
    (h : s.rests t pc = true) : pipeStep D s t pc allocated = none := by
  cases pc with
  | writeWaiting data => exact if_pos (of_decide_eq_true h)
  | readWaiting dataSize => exact if_pos (of_decide_eq_true h)
  | returned r => rfl
  | _ => cases h

theorem pipeStep_isSome {s : PipeState δ} {t : ℕ} {pc : PipePc} {allocated : Bool}
    (h : s.rests t pc = false) : (pipeStep D s t pc allocated).isSome = true := by
  cases pc with
  | writeWaiting data =>
    have hwoken : t ∉ s.pipe.syncPipeFull := of_decide_eq_false h
    simp only [pipeStep, if_neg hwoken]
    rfl
  | readWaiting dataSize =>
    have hwoken : t ∉ s.pipe.syncPipeEmpty := of_decide_eq_false h
    simp only [pipeStep, if_neg hwoken]
    rfl
  | returned r => cases h
  | _ => rfl

/-! ## Who is awake -/

section

variable {maxCapacity : ℕ} {allocated : Bool} {spyp : SyncPipe δ} {c : PipeConfig δ} {t : ℕ}

/-- A writer that need not wait any more is awake. -/
theorem pipe_writer_awake (hD : D.Lawful contents)
    (hnew : SyncPipe.new D maxCapacity allocated = some spyp) (h : PipeReach D spyp c)
    {data : List UInt8} (hpc : c.pc? t = some (.writeWaiting data))
    (hgoes : c.shared.pipe.writeMustWait D = false) :
    c.shared.rests t (.writeWaiting data) = false := by
  obtain ⟨-, -, -, -, hnoWriter⟩ := SyncPipe.new_fresh hD hnew
  have hwaiting : System.StillWaiting (fun s => s.pipe.syncPipeFull) (WriterMustWait D) c :=
    (pipe_writers_keepWaiting hD).reach (.of_empty hnoWriter) h
  apply decide_eq_false
  intro hsleeps
  have hmust : c.shared.pipe.writeMustWait D = true := hwaiting.must hsleeps hpc
  rw [hgoes] at hmust
  cases hmust

/-- A reader that need not wait any more is awake. -/
theorem pipe_reader_awake (hD : D.Lawful contents)
    (hnew : SyncPipe.new D maxCapacity allocated = some spyp) (h : PipeReach D spyp c)
    {dataSize : ℕ} (hpc : c.pc? t = some (.readWaiting dataSize))
    (hgoes : c.shared.pipe.readMustWait D = false) :
    c.shared.rests t (.readWaiting dataSize) = false := by
  obtain ⟨-, -, -, hnoReader, -⟩ := SyncPipe.new_fresh hD hnew
  have hwaiting : System.StillWaiting (fun s => s.pipe.syncPipeEmpty) (ReaderMustWait D) c :=
    (pipe_readers_keepWaiting hD).reach (.of_empty hnoReader) h
  apply decide_eq_false
  intro hsleeps
  have hmust : c.shared.pipe.readMustWait D = true := hwaiting.must hsleeps hpc
  rw [hgoes] at hmust
  cases hmust

end

/-! ## A closed pipe -/

/-- How many sections a call on a closed pipe has before it. -/
def PipePc.left : PipePc → ℕ
  | .returned _ => 0
  | _ => 1

/-- A write on its way that can only return 0, or that returned it. -/
def PipePc.writesNothing (data : List UInt8) : PipePc → Prop
  | .writeWaiting data' => data' = data
  | .returned (.wrote data' n) => data' = data ∧ n = 0
  | _ => False

theorem PipeMove.returns {s s' : PipeState δ} {t : ℕ} {allocated : Bool} {pc pc' : PipePc}
    (h : PipeMove D s t allocated pc s' pc') (hs : D.isClosed s.pipe.pyp = true) :
    pc'.left = 0 := by
  cases h with
  | writeWait pc data _ hwait => simp [SyncPipe.writeMustWait, hs] at hwait
  | readWait pc dataSize _ hwait => simp [SyncPipe.readMustWait, hs] at hwait
  | _ => rfl

theorem PipeMove.writes_nothing {s s' : PipeState δ} {t : ℕ} {allocated : Bool} {pc pc' : PipePc}
    {data : List UInt8} (h : PipeMove D s t allocated pc s' pc')
    (hs : D.isClosed s.pipe.pyp = true) (hpc : pc.writesNothing data) :
    pc'.writesNothing data := by
  cases h with
  | writeWait pc data' _ hwait => simp [SyncPipe.writeMustWait, hs] at hwait
  | writeClosed pc data' hat _ =>
    cases hat with
    | call => cases hpc
    | resume => exact ⟨hpc, rfl⟩
  | write pc data' pyp n _ _ hopen _ =>
    rw [hs] at hopen
    cases hopen
  | readWait pc dataSize _ hwait => simp [SyncPipe.readMustWait, hs] at hwait
  | read pc dataSize pyp data' hat _ _ _ => cases hat <;> cases hpc
  | close _ => cases hpc
  | closeAgain _ => cases hpc

theorem PipePc.eq_returned {pc : PipePc} (h : pc.left = 0) : ∃ r, pc = .returned r := by
  cases pc with
  | returned r => exact ⟨r, rfl⟩
  | _ => cases h

section

variable {maxCapacity : ℕ} {allocated : Bool} {spyp : SyncPipe δ}

theorem pipe_rests_of_closed (hD : D.Lawful contents)
    (hnew : SyncPipe.new D maxCapacity allocated = some spyp) {c : PipeConfig δ}
    (h : PipeReach D spyp c) (hclosed : D.isClosed c.shared.pipe.pyp = true) {t : ℕ} {pc : PipePc}
    (hpc : c.pc? t = some pc) (hleft : 0 < pc.left) : c.shared.rests t pc = false := by
  cases pc with
  | writeWaiting data =>
    apply pipe_writer_awake hD hnew h hpc
    simp [SyncPipe.writeMustWait, hclosed]
  | readWaiting dataSize =>
    apply pipe_reader_awake hD hnew h hpc
    simp [SyncPipe.readMustWait, hclosed]
  | returned r => exact absurd hleft (Nat.lt_irrefl 0)
  | _ => rfl

theorem pipe_next_effect (hD : D.Lawful contents) {c c' : PipeConfig δ} {a : Act PipeCall Bool}
    (h : (pipeSystem D).next c a = some c') : PipeEffect D contents c.shared c'.shared :=
  pipe_run_effect hD
    (System.Reach.refl.tail trivial h : (pipeSystem D).Reach (fun _ _ => True) c c')

theorem pipe_returns (hD : D.Lawful contents)
    (hnew : SyncPipe.new D maxCapacity allocated = some spyp) :
    System.Returns (pipeSystem D) (fun _ _ => True) (pipeInit spyp)
      (fun c => D.isClosed c.shared.pipe.pyp = true) (fun _ => PipePc.left) where
  keep _ hclosed _ hn := (pipe_next_effect hD hn).stays_closed hclosed
  can hc hclosed hpc hleft :=
    .of_isSome (o := true) hpc trivial
      (pipeStep_isSome (pipe_rests_of_closed hD hnew hc hclosed hpc hleft))
  step _ hclosed _ hleft hs := by
    rw [(pipeStep_move hs).1.returns hclosed]
    exact hleft
  other _ _ _ _ _ := le_rfl
  wake _ _ _ _ := le_rfl

/-- In every fair run of the threads on a pipe, once the pipe is closed every call
    returns, and a write that was blocked returns 0. -/
theorem closed_pipe_releases (hD : D.Lawful contents)
    (hnew : SyncPipe.new D maxCapacity allocated = some spyp) (r : PipeRun D spyp) {n t : ℕ}
    {pc : PipePc} (hclosed : D.isClosed (r.config n).shared.pipe.pyp = true)
    (hpc : (r.config n).pc? t = some pc) :
    ∃ m, n ≤ m ∧ ∃ res, (r.config m).pc? t = some (.returned res) ∧
      ∀ data, pc = .writeWaiting data → res = .wrote data 0 := by
  obtain ⟨m, hnm, -, pc', hpc', hleft⟩ := (pipe_returns hD hnew).eventually r hclosed hpc
  obtain ⟨res, rfl⟩ := PipePc.eq_returned hleft
  refine ⟨m, hnm, res, hpc', ?_⟩
  rintro data rfl
  have hstays : ∀ l, n ≤ l → D.isClosed (r.config l).shared.pipe.pyp = true := fun l hnl =>
    (pipe_run_effect hD (r.reach_le hnl)).stays_closed hclosed
  obtain ⟨pc', hpc₁, hnothing⟩ := r.follow (R := fun s => D.isClosed s.pipe.pyp = true)
    (P := PipePc.writesNothing data)
    (fun hs hc hpc => (pipeStep_move hs).1.writes_nothing hc hpc) hstays hpc (Eq.refl data) hnm
  rw [hpc'] at hpc₁
  cases hpc₁
  unfold PipePc.writesNothing at hnothing
  split at hnothing
  · rename_i heq
    cases heq
  · rename_i data' w heq
    cases heq
    obtain ⟨rfl, rfl⟩ := hnothing
    rfl
  · cases hnothing

end

/-- A pipe is filled to its limit, a writer blocks, and the pipe is closed. -/
def releasedWriterRun : PipeRun (BytePipe.dpipe 64) newPipe :=
  .ofCheck _
    [.call (.write [1, 2, 3, 4]) true, .call (.write [7]) true, .call .close true, .step 1 true]
    (by decide) (System.not_canStep PipeState.rests pipeStep_eq_none (by decide))

theorem closed_pipe_releases_releasedWriterRun :
    ∃ m, 3 ≤ m ∧ ∃ res, (releasedWriterRun.config m).pc? 1 = some (.returned res) ∧
      ∀ data, PipePc.writeWaiting [7] = .writeWaiting data → res = .wrote data 0 :=
  closed_pipe_releases (BytePipe.lawful 64) (Option.some_get _).symm releasedWriterRun (by decide)
    (by decide)

/-! ## Reading what is written -/

/-- A reader that finds bytes takes some. -/
theorem PipeMove.reads (hD : D.Lawful contents) {s s' : PipeState δ} {t dataSize : ℕ}
    {allocated : Bool} {pc pc' : PipePc} (h : PipeMove D s t allocated pc s' pc')
    (hat : PipeReadAt s t pc dataSize) (hsize : 0 < dataSize) (hs : contents s.pipe.pyp ≠ []) :
    (Transfer.allOut s.log).length < (Transfer.allOut s'.log).length := by
  cases h with
  | writeWait pc data hwrite _ => cases hwrite <;> cases hat
  | writeClosed pc data hwrite _ => cases hwrite <;> cases hat
  | write pc data pyp n hwrite _ _ _ => cases hwrite <;> cases hat
  | readWait pc size _ hwait => exact absurd ((SyncPipe.readMustWait_iff hD).mp hwait).2 hs
  | read pc size pyp data hread _ hdata _ =>
    have hsame : size = dataSize := by cases hread <;> cases hat <;> rfl
    have hsome : data ≠ [] := by
      rw [hdata, (hD.read _ _).1, hsame, Ne, List.take_eq_nil_iff, not_or]
      exact ⟨Nat.ne_of_gt hsize, hs⟩
    have hpos := List.length_pos_iff.mpr hsome
    rw [Transfer.allOut_append, Transfer.allOut_took, List.length_append]
    exact Nat.lt_add_of_pos_right hpos
  | close _ => cases hat
  | closeAgain _ => cases hat

/-- Thread `t` waits to read from a pipe that has bytes, after `k` bytes were read. -/
structure ReaderFinds (contents : δ → List UInt8) (t k : ℕ) (c : PipeConfig δ) : Prop where
  waits : ∃ dataSize, 0 < dataSize ∧ c.pc? t = some (.readWaiting dataSize)
  readable : contents c.shared.pipe.pyp ≠ []
  taken : (Transfer.allOut c.shared.log).length = k

section

variable {maxCapacity : ℕ} {allocated : Bool} {spyp : SyncPipe δ}

/-- The bytes that a transition reads, and what it leaves when it reads none. -/
theorem pipe_reads_or_keeps (hD : D.Lawful contents) {c c' : PipeConfig δ} {a : Act PipeCall Bool}
    (h : (pipeSystem D).next c a = some c') :
    (Transfer.allOut c.shared.log).length < (Transfer.allOut c'.shared.log).length ∨
      (Transfer.allOut c'.shared.log = Transfer.allOut c.shared.log ∧
        contents c.shared.pipe.pyp <+: contents c'.shared.pipe.pyp) := by
  obtain ⟨log, hlog, hcarries, -⟩ := (pipe_next_effect hD h).carries
  rw [hlog, Transfer.allOut_append, List.length_append]
  rcases List.eq_nil_or_concat (Transfer.allOut log) with hnone | ⟨init, last, hsome⟩
  · rw [Transfer.Carries, hnone, List.nil_append] at hcarries
    refine .inr ⟨?_, _, hcarries⟩
    rw [hnone, List.append_nil]
  · left
    rw [hsome]
    simp

theorem reader_leadsTo (hD : D.Lawful contents)
    (hnew : SyncPipe.new D maxCapacity allocated = some spyp) (r : PipeRun D spyp) (t k : ℕ) :
    r.LeadsTo (ReaderFinds contents t k) fun c => k < (Transfer.allOut c.shared.log).length := by
  have hgoes : ∀ {c}, PipeReach D spyp c → ReaderFinds contents t k c →
      ∃ dataSize, 0 < dataSize ∧ c.pc? t = some (.readWaiting dataSize) ∧
        c.shared.rests t (.readWaiting dataSize) = false := by
    intro c hreach hc
    obtain ⟨dataSize, hsize, hpc⟩ := hc.waits
    refine ⟨dataSize, hsize, hpc, pipe_reader_awake hD hnew hreach hpc ?_⟩
    by_contra hwait
    rw [Bool.not_eq_false] at hwait
    exact hc.readable ((SyncPipe.readMustWait_iff hD).mp hwait).2
  refine r.leadsTo_by t ?_ ?_ ?_
  · intro c hreach hc
    obtain ⟨dataSize, -, hpc, hawake⟩ := hgoes hreach hc
    exact .of_isSome (o := true) hpc trivial (pipeStep_isSome hawake)
  · intro c o c' hreach hc h
    obtain ⟨dataSize, hsize, hpc, hawake⟩ := hgoes hreach hc
    obtain ⟨pc, s, pc', new, hpc₁, hs, rfl⟩ := System.stepAt_cases h
    have hmove := (pipeStep_move hs).1
    rw [hpc] at hpc₁
    cases hpc₁
    rw [← hc.taken]
    exact hmove.reads hD (.resume dataSize (of_decide_eq_false hawake)) hsize hc.readable
  · intro c a c' _ hc hnot _ h
    obtain ⟨dataSize, hsize, hpc⟩ := hc.waits
    rcases pipe_reads_or_keeps hD h with hreads | ⟨hsame, hkept⟩
    · left
      rw [← hc.taken]
      exact hreads
    · refine .inr ⟨⟨dataSize, hsize, (System.next_other h hpc hnot).1⟩, fun hnil => ?_, ?_⟩
      · rw [hnil, List.prefix_nil] at hkept
        exact hc.readable hkept
      · rw [hsame, hc.taken]

/-- A reader of some bytes is there: one that waits, or one that enters the pipe. -/
def ReaderComes {spyp : SyncPipe δ} (r : PipeRun D spyp) (n : ℕ) : Prop :=
  ∃ dataSize, 0 < dataSize ∧
    ((∃ t, (r.config n).pc? t = some (.readWaiting dataSize)) ∨
      ∃ o, r.act n = some (.call (.read dataSize) o))

theorem reader_reads (hD : D.Lawful contents)
    (hnew : SyncPipe.new D maxCapacity allocated = some spyp) (r : PipeRun D spyp) {n : ℕ}
    (hcomes : ReaderComes r n) (hc : contents (r.config n).shared.pipe.pyp ≠ []) :
    ∃ m, n ≤ m ∧ (Transfer.allOut (r.config n).shared.log).length <
      (Transfer.allOut (r.config m).shared.log).length := by
  obtain ⟨dataSize, hsize, ⟨t, hpc⟩ | ⟨o, hact⟩⟩ := hcomes
  · exact reader_leadsTo hD hnew r t _ n ⟨⟨dataSize, hsize, hpc⟩, hc, rfl⟩
  · obtain ⟨-, hnext⟩ := r.move hact
    obtain ⟨pc, s, pc', new, hpc, hs, hmove⟩ := System.stepAt_cases hnext
    have hreads := (pipeStep_move hs).1
    rw [Config.pc?_push_self] at hpc
    cases hpc
    refine ⟨n + 1, Nat.le_succ n, ?_⟩
    rw [hmove]
    exact hreads.reads hD (.call dataSize) hsize hc

theorem pipe_log_stays (hD : D.Lawful contents) (r : PipeRun D spyp) {n m : ℕ} (hnm : n ≤ m) :
    ∃ log, (r.config m).shared.log = (r.config n).shared.log ++ log ∧
      Transfer.Carries (contents (r.config n).shared.pipe.pyp) log
        (contents (r.config m).shared.pipe.pyp) := by
  obtain ⟨log, hlog, hcarries, -⟩ := (pipe_run_effect hD (r.reach_le hnm)).carries
  exact ⟨log, hlog, hcarries⟩

/-- In every fair run of the threads on a pipe to which readers of some bytes come
    again and again, each byte that is written is read, in its turn. -/
theorem written_bytes_are_read (hD : D.Lawful contents)
    (hnew : SyncPipe.new D maxCapacity allocated = some spyp) (r : PipeRun D spyp)
    (hcomes : ∀ n, ∃ m, n ≤ m ∧ ReaderComes r m) {n i : ℕ} {b : UInt8}
    (hwritten : (Transfer.allIn (r.config n).shared.log)[i]? = some b) :
    ∃ m, n ≤ m ∧ (Transfer.allOut (r.config m).shared.log)[i]? = some b := by
  -- each read brings the byte nearer to the front
  refine System.eventually_of_rank
    (P := fun n => (Transfer.allIn (r.config n).shared.log)[i]? = some b)
    (fun n => i + 1 - (Transfer.allOut (r.config n).shared.log).length) ?_ hwritten
  intro n hwritten
  obtain ⟨m, hnm, hreader⟩ := hcomes n
  obtain ⟨log, hlog, -⟩ := pipe_log_stays hD r hnm
  have hstream := (pipe_faithful_stream hD hnew (r.reach m)).stream
  have hwrittenm : (Transfer.allIn (r.config m).shared.log)[i]? = some b := by
    rw [hlog, Transfer.allIn_append,
      List.getElem?_append_left (List.getElem?_eq_some_iff.mp hwritten).1]
    exact hwritten
  by_cases hdone : i < (Transfer.allOut (r.config m).shared.log).length
  · refine ⟨m, hnm, .inl ?_⟩
    rwa [← hstream, List.getElem?_append_left hdone] at hwrittenm
  · have hne : contents (r.config m).shared.pipe.pyp ≠ [] := by
      intro hnil
      rw [hnil, List.append_nil] at hstream
      rw [← hstream] at hwrittenm
      exact hdone (List.getElem?_eq_some_iff.mp hwrittenm).1
    obtain ⟨l, hml, hreads⟩ := reader_reads hD hnew r hreader hne
    obtain ⟨log', hlog', -⟩ := pipe_log_stays hD r hml
    refine ⟨l, hnm.trans hml, .inr ⟨?_, ?_⟩⟩
    · rw [hlog', Transfer.allIn_append,
        List.getElem?_append_left (List.getElem?_eq_some_iff.mp hwrittenm).1]
      exact hwrittenm
    · rw [hlog, Transfer.allOut_append, List.length_append] at hreads hdone
      omega

end

/-- A reader waits, 6 bytes are offered and 4 go in, and other readers come until one
    stays. -/
def servedReaderRun : PipeRun (BytePipe.dpipe 64) newPipe :=
  .ofCheck _
    [.call (.read 3) true, .call (.write [1, 2, 3, 4, 5, 6]) true, .step 0 true,
      .call (.read 3) true, .call (.read 3) true]
    (by decide) (System.not_canStep PipeState.rests pipeStep_eq_none (by decide))

theorem written_bytes_are_read_servedReaderRun :
    ∃ m, 2 ≤ m ∧ (Transfer.allOut (servedReaderRun.config m).shared.log)[3]? = some 4 := by
  apply written_bytes_are_read (BytePipe.lawful 64) (Option.some_get _).symm servedReaderRun ?_
    (by decide)
  intro n
  refine ⟨max n 5, le_max_left _ _, 3, by decide, .inl ⟨3, ?_⟩⟩
  rw [servedReaderRun, System.FairRun.ofCheck_config (le_max_right n 5)]
  decide

/-! ## Writers -/

/-- A write on its way. -/
def PipePc.isWriting : PipePc → Bool
  | .write _ => true
  | .writeWaiting _ => true
  | _ => false

/-- The writes that are under way and those that ended add up. -/
theorem PipeMove.ends_writes {s s' : PipeState δ} {t : ℕ} {allocated : Bool} {pc pc' : PipePc}
    (h : PipeMove D s t allocated pc s' pc') :
    pc'.isWriting.toNat + Transfer.puts s'.log = pc.isWriting.toNat + Transfer.puts s.log := by
  have hwriting : ∀ {pc data}, PipeWriteAt s t pc data → pc.isWriting = true := by
    intro pc data hat
    cases hat <;> rfl
  have hreading : ∀ {pc dataSize}, PipeReadAt s t pc dataSize → pc.isWriting = false := by
    intro pc dataSize hat
    cases hat <;> rfl
  cases h with
  | writeWait pc data hat _ => rw [hwriting hat]; rfl
  | writeClosed pc data hat _ =>
    rw [hwriting hat, Transfer.puts_append, Transfer.puts_put, Nat.add_comm _ 1]
    exact Nat.zero_add _
  | write pc data pyp n hat _ _ _ =>
    rw [hwriting hat, Transfer.puts_append, Transfer.puts_put, Nat.add_comm _ 1]
    exact Nat.zero_add _
  | readWait pc dataSize hat _ => rw [hreading hat]; rfl
  | read pc dataSize pyp data hat _ _ _ =>
    rw [hreading hat, Transfer.puts_append, Transfer.puts_took]
    rfl
  | close _ => rfl
  | closeAgain _ => rfl

/-- A writer waits on, or it returns. -/
theorem PipeMove.waits_or_wrote {s s' : PipeState δ} {t : ℕ} {allocated : Bool} {pc pc' : PipePc}
    {data : List UInt8} (h : PipeMove D s t allocated pc s' pc') (hat : PipeWriteAt s t pc data) :
    (pc' = .writeWaiting data ∧ s.pipe.writeMustWait D = true) ∨
      ∃ n, pc' = .returned (.wrote data n) := by
  have hsame : ∀ {data'}, PipeWriteAt s t pc data' → data' = data := by
    intro data' hat'
    cases hat <;> cases hat' <;> rfl
  cases h with
  | writeWait pc data' hat' hwait => exact .inl ⟨by rw [hsame hat'], hwait⟩
  | writeClosed pc data' hat' _ => exact .inr ⟨0, by rw [hsame hat']⟩
  | write pc data' pyp n hat' _ _ _ => exact .inr ⟨n, by rw [hsame hat']⟩
  | readWait pc dataSize hread _ => cases hread <;> cases hat
  | read pc dataSize pyp data' hread _ _ _ => cases hread <;> cases hat
  | close _ => cases hat
  | closeAgain _ => cases hat

theorem pipeStep_resume {s : PipeState δ} {t : ℕ} {allocated : Bool} {data : List UInt8}
    {r : PipeState δ × PipePc × List PipePc}
    (h : pipeStep D s t (.writeWaiting data) allocated = some r) :
    PipeWriteAt s t (.writeWaiting data) data := by
  apply PipeWriteAt.resume
  intro hsleeps
  have hstuck : pipeStep D s t (.writeWaiting data) allocated = none := if_pos hsleeps
  cases hstuck.symm.trans h

/-- A writer waits, there is room below the limit, and `k` writes have ended. -/
structure WriterFinds (contents : δ → List UInt8) (t : ℕ) (data : List UInt8) (k : ℕ)
    (c : PipeConfig δ) : Prop where
  waits : c.pc? t = some (.writeWaiting data)
  room : (contents c.shared.pipe.pyp).length < c.shared.pipe.maxCapacity
  ended : Transfer.puts c.shared.log = k

section

variable {maxCapacity : ℕ} {allocated : Bool} {spyp : SyncPipe δ}

/-- Unless a write ends, the room does not shrink. -/
theorem pipe_puts_or_room (hD : D.Lawful contents) {c c' : PipeConfig δ}
    {ok : PipeConfig δ → Act PipeCall Bool → Prop} (h : (pipeSystem D).Reach ok c c') :
    Transfer.puts c.shared.log < Transfer.puts c'.shared.log ∨
      (Transfer.puts c'.shared.log = Transfer.puts c.shared.log ∧
        ∃ log, c'.shared.log = c.shared.log ++ log ∧
          contents c.shared.pipe.pyp = Transfer.allOut log ++ contents c'.shared.pipe.pyp) := by
  obtain ⟨log, hlog, hcarries, -⟩ := (pipe_run_effect hD h).carries
  rw [hlog, Transfer.puts_append]
  rcases Nat.eq_zero_or_pos (Transfer.puts log) with hnone | hsome
  · exact .inr ⟨by rw [hnone, Nat.add_zero], log, rfl,
      hcarries.of_nothing_in (Transfer.allIn_of_puts hnone)⟩
  · exact .inl (Nat.lt_add_of_pos_right hsome)

theorem writer_leadsTo (hD : D.Lawful contents)
    (hnew : SyncPipe.new D maxCapacity allocated = some spyp) (r : PipeRun D spyp) (t : ℕ)
    (data : List UInt8) (k : ℕ) :
    r.LeadsTo (WriterFinds contents t data k) fun c => k < Transfer.puts c.shared.log := by
  have hgoes : ∀ {c}, WriterFinds contents t data k c →
      c.shared.pipe.writeMustWait D = false := by
    intro c hc
    by_contra hwait
    rw [Bool.not_eq_false] at hwait
    obtain ⟨-, hfull, hlimit⟩ := (SyncPipe.writeMustWait_iff hD).mp hwait
    exact Nat.ne_of_lt hc.room (hfull.trans hlimit)
  refine r.leadsTo_by t ?_ ?_ ?_
  · intro c hreach hc
    have hawake := pipe_writer_awake hD hnew hreach hc.waits (hgoes hc)
    exact .of_isSome (o := true) hc.waits trivial (pipeStep_isSome hawake)
  · intro c o c' _ hc h
    obtain ⟨pc, s, pc', new, hpc, hs, rfl⟩ := System.stepAt_cases h
    have hmove := (pipeStep_move hs).1
    rw [hc.waits] at hpc
    cases hpc
    have hends := hmove.ends_writes
    rcases hmove.waits_or_wrote (pipeStep_resume hs) with ⟨-, hwait⟩ | ⟨n, rfl⟩
    · rw [hgoes hc] at hwait
      cases hwait
    · rw [← hc.ended, Config.move_shared]
      simp only [PipePc.isWriting, Bool.toNat_false, Bool.toNat_true] at hends
      omega
  · intro c a c' _ hc hnot _ h
    have hnext : (pipeSystem D).Reach (fun _ _ => True) c c' := System.Reach.refl.tail trivial h
    rcases pipe_puts_or_room hD hnext with hputs | ⟨hsame, log, -, hroom⟩
    · left
      rw [← hc.ended]
      exact hputs
    · refine .inr ⟨(System.next_other h hc.waits hnot).1, ?_, hsame.trans hc.ended⟩
      rw [(pipe_next_effect hD h).limit]
      refine Nat.lt_of_le_of_lt ?_ hc.room
      rw [hroom, List.length_append]
      exact Nat.le_add_left _ _

/-- A writer waits until a write ends. -/
theorem writer_stays (r : PipeRun D spyp) {n m t : ℕ} {data : List UInt8}
    (hpc : (r.config n).pc? t = some (.writeWaiting data)) (hnm : n ≤ m) :
    (r.config m).pc? t = some (.writeWaiting data) ∨
      ∃ w, (r.config m).pc? t = some (.returned (.wrote data w)) := by
  have hstep : ∀ {s t pc o s' pc' new}, pipeStep D s t pc o = some (s', pc', new) →
      True → (pc = .writeWaiting data ∨ ∃ w, pc = .returned (.wrote data w)) →
      pc' = .writeWaiting data ∨ ∃ w, pc' = .returned (.wrote data w) := by
    rintro s t pc o s' pc' new hs - (rfl | ⟨w, rfl⟩)
    · exact ((pipeStep_move hs).1.waits_or_wrote (pipeStep_resume hs)).imp_left And.left
    · cases hs
  obtain ⟨pc, hpc', rfl | ⟨w, rfl⟩⟩ := r.follow hstep (fun _ _ => trivial) hpc (.inl rfl) hnm
  · exact .inl hpc'
  · exact .inr ⟨w, hpc'⟩

/-- As long as readers come, a writer that waits finds room, or other writes end. -/
theorem writes_go_on (hD : D.Lawful contents)
    (hnew : SyncPipe.new D maxCapacity allocated = some spyp) (hpos : 0 < maxCapacity)
    (r : PipeRun D spyp) (hcomes : ∀ n, ∃ m, n ≤ m ∧ ReaderComes r m) {n t : ℕ}
    {data : List UInt8} (hpc : (r.config n).pc? t = some (.writeWaiting data)) :
    ∃ m, n ≤ m ∧ ((∃ w, (r.config m).pc? t = some (.returned (.wrote data w))) ∨
      Transfer.puts (r.config n).shared.log < Transfer.puts (r.config m).shared.log) := by
  obtain ⟨-, hzero, hmax, -, -⟩ := SyncPipe.new_fresh hD hnew
  have hlimit : ∀ l, (r.config l).shared.pipe.maxCapacity = maxCapacity := fun l =>
    (pipe_run_effect hD (r.reach l)).limit.trans hmax
  -- once there is room, the writer that waits uses it
  have hroom : ∀ {l}, n ≤ l → (contents (r.config l).shared.pipe.pyp).length < maxCapacity →
      Transfer.puts (r.config l).shared.log = Transfer.puts (r.config n).shared.log →
      ∃ m, n ≤ m ∧ ((∃ w, (r.config m).pc? t = some (.returned (.wrote data w))) ∨
        Transfer.puts (r.config n).shared.log < Transfer.puts (r.config m).shared.log) := by
    intro l hnl hlt hsame
    rcases writer_stays r hpc hnl with hwaits | hwrote
    · obtain ⟨m, hlm, hputs⟩ :=
        writer_leadsTo hD hnew r t data _ l ⟨hwaits, hlt.trans_eq (hlimit l).symm, hsame⟩
      exact ⟨m, hnl.trans hlm, .inr hputs⟩
    · exact ⟨l, hnl, .inl hwrote⟩
  obtain ⟨m, hnm, hreader⟩ := hcomes n
  rcases pipe_puts_or_room hD (r.reach_le hnm) with hputs | ⟨hsame, -⟩
  · exact ⟨m, hnm, .inr hputs⟩
  by_cases hne : contents (r.config m).shared.pipe.pyp = []
  · exact hroom hnm (by rw [hne]; exact hpos) hsame
  obtain ⟨l, hml, hreads⟩ := reader_reads hD hnew r hreader hne
  rcases pipe_puts_or_room hD (r.reach_le hml) with hputs | ⟨hsame', log, hlog, hcontents⟩
  · exact ⟨l, hnm.trans hml, .inr (hsame ▸ hputs)⟩
  refine hroom (hnm.trans hml) ?_ (hsame'.trans hsame)
  have hbounded : (contents (r.config m).shared.pipe.pyp).length ≤ maxCapacity := by
    have heffect := pipe_run_effect hD (r.reach m)
    refine (hD.contents_le _).trans ((heffect.bounded ?_).trans_eq hmax)
    rw [pipeInit, hzero]
    exact Nat.zero_le _
  rw [hlog, Transfer.allOut_append, List.length_append] at hreads
  have hsplit := congrArg List.length hcontents
  rw [List.length_append] at hsplit
  omega

/-- Unless a write is called, the writes that are under way become fewer by those
    that end. -/
theorem writes_under_way {c c' : PipeConfig δ} {a : Act PipeCall Bool}
    (h : (pipeSystem D).next c a = some c') (ha : ∀ data o, a ≠ .call (.write data) o) :
    c'.count PipePc.isWriting + Transfer.puts c'.shared.log =
      c.count PipePc.isWriting + Transfer.puts c.shared.log := by
  have hcount : ∀ {c : PipeConfig δ} {t pc}, c.pc? t = some pc → ∀ s pc',
      (c.move t s pc' []).count PipePc.isWriting + pc.isWriting.toNat =
        c.count PipePc.isWriting + pc'.isWriting.toNat := fun hpc s pc' =>
    Config.count_move hpc s pc' fun q hq => absurd hq List.not_mem_nil
  cases a with
  | call k o =>
    have hstart : PipePc.isWriting ((pipeSystem D).start c.threads.length k) = false := by
      cases k with
      | write data => exact absurd rfl (ha data o)
      | _ => rfl
    obtain ⟨pc, s, pc', new, hpc, hs, rfl⟩ := System.stepAt_cases h
    obtain ⟨hmove, rfl⟩ := pipeStep_move hs
    have hcount := hcount hpc s pc'
    have hends := hmove.ends_writes
    rw [Config.pc?_push_self] at hpc
    cases hpc
    rw [hstart] at hcount hends
    rw [Config.count_push, hstart] at hcount
    simp only [Config.push_shared, Bool.toNat_false] at hends hcount
    simp only [Config.move_shared]
    omega
  | step t o =>
    obtain ⟨pc, s, pc', new, hpc, hs, rfl⟩ := System.stepAt_cases h
    obtain ⟨hmove, rfl⟩ := pipeStep_move hs
    have hcount := hcount hpc s pc'
    have hends := hmove.ends_writes
    simp only [Config.move_shared]
    omega
  | wake t =>
    obtain ⟨pc, s, -, hs, rfl⟩ := System.next_wake_cases h
    obtain ⟨cv, -, cv', -, rfl⟩ := pipeWake_frame hs
    rfl

/-- In every fair run of the threads on a pipe that may hold bytes, to which readers of
    some bytes come again and again, every write returns once no more writes come. -/
theorem blocked_writers_return (hD : D.Lawful contents)
    (hnew : SyncPipe.new D maxCapacity allocated = some spyp) (hpos : 0 < maxCapacity)
    (r : PipeRun D spyp) (hcomes : ∀ n, ∃ m, n ≤ m ∧ ReaderComes r m)
    (hends : ∃ l, ∀ m, l ≤ m → ∀ data o, r.act m ≠ some (.call (.write data) o)) {n t : ℕ}
    {data : List UInt8} (hpc : (r.config n).pc? t = some (.writeWaiting data)) :
    ∃ m, n ≤ m ∧ ∃ w, (r.config m).pc? t = some (.returned (.wrote data w)) := by
  obtain ⟨l, hends⟩ := hends
  have hsum : ∀ {n m}, l ≤ n → n ≤ m →
      (r.config m).count PipePc.isWriting + Transfer.puts (r.config m).shared.log =
        (r.config n).count PipePc.isWriting + Transfer.puts (r.config n).shared.log := by
    intro n m hln hnm
    refine r.keep (P := fun c => c.count PipePc.isWriting + Transfer.puts c.shared.log =
      (r.config n).count PipePc.isWriting + Transfer.puts (r.config n).shared.log) ?_ rfl hnm
    intro j a hnj hact hsame
    rw [← hsame]
    refine writes_under_way (r.move hact).2 fun data o ha => ?_
    exact hends j (hln.trans hnj) data o (by rw [hact, ha])
  rcases writer_stays r hpc (le_max_left n l) with hwaits | hwrote
  swap
  · exact ⟨max n l, le_max_left n l, hwrote⟩
  -- each write that ends leaves fewer under way
  obtain ⟨m, hle, hwrote⟩ := System.eventually_of_rank
    (P := fun n => l ≤ n ∧ (r.config n).pc? t = some (.writeWaiting data))
    (Q := fun m => ∃ w, (r.config m).pc? t = some (.returned (.wrote data w)))
    (fun n => (r.config n).count PipePc.isWriting) (fun n ⟨hln, hpc⟩ => by
      obtain ⟨m, hnm, hwrote | hputs⟩ := writes_go_on hD hnew hpos r hcomes hpc
      · exact ⟨m, hnm, .inl hwrote⟩
      · refine ⟨m, hnm, (writer_stays r hpc hnm).symm.imp_right fun hwaits => ?_⟩
        have hsame := hsum hln hnm
        exact ⟨⟨hln.trans hnm, hwaits⟩, by omega⟩)
    ⟨le_max_right n l, hwaits⟩
  exact ⟨m, (le_max_left n l).trans hle, hwrote⟩

end

/-- A writer waits at the full pipe, a reader makes room for it, and other readers come
    until one stays. -/
def servedWriterRun : PipeRun (BytePipe.dpipe 64) newPipe :=
  .ofCheck _
    [.call (.write [1, 2, 3, 4]) true, .call (.write [7]) true, .call (.read 3) true,
      .step 1 true, .call (.read 3) true, .call (.read 3) true]
    (by decide) (System.not_canStep PipeState.rests pipeStep_eq_none (by decide))

theorem blocked_writers_return_servedWriterRun :
    ∃ m, 2 ≤ m ∧ ∃ w, (servedWriterRun.config m).pc? 1 = some (.returned (.wrote [7] w)) := by
  apply blocked_writers_return (BytePipe.lawful 64) (Option.some_get _).symm (by decide)
    servedWriterRun ?_ ?_ (by decide)
  · intro n
    refine ⟨max n 6, le_max_left _ _, 3, by decide, .inl ⟨4, ?_⟩⟩
    rw [servedWriterRun, System.FairRun.ofCheck_config (le_max_right n 6)]
    decide
  · refine ⟨6, fun m hm data o hact => ?_⟩
    have hnone : servedWriterRun.act m = none := List.getElem?_eq_none hm
    rw [hnone] at hact
    cases hact

end BoomPar
