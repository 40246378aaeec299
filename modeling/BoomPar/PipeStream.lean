-- SUMMARY: A pipe is a faithful stream of bytes, closed or not, in every interleaving of its threads.
import BoomPar.PipeThreads

/-!
# The stream of a pipe

Reads give out the bytes of the writes in the order of the lock, each byte once.
Growing, shrinking and closing leave the stream alone.
-/

namespace BoomPar

open Monitor

variable {δ : Type} {D : Dpipe δ} {contents : δ → List UInt8}

/-! ## Runs of the system -/

theorem PipeEffect.trans {s₁ s₂ s₃ : PipeState δ} (h : PipeEffect D contents s₁ s₂)
    (h' : PipeEffect D contents s₂ s₃) : PipeEffect D contents s₁ s₃ := by
  obtain ⟨log, hlog, hcarries, hnone⟩ := h.carries
  obtain ⟨log', hlog', hcarries', hnone'⟩ := h'.carries
  refine ⟨⟨log ++ log', ?_, hcarries.trans hcarries', fun hclosed => ?_⟩,
    fun hclosed => h'.stays_closed (h.stays_closed hclosed), h'.limit.trans h.limit, fun hle => ?_⟩
  · rw [hlog', hlog, List.append_assoc]
  · rw [Transfer.allIn_append, hnone hclosed, hnone' (h.stays_closed hclosed)]
    rfl
  · have hbounded := h'.bounded
    rw [h.limit] at hbounded
    exact hbounded (h.bounded hle)

/-- What a run did to the `dpipe`. -/
theorem pipe_run_effect (hD : D.Lawful contents) {c c' : PipeConfig δ}
    {ok : PipeConfig δ → Act PipeCall Bool → Prop} (h : (pipeSystem D).Reach ok c c') :
    PipeEffect D contents c.shared c'.shared := by
  refine System.Reach.stable (R := fun s => PipeEffect D contents c.shared s) h ?_ ?_
    (.of_same rfl rfl rfl)
  · exact fun hs hc => hc.trans ((pipeStep_move hs).1.effect hD)
  · intro s t pc s' hs hc
    obtain ⟨cv, -, cv', -, rfl⟩ := pipeWake_frame hs
    exact hc.trans (.of_same rfl rfl rfl)

/-- The thread that a transition brings to `pc'` made a move to it. -/
theorem pipe_next_moved {c c' : PipeConfig δ} {a : Act PipeCall Bool}
    (h : (pipeSystem D).next c a = some c') {t : ℕ} {pc' : PipePc} (hpc' : c'.pc? t = some pc')
    (hne : c.pc? t ≠ some pc') :
    ∃ pc allocated, PipeMove D c.shared t allocated pc c'.shared pc' := by
  obtain ⟨pc, o, new, -, hs⟩ := System.next_moved_of_notMem h hpc' hne fun hs => by
    rw [(pipeStep_move hs).2]
    exact List.not_mem_nil
  exact ⟨pc, o, (pipeStep_move hs).1⟩

/-! ## The stream -/

/-- The bytes that a pipe has carried, and what the next transition does to them. -/
structure PipeStreams (D : Dpipe δ) (contents : δ → List UInt8) (c : PipeConfig δ) : Prop where
  /-- What was read, followed by what is readable, is what was written. -/
  stream : Transfer.allOut c.shared.log ++ contents c.shared.pipe.pyp =
    Transfer.allIn c.shared.log
  /-- A write to the closed pipe returns 0 and changes nothing. -/
  write_closed : D.isClosed c.shared.pipe.pyp = true →
    ∀ a c' t data n, (pipeSystem D).next c a = some c' →
    c.pc? t ≠ some (.returned (.wrote data n)) → c'.pc? t = some (.returned (.wrote data n)) →
    n = 0 ∧ c'.shared.pipe = c.shared.pipe
  /-- What the closed pipe holds is read from it, or stays readable, and nothing else is. -/
  closed_readable : D.isClosed c.shared.pipe.pyp = true →
    ∀ c', (pipeSystem D).Reach (fun _ _ => True) c c' →
    D.isClosed c'.shared.pipe.pyp = true ∧ ∃ log, c'.shared.log = c.shared.log ++ log ∧
      contents c.shared.pipe.pyp = Transfer.allOut log ++ contents c'.shared.pipe.pyp
  /-- A read of some size returns nothing only if the pipe is closed and empty. -/
  read_nothing : ∀ a c' t dataSize, (pipeSystem D).next c a = some c' →
    c.pc? t ≠ some (.returned (.read dataSize [])) →
    c'.pc? t = some (.returned (.read dataSize [])) → 0 < dataSize →
    D.isClosed c.shared.pipe.pyp = true ∧ contents c.shared.pipe.pyp = []

theorem PipeMove.wrote_closed {s s' : PipeState δ} {t : ℕ} {allocated : Bool} {pc pc' : PipePc}
    {data : List UInt8} {n : ℕ} (h : PipeMove D s t allocated pc s' pc')
    (hpc' : pc' = .returned (.wrote data n)) (hclosed : D.isClosed s.pipe.pyp = true) :
    n = 0 ∧ s'.pipe = s.pipe := by
  cases h with
  | writeClosed pc data' _ _ => cases hpc'; exact ⟨rfl, rfl⟩
  | write pc data' pyp m _ _ hopen _ =>
    rw [hclosed] at hopen
    cases hopen
  | _ => cases hpc'

theorem PipeMove.read_nothing (hD : D.Lawful contents) {s s' : PipeState δ} {t : ℕ}
    {allocated : Bool} {pc pc' : PipePc} {dataSize : ℕ} (h : PipeMove D s t allocated pc s' pc')
    (hpc' : pc' = .returned (.read dataSize [])) (hsize : 0 < dataSize) :
    D.isClosed s.pipe.pyp = true ∧ contents s.pipe.pyp = [] := by
  cases h with
  | read pc dataSize' pyp data _ hgoes hdata _ =>
    cases hpc'
    have hempty : contents s.pipe.pyp = [] := by
      rw [(hD.read s.pipe.pyp dataSize).1] at hdata
      obtain hzero | hempty := List.take_eq_nil_iff.mp hdata.symm
      · exact absurd hzero (Nat.ne_of_gt hsize)
      · exact hempty
    refine ⟨?_, hempty⟩
    rw [SyncPipe.readMustWait, (hD.empty s.pipe.pyp).mpr hempty, Bool.and_true,
      Bool.not_eq_false'] at hgoes
    exact hgoes
  | _ => cases hpc'

/-- A new pipe is open and empty. -/
theorem SyncPipe.new_fresh (hD : D.Lawful contents) {maxCapacity : ℕ} {allocated : Bool}
    {spyp : SyncPipe δ} (h : SyncPipe.new D maxCapacity allocated = some spyp) :
    contents spyp.pyp = [] ∧ D.getCapacity spyp.pyp = 0 ∧ spyp.maxCapacity = maxCapacity ∧
      spyp.syncPipeEmpty = ∅ ∧ spyp.syncPipeFull = ∅ := by
  unfold SyncPipe.new at h
  split at h
  · obtain ⟨pyp, hinit, rfl⟩ := Option.map_eq_some_iff.mp h
    obtain ⟨hempty, hcapacity, -⟩ := hD.init hinit
    exact ⟨hempty, hcapacity, rfl, rfl, rfl⟩
  · cases h

/-- A pipe is a faithful stream of bytes in every interleaving of any calls. -/
theorem pipe_faithful_stream (hD : D.Lawful contents) {maxCapacity : ℕ} {allocated : Bool}
    {spyp : SyncPipe δ} {c : PipeConfig δ}
    (hnew : SyncPipe.new D maxCapacity allocated = some spyp) (h : PipeReach D spyp c) :
    PipeStreams D contents c where
  stream := by
    obtain ⟨log, hlog, hcarries, -⟩ := (pipe_run_effect hD h).carries
    have hlog' : c.shared.log = log := hlog
    have hempty : contents (pipeInit spyp).shared.pipe.pyp = [] := (SyncPipe.new_fresh hD hnew).1
    rw [Transfer.Carries, hempty, List.nil_append] at hcarries
    rw [hlog']
    exact hcarries.symm
  write_closed hclosed a c' t data n hnext hne hpc' := by
    obtain ⟨pc, o, hmove⟩ := pipe_next_moved hnext hpc' hne
    exact hmove.wrote_closed rfl hclosed
  closed_readable hclosed c' hreach := by
    have heffect := pipe_run_effect hD hreach
    obtain ⟨log, hlog, hcarries, hnone⟩ := heffect.carries
    exact ⟨heffect.stays_closed hclosed, log, hlog, hcarries.of_nothing_in (hnone hclosed)⟩
  read_nothing a c' t dataSize hnext hne hpc' hsize := by
    obtain ⟨pc, o, hmove⟩ := pipe_next_moved hnext hpc' hne
    exact hmove.read_nothing hD rfl hsize

/-- A pipe of at most 4 bytes. -/
def newPipe : SyncPipe BytePipe := (SyncPipe.new (BytePipe.dpipe 64) 4 true).get rfl

/-- A reader waits, 6 bytes are offered and 4 go in, the reader takes 3 of them, the
    pipe is closed, and a byte is offered to it. -/
def closedPipe : PipeConfig BytePipe :=
  (pipeSystem (BytePipe.dpipe 64)).run (pipeInit newPipe)
    [.call (.read 3) true, .call (.write [1, 2, 3, 4, 5, 6]) true, .step 0 true, .call .close true,
      .call (.write [7]) true] (by decide)

theorem pipe_faithful_stream_closedPipe :
    PipeStreams (BytePipe.dpipe 64) BytePipe.contents closedPipe ∧
      closedPipe.shared.log = [.put [1, 2, 3, 4, 5, 6] 4, .took [1, 2, 3], .put [7] 0] ∧
      closedPipe.shared.pipe.pyp.contents = [4] :=
  ⟨pipe_faithful_stream (BytePipe.lawful 64) (Option.some_get _).symm (.run _ _ _), by decide,
    by decide⟩

end BoomPar
