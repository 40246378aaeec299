-- SUMMARY: The blocking byte pipe over a pipe of the cutlery library, and the system of its threads.
import BoomPar.Monitor.Rules
import BoomPar.Monitor.Stream

/-!
# `sync_pipe`

Writers and readers transfer as many bytes as they can. A write may grow the
buffer up to `max_capacity`, a read may shrink it to its contents; whether an
allocation succeeds is decided by the environment. The `dpipe` under it comes
from a library and is a parameter here.
-/

namespace BoomPar

open Monitor

/-! ## The pipe of the library -/

/-- The functions of `dpipe` that `sync_pipe.c` uses, over values of type `δ`. Sizes
    are `cy_uint`s, of `width` bits; writes and reads are called with `PARTIAL_ALLOWED`. -/
structure Dpipe (δ : Type) where
  width : ℕ
  init : ℕ → Option δ
  getCapacity : δ → ℕ
  getBytesReadable : δ → ℕ
  getBytesWritable : δ → ℕ
  isEmpty : δ → Bool
  isFull : δ → Bool
  isClosed : δ → Bool
  /-- The pipe after the write, and how many bytes were written. -/
  write : δ → List UInt8 → δ × ℕ
  /-- The pipe after the read, and the bytes that were read. -/
  read : δ → ℕ → δ × List UInt8
  /-- Resize to a capacity; the flag says whether an allocation succeeds. -/
  resize : δ → ℕ → Bool → δ
  close : δ → δ

/-- What `sync_pipe.c` relies on: a first-in first-out buffer of bytes, `contents`. -/
structure Dpipe.Lawful {δ : Type} (D : Dpipe δ) (contents : δ → List UInt8) : Prop where
  init : ∀ {n d}, D.init n = some d →
    contents d = [] ∧ D.getCapacity d = n ∧ D.isClosed d = false
  contents_le : ∀ d, (contents d).length ≤ D.getCapacity d
  readable : ∀ d, D.getBytesReadable d = (contents d).length
  writable : ∀ d, D.getBytesWritable d = D.getCapacity d - (contents d).length
  empty : ∀ d, D.isEmpty d = true ↔ contents d = []
  full : ∀ d, D.isFull d = true ↔ (contents d).length = D.getCapacity d
  /-- A write to an open pipe appends as many bytes as there is room for. -/
  write : ∀ d data, D.isClosed d = false →
    (D.write d data).2 = min data.length (D.getBytesWritable d) ∧
      contents (D.write d data).1 = contents d ++ data.take (D.write d data).2 ∧
      D.getCapacity (D.write d data).1 = D.getCapacity d ∧ D.isClosed (D.write d data).1 = false
  /-- A read takes the first bytes, up to its size. -/
  read : ∀ d size, (D.read d size).2 = (contents d).take size ∧
    contents (D.read d size).1 = (contents d).drop size ∧
    D.getCapacity (D.read d size).1 = D.getCapacity d ∧
    D.isClosed (D.read d size).1 = D.isClosed d
  /-- A resize succeeds to the requested capacity, which holds the contents, or
      changes nothing. -/
  resize : ∀ d n allocated, D.resize d n allocated = d ∨
    (contents (D.resize d n allocated) = contents d ∧
      D.isClosed (D.resize d n allocated) = D.isClosed d ∧
      D.getCapacity (D.resize d n allocated) = n ∧ (contents d).length ≤ n)
  close : ∀ d, contents (D.close d) = contents d ∧ D.getCapacity (D.close d) = D.getCapacity d ∧
    D.isClosed (D.close d) = true

/-- A pipe of bytes within an allocated capacity. -/
structure BytePipe where
  contents : List UInt8
  capacity : ℕ
  isClosed : Bool
  length_le : contents.length ≤ capacity
  deriving DecidableEq

namespace BytePipe

/-- Append as many bytes as there is room for. -/
def write (d : BytePipe) (data : List UInt8) : BytePipe × ℕ :=
  if d.isClosed then (d, 0)
  else
    (⟨d.contents ++ data.take (d.capacity - d.contents.length), d.capacity, d.isClosed, by
        rw [List.length_append, List.length_take]
        have := d.length_le
        omega⟩,
      min data.length (d.capacity - d.contents.length))

/-- Remove the first bytes. -/
def read (d : BytePipe) (size : ℕ) : BytePipe × List UInt8 :=
  (⟨d.contents.drop size, d.capacity, d.isClosed, by
      rw [List.length_drop]
      exact (Nat.sub_le _ _).trans d.length_le⟩,
    d.contents.take size)

/-- Move to a capacity that holds the contents, or fail and stay. -/
def resize (d : BytePipe) (n : ℕ) (allocated : Bool) : BytePipe :=
  if h : allocated = true ∧ d.contents.length ≤ n then ⟨d.contents, n, d.isClosed, h.2⟩ else d

/-- The functions of the pipe. -/
def dpipe (width : ℕ) : Dpipe BytePipe where
  width := width
  init n := some ⟨[], n, false, Nat.zero_le n⟩
  getCapacity := capacity
  getBytesReadable d := d.contents.length
  getBytesWritable d := d.capacity - d.contents.length
  isEmpty d := d.contents.isEmpty
  isFull d := d.contents.length == d.capacity
  isClosed := isClosed
  write := write
  read := read
  resize := resize
  close d := { d with isClosed := true }

theorem lawful (width : ℕ) : (dpipe width).Lawful contents where
  init h := by
    cases h
    exact ⟨rfl, rfl, rfl⟩
  contents_le := length_le
  readable _ := rfl
  writable _ := rfl
  empty _ := List.isEmpty_iff
  full _ := beq_iff_eq
  write d data hopen := by
    have hwrite : d.write data = _ := if_neg (Bool.eq_false_iff.mp hopen)
    simp only [dpipe, hwrite]
    refine ⟨trivial, ?_, trivial, hopen⟩
    rw [List.append_cancel_left_eq, List.take_eq_take_min, Nat.min_comm]
  read _ _ := ⟨rfl, rfl, rfl, rfl⟩
  resize d n allocated := by
    simp only [dpipe, resize]
    split
    · rename_i hfits
      exact .inr ⟨rfl, rfl, rfl, hfits.2⟩
    · exact .inl rfl
  close _ := ⟨rfl, rfl, rfl⟩

end BytePipe

/-! ## Sections -/

structure SyncPipe (δ : Type) where
  syncPipeEmpty : CondVar
  syncPipeFull : CondVar
  maxCapacity : ℕ
  pyp : δ
  deriving DecidableEq

namespace SyncPipe

variable {δ : Type} (D : Dpipe δ)

/-- `new_sync_pipe`; NULL when an allocation fails. -/
def new (maxCapacity : ℕ) (allocated : Bool) : Option (SyncPipe δ) :=
  if allocated then (D.init 0).map fun pyp => ⟨∅, ∅, maxCapacity, pyp⟩ else none

/-- The test of the loop in which a writer waits. -/
def writeMustWait (spyp : SyncPipe δ) : Bool :=
  !D.isClosed spyp.pyp && D.isFull spyp.pyp && D.getCapacity spyp.pyp == spyp.maxCapacity

/-- The pipe after the attempt of `write_to_sync_pipe` to make room in it. -/
def expandForWrite (spyp : SyncPipe δ) (dataSize : ℕ) (allocated : Bool) : δ :=
  if D.getCapacity spyp.pyp < spyp.maxCapacity ∧ D.getBytesWritable spyp.pyp < dataSize then
    let newCapacity := min spyp.maxCapacity
      ((2 * D.getBytesReadable spyp.pyp + 2 * dataSize) % 2 ^ D.width)
    D.resize spyp.pyp newCapacity allocated
  else spyp.pyp

/-- `write_to_sync_pipe` after its wait loop. -/
def writeAfterWait (spyp : SyncPipe δ) (data : List UInt8) (allocated : Bool) : SyncPipe δ × ℕ :=
  if D.isClosed spyp.pyp then (spyp, 0)
  else
    let written := D.write (spyp.expandForWrite D data.length allocated) data
    ({ spyp with
        pyp := written.1
        syncPipeEmpty := spyp.syncPipeEmpty.broadcastIf (0 < written.2) }, written.2)

/-- `write_to_sync_pipe` from the test of its wait loop, for thread `t`. -/
def write (spyp : SyncPipe δ) (t : ℕ) (data : List UInt8) (allocated : Bool) :
    SyncPipe δ × Option ℕ :=
  if spyp.writeMustWait D then
    ({ spyp with syncPipeFull := spyp.syncPipeFull.wait t }, none)
  else
    let r := spyp.writeAfterWait D data allocated
    (r.1, some r.2)

/-- The test of the loop in which a reader waits. -/
def readMustWait (spyp : SyncPipe δ) : Bool := !D.isClosed spyp.pyp && D.isEmpty spyp.pyp

/-- The pipe after the attempt of `read_from_sync_pipe` to shrink it. -/
def shrinkAfterRead (pyp : δ) (allocated : Bool) : δ :=
  if 3 * D.getBytesReadable pyp % 2 ^ D.width < D.getCapacity pyp then
    D.resize pyp (D.getBytesReadable pyp) allocated
  else pyp

/-- `read_from_sync_pipe` after its wait loop. -/
def readAfterWait (spyp : SyncPipe δ) (dataSize : ℕ) (allocated : Bool) :
    SyncPipe δ × List UInt8 :=
  let bytesRead := D.read spyp.pyp dataSize
  let pyp := shrinkAfterRead D bytesRead.1 allocated
  ({ spyp with
      pyp := pyp
      syncPipeFull := spyp.syncPipeFull.broadcastIf (!D.isClosed pyp && 0 < bytesRead.2.length) },
    bytesRead.2)

/-- `read_from_sync_pipe` from the test of its wait loop, for thread `t`. -/
def read (spyp : SyncPipe δ) (t : ℕ) (dataSize : ℕ) (allocated : Bool) :
    SyncPipe δ × Option (List UInt8) :=
  if spyp.readMustWait D then
    ({ spyp with syncPipeEmpty := spyp.syncPipeEmpty.wait t }, none)
  else
    let r := spyp.readAfterWait D dataSize allocated
    (r.1, some r.2)

def close (spyp : SyncPipe δ) : SyncPipe δ :=
  if D.isClosed spyp.pyp then spyp
  else
    { spyp with
      pyp := D.close spyp.pyp
      syncPipeFull := spyp.syncPipeFull.broadcast
      syncPipeEmpty := spyp.syncPipeEmpty.broadcast }

end SyncPipe

/-! ## Threads -/

/-- A pipe, and the transfers in the order of the lock. -/
structure PipeState (δ : Type) where
  pipe : SyncPipe δ
  log : List (Transfer UInt8)
  deriving DecidableEq

inductive PipeResult where
  | wrote (data : List UInt8) (n : ℕ)
  | read (dataSize : ℕ) (data : List UInt8)
  | closed
  deriving DecidableEq

inductive PipeCall where
  | write (data : List UInt8)
  | read (dataSize : ℕ)
  | close
  deriving DecidableEq

/-- The control state of a thread, named by the section it enters next. -/
inductive PipePc where
  | write (data : List UInt8)
  | writeWaiting (data : List UInt8)
  | read (dataSize : ℕ)
  | readWaiting (dataSize : ℕ)
  | close
  | returned (r : PipeResult)
  deriving DecidableEq

abbrev PipeConfig (δ : Type) := Config (PipeState δ) PipePc

def PipeCall.start : PipeCall → PipePc
  | .write data => .write data
  | .read dataSize => .read dataSize
  | .close => .close

namespace PipeState

variable {δ : Type} (D : Dpipe δ)

def write (s : PipeState δ) (t : ℕ) (data : List UInt8) (allocated : Bool) :
    PipeState δ × PipePc :=
  match s.pipe.write D t data allocated with
  | (pipe, none) => ({ s with pipe := pipe }, .writeWaiting data)
  | (pipe, some n) => (⟨pipe, s.log ++ [.put data n]⟩, .returned (.wrote data n))

def read (s : PipeState δ) (t : ℕ) (dataSize : ℕ) (allocated : Bool) : PipeState δ × PipePc :=
  match s.pipe.read D t dataSize allocated with
  | (pipe, none) => ({ s with pipe := pipe }, .readWaiting dataSize)
  | (pipe, some data) => (⟨pipe, s.log ++ [.took data]⟩, .returned (.read dataSize data))

end PipeState

section

variable {δ : Type} (D : Dpipe δ)

/-- One section of thread `t`; an allocation in it succeeds or not. -/
def pipeStep (s : PipeState δ) (t : ℕ) :
    PipePc → Bool → Option (PipeState δ × PipePc × List PipePc)
  | .write data, allocated => quietly (s.write D t data allocated)
  | .writeWaiting data, allocated =>
    if t ∈ s.pipe.syncPipeFull then none else quietly (s.write D t data allocated)
  | .read dataSize, allocated => quietly (s.read D t dataSize allocated)
  | .readWaiting dataSize, allocated =>
    if t ∈ s.pipe.syncPipeEmpty then none else quietly (s.read D t dataSize allocated)
  | .close, _ => quietly ({ s with pipe := s.pipe.close D }, .returned .closed)
  | .returned _, _ => none

/-- A blocked thread wakes spuriously. -/
def pipeWake (s : PipeState δ) (t : ℕ) : PipePc → Option (PipeState δ)
  | .writeWaiting _ =>
    some { s with pipe := { s.pipe with syncPipeFull := s.pipe.syncPipeFull.erase t } }
  | .readWaiting _ =>
    some { s with pipe := { s.pipe with syncPipeEmpty := s.pipe.syncPipeEmpty.erase t } }
  | _ => none

def pipeSystem : System (PipeState δ) PipePc PipeCall Bool where
  start _ := PipeCall.start
  step := pipeStep D
  wake := pipeWake

/-- A new pipe, which nobody uses yet. -/
def pipeInit (spyp : SyncPipe δ) : PipeConfig δ := ⟨⟨spyp, []⟩, []⟩

/-- The configurations that any interleaving of any calls leads to. -/
def PipeReach (spyp : SyncPipe δ) : PipeConfig δ → Prop :=
  (pipeSystem D).Reach (fun _ _ => True) (pipeInit spyp)

end

end BoomPar
