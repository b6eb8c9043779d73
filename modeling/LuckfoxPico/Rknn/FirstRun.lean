import LuckfoxPico.Rknn.Demo
import Mathlib.Algebra.Group.Int.Defs
import Mathlib.Algebra.Group.Nat.Defs

/-!
# The session at the first run of the NPU demo

`load_file` works on a stream of the C library. The outcomes of its operations on a model file give
the `FileOps` of the demo. At its first `rknn_run` the demo should have given the whole file to
`rknn_init` and bound a memory for every tensor of the model.
-/

namespace Rknn

/-- A stream that is open for reading. -/
structure Stream where
  content : Bytes
  position : Nat

/-- `fseek(fp, 0, SEEK_END)`; if it fails, the position stays. -/
def Stream.seekEnd (fp : Stream) (moves : Bool) : Stream :=
  if moves then { fp with position := fp.content.length } else fp

/-- `fseek(fp, 0, SEEK_SET)`; if it fails, the position stays. -/
def Stream.seekSet (fp : Stream) (moves : Bool) : Stream :=
  if moves then { fp with position := 0 } else fp

/-- What `*size = ftell(fp)` stores in the 32 bits of an `int`. -/
def Stream.tell (fp : Stream) (tells : Bool) : Int :=
  Int.bmod (if tells then fp.position else -1) (2 ^ 32)

/-- The bytes that `fread(buf, 1, size, fp)` stores; `most` is the number at which it stops
early. -/
def Stream.read (fp : Stream) (size : Int) (most : Nat) : Bytes :=
  (fp.content.drop fp.position).take (min size.toNat most)

/-- The outcomes of the operations in `load_file`. A block has the size that it was asked for, so
that none is returned for a negative number, which is converted to a huge `size_t`. -/
structure FileOutcomes where
  fopen : Bool
  seekEnd : Bool
  ftell : Bool
  seekSet : Bool
  malloc : Int → Option Bytes
  malloc_length : ∀ size block, malloc size = some block → (block.length : Int) = size
  fread : Nat

/-- The stream of the model file behind the first `fseek`. -/
def FileOutcomes.atEnd (o : FileOutcomes) (file : Bytes) : Stream :=
  Stream.seekEnd ⟨file, 0⟩ o.seekEnd

/-- The operations of `load_file` on a model file, in their order. -/
def FileOutcomes.ops (o : FileOutcomes) (file : Bytes) : FileOps where
  opened := o.fopen
  ftell := (o.atEnd file).tell o.ftell
  malloc := o.malloc
  fread := ((o.atEnd file).seekSet o.seekSet).read ((o.atEnd file).tell o.ftell) o.fread

/-- The call is `rknn_init`. -/
def Call.isInit : Call → Bool
  | .init .. => true
  | _ => false

/-- The call is `rknn_run`. -/
def Call.isRun : Call → Bool
  | .run _ => true
  | _ => false

/-- The calls `cs` are those in front of the first `rknn_run`. -/
def Result.FirstRunAfter (r : Result) (cs : List Call) : Prop :=
  (∃ ret rest, calls r.log = cs ++ .run ret :: rest) ∧ ∀ c ∈ cs, c.isRun = false

/-- A memory with the tensor's reported size was created and then bound. -/
def Bound (rt : Runtime) (cs : List Call) (t : Tensor) : Prop :=
  ∃ mem ret, 0 ≤ ret ∧
    List.Sublist [.createMem t (rt.attrSize t) (some mem), .setIoMem t (some mem) ret] cs

/-- All bytes of the file were read, and `rknn_init` was given a buffer with exactly these bytes. -/
def ModelGiven (f : FileOps) (file : Bytes) (cs : List Call) : Prop :=
  f.fread = file ∧ ∃ ret, cs.filter Call.isInit = [.init file file.length ret]

/-- The session is completely set up. -/
structure Complete (f : FileOps) (rt : Runtime) (file : Bytes) (cs : List Call) : Prop where
  model : ModelGiven f file cs
  inputs : ∀ i < rt.nInput, Bound rt cs (.input i)
  outputs : ∀ i < rt.nOutput, Bound rt cs (.output i)

/-- Whenever the demo reaches its first `rknn_run`, the session is completely set up. -/
def CompleteAtFirstRun (f : FileOps) (rt : Runtime) (file : Bytes) : Prop :=
  ∀ cs, (main f rt).FirstRunAfter cs → Complete f rt file cs

/-- Nothing cuts the reading of the file short: it is empty, or both `fseek` calls move the
position, its length fits into an `int`, and `fread` does not stop early. -/
def FileOutcomes.ReadsAll (o : FileOutcomes) (file : Bytes) : Prop :=
  file = [] ∨
    (o.seekEnd = true ∧ o.seekSet = true ∧ file.length < 2 ^ 31 ∧ file.length ≤ o.fread)

/-- The runtime lets the demo bind a tensor. -/
def Runtime.Binds (rt : Runtime) (t : Tensor) : Prop :=
  0 ≤ rt.queryNativeAttr t ∧ rt.createMem t ≠ none ∧ 0 ≤ rt.setIoMem t

/-- Nothing that the demo checks fails in front of the first `rknn_run`. -/
structure Passes (f : FileOps) (rt : Runtime) : Prop where
  opened : f.opened = true
  malloc : f.malloc f.ftell ≠ none
  init : 0 ≤ rt.init
  queryInOutNum : 0 ≤ rt.queryInOutNum
  input : rt.Binds (.input 0)
  outputs : ∀ i < rt.nOutput, i < MAX_OUTPUTS → rt.Binds (.output i)

end Rknn
