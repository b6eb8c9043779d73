import LuckfoxPico.Session.Calls

/-!
# The NPU demo (`rknn_demo.c`)

`main` loads a model, sets up a session of the RKNN runtime, and runs it. The runtime and the file
operations are not part of the layer: `Runtime` and `FileOps` give their outcomes, one for every
place a call is made at. `goto cleanup` is the error of `Except`; the state it carries is what the
code after the label sees.
-/

namespace Rknn

/-- The content of a buffer. -/
abbrev Bytes := List UInt8

/-- A non-null `rknn_tensor_mem *`. -/
abbrev Mem := Nat

/-- A tensor of the model. -/
inductive Tensor where
  | input (index : Nat)
  | output (index : Nat)
deriving DecidableEq, Repr

/-- A call of the runtime with what it was given and what it returned. -/
inductive Call where
  | init (model : Bytes) (size : Int) (ret : Int)
  | querySdkVersion (ret : Int)
  | queryInOutNum (ret : Int)
  | queryNativeAttr (t : Tensor) (ret : Int)
  | createMem (t : Tensor) (size : Nat) (mem : Option Mem)
  | setIoMem (t : Tensor) (mem : Option Mem) (ret : Int)
  | run (ret : Int)
  | destroy
deriving DecidableEq, Repr

/-- The call succeeded: `rknn_create_mem` signals failure by a null pointer, the others by a
negative number. -/
def Call.ok : Call → Bool
  | .init _ _ ret | .querySdkVersion ret | .queryInOutNum ret | .queryNativeAttr _ ret
  | .setIoMem _ _ ret | .run ret => decide (0 ≤ ret)
  | .createMem _ _ mem => mem.isSome
  | .destroy => true

/-- The call is the SDK version query. -/
def Call.isSdkQuery : Call → Bool
  | .querySdkVersion _ => true
  | _ => false

/-- The call's outcome can decide the verdict: it is neither the SDK version query nor
`rknn_destroy`. -/
def Call.decides : Call → Bool
  | .querySdkVersion _ | .destroy => false
  | _ => true

/-- The call is `rknn_create_mem`. -/
def Call.isCreateMem : Call → Bool
  | .createMem .. => true
  | _ => false

/-- What the demo prints on its standard output. -/
inductive Output where
  | banner
  | modelLoaded (size : Int)
  | initialized
  | sdkVersion
  | inOutNum (inputs outputs : Nat)
  | attr (t : Tensor) (size : Nat)
  | warmup
  | running
  | average
  | passed
deriving DecidableEq, Repr

/-- What the demo prints on its standard error. -/
inductive Complaint where
  | cannotOpen
  | initFailed (ret : Int)
  | queryInOutNumFailed
  | queryNativeAttrFailed (t : Tensor)
  | createMemFailed (t : Tensor)
  | setIoMemFailed (t : Tensor) (ret : Int)
  | warmupFailed (ret : Int)
  | runFailed (ret : Int) (iteration : Nat)
deriving DecidableEq, Repr

/-- An observable step of the demo. -/
inductive Event where
  | call (c : Call)
  | stdout (o : Output)
  | stderr (e : Complaint)
deriving DecidableEq, Repr

/-- The outcomes of the file operations in `load_file`. The results of the two `fseek` calls and of
`fread` are not looked at: what they do shows in the number `ftell` returns and in the bytes `fread`
stores. -/
structure FileOps where
  opened : Bool
  ftell : Int
  /-- The block that `malloc` returns for a size, with whatever it holds. -/
  malloc : Int → Option Bytes
  /-- The bytes that `fread` stores at the start of the block. -/
  fread : Bytes

/-- The outcomes of the runtime's calls. -/
structure Runtime where
  init : Int
  querySdkVersion : Int
  queryInOutNum : Int
  nInput : Nat
  nOutput : Nat
  queryNativeAttr : Tensor → Int
  attrSize : Tensor → Nat
  createMem : Tensor → Option Mem
  setIoMem : Tensor → Int
  warmup : Int
  run : Nat → Int

/-- The number of timed runs. -/
def LOOP_COUNT : Nat := 10

/-- The size of the output arrays. -/
def MAX_OUTPUTS : Nat := 8

/-- `load_file`: the buffer and the size it stores, or a null pointer. -/
def loadFile (f : FileOps) : Option (Bytes × Int) :=
  if !f.opened then none else
  match f.malloc f.ftell with
  | none => none
  | some block => some (f.fread ++ block.drop f.fread.length, f.ftell)

/-- The variable `ret`, and what happened so far. -/
structure St where
  ret : Int
  log : List Event

/-- Append events to the log. -/
def St.emit (s : St) (es : List Event) : St := { s with log := s.log ++ es }

/-- A piece of `main`; the error is `goto cleanup`. -/
abbrev Step := St → Except St St

/-- `ret = call; if (ret < 0) { fprintf(stderr, e); goto cleanup; }` -/
def check (c : Call) (ret : Int) (e : Complaint) : Step := fun s =>
  let s := { s.emit [.call c] with ret := ret }
  if s.ret < 0 then .error (s.emit [.stderr e]) else .ok s

/-- `mem = rknn_create_mem(...); if (!mem) { fprintf(stderr, e); goto cleanup; }`. The variable
`ret` is not assigned. -/
def allocate (t : Tensor) (size : Nat) (mem : Option Mem) : Step := fun s =>
  let s := s.emit [.call (.createMem t size mem)]
  if mem.isNone then .error (s.emit [.stderr (.createMemFailed t)]) else .ok s

/-- Query a tensor's native attributes, allocate its memory and bind it. -/
def bindTensor (rt : Runtime) (t : Tensor) : Step := fun s => do
  let s ← check (.queryNativeAttr t (rt.queryNativeAttr t)) (rt.queryNativeAttr t)
    (.queryNativeAttrFailed t) s
  let s := s.emit [.stdout (.attr t (rt.attrSize t))]
  let s ← allocate t (rt.attrSize t) (rt.createMem t) s
  check (.setIoMem t (rt.createMem t) (rt.setIoMem t)) (rt.setIoMem t)
    (.setIoMemFailed t (rt.setIoMem t)) s

/-- `n_out`. -/
def nOut (rt : Runtime) : Nat := if rt.nOutput < MAX_OUTPUTS then rt.nOutput else MAX_OUTPUTS

/-- The output loop, with `k` iterations left and the index at `i`. -/
def bindOutputs (rt : Runtime) : (k i : Nat) → Step
  | 0, _ => fun s => .ok s
  | k + 1, i => fun s => do
    let s ← bindTensor rt (.output i) s
    bindOutputs rt k (i + 1) s

/-- The benchmark loop, with `k` iterations left and the index at `i`. It is left by `break`, not by
`goto cleanup`. -/
def benchmark (rt : Runtime) : (k i : Nat) → St → St
  | 0, _, s => s
  | k + 1, i, s =>
    let s := { s.emit [.call (.run (rt.run i))] with ret := rt.run i }
    if s.ret < 0 then s.emit [.stderr (.runFailed s.ret i)] else benchmark rt k (i + 1) s

/-- `main` from the query of the tensor counts to the end of the output loop. -/
def setUp (rt : Runtime) : Step := fun s => do
  let s ← check (.queryInOutNum rt.queryInOutNum) rt.queryInOutNum .queryInOutNumFailed s
  let s := s.emit [.stdout (.inOutNum rt.nInput rt.nOutput)]
  let s ← bindTensor rt (.input 0) s
  bindOutputs rt (nOut rt) 0 s

/-- `main` from the benchmark loop to the label `cleanup`. -/
def finish (rt : Runtime) (s : St) : St :=
  let s := benchmark rt LOOP_COUNT 0 (s.emit [.stdout .running])
  if 0 ≤ s.ret then s.emit [.stdout .average, .stdout .passed] else s

/-- `main` from the query of the tensor counts to the label `cleanup`. -/
def session (rt : Runtime) : Step := fun s => do
  let s ← setUp rt s
  let s := s.emit [.stdout .warmup]
  let s ← check (.run rt.warmup) rt.warmup (.warmupFailed rt.warmup) s
  return finish rt s

/-- The end of a run: what happened, and the number `main` returns. -/
structure Result where
  log : List Event
  code : Int

/-- `main`. -/
def main (f : FileOps) (rt : Runtime) : Result :=
  let log := [.stdout .banner]
  match loadFile f with
  | none => ⟨log ++ (if f.opened then [] else [.stderr .cannotOpen]), -1⟩
  | some (model, size) =>
    let log := log ++ [.stdout (.modelLoaded size), .call (.init model size rt.init)]
    if rt.init < 0 then ⟨log ++ [.stderr (.initFailed rt.init)], -1⟩ else
    let log := log ++ [.stdout .initialized, .call (.querySdkVersion rt.querySdkVersion)]
    let log := if rt.querySdkVersion = 0 then log ++ [.stdout .sdkVersion] else log
    match session rt ⟨rt.querySdkVersion, log⟩ with
    | .ok s | .error s => ⟨s.log ++ [.call .destroy], if s.ret < 0 then -1 else 0⟩

/-- The calls in a log. -/
def calls (log : List Event) : List Call := log.filterMap fun
  | .call c => some c
  | _ => none

/-- The exit status that the number `main` returns gives the process. -/
def Result.status (r : Result) : Int := r.code % 256

/-- The demo printed `=== NPU test PASSED ===`. -/
def Result.passed (r : Result) : Prop := .stdout .passed ∈ r.log

/-- The exit status tells whether the test passed, and the test passes only if every call but the
SDK version query succeeded. -/
def Result.Honest (r : Result) : Prop :=
  (r.status = 0 ↔ r.passed) ∧ (r.passed → ∀ c ∈ calls r.log, c.isSdkQuery = false → c.ok = true)

/-- The calls that set up a tensor. -/
def tensorPlan (rt : Runtime) (t : Tensor) : List Call :=
  [.queryNativeAttr t (rt.queryNativeAttr t), .createMem t (rt.attrSize t) (rt.createMem t),
    .setIoMem t (rt.createMem t) (rt.setIoMem t)]

/-- The calls from the query of the tensor counts to the end of the output loop. -/
def setUpPlan (rt : Runtime) : List Call :=
  .queryInOutNum rt.queryInOutNum :: (tensorPlan rt (.input 0) ++
    (List.range (nOut rt)).flatMap fun i => tensorPlan rt (.output i))

/-- The benchmark's calls. -/
def runsPlan (rt : Runtime) : List Call := (List.range LOOP_COUNT).map fun i => .run (rt.run i)

/-- The calls from the query of the tensor counts to the end of the benchmark. -/
def sessionPlan (rt : Runtime) : List Call := (setUpPlan rt ++ [.run rt.warmup]) ++ runsPlan rt

/-- The calls that decide the verdict, in the order in which they are made if none fails. -/
def plan (rt : Runtime) (model : Bytes) (size : Int) : List Call :=
  .init model size rt.init :: sessionPlan rt

end Rknn
