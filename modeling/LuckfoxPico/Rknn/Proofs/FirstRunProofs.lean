import LuckfoxPico.Rknn.FirstRun
import LuckfoxPico.Rknn.Proofs.DemoProofs

/-!
# Proofs: the session at the first run of the NPU demo

The calls in front of the first run are the whole set-up, and none of them failed. The set-up binds
the first input and the outputs that fit into the arrays, whatever the model's own counts are.
-/

namespace Rknn

open Session

variable {f : FileOps} {rt : Runtime} {file model : Bytes} {size : Int} {cs : List Call}
  {o : FileOutcomes}

/-! ## The calls in front of the first run -/

theorem setUpPlan_isRun (rt : Runtime) :
    ∀ c ∈ setUpPlan rt, c.isRun = false ∧ c.isInit = false := by
  intro c hc
  simp only [setUpPlan, tensorPlan, List.mem_append, List.mem_cons, List.mem_flatMap,
    List.not_mem_nil, or_false] at hc
  rcases hc with rfl | (rfl | rfl | rfl) | ⟨i, -, rfl | rfl | rfl⟩ <;> exact ⟨rfl, rfl⟩

theorem calls_of_loadFile_none (rt : Runtime) (h : loadFile f = none) :
    calls (main f rt).log = [] := by
  simp only [main, h]
  split <;> rfl

/-- A list is cut in front of its first run in one way only. -/
theorem cut_unique {a b a' b' : List Call} {ret ret' : Int} (ha : ∀ c ∈ a, c.isRun = false)
    (ha' : ∀ c ∈ a', c.isRun = false) (h : a ++ .run ret :: b = a' ++ .run ret' :: b') :
    a = a' := by
  induction a generalizing a' with
  | nil =>
    cases a' with
    | nil => rfl
    | cons c a' =>
      obtain ⟨rfl, -⟩ := List.cons.inj h
      exact absurd (ha' _ List.mem_cons_self) (by simp [Call.isRun])
  | cons c a ih =>
    cases a' with
    | nil =>
      obtain ⟨rfl, -⟩ := List.cons.inj h
      exact absurd (ha _ List.mem_cons_self) (by simp [Call.isRun])
    | cons c' a' =>
      obtain ⟨rfl, htail⟩ := List.cons.inj h
      rw [ih (fun d hd => ha d (List.mem_cons_of_mem _ hd))
        (fun d hd => ha' d (List.mem_cons_of_mem _ hd)) htail]

theorem plan_eq (rt : Runtime) (model : Bytes) (size : Int) : plan rt model size =
    (.init model size rt.init :: setUpPlan rt) ++ .run rt.warmup :: runsPlan rt := by
  rw [plan, sessionPlan, List.append_assoc]
  rfl

theorem setUp_isRun : ∀ c ∈ Call.init model size rt.init :: setUpPlan rt, c.isRun = false := by
  intro c hc
  rcases List.mem_cons.mp hc with rfl | hc
  · rfl
  · exact (setUpPlan_isRun rt c hc).1

/-- What has been done at the first run. -/
theorem firstRunAfter_spec (h : (main f rt).FirstRunAfter cs) :
    ∃ model size, loadFile f = some (model, size) ∧
      cs.filter Call.decides = .init model size rt.init :: setUpPlan rt ∧
      ∀ c ∈ Call.init model size rt.init :: setUpPlan rt, c.ok = true := by
  obtain ⟨⟨ret, rest, hcalls⟩, hcs⟩ := h
  cases hload : loadFile f with
  | none =>
    rw [calls_of_loadFile_none rt hload] at hcalls
    exact absurd hcalls (by simp)
  | some loaded =>
    obtain ⟨model, size⟩ := loaded
    refine ⟨model, size, rfl, ?_⟩
    have hmade := (main_spec rt hload).1
    rw [hcalls, List.filter_append, List.filter_cons_of_pos rfl] at hmade
    obtain ⟨⟨rest', hplan⟩, hok⟩ := made_eq_append hmade.symm
    rw [plan_eq] at hplan
    have hsame := cut_unique setUp_isRun
      (fun c hc => hcs c (List.mem_of_mem_filter hc)) hplan
    rw [← hsame] at hok ⊢
    exact ⟨rfl, hok⟩

/-- If nothing of the set-up fails, the first run is reached. -/
theorem exists_firstRunAfter (hload : loadFile f = some (model, size))
    (hok : ∀ c ∈ Call.init model size rt.init :: setUpPlan rt, c.ok = true) :
    ∃ cs, (main f rt).FirstRunAfter cs := by
  have hmade := (main_spec rt hload).1
  rw [plan_eq, made_append, if_pos (firstFailure_eq_none.mpr hok), made] at hmade
  obtain ⟨a, b, hsplit, hfirst, hrun⟩ := List.filter_eq_append_iff.mp hmade
  obtain ⟨c, d, rfl, hskip, -, -⟩ := List.filter_eq_cons_iff.mp hrun
  refine ⟨a ++ c, ⟨rt.warmup, d, by rw [hsplit, List.append_assoc]⟩, fun e he => ?_⟩
  rcases List.mem_append.mp he with he | he
  · by_cases hdecides : e.decides = true
    · have hmem : e ∈ a.filter Call.decides := List.mem_filter.mpr ⟨he, hdecides⟩
      rw [hfirst] at hmem
      exact setUp_isRun e hmem
    · cases e <;> simp_all [Call.decides, Call.isRun]
  · have hnot := hskip e he
    cases e <;> simp_all [Call.decides, Call.isRun]

/-! ## The tensors that are bound -/

theorem tensorPlan_input_sublist (rt : Runtime) :
    List.Sublist (tensorPlan rt (.input 0)) (setUpPlan rt) :=
  ((List.sublist_append_left _ _).trans (List.sublist_cons_self _ _))

theorem tensorPlan_output_sublist (rt : Runtime) {i : Nat} (hi : i < nOut rt) :
    List.Sublist (tensorPlan rt (.output i)) (setUpPlan rt) := by
  have hmem : tensorPlan rt (.output i) ∈
      (List.range (nOut rt)).map fun i => tensorPlan rt (.output i) :=
    List.mem_map_of_mem (List.mem_range.mpr hi)
  have hflat := List.sublist_flatten_of_mem hmem
  rw [← List.flatMap_def] at hflat
  exact (hflat.trans (List.sublist_append_right _ _)).trans (List.sublist_cons_self _ _)

theorem bound_of_sublist {t : Tensor} (hsub : List.Sublist (tensorPlan rt t) cs)
    (hok : ∀ c ∈ tensorPlan rt t, c.ok = true) : Bound rt cs t := by
  have hmem := hok (.createMem t (rt.attrSize t) (rt.createMem t)) (by simp [tensorPlan])
  have hset := hok (.setIoMem t (rt.createMem t) (rt.setIoMem t)) (by simp [tensorPlan])
  obtain ⟨mem, hsome⟩ := Option.isSome_iff_exists.mp hmem
  refine ⟨mem, rt.setIoMem t, by simpa [Call.ok] using hset, ?_⟩
  rw [tensorPlan, hsome] at hsub
  exact (List.sublist_cons_self _ _).trans hsub

/-- Only the first input and the outputs of the loop get a memory. -/
theorem createMem_mem_setUpPlan {t : Tensor} {n : Nat} {mem : Option Mem}
    (h : .createMem t n mem ∈ setUpPlan rt) : t = .input 0 ∨ ∃ i < nOut rt, t = .output i := by
  simp only [setUpPlan, tensorPlan, List.mem_append, List.mem_cons, List.mem_flatMap,
    List.mem_range, List.not_mem_nil, or_false, reduceCtorEq, false_or, Call.createMem.injEq] at h
  rcases h with ⟨rfl, -⟩ | ⟨i, hi, rfl, -⟩
  · exact Or.inl rfl
  · exact Or.inr ⟨i, hi, rfl⟩

theorem nOut_eq_min (rt : Runtime) : nOut rt = min rt.nOutput MAX_OUTPUTS := by
  unfold nOut
  split <;> omega

/-! ## The file that is read -/

theorem tell_of_fits {fp : Stream} (h : fp.position < 2 ^ 31) : fp.tell true = fp.position := by
  unfold Stream.tell
  rw [if_pos rfl]
  exact Int.bmod_eq_of_le (by omega) (by omega)

theorem tell_lt (fp : Stream) (tells : Bool) : fp.tell tells < 2 ^ 31 := by
  have hlt : fp.tell tells < ((2 ^ 32 : Nat) + 1) / 2 := Int.bmod_lt (by decide)
  omega

theorem tell_failed (fp : Stream) : fp.tell false = -1 := rfl

/-- A number that is not negative comes from an `ftell` that succeeded. -/
theorem ftell_eq_true (hsize : 0 ≤ (o.ops file).ftell) : o.ftell = true := by
  by_contra hfails
  have hminus : (o.ops file).ftell = -1 := by
    show (o.atEnd file).tell o.ftell = -1
    rw [Bool.eq_false_iff.mpr hfails, tell_failed]
  omega

theorem ops_ftell (htells : o.ftell = true) (hfits : file.length < 2 ^ 31) :
    (o.ops file).ftell = if o.seekEnd then (file.length : Int) else 0 := by
  show (o.atEnd file).tell o.ftell = _
  unfold FileOutcomes.atEnd Stream.seekEnd
  rw [htells]
  split
  · exact tell_of_fits hfits
  · exact tell_of_fits (by simp)

/-- The number and the bytes are those of the file exactly when nothing cuts the reading short. -/
theorem ops_eq_iff (hsize : 0 ≤ (o.ops file).ftell) :
    (o.ops file).ftell = file.length ∧ (o.ops file).fread = file ↔ o.ReadsAll file := by
  have htells := ftell_eq_true hsize
  constructor
  · rintro ⟨htell, hread⟩
    by_cases hempty : file = []
    · exact Or.inl hempty
    have hpos := List.length_pos_iff.mpr hempty
    have hfits : file.length < 2 ^ 31 := by
      have hlt := tell_lt (o.atEnd file) o.ftell
      have heq : (o.atEnd file).tell o.ftell = file.length := htell
      omega
    have hend : o.seekEnd = true := by
      by_contra hstays
      rw [ops_ftell htells hfits, if_neg hstays] at htell
      omega
    have hset : o.seekSet = true := by
      by_contra hstays
      have hnone : (o.ops file).fread = [] := by
        rw [FileOutcomes.ops, FileOutcomes.atEnd, Stream.seekEnd, if_pos hend, Stream.seekSet,
          if_neg hstays, Stream.read, List.drop_length, List.take_nil]
      exact hempty (hread.symm.trans hnone)
    have hall : file.length ≤ o.fread := by
      have hlength : (o.ops file).fread.length ≤ o.fread := by
        show (List.take _ _).length ≤ o.fread
        rw [List.length_take]
        omega
      rwa [hread] at hlength
    exact Or.inr ⟨hend, hset, hfits, hall⟩
  · rintro (rfl | ⟨hend, hset, hfits, hall⟩)
    · rw [ops_ftell htells (by simp)]
      refine ⟨by simp, ?_⟩
      show ((o.atEnd []).seekSet o.seekSet).read _ _ = []
      unfold FileOutcomes.atEnd Stream.seekEnd Stream.seekSet Stream.read
      split <;> split <;> simp
    · have htell := ops_ftell htells hfits
      rw [if_pos hend] at htell
      refine ⟨htell, ?_⟩
      show ((o.atEnd file).seekSet o.seekSet).read (o.ops file).ftell o.fread = file
      rw [htell, FileOutcomes.atEnd, Stream.seekEnd, if_pos hend, Stream.seekSet, if_pos hset,
        Stream.read, List.drop_zero, Int.toNat_natCast, Nat.min_eq_left hall, List.take_length]

theorem loadFile_eq_some_iff : loadFile f = some (model, size) ↔
    f.opened = true ∧ size = f.ftell ∧
      ∃ block, f.malloc f.ftell = some block ∧ model = f.fread ++ block.drop f.fread.length := by
  unfold loadFile
  cases hopened : f.opened with
  | false => simp
  | true =>
    cases hmalloc : f.malloc f.ftell with
    | none => simp
    | some block =>
      simp only [Bool.not_true, Bool.false_eq_true, if_false, Option.some.injEq, Prod.mk.injEq,
        true_and, exists_eq_left']
      exact ⟨fun ⟨hmodel, hsize⟩ => ⟨hsize.symm, hmodel.symm⟩,
        fun ⟨hsize, hmodel⟩ => ⟨hmodel.symm, hsize.symm⟩⟩

/-- The buffer and the size are those of the file exactly when nothing cuts the reading short. -/
theorem loaded_iff (hload : loadFile (o.ops file) = some (model, size)) :
    (o.ops file).fread = file ∧ model = file ∧ size = file.length ↔ o.ReadsAll file := by
  obtain ⟨-, rfl, block, hmalloc, rfl⟩ := loadFile_eq_some_iff.mp hload
  have hlength : (block.length : Int) = (o.ops file).ftell := o.malloc_length _ _ hmalloc
  rw [← ops_eq_iff (by omega)]
  constructor
  · rintro ⟨hread, -, htell⟩
    exact ⟨htell, hread⟩
  · rintro ⟨htell, hread⟩
    refine ⟨hread, ?_, htell⟩
    have hblock : block.length = file.length := by omega
    rw [hread, ← hblock, List.drop_length, List.append_nil]

/-! ## The first run -/

theorem filter_isInit (hplan : cs.filter Call.decides = .init model size rt.init :: setUpPlan rt) :
    cs.filter Call.isInit = [.init model size rt.init] := by
  have hdecides : cs.filter Call.isInit = (cs.filter Call.decides).filter Call.isInit := by
    rw [List.filter_filter]
    refine List.filter_congr fun c _ => ?_
    cases c <;> rfl
  have hnone : (setUpPlan rt).filter Call.isInit = [] :=
    List.filter_eq_nil_iff.mpr fun c hc => by simp [(setUpPlan_isRun rt c hc).2]
  rw [hdecides, hplan, List.filter_cons_of_pos rfl, hnone]

theorem modelGiven_iff (hload : loadFile (o.ops file) = some (model, size))
    (hplan : cs.filter Call.decides = .init model size rt.init :: setUpPlan rt) :
    ModelGiven (o.ops file) file cs ↔ o.ReadsAll file := by
  rw [← loaded_iff hload, ModelGiven, filter_isInit hplan]
  constructor
  · rintro ⟨hread, ret, heq⟩
    obtain ⟨rfl, rfl, -⟩ := Call.init.inj (List.cons.inj heq).1
    exact ⟨hread, rfl, rfl⟩
  · rintro ⟨hread, hmodel, hsize⟩
    exact ⟨hread, rt.init, by rw [hmodel, hsize]⟩

theorem bound_of_plan {t : Tensor}
    (hplan : cs.filter Call.decides = .init model size rt.init :: setUpPlan rt)
    (hok : ∀ c ∈ Call.init model size rt.init :: setUpPlan rt, c.ok = true)
    (ht : List.Sublist (tensorPlan rt t) (setUpPlan rt)) : Bound rt cs t := by
  have hcs : List.Sublist (setUpPlan rt) cs := by
    have hfilter : List.Sublist (cs.filter Call.decides) cs := List.filter_sublist
    rw [hplan] at hfilter
    exact (List.sublist_cons_self _ _).trans hfilter
  exact bound_of_sublist (ht.trans hcs) fun c hc => hok c (List.mem_cons_of_mem _ (ht.mem hc))

/-- A tensor with a memory is the first input or an output of the loop. -/
theorem eq_of_bound {t : Tensor}
    (hplan : cs.filter Call.decides = .init model size rt.init :: setUpPlan rt)
    (h : Bound rt cs t) : t = .input 0 ∨ ∃ i < nOut rt, t = .output i := by
  obtain ⟨mem, ret, -, hsub⟩ := h
  have hmem : .createMem t (rt.attrSize t) (some mem) ∈ cs.filter Call.decides :=
    List.mem_filter.mpr ⟨hsub.mem List.mem_cons_self, rfl⟩
  rw [hplan] at hmem
  exact createMem_mem_setUpPlan ((List.mem_cons.mp hmem).resolve_left (by simp))

theorem complete_iff (hload : loadFile (o.ops file) = some (model, size))
    (hplan : cs.filter Call.decides = .init model size rt.init :: setUpPlan rt)
    (hok : ∀ c ∈ Call.init model size rt.init :: setUpPlan rt, c.ok = true) :
    Complete (o.ops file) rt file cs ↔
      o.ReadsAll file ∧ rt.nInput ≤ 1 ∧ rt.nOutput ≤ MAX_OUTPUTS := by
  have hmin := nOut_eq_min rt
  constructor
  · intro h
    refine ⟨(modelGiven_iff hload hplan).mp h.model, ?_, ?_⟩
    · by_contra hmany
      rcases eq_of_bound hplan (h.inputs 1 (by omega)) with heq | ⟨i, -, heq⟩
      · exact absurd (Tensor.input.inj heq) (by decide)
      · exact absurd heq (by simp)
    · by_contra hmany
      rcases eq_of_bound hplan (h.outputs MAX_OUTPUTS (by omega)) with heq | ⟨i, hi, heq⟩
      · exact absurd heq (by simp)
      · obtain rfl := Tensor.output.inj heq
        omega
  · rintro ⟨hreads, hin, hout⟩
    refine ⟨(modelGiven_iff hload hplan).mpr hreads, fun i hi => ?_, fun i hi => ?_⟩
    · obtain rfl : i = 0 := by omega
      exact bound_of_plan hplan hok (tensorPlan_input_sublist rt)
    · exact bound_of_plan hplan hok (tensorPlan_output_sublist rt (by omega))

theorem binds_iff (rt : Runtime) (t : Tensor) :
    (∀ c ∈ tensorPlan rt t, c.ok = true) ↔ rt.Binds t := by
  simp [tensorPlan, Call.ok, Runtime.Binds, Option.isSome_iff_ne_none]

/-- The first run is reached exactly when nothing that is checked fails. -/
theorem passes_iff : Passes f rt ↔ ∃ model size, loadFile f = some (model, size) ∧
    ∀ c ∈ Call.init model size rt.init :: setUpPlan rt, c.ok = true := by
  have hmin := nOut_eq_min rt
  constructor
  · intro h
    obtain ⟨block, hblock⟩ := Option.ne_none_iff_exists'.mp h.malloc
    refine ⟨_, _, loadFile_eq_some_iff.mpr ⟨h.opened, rfl, block, hblock, rfl⟩, fun c hc => ?_⟩
    rcases List.mem_cons.mp hc with rfl | hc
    · exact decide_eq_true h.init
    rcases List.mem_cons.mp hc with rfl | hc
    · exact decide_eq_true h.queryInOutNum
    rcases List.mem_append.mp hc with hc | hc
    · exact (binds_iff rt _).mpr h.input c hc
    · obtain ⟨i, hi, hc⟩ := List.mem_flatMap.mp hc
      have hlt := List.mem_range.mp hi
      exact (binds_iff rt _).mpr (h.outputs i (by omega) (by omega)) c hc
  · rintro ⟨model, size, hload, hok⟩
    obtain ⟨hopened, -, block, hblock, -⟩ := loadFile_eq_some_iff.mp hload
    have hset : ∀ c ∈ setUpPlan rt, c.ok = true := fun c hc => hok c (List.mem_cons_of_mem _ hc)
    refine ⟨hopened, by simp [hblock], ?_, ?_, ?_, fun i hi hmax => ?_⟩
    · exact of_decide_eq_true (hok _ List.mem_cons_self)
    · exact of_decide_eq_true (hset _ List.mem_cons_self)
    · exact (binds_iff rt _).mp fun c hc => hset c ((tensorPlan_input_sublist rt).mem hc)
    · have hlt : i < nOut rt := by omega
      have hsub := tensorPlan_output_sublist rt hlt
      exact (binds_iff rt _).mp fun c hc => hset c (hsub.mem hc)

/-- The session is complete at the first run exactly when the run is not reached, or the whole file
was read and the model has at most one input and no more outputs than the arrays. -/
theorem completeAtFirstRun_iff (file : Bytes) (o : FileOutcomes) (rt : Runtime) :
    CompleteAtFirstRun (o.ops file) rt file ↔
      (Passes (o.ops file) rt →
        o.ReadsAll file ∧ rt.nInput ≤ 1 ∧ rt.nOutput ≤ MAX_OUTPUTS) := by
  rw [passes_iff]
  constructor
  · rintro h ⟨model, size, hload, hok⟩
    obtain ⟨cs, hcs⟩ := exists_firstRunAfter hload hok
    obtain ⟨model', size', hload', hplan, hok'⟩ := firstRunAfter_spec hcs
    exact (complete_iff hload' hplan hok').mp (h cs hcs)
  · intro h cs hcs
    obtain ⟨model, size, hload, hplan, hok⟩ := firstRunAfter_spec hcs
    exact (complete_iff hload hplan hok).mpr (h ⟨model, size, hload, hok⟩)

/-- At the first run the first input and the outputs that fit into the arrays are bound, and the
model was given as a whole if nothing cut the reading of its file short. -/
theorem firstRun_bound (file : Bytes) (o : FileOutcomes) (rt : Runtime) (cs : List Call)
    (h : (main (o.ops file) rt).FirstRunAfter cs) :
    Bound rt cs (.input 0) ∧
    (∀ i < rt.nOutput, i < MAX_OUTPUTS → Bound rt cs (.output i)) ∧
    (o.ReadsAll file → ModelGiven (o.ops file) file cs) := by
  obtain ⟨model, size, hload, hplan, hok⟩ := firstRunAfter_spec h
  have hmin := nOut_eq_min rt
  refine ⟨?_, fun i hi hmax => ?_, fun hreads => ?_⟩
  · exact bound_of_plan hplan hok (tensorPlan_input_sublist rt)
  · exact bound_of_plan hplan hok (tensorPlan_output_sublist rt (by omega))
  · exact (modelGiven_iff hload hplan).mpr hreads

/-! ## Sample runs -/

/-- File operations that all succeed; `fread` stops behind `most` bytes. -/
def readable (most : Nat) : FileOutcomes where
  fopen := true
  seekEnd := true
  ftell := true
  seekSet := true
  malloc size := if 0 ≤ size then some (List.replicate size.toNat 0) else none
  malloc_length := by
    intro size block h
    split at h
    · obtain rfl := Option.some.inj h
      rw [List.length_replicate]
      omega
    · exact absurd h (by simp)
  fread := most

/-- A runtime without failures. -/
def steady (nInput nOutput : Nat) : Runtime where
  init := 0
  querySdkVersion := 0
  queryInOutNum := 0
  nInput := nInput
  nOutput := nOutput
  queryNativeAttr _ := 0
  attrSize _ := 64
  createMem
    | .input i => some (2 * i)
    | .output i => some (2 * i + 1)
  setIoMem _ := 0
  warmup := 0
  run _ := 0

theorem steady_binds (nInput nOutput : Nat) (t : Tensor) : (steady nInput nOutput).Binds t := by
  refine ⟨Int.le_refl 0, ?_, Int.le_refl 0⟩
  cases t <;> exact Option.some_ne_none _

theorem steady_passes (most nInput nOutput : Nat) :
    Passes ((readable most).ops [7]) (steady nInput nOutput) where
  opened := rfl
  malloc := by
    have htell : ((readable most).ops [7]).ftell = 1 := ops_ftell rfl (by decide)
    rw [htell]
    exact Option.some_ne_none _
  init := Int.le_refl 0
  queryInOutNum := Int.le_refl 0
  input := steady_binds _ _ _
  outputs _ _ _ := steady_binds _ _ _

/-- Two inputs, nine outputs, or a short read: the first run is reached, and the session is not
complete. -/
theorem not_completeAtFirstRun :
    ¬ CompleteAtFirstRun ((readable 1).ops [7]) (steady 2 1) [7] ∧
    ¬ CompleteAtFirstRun ((readable 1).ops [7]) (steady 1 9) [7] ∧
    ¬ CompleteAtFirstRun ((readable 0).ops [7]) (steady 1 1) [7] := by
  simp only [completeAtFirstRun_iff]
  refine ⟨fun h => ?_, fun h => ?_, fun h => ?_⟩
  · exact absurd (h (steady_passes 1 2 1)).2.1 (by decide)
  · exact absurd (h (steady_passes 1 1 9)).2.2 (by decide)
  · rcases (h (steady_passes 0 1 1)).1 with hempty | ⟨-, -, -, hall⟩
    · exact absurd hempty (by decide)
    · exact absurd hall (by decide)

/-- The calls of a sample run in front of its first `rknn_run`. -/
def sampleCalls : List Call :=
  [.init [7, 8, 9] 3 0, .querySdkVersion 0, .queryInOutNum 0,
    .queryNativeAttr (.input 0) 0, .createMem (.input 0) 64 (some 0),
    .setIoMem (.input 0) (some 0) 0,
    .queryNativeAttr (.output 0) 0, .createMem (.output 0) 64 (some 1),
    .setIoMem (.output 0) (some 1) 0,
    .queryNativeAttr (.output 1) 0, .createMem (.output 1) 64 (some 3),
    .setIoMem (.output 1) (some 3) 0]

theorem firstRun_bound_sample :
    Bound (steady 1 2) sampleCalls (.input 0) ∧
    (∀ i < 2, i < MAX_OUTPUTS → Bound (steady 1 2) sampleCalls (.output i)) ∧
    ((readable 3).ReadsAll [7, 8, 9] →
      ModelGiven ((readable 3).ops [7, 8, 9]) [7, 8, 9] sampleCalls) := by
  have hcalls : calls (main ((readable 3).ops [7, 8, 9]) (steady 1 2)).log =
      sampleCalls ++ .run 0 :: (List.replicate 10 (.run 0) ++ [.destroy]) := by
    decide +kernel
  exact firstRun_bound [7, 8, 9] (readable 3) (steady 1 2) sampleCalls
    ⟨⟨0, _, hcalls⟩, by decide⟩

end Rknn
