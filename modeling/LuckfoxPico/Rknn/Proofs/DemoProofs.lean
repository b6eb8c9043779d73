import LuckfoxPico.Rknn.Demo
import LuckfoxPico.Session.Calls

/-!
# Proofs: the NPU demo

The calls the demo makes are its plan up to the first failing call. The verdict follows the variable
`ret`, which a failed `rknn_create_mem` leaves at the non-negative result of the query before it:
the process then exits with status 0 although the test did not pass. That is the only way the exit
status lies.
-/

namespace Rknn

open Session

theorem calls_append (l₁ l₂ : List Event) : calls (l₁ ++ l₂) = calls l₁ ++ calls l₂ := by
  simp [calls]

@[simp] theorem calls_nil : calls [] = [] := rfl

@[simp] theorem calls_call (c : Call) (l : List Event) : calls (.call c :: l) = c :: calls l := rfl

@[simp] theorem calls_stdout (o : Output) (l : List Event) : calls (.stdout o :: l) = calls l := rfl

@[simp] theorem calls_stderr (e : Complaint) (l : List Event) :
    calls (.stderr e :: l) = calls l := rfl

@[simp] theorem emit_ret (s : St) (es : List Event) : (s.emit es).ret = s.ret := rfl

@[simp] theorem emit_log (s : St) (es : List Event) : (s.emit es).log = s.log ++ es := rfl

/-- The state `s'` comes from `s` by making the calls `cs`, and the test was not declared passed on
the way. -/
structure Reaches (s : St) (cs : List Call) (s' : St) : Prop where
  calls : calls s'.log = Rknn.calls s.log ++ cs
  quiet : .stdout .passed ∈ s'.log → .stdout .passed ∈ s.log

theorem Reaches.refl (s : St) : Reaches s [] s := ⟨by simp, id⟩

theorem Reaches.trans {s s' s'' : St} {cs ds : List Call} (h : Reaches s cs s')
    (h' : Reaches s' ds s'') : Reaches s (cs ++ ds) s'' :=
  ⟨by rw [h'.calls, h.calls, List.append_assoc], fun hp => h.quiet (h'.quiet hp)⟩

/-- Printing anything but the verdict makes no call. -/
theorem Reaches.emit {s s' : St} {cs : List Call} (h : Reaches s cs s') (es : List Event)
    (hcalls : Rknn.calls es = []) (hquiet : .stdout .passed ∉ es) : Reaches s cs (s'.emit es) := by
  refine ⟨by rw [emit_log, calls_append, hcalls, List.append_nil, h.calls], fun hp => h.quiet ?_⟩
  rcases List.mem_append.mp hp with hp | hp
  · exact hp
  · exact absurd hp hquiet

/-- What a step with the plan `p` can do: make the whole plan and leave `ret` non-negative, or stop
at its first failing call, with `ret` negative unless that call is `rknn_create_mem`. -/
inductive Ends (p : List Call) (s : St) : Except St St → Prop where
  | ok {s' : St} (hfail : firstFailure Call.ok p = none) (hreach : Reaches s p s') (hret : 0 ≤ s'.ret) :
      Ends p s (.ok s')
  | goto {s' : St} {c : Call} (hfail : firstFailure Call.ok p = some c)
      (hreach : Reaches s (made Call.ok p) s') (hret : s'.ret < 0 ↔ c.isCreateMem = false) :
      Ends p s (.error s')

/-- Two steps in sequence; the second one may rely on a non-negative `ret`. -/
theorem Ends.bind {p q : List Call} {s : St} {r : Except St St} {f : Step} (h : Ends p s r)
    (hf : ∀ s', 0 ≤ s'.ret → Ends q s' (f s')) : Ends (p ++ q) s (r >>= f) := by
  cases h with
  | @ok s' hfail hreach hret =>
    have hmade : made Call.ok (p ++ q) = p ++ made Call.ok q := by rw [made_append, if_pos hfail]
    have hfailq : firstFailure Call.ok (p ++ q) = firstFailure Call.ok q := by
      rw [firstFailure_append, hfail, Option.none_or]
    show Ends (p ++ q) s (f s')
    have hq := hf s' hret
    generalize f s' = r at hq
    cases hq with
    | ok hfail' hreach' hret' => exact .ok (hfailq.trans hfail') (hreach.trans hreach') hret'
    | goto hfail' hreach' hret' =>
      exact .goto (hfailq.trans hfail') (hmade ▸ hreach.trans hreach') hret'
  | @goto s' c hfail hreach hret =>
    have hmade : made Call.ok (p ++ q) = made Call.ok p := by
      rw [made_append, if_neg (by simp [hfail])]
    exact .goto (by rw [firstFailure_append, hfail, Option.some_or]) (hmade ▸ hreach) hret

/-- A step may be preceded by printing. -/
theorem Ends.after_emit {p : List Call} {s : St} (es : List Event) {r : Except St St}
    (h : Ends p (s.emit es) r) (hcalls : calls es = []) (hquiet : .stdout .passed ∉ es) :
    Ends p s r := by
  have hpre : Reaches s [] (s.emit es) := (Reaches.refl s).emit es hcalls hquiet
  cases h with
  | ok hfail hreach hret => exact .ok hfail (by simpa using hpre.trans hreach) hret
  | goto hfail hreach hret => exact .goto hfail (by simpa using hpre.trans hreach) hret

theorem check_ends {c : Call} {ret : Int} (e : Complaint) (s : St) (hok : c.ok = decide (0 ≤ ret))
    (hmem : c.isCreateMem = false) : Ends [c] s (check c ret e s) := by
  have hreach : Reaches s [c] { s.emit [.call c] with ret := ret } :=
    ⟨by simp [calls_append], fun hp => by simpa using hp⟩
  unfold check
  by_cases hneg : ret < 0
  · have hfail : c.ok = false := by rw [hok, decide_eq_false_iff_not]; omega
    rw [if_pos hneg]
    refine .goto (c := c) (by simp [firstFailure, hfail]) ?_ (by simp [hneg, hmem])
    simpa [made] using hreach.emit [.stderr e] rfl (by simp)
  · have hpass : c.ok = true := by rw [hok, decide_eq_true_iff]; omega
    rw [if_neg hneg]
    exact .ok (by simp [firstFailure, hpass]) hreach (by simpa using hneg)

/-- `rknn_create_mem` leaves `ret` as it is, also when it fails. -/
theorem allocate_ends (t : Tensor) (size : Nat) (mem : Option Mem) {s : St} (hret : 0 ≤ s.ret) :
    Ends [.createMem t size mem] s (allocate t size mem s) := by
  have hreach : Reaches s [.createMem t size mem] (s.emit [.call (.createMem t size mem)]) :=
    ⟨by simp [calls_append], fun hp => by simpa using hp⟩
  unfold allocate
  cases mem with
  | none =>
    refine .goto (c := .createMem t size none) rfl ?_ (by simp [Call.isCreateMem, hret])
    simpa [made] using hreach.emit [.stderr (.createMemFailed t)] rfl (by simp)
  | some m => exact .ok rfl hreach hret

theorem bindTensor_ends (rt : Runtime) (t : Tensor) (s : St) :
    Ends (tensorPlan rt t) s (bindTensor rt t s) := by
  unfold bindTensor
  refine Ends.bind (p := [_]) (check_ends _ s rfl rfl) fun s hret => ?_
  refine Ends.after_emit [.stdout (.attr t (rt.attrSize t))] ?_ rfl (by simp)
  refine Ends.bind (p := [_]) (allocate_ends t _ _ hret) fun s _ => ?_
  exact check_ends _ s rfl rfl

theorem bindOutputs_ends (rt : Runtime) (k i : Nat) {s : St} (hret : 0 ≤ s.ret) :
    Ends ((List.range' i k).flatMap fun j => tensorPlan rt (.output j)) s
      (bindOutputs rt k i s) := by
  induction k generalizing i s with
  | zero => exact .ok rfl (Reaches.refl s) hret
  | succ k ih =>
    rw [List.range'_succ, List.flatMap_cons]
    exact (bindTensor_ends rt (.output i) s).bind fun s' hret' => ih (i + 1) hret'

/-- The benchmark loop makes its runs up to the first failing one, and `ret` tells whether there was
one. -/
theorem benchmark_reaches (rt : Runtime) (k i : Nat) {s : St} (hret : 0 ≤ s.ret) :
    Reaches s (made Call.ok ((List.range' i k).map fun j => .run (rt.run j))) (benchmark rt k i s) ∧
    (0 ≤ (benchmark rt k i s).ret ↔
      firstFailure Call.ok ((List.range' i k).map fun j => .run (rt.run j)) = none) := by
  induction k generalizing i s with
  | zero => exact ⟨Reaches.refl s, by simp [benchmark, firstFailure, hret]⟩
  | succ k ih =>
    have hreach : Reaches s [.run (rt.run i)]
        { s.emit [.call (.run (rt.run i))] with ret := rt.run i } :=
      ⟨by simp [calls_append], fun hp => by simpa using hp⟩
    rw [List.range'_succ, List.map_cons, benchmark]
    by_cases hneg : rt.run i < 0
    · have hfail : Call.ok (.run (rt.run i)) = false := by simpa [Call.ok] using hneg
      rw [if_pos hneg]
      refine ⟨?_, by simp [firstFailure, hfail, hneg]⟩
      simpa [made, hfail] using hreach.emit [.stderr (.runFailed (rt.run i) i)] rfl (by simp)
    · have hpass : Call.ok (.run (rt.run i)) = true := by simpa [Call.ok] using hneg
      rw [if_neg hneg]
      obtain ⟨hrest, hverdict⟩ := ih (i + 1)
        (s := { s.emit [.call (.run (rt.run i))] with ret := rt.run i }) (by simpa using hneg)
      refine ⟨?_, ?_⟩
      · simpa [made, hpass] using hreach.trans hrest
      · simpa [firstFailure, hpass] using hverdict

theorem setUp_ends (rt : Runtime) (s : St) : Ends (setUpPlan rt) s (setUp rt s) := by
  unfold setUp setUpPlan
  refine Ends.bind (p := [_]) (check_ends _ s rfl rfl) fun s _ => ?_
  refine Ends.after_emit [.stdout (.inOutNum rt.nInput rt.nOutput)] ?_ rfl (by simp)
  refine (bindTensor_ends rt (.input 0) _).bind fun s hret => ?_
  rw [List.range_eq_range']
  exact bindOutputs_ends rt (nOut rt) 0 hret

/-- The plan up to the benchmark loop. -/
theorem warmup_ends (rt : Runtime) (s : St) :
    Ends (setUpPlan rt ++ [.run rt.warmup]) s (setUp rt s >>= fun s =>
      check (.run rt.warmup) rt.warmup (.warmupFailed rt.warmup) (s.emit [.stdout .warmup])) :=
  (setUp_ends rt s).bind fun _ _ =>
    Ends.after_emit [.stdout .warmup] (check_ends _ _ rfl rfl) rfl (by simp)

/-- The benchmark's calls, its verdict, and the sign of `ret` after it. -/
theorem finish_spec (rt : Runtime) {s : St} (hret : 0 ≤ s.ret) (hquiet : .stdout .passed ∉ s.log) :
    calls (finish rt s).log = calls s.log ++ made Call.ok (runsPlan rt) ∧
    (.stdout .passed ∈ (finish rt s).log ↔ firstFailure Call.ok (runsPlan rt) = none) ∧
    ((finish rt s).ret < 0 ↔ firstFailure Call.ok (runsPlan rt) ≠ none) := by
  obtain ⟨hreach, hverdict⟩ :=
    benchmark_reaches rt LOOP_COUNT 0 (s := s.emit [.stdout .running]) hret
  rw [← List.range_eq_range', ← runsPlan] at hreach hverdict
  have hall := ((Reaches.refl s).emit [.stdout .running] rfl (by simp)).trans hreach
  unfold finish
  generalize benchmark rt LOOP_COUNT 0 (s.emit [.stdout .running]) = s' at hverdict hall
  by_cases hpos : 0 ≤ s'.ret
  · have hnone := hverdict.mp hpos
    simp only [hpos, if_true, hnone]
    refine ⟨by simpa [calls_append] using hall.calls, by simp, ?_⟩
    simpa using hpos
  · have hsome := fun hnone => hpos (hverdict.mpr hnone)
    simp only [hpos, if_false]
    refine ⟨by simpa using hall.calls, ⟨fun hmem => absurd (hall.quiet hmem) hquiet, ?_⟩, ?_⟩
    · exact fun hnone => absurd hnone hsome
    · exact ⟨fun _ => hsome, fun _ => by omega⟩

/-- The calls of a session, its verdict, and the sign of `ret` at the label `cleanup`. -/
theorem session_spec (rt : Runtime) {s : St} (hquiet : .stdout .passed ∉ s.log) :
    ∃ s', (session rt s = .ok s' ∨ session rt s = .error s') ∧
      calls s'.log = calls s.log ++ made Call.ok (sessionPlan rt) ∧
      (.stdout .passed ∈ s'.log ↔ firstFailure Call.ok (sessionPlan rt) = none) ∧
      (s'.ret < 0 ↔
        ∃ c, firstFailure Call.ok (sessionPlan rt) = some c ∧ c.isCreateMem = false) := by
  have hsession : session rt s = (setUp rt s >>= fun s =>
      check (.run rt.warmup) rt.warmup (.warmupFailed rt.warmup) (s.emit [.stdout .warmup])) >>=
      fun s => .ok (finish rt s) := by
    unfold session
    cases setUp rt s <;> rfl
  have hends := warmup_ends rt s
  rw [hsession]
  generalize (setUp rt s >>= fun s => check (.run rt.warmup) rt.warmup (.warmupFailed rt.warmup)
    (s.emit [.stdout .warmup])) = r at hends
  cases hends with
  | @goto s' c hfail hreach hret =>
    have hfailp : firstFailure Call.ok (sessionPlan rt) = some c := by
      rw [sessionPlan, firstFailure_append, hfail, Option.some_or]
    refine ⟨s', Or.inr rfl, ?_, ?_, by simp [hfailp, hret]⟩
    · rw [hreach.calls, sessionPlan, made_append (setUpPlan rt ++ _), if_neg (by simp [hfail])]
    · rw [hfailp]
      exact ⟨fun hmem => absurd (hreach.quiet hmem) hquiet, fun h => by cases h⟩
  | @ok s' hfail hreach hret =>
    obtain ⟨hcalls, hpassed, hneg⟩ := finish_spec rt hret fun hmem => hquiet (hreach.quiet hmem)
    have hfailp : firstFailure Call.ok (sessionPlan rt) = firstFailure Call.ok (runsPlan rt) := by
      rw [sessionPlan, firstFailure_append, hfail, Option.none_or]
    refine ⟨finish rt s', Or.inl rfl, ?_, by rw [hpassed, hfailp], ?_⟩
    · rw [hcalls, hreach.calls, sessionPlan, made_append (setUpPlan rt ++ _), if_pos hfail]
      simp
    · rw [hneg, hfailp]
      constructor
      · intro hsome
        obtain ⟨c, hc⟩ := Option.ne_none_iff_exists'.mp hsome
        obtain ⟨i, -, rfl⟩ := List.mem_map.mp (List.mem_of_find?_eq_some hc)
        exact ⟨_, hc, rfl⟩
      · rintro ⟨c, hc, -⟩
        rw [hc]
        exact Option.some_ne_none c

/-- Every planned call can decide the verdict. -/
theorem sessionPlan_decides (rt : Runtime) : ∀ c ∈ sessionPlan rt, c.decides = true := by
  intro c hc
  simp only [sessionPlan, setUpPlan, tensorPlan, runsPlan, List.mem_append, List.mem_cons,
    List.mem_flatMap, List.mem_map, List.not_mem_nil, or_false] at hc
  rcases hc with ((rfl | (rfl | rfl | rfl) | ⟨i, -, rfl | rfl | rfl⟩) | rfl) | ⟨i, -, rfl⟩ <;> rfl

/-- A run of `main` on a model that was loaded: the calls that decide its verdict are the plan up to
the first failure; the test passes when nothing fails; and the exit status is zero when nothing
fails or the first failure is that of `rknn_create_mem`. -/
theorem main_spec {f : FileOps} (rt : Runtime) {model : Bytes} {size : Int}
    (hload : loadFile f = some (model, size)) :
    (calls (main f rt).log).filter Call.decides = made Call.ok (plan rt model size) ∧
    ((main f rt).passed ↔ firstFailure Call.ok (plan rt model size) = none) ∧
    ((main f rt).status ≠ 0 ↔
      ∃ c, firstFailure Call.ok (plan rt model size) = some c ∧ c.isCreateMem = false) := by
  have hinit : Call.ok (.init model size rt.init) = decide (0 ≤ rt.init) := rfl
  by_cases hneg : rt.init < 0
  · have hfail : Call.ok (.init model size rt.init) = false := by
      rw [hinit, decide_eq_false_iff_not]; omega
    have hmain : main f rt = ⟨[.stdout .banner, .stdout (.modelLoaded size),
        .call (.init model size rt.init), .stderr (.initFailed rt.init)], -1⟩ := by
      simp [main, hload, hneg]
    rw [hmain]
    refine ⟨?_, ?_, ?_⟩
    · simp [plan, made, hfail, Call.decides]
    · simp [Result.passed, plan, firstFailure, hfail]
    · simp [Result.status, plan, firstFailure, hfail, Call.isCreateMem]
  · have hok : Call.ok (.init model size rt.init) = true := by
      rw [hinit, decide_eq_true_iff]; omega
    set log : List Event := [.stdout .banner, .stdout (.modelLoaded size),
      .call (.init model size rt.init), .stdout .initialized,
      .call (.querySdkVersion rt.querySdkVersion)] ++
      (if rt.querySdkVersion = 0 then [.stdout .sdkVersion] else []) with hlog
    have hquiet : .stdout .passed ∉ log := by rw [hlog]; split <;> simp
    have hcalls : calls log =
        [.init model size rt.init, .querySdkVersion rt.querySdkVersion] := by
      rw [hlog]; split <;> simp
    obtain ⟨s, hs, hscalls, hspassed, hsneg⟩ :=
      session_spec rt (s := ⟨rt.querySdkVersion, log⟩) hquiet
    have hmain : main f rt = ⟨s.log ++ [.call .destroy], if s.ret < 0 then -1 else 0⟩ := by
      have hlog' : (if rt.querySdkVersion = 0 then
          ([.stdout .banner] ++ [.stdout (.modelLoaded size), .call (.init model size rt.init)] ++
            [.stdout .initialized, .call (.querySdkVersion rt.querySdkVersion)] ++
            [.stdout .sdkVersion] : List Event)
          else [.stdout .banner] ++ [.stdout (.modelLoaded size), .call (.init model size rt.init)] ++
            [.stdout .initialized, .call (.querySdkVersion rt.querySdkVersion)]) = log := by
        rw [hlog]; split <;> simp
      simp only [main, hload, hneg, if_false]
      rw [hlog']
      rcases hs with hs | hs <;> rw [hs]
    have hfirst : firstFailure Call.ok (plan rt model size) =
        firstFailure Call.ok (sessionPlan rt) := by
      simp [plan, firstFailure, hok]
    rw [hmain, hfirst]
    refine ⟨?_, ?_, ?_⟩
    · have hdecides : (made Call.ok (sessionPlan rt)).filter Call.decides =
          made Call.ok (sessionPlan rt) :=
        List.filter_eq_self.mpr fun c hc => sessionPlan_decides rt c (made_subset hc)
      have hends : (calls [.call .destroy]).filter Call.decides = [] := rfl
      simp only [calls_append, hscalls, hcalls, List.filter_append, hdecides, hends, plan, made, hok,
        List.append_nil, if_true]
      rfl
    · rw [Result.passed, ← hspassed]
      simp
    · rw [← hsneg]
      by_cases hr : s.ret < 0 <;> simp [Result.status, hr]

/-- The first planned call that fails, if there is one and the model was loaded. -/
def stopsAt (f : FileOps) (rt : Runtime) : Option Call := do
  let (model, size) ← loadFile f
  firstFailure Call.ok (plan rt model size)

/-- The exit status and the verdict agree, and the verdict is earned, exactly when the demo does not
stop at an `rknn_create_mem` that returns a null pointer. -/
theorem main_honest_iff (f : FileOps) (rt : Runtime) :
    (main f rt).Honest ↔ ∀ c, stopsAt f rt = some c → c.isCreateMem = false := by
  cases hload : loadFile f with
  | none =>
    have hstop : stopsAt f rt = none := by simp [stopsAt, hload]
    have hnotpassed : ¬ (main f rt).passed := by
      simp only [main, hload, Result.passed]
      split <;> simp
    have hstatus : (main f rt).status = 255 := by simp [main, hload, Result.status]
    rw [hstop]
    refine ⟨fun _ c hc => by simp at hc, fun _ => ⟨?_, fun hp => absurd hp hnotpassed⟩⟩
    rw [hstatus]
    exact ⟨fun h => absurd h (by decide), fun hp => absurd hp hnotpassed⟩
  | some loaded =>
    obtain ⟨model, size⟩ := loaded
    obtain ⟨hcalls, hpassed, hstatus⟩ := main_spec rt hload
    have hstop : stopsAt f rt = firstFailure Call.ok (plan rt model size) := by
      simp [stopsAt, hload]
    rw [hstop]
    constructor
    · intro h c hc
      by_contra hmem
      have hzero : (main f rt).status = 0 := by
        by_contra hne
        obtain ⟨d, hd, hdmem⟩ := hstatus.mp hne
        rw [hc] at hd
        obtain rfl := Option.some.inj hd
        exact hmem hdmem
      have hnone := hpassed.mp (h.1.mp hzero)
      rw [hc] at hnone
      exact absurd hnone (Option.some_ne_none c)
    · intro h
      refine ⟨⟨fun hzero => ?_, fun hp => ?_⟩, fun hp c hc hsdk => ?_⟩
      · by_contra hnp
        obtain ⟨c, hc⟩ := Option.ne_none_iff_exists'.mp fun hnone => hnp (hpassed.mpr hnone)
        exact hstatus.mpr ⟨c, hc, h c hc⟩ hzero
      · by_contra hne
        obtain ⟨c, hc, -⟩ := hstatus.mp hne
        rw [hpassed.mp hp] at hc
        cases hc
      · have hnone := hpassed.mp hp
        by_cases hdecides : c.decides = true
        · have hmade : c ∈ made Call.ok (plan rt model size) :=
            hcalls ▸ List.mem_filter.mpr ⟨hc, hdecides⟩
          exact firstFailure_eq_none.mp hnone c (made_subset hmade)
        · cases c <;> simp_all [Call.decides, Call.isSdkQuery, Call.ok]

/-- A readable model of one byte. -/
def sampleFile : FileOps where
  opened := true
  ftell := 1
  malloc _ := some [0]
  fread := [7]

/-- A runtime in which every call succeeds but the first `rknn_create_mem`. -/
def noMemory : Runtime where
  init := 0
  querySdkVersion := 0
  queryInOutNum := 0
  nInput := 1
  nOutput := 1
  queryNativeAttr _ := 0
  attrSize _ := 64
  createMem
    | .input _ => none
    | .output i => some i
  setIoMem _ := 0
  warmup := 0
  run _ := 0

/-- When the input memory cannot be created, the demo prints no verdict and exits with status 0. -/
theorem main_noMemory : (main sampleFile noMemory).status = 0 ∧
    ¬ (main sampleFile noMemory).passed ∧ ¬ (main sampleFile noMemory).Honest := by
  have hstatus : (main sampleFile noMemory).status = 0 := by decide
  have hpassed : ¬ (main sampleFile noMemory).passed := by
    show .stdout .passed ∉ (main sampleFile noMemory).log
    decide
  exact ⟨hstatus, hpassed, fun h => hpassed (h.1.mp hstatus)⟩

end Rknn
