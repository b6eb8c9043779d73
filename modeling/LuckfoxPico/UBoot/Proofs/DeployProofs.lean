import LuckfoxPico.UBoot.Deploy

/-!
# Proofs: building and shipping the boot loaders

`idbloader.img` is a write-once cell of the build directory: the first build that gets as far as
`mkimage` fills it, and no later build writes it again. So a build ships its own loader exactly when
the blobs it names are those of that first build.
-/

namespace UBoot

variable (mkimage : MkImage)

/-- The loader a build would write into a tree that has none. -/
def Build.contribution (b : Build) : Option Bytes :=
  if b.reachesLoader then b.loader mkimage else none

/-- The guarded `mkimage` call leaves a loader that is there, and makes a missing one. -/
theorem buildIdbloader_cases (b : Build) (t : Tree) :
    (t.idbloader ≠ none ∧ buildIdbloader mkimage b t = (t, true)) ∨
    (t.idbloader = none ∧ (buildIdbloader mkimage b t).2 = (b.loader mkimage).isSome ∧
      (buildIdbloader mkimage b t).1.idbloader = b.loader mkimage) := by
  by_cases hnone : t.idbloader = none
  · right
    cases hloader : b.loader mkimage <;> simp [buildIdbloader, hnone, hloader]
  · left
    simp [buildIdbloader, hnone]

/-- `do_compile` either stops before the guard with the loader as it was, or runs the guard on a
tree with the loader as it was. -/
theorem doCompile_cases (b : Build) (t : Tree) :
    (b.reachesLoader = false ∧ (doCompile mkimage b t).2 = false ∧
      (doCompile mkimage b t).1.idbloader = t.idbloader) ∨
    (b.reachesLoader = true ∧ ∃ made, made.idbloader = t.idbloader ∧
      doCompile mkimage b t = buildIdbloader mkimage b made) := by
  cases htee : b.teeRaw with
  | none => exact Or.inl (by simp [Build.reachesLoader, doCompile, htee])
  | some tee =>
    have hkeepAll := b.makeAll.keeps { t with tee := some tee }
    have hkeepItb := b.makeItb.keeps (b.makeAll.run { t with tee := some tee })
    cases hall : b.makeAll.ok with
    | false => exact Or.inl (by simp [Build.reachesLoader, doCompile, htee, hall, hkeepAll])
    | true =>
      cases hitb : b.makeItb.ok with
      | false =>
        exact Or.inl
          (by simp [Build.reachesLoader, doCompile, htee, hall, hitb, hkeepItb, hkeepAll])
      | true =>
        exact Or.inr ⟨by simp [Build.reachesLoader, htee, hall, hitb], _,
          hkeepItb.trans hkeepAll, by simp [doCompile, htee, hall, hitb]⟩

/-- One build leaves the loader that was there, or its own contribution. -/
theorem build_idbloader (b : Build) (t : Tree) :
    (build mkimage t b).1.idbloader = t.idbloader.or (b.contribution mkimage) := by
  have hfst : (build mkimage t b).1 = (doCompile mkimage b t).1 := rfl
  rw [hfst, Build.contribution]
  rcases doCompile_cases mkimage b t with ⟨hr, -, hi⟩ | ⟨hr, made, hmade, hrun⟩
  · simp [hi, hr]
  · rw [hrun, ← hmade]
    rcases buildIdbloader_cases mkimage b made with ⟨hsome, hkeep⟩ | ⟨hnone, -, himage⟩
    · obtain ⟨image, himage⟩ := Option.ne_none_iff_exists'.mp hsome
      simp [hkeep, himage]
    · simp [himage, hnone, hr]

/-- A sequence of builds leaves the loader that was there, or the first contribution. -/
theorem builds_idbloader (bs : List Build) (t : Tree) :
    (builds mkimage t bs).idbloader =
      t.idbloader.or (bs.findSome? (Build.contribution mkimage)) := by
  induction bs generalizing t with
  | nil => simp [builds]
  | cons b bs ih =>
    have hstep : builds mkimage t (b :: bs) = builds mkimage (build mkimage t b).1 bs := rfl
    rw [hstep, ih, build_idbloader, List.findSome?_cons]
    cases t.idbloader <;> cases b.contribution mkimage <;> simp

/-- The first contribution is the image of the first blobs. -/
theorem findSome?_contribution (bs : List Build) :
    bs.findSome? (Build.contribution mkimage) = (firstBlobs bs).map mkimage.uncurry := by
  induction bs with
  | nil => rfl
  | cons b bs ih =>
    rw [firstBlobs, List.findSome?_cons, List.findSome?_cons, ih, firstBlobs]
    cases hr : b.reachesLoader <;> cases hb : b.blobs <;>
      simp [Build.contribution, Build.loader, hr, hb]

/-- A build ships exactly when it reaches the guard and there is a loader then, and it ships the
first loader of the work directory. -/
theorem build_ships (t : Unpacked) (bs : List Build) (b : Build) {d : Deploy}
    (hd : (build mkimage (builds mkimage t.toTree bs) b).2 = some d) :
    b.reachesLoader = true ∧ d.idbloader = (firstBlobs (bs ++ [b])).map mkimage.uncurry := by
  have hfirst : (build mkimage (builds mkimage t.toTree bs) b).1.idbloader =
      (firstBlobs (bs ++ [b])).map mkimage.uncurry := by
    have hsnoc :
        (build mkimage (builds mkimage t.toTree bs) b).1 = builds mkimage t.toTree (bs ++ [b]) := by
      simp [builds]
    rw [hsnoc, builds_idbloader, t.fresh, findSome?_contribution]
    simp
  have hok : (doCompile mkimage b (builds mkimage t.toTree bs)).2 = true := by
    by_contra hne
    simp [build, hne] at hd
  have hship : d = doDeploy (build mkimage (builds mkimage t.toTree bs) b).1 := by
    simp only [build, hok, if_true, Option.some.injEq] at hd ⊢
    exact hd.symm
  refine ⟨?_, by rw [hship, ← hfirst]; rfl⟩
  rcases doCompile_cases mkimage b (builds mkimage t.toTree bs) with ⟨-, hf, -⟩ | ⟨hr, -⟩
  · simp [hf] at hok
  · exact hr

/-- A build that reaches the guard ships, if some build up to it found its blobs. -/
theorem build_ships_of_reaches (t : Unpacked) (bs : List Build) (b : Build)
    (hr : b.reachesLoader = true) (hsome : firstBlobs (bs ++ [b]) ≠ none) :
    ∃ d, (build mkimage (builds mkimage t.toTree bs) b).2 = some d := by
  have hidb : (builds mkimage t.toTree bs).idbloader = (firstBlobs bs).map mkimage.uncurry := by
    rw [builds_idbloader, t.fresh, findSome?_contribution]; simp
  have hok : (doCompile mkimage b (builds mkimage t.toTree bs)).2 = true := by
    rcases doCompile_cases mkimage b (builds mkimage t.toTree bs) with
      ⟨hf, -⟩ | ⟨-, made, hmade, hrun⟩
    · simp [hf] at hr
    rw [hrun]
    rcases buildIdbloader_cases mkimage b made with ⟨-, hkeep⟩ | ⟨hnone, hok, -⟩
    · rw [hkeep]
    · have hbs : firstBlobs bs = none := by simpa [hmade, hidb] using hnone
      have hlast : firstBlobs (bs ++ [b]) = b.blobs := by
        unfold firstBlobs at hbs ⊢
        rw [List.findSome?_append, hbs]
        simp [hr]
      rw [hok, Build.loader, Option.isSome_map, ← hlast]
      exact Option.isSome_iff_ne_none.mpr hsome
  exact ⟨doDeploy (doCompile mkimage b (builds mkimage t.toTree bs)).1, by simp [build, hok]⟩

/-- In a work directory that was unpacked once, a build ships the loader made from its own blobs,
whatever `mkimage` is, exactly when it stops early or names the blobs of the first build that made
a loader. -/
theorem shipsOwnLoader_iff (t : Unpacked) (bs : List Build) (b : Build) :
    (∀ mkimage, ShipsOwnLoader mkimage t.toTree bs b) ↔
      (b.reachesLoader = true → b.blobs = firstBlobs (bs ++ [b])) := by
  constructor
  · intro h hr
    cases hfirst : firstBlobs (bs ++ [b]) with
    | none =>
      have := List.findSome?_eq_none_iff.mp hfirst b (by simp)
      simpa [hr] using this
    | some p =>
      -- an image that tells the first blobs from all others
      let probe : MkImage := fun x y => if (x, y) = p then [1] else [0]
      obtain ⟨d, hd⟩ := build_ships_of_reaches probe t bs b hr (by simp [hfirst])
      have hown := h probe d hd
      have hshipped := (build_ships probe t bs b hd).2
      rw [hshipped, hfirst, Build.loader] at hown
      cases hblobs : b.blobs with
      | none => simp [hblobs] at hown
      | some q =>
        have hprobe : ∀ x, probe.uncurry x = if x = p then [1] else [0] := fun _ => rfl
        have hq : [1] = (if q = p then [1] else [0] : Bytes) := by
          simpa only [hblobs, Option.map_some, hprobe, if_true, Option.some.injEq] using hown
        by_cases hqp : q = p
        · rw [hqp]
        · simp [hqp] at hq
  · intro h mkimage d hd
    obtain ⟨hr, hshipped⟩ := build_ships mkimage t bs b hd
    rw [hshipped, Build.loader, h hr]

/-- A clean build ships its own loader. -/
theorem clean_shipsOwnLoader (t : Unpacked) (b : Build) :
    ShipsOwnLoader mkimage t.toTree [] b := by
  intro d hd
  obtain ⟨hr, hshipped⟩ := build_ships mkimage t [] b hd
  rw [hshipped, Build.loader]
  simp [firstBlobs, hr]

/-- A build of the recipe whose two blobs both have the content `blob`. -/
def blobBuild (blob : Bytes) : Build where
  rkbinDdr := "bin/rv11/rv1106_ddr_924MHz_v1.15.bin"
  rkbinSpl := "bin/rv11/rv1106_spl_v1.02.bin"
  rkbin _ := some blob
  teeRaw := some []
  makeAll := ⟨id, true, fun _ => rfl⟩
  makeItb := ⟨id, true, fun _ => rfl⟩

/-- A source tree just unpacked. -/
def emptyTree : Unpacked := ⟨⟨none, none, none, none, none, none⟩, rfl⟩

/-- After a build with old blobs, a build with new blobs ships the loader of the old ones. -/
theorem blobBuild_ships_stale :
    (build (· ++ ·) (builds (· ++ ·) emptyTree.toTree [blobBuild [1]]) (blobBuild [2])).2.map
      Deploy.idbloader = some (some [1, 1]) ∧
    (blobBuild [2]).loader (· ++ ·) = some [2, 2] ∧
    ¬ ShipsOwnLoader (· ++ ·) emptyTree.toTree [blobBuild [1]] (blobBuild [2]) := by
  refine ⟨rfl, rfl, fun h => ?_⟩
  have hown := h _ rfl
  exact absurd hown (by decide)

end UBoot
