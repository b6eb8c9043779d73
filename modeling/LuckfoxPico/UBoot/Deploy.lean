import Mathlib.Data.List.Basic

/-!
# Building and shipping the boot loaders (`do_compile`, `do_deploy` of the U-Boot recipe)

The build directory `B` is the source tree `S`, which a rebuild does not unpack again, so what one
build leaves in it is what the next one starts from. `do_deploy` starts from an empty `DEPLOYDIR`
and installs what it finds in `B`.

The U-Boot makefiles are not part of the layer. A build carries what its two `oe_runmake` calls do
to the tree and whether they succeed; neither creates or removes `idbloader.img`.
-/

namespace UBoot

/-- The content of a file. -/
abbrev Bytes := List UInt8

/-- The files of `B` that `do_compile` and `do_deploy` touch: `tee.bin`, `idbloader.img`,
`u-boot.itb`, `u-boot.img`, `u-boot-dtb.bin` and `spl/u-boot-spl.bin`. -/
structure Tree where
  tee : Option Bytes
  idbloader : Option Bytes
  ubootItb : Option Bytes
  ubootImg : Option Bytes
  ubootDtb : Option Bytes
  ubootSpl : Option Bytes

/-- A tree as `do_unpack` leaves it: no build has made a first-stage loader yet. -/
structure Unpacked extends Tree where
  fresh : idbloader = none

/-- One `oe_runmake` call: its effect on the tree and its exit status. No target of the U-Boot
makefiles makes or removes the merged first-stage loader. -/
structure Make where
  run : Tree → Tree
  ok : Bool
  keeps : ∀ t, (run t).idbloader = t.idbloader

/-- What one execution of the two tasks finds: `RKBIN_DDR` and `RKBIN_SPL`, the files under
`WORKDIR/rkbin` that they may name, the OP-TEE image in the sysroot, and the two `oe_runmake`
calls. -/
structure Build where
  rkbinDdr : String
  rkbinSpl : String
  rkbin : String → Option Bytes
  teeRaw : Option Bytes
  makeAll : Make
  makeItb : Make

/-- The blobs that the recipe's variables name. -/
def Build.blobs (b : Build) : Option (Bytes × Bytes) := do
  let ddr ← b.rkbin b.rkbinDdr
  let spl ← b.rkbin b.rkbinSpl
  return (ddr, spl)

/-- `mkimage -n rv1106 -T rksd -d ddr:spl`. -/
abbrev MkImage := Bytes → Bytes → Bytes

/-- The first-stage loader that `mkimage` produces from the blobs of a build. -/
def Build.loader (mkimage : MkImage) (b : Build) : Option Bytes := b.blobs.map mkimage.uncurry

/-- The end of `do_compile`: "Build idbloader.img manually if the Makefile didn't." -/
def buildIdbloader (mkimage : MkImage) (b : Build) (t : Tree) : Tree × Bool :=
  if t.idbloader.isNone then
    match b.loader mkimage with
    | some image => ({ t with idbloader := some image }, true)
    | none => (t, false)
  else (t, true)

/-- `do_compile`: the tree it leaves, and whether it succeeded. The task stops at the first command
that fails. -/
def doCompile (mkimage : MkImage) (b : Build) (t : Tree) : Tree × Bool :=
  match b.teeRaw with
  | none => (t, false)
  | some tee =>
    let t := b.makeAll.run { t with tee := some tee }
    if !b.makeAll.ok then (t, false) else
    let t := b.makeItb.run t
    if !b.makeItb.ok then (t, false) else
    buildIdbloader mkimage b t

/-- What `do_deploy` leaves in `DEPLOYDIR`. -/
structure Deploy where
  idbloader : Option Bytes
  ubootImg : Option Bytes
  ubootDtb : Option Bytes
  ubootSpl : Option Bytes

/-- `do_deploy`: every install is conditional on the file being there, and the FIT with OP-TEE is
shipped in place of `u-boot.img` when it is. -/
def doDeploy (t : Tree) : Deploy where
  idbloader := t.idbloader
  ubootImg := if t.ubootItb.isSome then t.ubootItb else t.ubootImg
  ubootDtb := t.ubootDtb
  ubootSpl := t.ubootSpl

/-- One build: the tree it leaves, and what it ships if both tasks succeed. -/
def build (mkimage : MkImage) (t : Tree) (b : Build) : Tree × Option Deploy :=
  let (t, ok) := doCompile mkimage b t
  (t, if ok then some (doDeploy t) else none)

/-- The tree after a sequence of builds in one work directory. -/
def builds (mkimage : MkImage) (t : Tree) (bs : List Build) : Tree :=
  bs.foldl (fun t b => (build mkimage t b).1) t

/-- After the builds `bs`, a build `b` ships the first-stage loader made from its own blobs. -/
def ShipsOwnLoader (mkimage : MkImage) (t : Tree) (bs : List Build) (b : Build) : Prop :=
  ∀ d, (build mkimage (builds mkimage t bs) b).2 = some d → d.idbloader = b.loader mkimage

/-- The build gets past the two `oe_runmake` calls. -/
def Build.reachesLoader (b : Build) : Bool := b.teeRaw.isSome && b.makeAll.ok && b.makeItb.ok

/-- The blobs of the first build that gets as far as `mkimage` and finds them. -/
def firstBlobs (bs : List Build) : Option (Bytes × Bytes) :=
  bs.findSome? fun b => if b.reachesLoader then b.blobs else none

end UBoot
