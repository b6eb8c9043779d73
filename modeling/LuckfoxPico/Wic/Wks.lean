import LuckfoxPico.Layout.Extents

/-!
# The eMMC image layout (`wic/luckfox-rv1106-emmc.wks`)

The four `part` lines of the kickstart file, in order, and the extents wic gives them. Positions
and lengths are in 512-byte sectors.
-/

namespace Wic

open Layout

/-- Bytes in a sector. -/
def sectorSize : Nat := 512

/-- The sector wic reserves in front of the first entry for the partition table. -/
def mbrOverhead : Nat := 1

/-- A size in KiB, in sectors. -/
def kib (n : Nat) : Nat := n * 1024 / sectorSize

/-- A size in MiB, in sectors. -/
def mib (n : Nat) : Nat := kib (n * 1024)

/-- A size in bytes, rounded up to sectors. -/
def sectorsOf (bytes : Nat) : Nat := (bytes + sectorSize - 1) / sectorSize

/-- The files that `rawcopy` entries name: `idbloader.img` and `u-boot.img`. -/
inductive RawImage where
  | idbloader
  | uboot
deriving DecidableEq, Repr

/-- Where a partition's content comes from (`--source`): a file as it is, a file system with the
boot files, or one with the image's root directory. -/
inductive Source where
  | rawcopy (file : RawImage)
  | bootimgPartition
  | rootfs
deriving DecidableEq, Repr

/-- A `part` line, with the options that decide the layout: `--source`, `--align` in KiB and
`--size`, a minimum in MiB. -/
structure Part where
  source : Source
  align : Nat
  size : Nat := 0
  align_pos : 0 < align := by decide

/-- The `part` lines of the kickstart file. -/
def luckfoxWks : List Part := [
  { source := .rawcopy .idbloader, align := 32 },
  { source := .rawcopy .uboot, align := 8192 },
  { source := .bootimgPartition, align := 16384, size := 64 },
  { source := .rootfs, align := 24576 }]

/-- What one build puts on the medium: the sizes in bytes of the deployed files and of the two
file systems. -/
structure Build where
  file : RawImage → Nat
  boot : Nat
  rootfs : Nat

/-- The bytes a source puts on the medium. -/
def Build.bytes (b : Build) : Source → Nat
  | .rawcopy f => b.file f
  | .bootimgPartition => b.boot
  | .rootfs => b.rootfs

/-- The item a `part` line asks for: its content rounded up to sectors, but not less than its
`--size`. -/
def Part.item (b : Build) (p : Part) : Item where
  align := kib p.align
  length := max (mib p.size) (sectorsOf (b.bytes p.source))
  align_pos := by have := p.align_pos; simp only [kib, sectorSize]; omega

/-- The extents of a kickstart file's entries. -/
def layout (b : Build) (ps : List Part) : List Extent := placeAll mbrOverhead (ps.map (Part.item b))

/-- The build respects the limits the layout leaves to the two raw images and to the boot
payload. -/
structure Build.Fits (b : Build) : Prop where
  idbloader : b.file .idbloader ≤ (8192 - 32) * 1024
  uboot : b.file .uboot ≤ 8192 * 1024
  boot : b.boot ≤ 64 * 1024 * 1024

/-- The start sectors that the kickstart file's header and the README document, in the order of
the entries. -/
def documentedStarts : List Nat := [0x40, 0x4000, 0x8000, 0xC000]

/-- The layout is the documented one: pairwise disjoint extents at the documented sectors. -/
def Documented (es : List Extent) : Prop :=
  es.Pairwise Extent.Disjoint ∧ es.map Extent.start = documentedStarts

end Wic
