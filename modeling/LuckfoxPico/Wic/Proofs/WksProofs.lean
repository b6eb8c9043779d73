import LuckfoxPico.Wic.Wks
import LuckfoxPico.Layout.Proofs.ExtentsProofs

/-!
# Proofs: the eMMC image layout

The first three entries start where they are documented for every build that respects the limits.
The root file system does not: the boot partition is at least 64 MiB long, so the first multiple of
24 MiB behind it is sector `0x30000` or later, never `0xC000`.
-/

namespace Wic

open Layout

/-- The layout of any kickstart file is pairwise disjoint. -/
theorem layout_pairwise (b : Build) (ps : List Part) : (layout b ps).Pairwise Extent.Disjoint :=
  placeAll_pairwise _ _

/-- The extents of the four entries, each given by the one before it. -/
theorem layout_luckfoxWks (b : Build) : ∃ e₁ e₂ e₃ e₄,
    layout b luckfoxWks = [e₁, e₂, e₃, e₄] ∧
    e₁ = ⟨0x40, sectorsOf (b.file .idbloader)⟩ ∧
    e₂ = ⟨alignUp e₁.stop 0x4000, sectorsOf (b.file .uboot)⟩ ∧
    e₃ = ⟨alignUp e₂.stop 0x8000, max 0x20000 (sectorsOf b.boot)⟩ ∧
    e₄ = ⟨alignUp e₃.stop 0xC000, sectorsOf b.rootfs⟩ := by
  have hfirst : alignUp mbrOverhead 64 = 64 := by decide
  refine ⟨_, _, _, _, rfl, ?_, ?_, ?_, ?_⟩
  · simp [Item.place, Part.item, mib, kib, sectorSize, Build.bytes, hfirst]
  · simp [Item.place, Part.item, mib, kib, sectorSize, Build.bytes]
  · simp [Item.place, Part.item, mib, kib, sectorSize, Build.bytes]
  · simp [Item.place, Part.item, mib, kib, sectorSize, Build.bytes]

/-- The first three entries start at the documented sectors for every build that fits. -/
theorem layout_starts {b : Build} (h : b.Fits) :
    ((layout b luckfoxWks).map Extent.start).take 3 = documentedStarts.take 3 := by
  obtain ⟨e₁, e₂, e₃, e₄, hl, h₁, h₂, h₃, h₄⟩ := layout_luckfoxWks b
  have hid := h.idbloader
  have hub := h.uboot
  have hs₂ : e₂.start = 0x4000 := by
    rw [h₂, h₁]
    refine alignUp_eq (by decide) (by decide) ?_ ?_ <;>
      simp only [Extent.stop, sectorsOf, sectorSize] <;> omega
  have hs₃ : e₃.start = 0x8000 := by
    rw [h₃]
    have hstop : e₂.stop = 0x4000 + sectorsOf (b.file .uboot) := by
      rw [Extent.stop, hs₂, h₂]
    refine alignUp_eq (by decide) (by decide) ?_ ?_ <;>
      rw [hstop] <;> simp only [sectorsOf, sectorSize] <;> omega
  simp [hl, h₁, hs₂, hs₃, documentedStarts]

/-- The root file system starts at sector `0x30000` (96 MiB) or later, whatever is built. -/
theorem rootfs_start_ge (b : Build) :
    ∀ e ∈ (layout b luckfoxWks).getLast?, 0x30000 ≤ e.start := by
  obtain ⟨e₁, e₂, e₃, e₄, hl, h₁, h₂, h₃, h₄⟩ := layout_luckfoxWks b
  have hstop₂ : 0x40 ≤ e₂.stop := by
    have hle : e₁.stop ≤ alignUp e₁.stop 0x4000 := le_alignUp _ (by decide)
    simp only [h₂, Extent.stop] at hle ⊢
    simp only [h₁] at hle ⊢
    omega
  have hstart₃ : 0x8000 ≤ e₃.start := by
    have hle : e₂.stop ≤ alignUp e₂.stop 0x8000 := le_alignUp _ (by decide)
    have hdvd : 0x8000 ∣ e₃.start := by rw [h₃]; exact alignUp_dvd _ _
    have hpos : 0 < e₃.start := by rw [h₃]; simp only; omega
    exact Nat.le_of_dvd hpos hdvd
  have hstop₃ : 0x28000 ≤ e₃.stop := by
    have hlen : e₃.length = max 0x20000 (sectorsOf b.boot) := by rw [h₃]
    rw [Extent.stop, hlen]
    omega
  have hstart₄ : 0x30000 ≤ e₄.start := by
    have hle : e₃.stop ≤ alignUp e₃.stop 0xC000 := le_alignUp _ (by decide)
    have hdvd : 0xC000 ∣ e₄.start := by rw [h₄]; exact alignUp_dvd _ _
    have hge : e₃.stop ≤ e₄.start := by rw [h₄]; exact hle
    obtain ⟨k, hk⟩ := hdvd
    omega
  simpa [hl] using hstart₄

/-- No build has the documented layout. -/
theorem luckfoxWks_not_documented (b : Build) : ¬ Documented (layout b luckfoxWks) := by
  rintro ⟨-, hstarts⟩
  obtain ⟨e₁, e₂, e₃, e₄, hl, -⟩ := layout_luckfoxWks b
  have hge := rootfs_start_ge b
  rw [hl] at hge hstarts
  simp only [List.map_cons, List.map_nil, documentedStarts, List.cons.injEq, and_true] at hstarts
  have := hge e₄ (by simp)
  omega

/-- A build with a 200 KiB loader, a 900 KiB U-Boot image, a 5 MiB boot payload and a 60 MiB root
file system. -/
def sampleBuild : Build where
  file
    | .idbloader => 200 * 1024
    | .uboot => 900 * 1024
  boot := 5 * 1024 * 1024
  rootfs := 60 * 1024 * 1024

/-- The sample build fits, and its root file system is laid out at sector `0x30000`. -/
theorem sampleBuild_rootfs_misplaced :
    sampleBuild.Fits ∧ (layout sampleBuild luckfoxWks).map Extent.start =
      [0x40, 0x4000, 0x8000, 0x30000] ∧ ¬ Documented (layout sampleBuild luckfoxWks) := by
  have hstarts : (layout sampleBuild luckfoxWks).map Extent.start =
      [0x40, 0x4000, 0x8000, 0x30000] := by decide
  refine ⟨⟨by decide, by decide, by decide⟩, hstarts, fun h => ?_⟩
  rw [h.2] at hstarts
  exact absurd hstarts (by decide)

end Wic
