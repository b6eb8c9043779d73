import LuckfoxPico.Touch.Scans
import LuckfoxPico.Scan.FirstMatch
import LuckfoxPico.Text.Proofs.StrProofs

/-!
# Proofs: the two scans for the touch controller

Both programs see the same names, so each accepts the devices whose name carries one of its marks,
and the demo's marks are a part of the page's. What is left is the order: the demo takes the first
match of the listing, the page the first one in sorted order.
-/

namespace Touch

open Scan Str

theorem namePath_injective : Function.Injective namePath := by
  intro d e h
  have h' := List.append_cancel_right h
  exact List.append_cancel_left h'

theorem nodePath_injective : Function.Injective nodePath := fun _ _ h => List.append_cancel_left h

theorem namePath_length (d : Str) : (namePath d).length = 17 + d.length + 12 := by
  have hdir : inputClassDir.length = 17 := by decide
  have hfile : deviceName.length = 12 := by decide
  rw [namePath, List.length_append, List.length_append, hdir, hfile]

theorem nodePath_length (d : Str) : (nodePath d).length = 11 + d.length := by
  have hdir : devInputDir.length = 11 := by decide
  rw [nodePath, List.length_append, hdir]

/-- No mark holds a newline. -/
theorem newline_not_mem_marks : ∀ m ∈ statusMarks, '\n' ∉ m := by decide

theorem demoMarks_subset : demoMarks ⊆ statusMarks := by decide

theorem mentions_iff {marks : List Str} {s : Str} :
    mentions marks s = true ↔ ∃ m ∈ marks, m <:+: s := by
  simp [mentions]

namespace InputClass

variable (s : InputClass) {d : Str}

/-- What both programs make of the name file of a device: nothing, or its one line. -/
theorem name_cases (hd : d ∈ s.listing) :
    s.read (namePath d) = none ∨ ∃ name, s.read (namePath d) = some (name ++ ['\n']) ∧
      '\n' ∉ name ∧ name.length < 63 := by
  cases hread : s.read (namePath d) with
  | none => exact Or.inl rfl
  | some content =>
    obtain ⟨name, rfl, hname⟩ := s.oneLine d hd content hread
    exact Or.inr ⟨name, rfl, hname⟩

theorem statusAccepts_iff (hd : d ∈ s.listing) :
    statusAccepts s.read d = true ↔ s.Carries statusMarks d := by
  rw [statusAccepts, Carries, Bool.and_eq_true]
  refine and_congr_right fun _ => ?_
  rcases s.name_cases hd with hnone | ⟨name, hsome, hline, -⟩
  · simp [hnone]
  · simp only [hsome, substitution_line hline, mentions_iff, Option.some.injEq,
      List.append_cancel_right_eq]
    exact ⟨fun h => ⟨name, rfl, h⟩, fun ⟨_, h, hm⟩ => h ▸ hm⟩

theorem demoAccepts_iff (hd : d ∈ s.listing) :
    demoAccepts s.read d = true ↔ s.Carries demoMarks d := by
  rw [demoAccepts, Carries, Bool.and_eq_true]
  refine and_congr_right fun hevent => ?_
  have hpath : snprintf 128 (namePath d) = namePath d := by
    refine snprintf_of_lt ?_
    have hshort := s.short d hd hevent
    have hlen := namePath_length d
    omega
  rw [hpath]
  rcases s.name_cases hd with hnone | ⟨name, hsome, hline, hlen⟩
  · simp [hnone]
  · have hread : (fgets 64 (name ++ ['\n'])).1 = name ++ ['\n'] := by
      rw [fgets_line [] hline (by omega)]
    have hinfix : (∃ m ∈ demoMarks, m <:+: name ++ ['\n']) ↔ ∃ m ∈ demoMarks, m <:+: name :=
      exists_congr fun m => and_congr_right fun hm =>
        infix_concat_newline (newline_not_mem_marks m (demoMarks_subset hm))
    simp only [hsome, hread, mentions_iff, hinfix, Option.some.injEq, List.append_cancel_right_eq]
    exact ⟨fun h => ⟨name, rfl, h⟩, fun ⟨_, h, hm⟩ => h ▸ hm⟩

/-- What the demo accepts, the status page accepts. -/
theorem statusAccepts_of_demoAccepts (hd : d ∈ s.listing) (h : demoAccepts s.read d = true) :
    statusAccepts s.read d = true := by
  obtain ⟨hevent, name, hname, m, hm, hinfix⟩ := (s.demoAccepts_iff hd).mp h
  exact (s.statusAccepts_iff hd).mpr ⟨hevent, name, hname, m, demoMarks_subset hm, hinfix⟩

/-- A node path of an event device fits the buffer of `find_touch_device`. -/
theorem snprintf_nodePath (hd : d ∈ s.listing) (hevent : isEvent d = true) :
    snprintf 64 (nodePath d) = nodePath d := by
  refine snprintf_of_lt ?_
  have hshort := s.short d hd hevent
  have hlen := nodePath_length d
  omega

/-- The two programs select the same device exactly when the two scans find the same match. -/
theorem sameDevice_iff {listing : List Str} (hperm : listing.Perm s.listing) :
    SameDevice s.read listing ↔
      firstListed (demoAccepts s.read) listing = touchDev s.read listing := by
  have hnode : ∀ e, firstListed (demoAccepts s.read) listing = some e →
      findMatch s.read listing = some (nodePath e) := by
    intro e he
    have hmem := hperm.mem_iff.mp (List.mem_of_find?_eq_some he)
    have hevent := ((s.demoAccepts_iff hmem).mp (List.find?_some he)).1
    rw [findMatch, he, Option.map_some, s.snprintf_nodePath hmem hevent]
  constructor
  · rintro ⟨hsame, hfall⟩
    cases hlisted : firstListed (demoAccepts s.read) listing with
    | none => exact (hfall (by rw [findMatch, hlisted]; rfl)).symm
    | some e =>
      have hmem := List.mem_of_find?_eq_some hlisted
      cases hsorted : touchDev s.read listing with
      | none =>
        have hall := firstSorted_eq_none_iff.mp hsorted e hmem
        exact absurd (s.statusAccepts_of_demoAccepts (hperm.mem_iff.mp hmem)
          (List.find?_some hlisted)) hall
      | some d =>
        have hpath := hsame d hsorted
        rw [findTouchDevice, hnode e hlisted, Option.getD_some] at hpath
        rw [nodePath_injective hpath]
  · intro heq
    refine ⟨fun d hd => ?_, fun hnone => ?_⟩
    · rw [findTouchDevice, hnode d (heq.trans hd), Option.getD_some]
    · rw [← heq]
      exact Option.map_eq_none_iff.mp hnone

end InputClass

/-- The demo and the status page select the same device for every order of the directory exactly
when the devices are unambiguous. -/
theorem sameDevice_forall_iff (s : InputClass) :
    (∀ listing, listing.Perm s.listing → SameDevice s.read listing) ↔ s.Unambiguous := by
  have hscans : (∀ listing, listing.Perm s.listing → SameDevice s.read listing) ↔
      ∀ listing, listing.Perm s.listing →
        firstListed (demoAccepts s.read) listing =
          firstSorted namePath (statusAccepts s.read) listing :=
    forall₂_congr fun _ hperm => s.sameDevice_iff hperm
  rw [hscans, agree_iff namePath_injective fun d hd h => s.statusAccepts_of_demoAccepts hd h]
  refine and_congr ?_ ?_
  · refine forall₂_congr fun d hd => forall₂_congr fun e he => ?_
    rw [s.demoAccepts_iff hd, s.demoAccepts_iff he]
  · refine forall₂_congr fun d hd => ?_
    rw [s.statusAccepts_iff hd, s.demoAccepts_iff hd]
    refine imp_congr_right fun _ => imp_congr ?_ Iff.rfl
    exact forall₂_congr fun e he => by rw [s.statusAccepts_iff he]

/-- An input class with one device, `event1`, whose driver registered the name `goodix-ts`. -/
def lowerCase : InputClass where
  listing := ["event1".toList]
  read _ := some "goodix-ts\n".toList
  short := by decide
  oneLine := by
    intro _ _ content h
    exact ⟨"goodix-ts".toList, (Option.some.inj h).symm, by decide, by decide⟩

/-- The status page reports `event1`; the demo falls back to `event0`. -/
theorem lowerCase_differs : touchDev lowerCase.read lowerCase.listing = some "event1".toList ∧
    findTouchDevice lowerCase.read (some lowerCase.listing) = "/dev/input/event0".toList ∧
    ¬ SameDevice lowerCase.read lowerCase.listing := by
  have hreports : touchDev lowerCase.read lowerCase.listing = some "event1".toList := by decide
  have hfalls : findMatch lowerCase.read lowerCase.listing = none := by decide
  refine ⟨hreports, by rw [findTouchDevice, hfalls]; rfl, fun h => ?_⟩
  rw [h.2 hfalls] at hreports
  cases hreports

end Touch
