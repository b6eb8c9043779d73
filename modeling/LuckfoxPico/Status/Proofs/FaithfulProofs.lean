import LuckfoxPico.Status.Proofs.PageProofs
import LuckfoxPico.Text.Fields

/-!
# Proofs: faithful status pages

awk prints the first word of the SSID, and a word of the line above it if the name of the interface
makes that line match as well. Neither can be longer than the SSID and still be shown as the SSID,
so the page shows the SSID exactly when awk and the browser leave it as it is.
-/

namespace Status

open Str Html Fields

variable {v : Values} {refs : References} {link : Link} {c : Char}

/-! ## The lines of `iw` -/

theorem not_infix_bssid (link : Link) : ¬ "SSID".toList <:+: link.bssid := by
  intro h
  have hmem : 'S' ∈ link.bssid := h.subset (by decide)
  exact absurd (link.hex 'S' hmem) (by decide)

/-- Only the name of the interface can bring the word into the first line. -/
theorem infix_connected_iff (link : Link) (wifiIf : Str) :
    "SSID".toList <:+: "Connected to ".toList ++ link.bssid ++ " (on ".toList ++ wifiIf ++ ")".toList ↔
      "SSID".toList <:+: wifiIf := by
  have hline : "Connected to ".toList ++ link.bssid ++ " (on ".toList ++ wifiIf ++ ")".toList =
      "Connected to".toList ++
        ' ' :: (link.bssid ++ ' ' :: ("(on".toList ++ ' ' :: (wifiIf ++ [')']))) := by
    simp
  have hbehind : ¬ "SSID".toList <:+: "Connected to".toList := by decide
  have hon : ¬ "SSID".toList <:+: "(on".toList := by decide
  have hend : ¬ "SSID".toList <:+: [] := by decide
  rw [hline, infix_append_cons_iff (by decide), infix_append_cons_iff (by decide),
    infix_append_cons_iff (by decide), infix_append_cons_iff (by decide)]
  simp only [hbehind, not_infix_bssid link, hon, hend, false_or, or_false]

theorem infix_ssidLine (ssid : Str) : "SSID".toList <:+: "\tSSID: ".toList ++ ssid :=
  ⟨['\t'], [':', ' '] ++ ssid, by simp⟩

theorem field_connected (r : Str) :
    field Clk.awkBlank 1 ("Connected to ".toList ++ r) = "to".toList := by
  simp [field, fieldFrom, skipField, Clk.awkBlank]

theorem field_ssidLine (ssid : Str) :
    field Clk.awkBlank 1 ("\tSSID: ".toList ++ ssid) = field Clk.awkBlank 0 ssid := by
  simp [field, fieldFrom, skipField, Clk.awkBlank]

/-- awk prints the first word of the SSID. -/
theorem awkSsid_lines (link : Link) (wifiIf : Str) : awkSsid (link.lines wifiIf) =
    (if "SSID".toList <:+: wifiIf then "to\n".toList else []) ++
      (field Clk.awkBlank 0 link.ssid ++ ['\n']) := by
  have hrest : link.rest.filter (fun l => decide ("SSID".toList <:+: l)) = [] := by
    rw [List.filter_eq_nil_iff]
    intro l hl
    rw [decide_eq_true_eq]
    exact link.noSsid l hl
  unfold awkSsid Link.lines
  simp only [List.filter_cons, hrest, decide_eq_true_eq, infix_connected_iff,
    infix_ssidLine, if_true]
  split
  · simp only [List.flatMap_cons, List.flatMap_nil, List.append_assoc, field_connected,
      field_ssidLine]
    simp
  · simp only [List.flatMap_cons, List.flatMap_nil, field_ssidLine, List.append_nil,
      List.nil_append]

/-! ## The SSID in the page -/

/-- The only blank in an SSID is a space. -/
theorem awkBlank_of_printable (hc : c ∈ link.ssid) : Clk.awkBlank c = decide (c = ' ') := by
  obtain ⟨hlow, -⟩ := link.printable c hc
  have htab : c ≠ '\t' := by
    rintro rfl
    exact absurd hlow (by decide)
  have hnewline : c ≠ '\n' := by
    rintro rfl
    exact absurd hlow (by decide)
  simp [Clk.awkBlank, htab, hnewline]

theorem newline_not_mem_ssid (link : Link) : '\n' ∉ link.ssid := by
  intro hmem
  exact absurd (link.printable '\n' hmem).1 (by decide)

theorem wifiSsid_of_link (hlink : v.link = some link) :
    v.wifiSsid = substitution (awkSsid (link.lines v.wifiIf)) := by
  unfold Values.wifiSsid
  rw [hlink]

/-- The script takes the first word of the SSID. -/
theorem wifiSsid_eq (hlink : v.link = some link) (hif : ¬ "SSID".toList <:+: v.wifiIf) :
    v.wifiSsid = field Clk.awkBlank 0 link.ssid := by
  rw [wifiSsid_of_link hlink, awkSsid_lines, if_neg hif, List.nil_append]
  exact substitution_line (not_mem_field (by decide) 0)

/-- Two lines match, and the word of the first one comes first. -/
theorem wifiSsid_of_infix (hlink : v.link = some link) (hif : "SSID".toList <:+: v.wifiIf) :
    v.wifiSsid = "to".toList ∧ field Clk.awkBlank 0 link.ssid = [] ∨
    v.wifiSsid = "to\n".toList ++ field Clk.awkBlank 0 link.ssid := by
  have hword : '\n' ∉ field Clk.awkBlank 0 link.ssid := not_mem_field (by decide) 0
  rw [wifiSsid_of_link hlink, awkSsid_lines, if_pos hif]
  by_cases hnil : field Clk.awkBlank 0 link.ssid = []
  · refine Or.inl ⟨?_, hnil⟩
    rw [hnil]
    rfl
  · exact Or.inr (substitution_append hword hnil)

/-- A word that is shown for the SSID is a word of the SSID. -/
theorem field_of_decode {w : Str} (hamp : '&' ∉ w) (hword : field Clk.awkBlank 0 w = w)
    (h : refs.decode w = link.ssid) : field Clk.awkBlank 0 link.ssid = w := by
  rw [← h, References.decode_of_not_mem hamp]
  exact hword

/-- The page never shows the SSID if the name of the interface makes the other line match. -/
theorem decode_ne_of_infix (hlink : v.link = some link) (hif : "SSID".toList <:+: v.wifiIf) :
    refs.decode v.shownSsid ≠ link.ssid := by
  intro h
  rcases wifiSsid_of_infix hlink hif with ⟨hto, hnil⟩ | hlines
  · have hshown : v.shownSsid = "to".toList := by rw [Values.shownSsid, hto]; rfl
    rw [hshown] at h
    have hword := field_of_decode (by decide) (by decide) h
    exact absurd (hword.symm.trans hnil) (by decide)
  · have hshown : v.shownSsid = "to\n".toList ++ field Clk.awkBlank 0 link.ssid := by
      rw [Values.shownSsid, hlines]
      rfl
    rw [hshown, References.decode_append_of_not_mem (by decide)] at h
    -- The newline behind the word is no character of an SSID.
    refine newline_not_mem_ssid link ?_
    rw [← h]
    exact List.mem_append_left _ (by decide)

theorem shownSsid_of_plain (hlink : v.link = some link) (h : Plain refs v link) :
    v.shownSsid = link.ssid := by
  have hblank : ∀ c ∈ link.ssid, Clk.awkBlank c = false := by
    intro c hc
    rw [awkBlank_of_printable hc, decide_eq_false_iff_not]
    rintro rfl
    exact h.noBlank hc
  rw [Values.shownSsid, wifiSsid_eq hlink h.interface, field_eq_self hblank, orDefault,
    if_neg h.ssid_ne]

/-- A browser shows the SSID exactly when awk and the browser leave it as it is. -/
theorem decode_shownSsid_iff (hlink : v.link = some link) :
    refs.decode v.shownSsid = link.ssid ↔ Plain refs v link := by
  constructor
  · intro h
    have hif : ¬ "SSID".toList <:+: v.wifiIf := fun hif => decode_ne_of_infix hlink hif h
    have hword := wifiSsid_eq hlink hif
    have hne : field Clk.awkBlank 0 link.ssid ≠ [] := by
      intro hnil
      have hshown : v.shownSsid = na := by rw [Values.shownSsid, hword, hnil]; rfl
      rw [hshown] at h
      have hna := field_of_decode (by decide) (by decide) h
      exact absurd (hna.symm.trans hnil) (by decide)
    have hshown : v.shownSsid = field Clk.awkBlank 0 link.ssid := by
      rw [Values.shownSsid, hword, orDefault, if_neg hne]
    rw [hshown] at h
    -- Neither awk nor the browser has made the SSID shorter.
    have hlength : link.ssid.length ≤ (field Clk.awkBlank 0 link.ssid).length := by
      have hle := References.length_decode_le refs (field Clk.awkBlank 0 link.ssid)
      rwa [h] at hle
    have hself : field Clk.awkBlank 0 link.ssid = link.ssid :=
      field_zero_sublist.eq_of_length_le hlength
    rw [hself] at h hne
    refine ⟨hne, ?_, References.decode_eq_self_iff.mp h, hif⟩
    rw [← hself]
    exact not_mem_field (by decide) 0
  · intro h
    rw [shownSsid_of_plain hlink h]
    exact References.decode_eq_self_iff.mpr h.noReference

/-! ## Faithful pages -/

theorem tokenize_page_iff (v : Values) :
    tokenize (page v) = tokens (document v) ++ [.char '\n'] ↔ Safe (document v) := by
  have hend : run .data ['\n'] = [.char '\n'] := rfl
  rw [tokenize, page, run_render_iff (proper_document v)]
  exact and_iff_left hend

/-- The page is faithful exactly when the values in it are harmless. -/
theorem page_faithful_iff (refs : References) (v : Values) : Faithful refs v ↔ Harmless refs v := by
  constructor
  · rintro ⟨hmarkup, hssid⟩
    obtain ⟨⟨htexts, hpct⟩, hinert⟩ := (safe_document v).mp ((tokenize_page_iff v).mp hmarkup)
    refine ⟨htexts, hpct, fun hif link hlink => ?_⟩
    have hplain := (decode_shownSsid_iff hlink).mp (hssid hif link hlink)
    refine ⟨?_, hplain⟩
    rw [← shownSsid_of_plain hlink hplain]
    exact hinert hif
  · rintro ⟨htexts, hpct, hssid⟩
    refine ⟨(tokenize_page_iff v).mpr ((safe_document v).mpr ⟨⟨htexts, hpct⟩, fun hif => ?_⟩),
      fun hif link hlink => (decode_shownSsid_iff hlink).mpr (hssid hif link hlink).2⟩
    cases hlink : v.link with
    | none =>
      have hnone : v.wifiSsid = [] := by
        unfold Values.wifiSsid
        rw [hlink]
      rw [Values.shownSsid, hnone]
      exact inert_of_not_mem (by decide)
    | some link =>
      obtain ⟨hinert, hplain⟩ := hssid hif link hlink
      rw [shownSsid_of_plain hlink hplain]
      exact hinert

/-- A board that has joined a network. -/
def joined (ssid : Str) (printable : ssid.all (fun c => ' ' ≤ c ∧ c ≤ '~') = true) : Values where
  hostname := "luckfox".toList
  model := "Luckfox Pico Ultra W".toList
  uptime := "up 5 minutes".toList
  kernel := "5.10.160".toList
  nproc := "1".toList
  load := "0.08 0.02 0.01".toList
  temp := "41.2".toList
  scalingCurFreq := []
  clkSummary := some "1200".toList
  memTotal := 220
  memTotal_pos := by decide
  memAvail := 180
  cmaTotal := "66".toList
  cmaFree := "40".toList
  ipAddr := "192.168.1.7/24".toList
  macAddr := "aa:bb:cc:dd:ee:ff".toList
  linkSpeed := "100".toList
  linkState := "up".toList
  wifiIf := "wlan0".toList
  wifiIp := "192.168.1.8/24".toList
  link := some
    { bssid := "12:34:56:78:9a:bc".toList
      ssid := ssid
      rest := ["\tfreq: 2412".toList]
      hex := List.all_eq_true.mp (by decide)
      printable := fun c hc => of_decide_eq_true (List.all_eq_true.mp printable c hc)
      noSsid := by decide }
  wifiState := "up".toList
  rootDev := "/dev/mmcblk0p7".toList
  rootOnMmc := true
  hasBoot0 := true
  mmcSize := "7.3 GB".toList
  emmcLifeA := "0%".toList
  diskUsed := "120".toList
  diskTotal := "900".toList
  diskPct := "14".toList
  hasRknpu := true
  npuVersion := "0.9.2".toList
  npuVersionLine := []
  npuVersionProc := []
  hasLed := true
  ledTrig := "heartbeat".toList
  ledBright := "0".toList
  touchDev := []
  touchName := []
  displayMode := "720x720".toList
  displayStatus := "connected".toList
  fbSize := "720,720".toList

/-- The page shows the first word for an SSID of two words, and an SSID with a tag brings the tag
into the page. -/
theorem joined_not_faithful :
    ((joined "My Net".toList (by decide)).shownSsid = "My".toList ∧
      ¬ ∃ refs, Faithful refs (joined "My Net".toList (by decide))) ∧
    ¬ ∃ refs, Faithful refs (joined "<b>Net".toList (by decide)) := by
  refine ⟨⟨by decide, ?_⟩, ?_⟩
  · rintro ⟨refs, hfaithful⟩
    have hssid := hfaithful.ssid (by decide) _ rfl
    exact absurd ((decode_shownSsid_iff rfl).mp hssid).noBlank (by decide)
  · rintro ⟨refs, hfaithful⟩
    have hsafe := (tokenize_page_iff _).mp hfaithful.markup
    have hinert := ((safe_document _).mp hsafe).2 (by decide)
    have hopens := hinert [] 'b' ">Net".toList (by decide)
    exact absurd hopens (by decide)

end Status
