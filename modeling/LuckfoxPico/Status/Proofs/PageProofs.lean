import LuckfoxPico.Html.Proofs.DocumentProofs
import LuckfoxPico.Html.Proofs.ReferencesProofs
import LuckfoxPico.Status.Page
import LuckfoxPico.Text.Proofs.StrProofs

/-!
# Proofs: the status page

The texts and attribute values of the here-documents are safe exactly when the values in them are.
awk and the browser give back the SSIDs without blanks and references.
-/

namespace Status

open Str Html Fields

variable {v : Values} {refs : References} {doc : List Node}

/-! ## The shape of the document -/

theorem proper_stat (label : String) (value : Str) : Proper (stat label value) := ⟨rfl, rfl⟩

theorem proper_bar (pct : Str) : Proper (bar pct) := ⟨rfl, rfl⟩

theorem proper_button (v : Values) (trigger label : String) : Proper (button v trigger label) :=
  ⟨rfl, rfl⟩

theorem proper_nil : Proper [] := ⟨rfl, rfl⟩

theorem proper_card {body : List Node} (title : Str) (h : Proper body) :
    Proper (card title body) := by
  refine Proper.append (Proper.append ?_ h) ?_
  · exact ⟨rfl, rfl⟩
  · exact ⟨rfl, rfl⟩

theorem proper_ledCard (v : Values) : Proper (ledCard v) := by
  unfold ledCard
  split
  · refine proper_card _ (.append (.append (.append (.append (.append ?_ ?_) ?_) ?_) ?_) ?_)
    · exact (proper_stat _ _).append (proper_stat _ _)
    · exact ⟨rfl, rfl⟩
    · exact proper_button _ _ _
    · exact proper_button _ _ _
    · exact proper_button _ _ _
    · exact ⟨rfl, rfl⟩
  · exact proper_nil

theorem proper_document (v : Values) : Proper (document v) := by
  have hstats : ∀ {doc : List Node} {label : String} {value : Str}, Proper doc →
      Proper (doc ++ stat label value) := fun h => h.append (proper_stat _ _)
  have hbar : ∀ {doc : List Node} {pct : Str}, Proper doc → Proper (doc ++ bar pct) :=
    fun h => h.append (proper_bar _)
  have hhead : Proper (head v) := ⟨rfl, rfl⟩
  have hsystem : Proper (systemCard v) :=
    proper_card _ (hstats (hstats (hstats (hstats (hstats (proper_stat _ _))))))
  have hmemory : Proper (memoryCard v) :=
    proper_card _ (hstats (hstats (hbar (proper_stat _ _))))
  have hnetwork : Proper (networkCard v) :=
    proper_card _ (hstats (hstats (hstats (proper_stat _ _))))
  have hwifi : Proper (wifiCard v) := by
    unfold wifiCard
    split
    · exact proper_nil
    · exact proper_card _ (hstats (hstats (proper_stat _ _)))
  have hstorage : Proper (storageCard v) :=
    proper_card _ (hstats (hbar (hstats (hstats (proper_stat _ _)))))
  have hdisplay : Proper (displayCard v) := proper_card _ (hstats (hstats (proper_stat _ _)))
  have hnpu : Proper (npuCard v) := proper_card _ (hstats (proper_stat _ _))
  have htouch : Proper (touchCard v) := by
    unfold touchCard
    split
    · exact proper_nil
    · exact proper_card _ (hstats (proper_stat _ _))
  have hfoot : Proper foot := ⟨rfl, rfl⟩
  exact (((((((((hhead.append hsystem).append hmemory).append hnetwork).append hwifi).append
    hstorage).append hdisplay).append hnpu).append (proper_ledCard v)).append htouch).append hfoot

/-! ## Values in texts -/

theorem inert_orDefault {d : Str} (hd : '<' ∉ d) (s : Str) : Inert (orDefault s d) ↔ Inert s := by
  unfold orDefault
  split
  · next hs =>
    subst hs
    exact ⟨fun _ => noPair_nil, fun _ => inert_of_not_mem hd⟩
  · exact Iff.rfl

/-- A value with another one for the case that it is empty. -/
theorem inert_orDefault_iff (s d : Str) : Inert (orDefault s d) ↔ Inert s ∧ (s = [] → Inert d) := by
  unfold orDefault
  split
  · next hs =>
    subst hs
    exact ⟨fun hd => ⟨noPair_nil, fun _ => hd⟩, fun h => h.2 rfl⟩
  · next hs => exact ⟨fun h => ⟨h, fun heq => absurd heq hs⟩, fun h => h.1⟩

theorem forall_fallbacks {P : Str → Prop} (s : Str) (others : List Str) :
    (∀ t ∈ fallbacks s others, P t) ↔ P s ∧ (s = [] → ∀ t ∈ others, P t) := by
  unfold fallbacks
  rw [List.forall_mem_cons]
  split
  · next hs => exact and_congr_right fun _ => ⟨fun h _ => h, fun h => h hs⟩
  · next hs => exact and_congr_right fun _ =>
      ⟨fun _ heq => absurd heq hs, fun _ t ht => absurd ht List.not_mem_nil⟩

theorem not_opens_of_any {t : Str} (h : t.head?.any opens = false) :
    ∀ d ∈ t.head?, opens d = false := by
  intro d hd
  rw [Option.mem_def] at hd
  rwa [hd] at h

/-- A value in front of a text that starts like no markup. -/
theorem inert_value {s t : Str} (ht : '<' ∉ t) (hhead : t.head?.any opens = false) :
    Inert (s ++ t) ↔ Inert s := by
  rw [inert_append_iff (not_opens_of_any hhead)]
  exact and_iff_left (inert_of_not_mem ht)

/-- A value behind a text without markup. -/
theorem inert_behind {s t : Str} (ht : '<' ∉ t) : Inert (t ++ s) ↔ Inert s := noPair_behind_iff ht

/-- Two values with a text between them. -/
theorem inert_pair {s s' t t' : Str} (ht : '<' ∉ t) (hhead : t.head?.any opens = false)
    (ht' : '<' ∉ t') (hhead' : t'.head?.any opens = false) (hne : t ≠ []) :
    Inert (s ++ t ++ s' ++ t') ↔ Inert s ∧ Inert s' := by
  have hhead'' : ∀ d ∈ (t ++ s').head?, opens d = false := by
    obtain ⟨c, t, rfl⟩ := List.exists_cons_of_ne_nil hne
    exact not_opens_of_any hhead
  rw [inert_value ht' hhead', List.append_assoc, inert_append_iff hhead'', inert_behind ht]

theorem decimal_chars (n : Int) : ∀ c ∈ decimal n, c = '-' ∨ c.isDigit = true := by
  have hdigits : ∀ c ∈ Nat.toDigits 10 n.natAbs, c.isDigit = true := fun c hc =>
    Nat.isDigit_of_mem_toDigits (by decide) (by decide) hc
  intro c hc
  unfold decimal at hc
  split at hc
  · rcases List.mem_cons.mp hc with hc | hc
    · exact Or.inl hc
    · exact Or.inr (hdigits c hc)
  · exact Or.inr (hdigits c hc)

theorem not_mem_decimal {c : Char} (hc : c ≠ '-' ∧ c.isDigit = false) (n : Int) :
    c ∉ decimal n := by
  intro hmem
  rcases decimal_chars n c hmem with h | h
  · exact hc.1 h
  · exact absurd (hc.2.symm.trans h) (by decide)

/-! ## Safe parts of a card -/

theorem inert_blank : Inert "\n    ".toList := inert_of_not_mem (by decide)

theorem safe_stat {label : String} (hlabel : '<' ∉ label.toList) (value : Str) :
    Safe (stat label value) ↔ Inert value := by
  have hstat : (Node.start div [cls "stat"]).Safe := safe_start rfl
  have hlab : (Node.start span [cls "label"]).Safe := safe_start rfl
  have hval : (Node.start span [cls "value"]).Safe := safe_start rfl
  simp only [stat, safe_cons, safe_nil, safe_text, safe_close, inert_blank, inert_of_not_mem hlabel,
    hstat, hlab, hval, true_and, and_true]

theorem safe_bar (pct : Str) : Safe (bar pct) ↔ '"' ∉ pct := by
  have hbar : (Node.start div [cls "bar"]).Safe := safe_start rfl
  have hfill :
      (Node.start div [cls "bar-fill", ("style".toList, "width:".toList ++ pct ++ ['%'])]).Safe ↔
      '"' ∉ pct := by
    have hcls : '"' ∉ (cls "bar-fill").2 := by decide
    have hwidth : '"' ∉ "width:".toList := by decide
    constructor
    · intro h hmem
      refine h _ (List.mem_cons_of_mem _ List.mem_cons_self) ?_
      exact List.mem_append_left _ (List.mem_append_right _ hmem)
    · intro h attr hattr
      rcases List.mem_cons.mp hattr with rfl | hattr
      · exact hcls
      · obtain rfl := List.mem_singleton.mp hattr
        intro hmem
        rcases List.mem_append.mp hmem with hmem | hmem
        · exact (List.mem_append.mp hmem).elim hwidth h
        · exact absurd hmem (by decide)
  simp only [bar, safe_cons, safe_nil, safe_text, safe_close, inert_blank, hbar, hfill, true_and,
    and_true]

theorem safe_button (v : Values) {trigger label : String} (htrigger : '"' ∉ trigger.toList)
    (hlabel : '<' ∉ label.toList) : Safe (button v trigger label) := by
  have hblank : Inert "\n      ".toList := inert_of_not_mem (by decide)
  have hclass : '"' ∉ (cls (v.btnClass trigger)).2 := by
    unfold Values.btnClass
    split <;> decide
  have hhref : '"' ∉ "/status.cgi?led=".toList ++ trigger.toList := by
    intro hmem
    rcases List.mem_append.mp hmem with hmem | hmem
    · exact absurd hmem (by decide)
    · exact htrigger hmem
  have hstart : (Node.start "a".toList [cls (v.btnClass trigger),
      ("href".toList, "/status.cgi?led=".toList ++ trigger.toList)]).Safe := by
    intro attr hattr
    rcases List.mem_cons.mp hattr with rfl | hattr
    · exact hclass
    · obtain rfl := List.mem_singleton.mp hattr
      exact hhref
  simp only [button, safe_cons, safe_nil, safe_text, safe_close, hblank, hstart,
    inert_of_not_mem hlabel, and_self]

theorem safe_card (title : Str) (body : List Node) :
    Safe (card title body) ↔ Inert title ∧ Safe body := by
  have hblank : Inert "\n  ".toList := inert_of_not_mem (by decide)
  have hcard : (Node.start div [cls "card"]).Safe := safe_start rfl
  have hh2 : (Node.start "h2".toList []).Safe := safe_start rfl
  simp only [card, safe_append, safe_cons, safe_nil, safe_text, safe_close, inert_blank, hblank, hcard,
    hh2, true_and, and_true]

/-- A card with a title of the script. -/
theorem safe_card_of_title {title : Str} (htitle : '<' ∉ title) (body : List Node) :
    Safe (card title body) ↔ Safe body := by
  rw [safe_card]
  exact and_iff_right (inert_of_not_mem htitle)

/-! ## Safe cards -/

theorem inert_cpuFreq (v : Values) :
    Inert v.cpuFreq ↔ ∀ s ∈ fallbacks v.scalingCurFreq v.clkSummary.toList, Inert s := by
  rw [forall_fallbacks]
  unfold Values.cpuFreq
  split
  · next hnil =>
    rw [hnil]
    cases v.clkSummary with
    | none => exact ⟨fun h => ⟨h, fun _ t ht => absurd ht List.not_mem_nil⟩, fun h => h.1⟩
    | some s =>
      exact ⟨fun h => ⟨noPair_nil, fun _ t ht => List.mem_singleton.mp ht ▸ h⟩,
        fun h => h.2 rfl s List.mem_cons_self⟩
  · next hne => exact ⟨fun h => ⟨h, fun heq => absurd heq hne⟩, fun h => h.1⟩

theorem safe_systemCard (v : Values) : Safe (systemCard v) ↔
    ∀ s ∈ [v.uptime, v.kernel, v.nproc] ++ fallbacks v.scalingCurFreq v.clkSummary.toList ++
      [v.load, v.temp], Inert s := by
  simp (disch := decide) only [systemCard, safe_card_of_title, safe_append, safe_stat, inert_value,
    inert_orDefault, inert_cpuFreq, List.forall_mem_append, List.forall_mem_cons, List.not_mem_nil,
    false_imp_iff, implies_true, and_true, and_assoc]

theorem safe_memoryCard (v : Values) : Safe (memoryCard v) ↔
    ∀ s ∈ [v.cmaTotal, v.cmaFree], Inert s := by
  have hused : Inert (decimal v.memUsed ++ " / ".toList ++ decimal v.memTotal ++ " MB".toList) := by
    rw [inert_pair (by decide) (by decide) (by decide) (by decide) (by decide)]
    exact ⟨inert_of_not_mem (not_mem_decimal (by decide) _),
      inert_of_not_mem (not_mem_decimal (by decide) _)⟩
  have hpct : '"' ∉ decimal v.memPct := not_mem_decimal (by decide) _
  have hstat : Safe (stat "Used / Total"
      (decimal v.memUsed ++ " / ".toList ++ decimal v.memTotal ++ " MB".toList)) :=
    (safe_stat (by decide) _).mpr hused
  simp (disch := decide) only [memoryCard, safe_card_of_title, safe_append, hstat, safe_bar, hpct,
    not_false_eq_true, safe_stat, inert_value, inert_orDefault, List.forall_mem_cons, List.not_mem_nil,
    false_imp_iff, implies_true, true_and, and_true]

theorem safe_networkCard (v : Values) : Safe (networkCard v) ↔
    ∀ s ∈ [v.linkState, v.ipAddr, v.macAddr, v.linkSpeed], Inert s := by
  simp (disch := decide) only [networkCard, safe_card_of_title, safe_append, safe_stat, inert_value,
    inert_orDefault, List.forall_mem_cons, List.not_mem_nil,
    false_imp_iff, implies_true, and_true, and_assoc]

theorem safe_wifiCard (v : Values) : Safe (wifiCard v) ↔
    (∀ s ∈ if v.wifiIf = [] then [] else [v.wifiIf, v.wifiState, v.wifiIp], Inert s) ∧
      (v.wifiIf ≠ [] → Inert v.shownSsid) := by
  unfold wifiCard
  split
  · next hnil =>
    exact ⟨fun _ => ⟨fun s hs => absurd hs List.not_mem_nil, fun hne => absurd hnil hne⟩,
      fun _ => safe_nil⟩
  · next hne =>
    rw [safe_card]
    simp (disch := decide) only [safe_append, safe_stat, inert_value, inert_behind, inert_orDefault,
      List.forall_mem_cons, List.not_mem_nil,
    false_imp_iff, implies_true, and_true, and_assoc, ne_eq, hne, not_false_eq_true,
      forall_const]

theorem safe_storageCard (v : Values) : Safe (storageCard v) ↔
    (∀ s ∈ [v.rootDev] ++ (if v.rootOnMmc then [v.mmcSize] else []) ++
      [v.diskUsed, v.diskTotal, v.emmcLifeA], Inert s) ∧ '"' ∉ v.diskPct := by
  have hmedia : Inert v.bootMedia := by
    unfold Values.bootMedia
    split
    · split <;> exact inert_of_not_mem (by decide)
    · exact inert_of_not_mem (by decide)
  have hsize : Inert v.emmcSize ↔ ∀ s ∈ if v.rootOnMmc then [v.mmcSize] else [], Inert s := by
    unfold Values.emmcSize
    split
    · exact List.forall_mem_singleton.symm
    · exact ⟨fun _ s hs => absurd hs List.not_mem_nil, fun _ => inert_of_not_mem (by decide)⟩
  simp (disch := decide) only [storageCard, safe_card_of_title, safe_append, safe_stat, hmedia,
    inert_pair, hsize, safe_bar, inert_orDefault, List.forall_mem_append, List.forall_mem_cons,
    List.not_mem_nil, false_imp_iff, implies_true, true_and, and_true]
  tauto

theorem safe_displayCard (v : Values) : Safe (displayCard v) ↔
    ∀ s ∈ [v.displayStatus, v.displayMode, v.fbSize], Inert s := by
  simp (disch := decide) only [displayCard, safe_card_of_title, safe_append, safe_stat, inert_behind,
    inert_orDefault, List.forall_mem_cons, List.not_mem_nil,
    false_imp_iff, implies_true, and_true, and_assoc]

theorem safe_npuCard (v : Values) : Safe (npuCard v) ↔
    ∀ s ∈ fallbacks v.npuVersion (fallbacks v.npuVersionLine [v.npuVersionProc]), Inert s := by
  have hpresent : Inert v.npuPresent := by
    unfold Values.npuPresent
    split <;> exact inert_of_not_mem (by decide)
  have hdrv : Inert v.npuDrv ↔ Inert v.npuVersion ∧ (v.npuVersion = [] → Inert v.npuVersionLine ∧
      (v.npuVersionLine = [] → Inert v.npuVersionProc)) := by
    unfold Values.npuDrv
    rw [inert_orDefault_iff, inert_orDefault_iff]
    unfold orDefault
    split <;> tauto
  simp (disch := decide) only [npuCard, safe_card_of_title, safe_append, safe_stat, hpresent,
    inert_orDefault, hdrv, forall_fallbacks, List.forall_mem_singleton, true_and]

theorem safe_ledCard (v : Values) : Safe (ledCard v) ↔
    ∀ s ∈ if v.hasLed then [v.ledTrig, v.ledBright] else [], Inert s := by
  unfold ledCard
  split
  · have hstart : (Node.start div [cls "stat", ("style".toList, "border:none".toList)]).Safe :=
      safe_start rfl
    have hbeat : Safe (button v "heartbeat" "Heartbeat") := safe_button v (by decide) (by decide)
    have hon : Safe (button v "default-on" "On") := safe_button v (by decide) (by decide)
    have hoff : Safe (button v "none" "Off") := safe_button v (by decide) (by decide)
    simp (disch := decide) only [safe_card_of_title, safe_append, safe_cons, safe_nil, safe_text,
      safe_close, inert_blank, hstart, hbeat, hon, hoff, safe_stat, inert_orDefault,
      List.forall_mem_cons, List.not_mem_nil, false_imp_iff, implies_true, and_true]
  · exact ⟨fun _ s hs => absurd hs List.not_mem_nil, fun _ => safe_nil⟩

theorem safe_touchCard (v : Values) : Safe (touchCard v) ↔
    ∀ s ∈ if v.touchDev = [] then [] else [v.touchDev, v.touchName], Inert s := by
  have hdev : Inert (dropStart "event/".toList v.touchDev) ↔ Inert v.touchDev := by
    unfold dropStart
    split
    · next hstart =>
      obtain ⟨w, hw⟩ := List.isPrefixOf_iff_prefix.mp hstart
      rw [← hw, List.drop_left, inert_behind (by decide)]
    · exact Iff.rfl
  unfold touchCard
  split
  · exact ⟨fun _ s hs => absurd hs List.not_mem_nil, fun _ => safe_nil⟩
  · simp (disch := decide) only [safe_card_of_title, safe_append, safe_stat, inert_behind, hdev,
      List.forall_mem_cons, List.not_mem_nil, false_imp_iff, implies_true, and_true]

theorem not_mem_css : '<' ∉ css := by
  have hlines : ∀ {ls : List Str}, (∀ l ∈ ls, '<' ∉ l) → '<' ∉ '\n' :: ls.flatMap (· ++ ['\n']) := by
    intro ls hls
    simpa using hls
  refine hlines ?_
  simp only [List.forall_mem_cons, List.mem_append, not_or]
  repeat' apply And.intro
  all_goals first
    | exact not_mem_toList rfl (by decide)
    | exact fun l hl => absurd hl List.not_mem_nil

theorem safe_head (v : Values) : Safe (head v) ↔ ∀ s ∈ [v.hostname, v.model], Inert s := by
  have hnewline : Inert ['\n'] := inert_of_not_mem (by decide)
  have hcss : RawInert "style".toList css := rawInert_of_inert (inert_of_not_mem not_mem_css) _
  have hcharset : (Node.start "meta".toList [("charset".toList, "utf-8".toList)]).Safe :=
    safe_start rfl
  have hviewport : (Node.start "meta".toList [("name".toList, "viewport".toList),
      ("content".toList, "width=device-width, initial-scale=1".toList)]).Safe := safe_start rfl
  have hrefresh : (Node.start "meta".toList [("http-equiv".toList, "refresh".toList),
      ("content".toList, "5".toList)]).Safe := safe_start rfl
  have hsubtitle : (Node.start "p".toList [cls "subtitle"]).Safe := safe_start rfl
  have hgrid : (Node.start div [cls "grid"]).Safe := safe_start rfl
  simp only [head, safe_cons, safe_nil, safe_doctype, safe_tag, safe_close, safe_text, safe_raw,
    hnewline,
    hcss, hcharset, hviewport, hrefresh, hsubtitle, hgrid, List.forall_mem_cons, List.not_mem_nil,
    false_imp_iff, implies_true, true_and, and_true]
  -- A hostname that is inert does not end the title.
  exact ⟨fun h => h.2, fun h => ⟨rawInert_of_inert h.1 _, h⟩⟩

theorem safe_foot : Safe foot := by
  have hnewline : Inert ['\n'] := inert_of_not_mem (by decide)
  simp only [foot, safe_cons, safe_nil, safe_close, safe_text, hnewline, and_true]

/-- The document is safe exactly when the values in it are. -/
theorem safe_document (v : Values) : Safe (document v) ↔
    ((∀ s ∈ v.shown, Inert s) ∧ '"' ∉ v.diskPct) ∧ (v.wifiIf ≠ [] → Inert v.shownSsid) := by
  unfold document Values.shown
  simp only [safe_append, safe_head, safe_systemCard, safe_memoryCard, safe_networkCard, safe_wifiCard,
    safe_storageCard, safe_displayCard, safe_npuCard, safe_ledCard, safe_touchCard, safe_foot, and_true]
  simp only [List.forall_mem_append]
  tauto

end Status
