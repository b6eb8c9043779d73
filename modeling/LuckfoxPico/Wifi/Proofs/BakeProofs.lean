import LuckfoxPico.Shell.Proofs.QuotesProofs
import LuckfoxPico.Text.Replace
import LuckfoxPico.Wifi.Bake

/-!
# Proofs: baking the WiFi credentials

The file is the one that is meant exactly for safe credentials. For the converse it is enough to
look at one host, whose parameters all hold a bar and whose sed leaves the text of an extension as
it is.
-/

namespace Wifi

open Str Shell Sed

variable {c : Credentials} {host : Host} {country ssid psk tok v out : Str}

/-! ## The lines of the template -/

/-- The lines of the template that hold no token. -/
def KeptLine (l : Str) : Prop := ∀ tok ∈ [countryTok, ssidTok, pskTok], ¬ tok <:+: l

/-- Every token starts with two at signs and a letter. -/
theorem keptLine_of_mark {l : Str} (h : ¬ ['@', '@', 'L'] <:+: l) : KeptLine l := by
  intro tok htok hinfix
  have hmark : ['@', '@', 'L'] <:+: tok := by
    simp only [List.mem_cons, List.not_mem_nil, or_false] at htok
    rcases htok with rfl | rfl | rfl
    · exact ⟨[], "UCKFOX_WIFI_COUNTRY@@".toList, rfl⟩
    · exact ⟨[], "UCKFOX_WIFI_SSID@@".toList, rfl⟩
    · exact ⟨[], "UCKFOX_WIFI_PSK@@".toList, rfl⟩
  exact h (hmark.trans hinfix)

/-- A key starts with a blank or with `co`. -/
theorem not_key_of_head {l : Str} (hblank : ¬ [' '] <+: l) (hco : ¬ ['c', 'o'] <+: l) :
    ∀ key ∈ [countryKey, ssidKey, pskKey], ¬ key <+: l := by
  intro key hkey hstart
  simp only [List.mem_cons, List.not_mem_nil, or_false] at hkey
  rcases hkey with rfl | rfl | rfl
  · exact hco (List.IsPrefix.trans ⟨"untry=".toList, rfl⟩ hstart)
  · exact hblank (List.IsPrefix.trans ⟨"   ssid=\"".toList, rfl⟩ hstart)
  · exact hblank (List.IsPrefix.trans ⟨"   psk=\"".toList, rfl⟩ hstart)

/-- No line in front of the country has a token or a key. -/
theorem templateHead_lines : ∀ l ∈ templateHead,
    KeptLine l ∧ ∀ key ∈ [countryKey, ssidKey, pskKey], ¬ key <+: l := by
  have hplain : ∀ {s : String} {l : Str}, s = String.ofList l → ¬ ['@', '@', 'L'] <:+: l →
      ¬ [' '] <+: l → ¬ ['c', 'o'] <+: l →
      KeptLine s.toList ∧ ∀ key ∈ [countryKey, ssidKey, pskKey], ¬ key <+: s.toList := by
    rintro s l rfl hmark hblank hco
    rw [String.toList_ofList]
    exact ⟨keptLine_of_mark hmark, not_key_of_head hblank hco⟩
  unfold templateHead
  repeat' refine List.forall_mem_cons.mpr ⟨?_, ?_⟩
  all_goals first
    | exact hplain rfl (by decide +kernel) (by decide) (by decide)
    | exact ⟨keptLine_of_mark (by decide), not_key_of_head (by decide) (by decide)⟩
    | exact fun l hl => absurd hl List.not_mem_nil

/-- The lines from the country on that hold no token. -/
def fixedLines : List Str :=
  [[], "network=\x7b".toList, "    key_mgmt=WPA-PSK".toList, "    scan_ssid=1".toList, "\x7d".toList]

theorem fixedLines_kept : ∀ l ∈ fixedLines, KeptLine l := by
  intro l hl
  refine keptLine_of_mark fun hmark => ?_
  have hat : '@' ∈ l := hmark.subset (by decide)
  simp only [fixedLines, List.mem_cons, List.not_mem_nil, or_false] at hl
  rcases hl with rfl | rfl | rfl | rfl | rfl
  · exact absurd hat List.not_mem_nil
  all_goals exact absurd hat (not_mem_toList rfl (by decide))

theorem mem_template {l : Str} (hl : l ∈ template) : KeptLine l ∨ l = countryKey ++ countryTok ∨
    l = ssidKey ++ ssidTok ++ ['"'] ∨ l = pskKey ++ pskTok ++ ['"'] := by
  rcases List.mem_append.mp hl with hl | hl
  · exact Or.inl (templateHead_lines l hl).1
  · simp only [List.mem_cons, List.not_mem_nil, or_false] at hl
    rcases hl with hl | rfl | rfl | hl | hl | rfl | rfl | rfl
    · exact Or.inr (Or.inl hl)
    · exact Or.inl (fixedLines_kept _ (by simp [fixedLines]))
    · exact Or.inl (fixedLines_kept _ (by simp [fixedLines]))
    · exact Or.inr (Or.inr (Or.inl hl))
    · exact Or.inr (Or.inr (Or.inr hl))
    · exact Or.inl (fixedLines_kept _ (by simp [fixedLines]))
    · exact Or.inl (fixedLines_kept _ (by simp [fixedLines]))
    · exact Or.inl (fixedLines_kept _ (by simp [fixedLines]))

theorem sedLine_of_kept {l : Str} (hl : KeptLine l) : sedLine country ssid psk l = l := by
  rw [sedLine, replaceAll_of_no_token (hl countryTok (by simp)),
    replaceAll_of_no_token (hl ssidTok (by simp)), replaceAll_of_no_token (hl pskTok (by simp))]

theorem replaceTokens_of_kept {l : Str} (hl : KeptLine l) : replaceTokens c.table l = l := by
  refine replaceTokens_of_no_token fun entry hentry => ?_
  simp only [Credentials.table, List.mem_cons, List.not_mem_nil, or_false] at hentry
  rcases hentry with rfl | rfl | rfl <;> exact hl _ (by simp)

/-- A key and a quote are passed over. -/
theorem replaceAll_keyed {key : Str} (hkey : '@' ∉ key) (htok : tok.head? = some '@') (s : Str) :
    replaceAll tok v (key ++ s) = key ++ replaceAll tok v s := by
  refine replaceAll_append_of_head_not_mem ?_ ?_ s
  · intro d hd
    rw [htok] at hd
    exact Option.some.inj hd ▸ hkey
  · rintro rfl
    exact absurd htok (by simp)

theorem sedLine_country : sedLine country ssid psk (countryKey ++ countryTok) =
    countryKey ++ replaceAll pskTok psk (replaceAll ssidTok ssid country) := by
  have htok : replaceAll countryTok country countryTok = country := by
    have happend : replaceAll countryTok country (countryTok ++ []) = country ++ [] :=
      replaceAll_append (by decide) []
    rw [List.append_nil] at happend
    exact happend.trans (List.append_nil country)
  rw [sedLine, replaceAll_keyed (by decide) rfl, htok, replaceAll_keyed (by decide) rfl,
    replaceAll_keyed (by decide) rfl]

theorem sedLine_ssid : sedLine country ssid psk (ssidKey ++ ssidTok ++ ['"']) =
    ssidKey ++ replaceAll pskTok psk ssid ++ ['"'] := by
  have hcountry : replaceAll countryTok country (ssidKey ++ ssidTok ++ ['"']) =
      ssidKey ++ ssidTok ++ ['"'] := replaceAll_of_no_token (by decide +kernel)
  rw [sedLine, hcountry, List.append_assoc, replaceAll_keyed (by decide) rfl,
    replaceAll_append (by decide), replaceAll_keyed (by decide) rfl]
  have hquote : replaceAll ssidTok ssid ['"'] = ['"'] := rfl
  rw [hquote, replaceAll_concat (by decide) (by decide), List.append_assoc]

theorem sedLine_psk : sedLine country ssid psk (pskKey ++ pskTok ++ ['"']) =
    pskKey ++ psk ++ ['"'] := by
  have hcountry : replaceAll countryTok country (pskKey ++ pskTok ++ ['"']) =
      pskKey ++ pskTok ++ ['"'] := replaceAll_of_no_token (by decide +kernel)
  have hssid : replaceAll ssidTok ssid (pskKey ++ pskTok ++ ['"']) =
      pskKey ++ pskTok ++ ['"'] := replaceAll_of_no_token (by decide +kernel)
  rw [sedLine, hcountry, hssid, List.append_assoc, replaceAll_keyed (by decide) rfl,
    replaceAll_append (by decide), List.append_assoc]
  rfl

/-- The same three lines with the tokens replaced at once. -/
theorem replaceTokens_keyed (c : Credentials) {key : Str} (hkey : '@' ∉ key) (hne : tok ≠ [])
    (hfind : (c.table.find? fun entry => entry.1.isPrefixOf (tok ++ out)) = some (tok, v)) :
    replaceTokens c.table (key ++ (tok ++ out)) = key ++ (v ++ replaceTokens c.table out) := by
  rw [replaceTokens_append_of_head_not_mem ?_ (tok ++ out), replaceTokens_append hne hfind]
  intro entry hentry
  refine ⟨'@', ?_, hkey⟩
  simp only [Credentials.table, List.mem_cons, List.not_mem_nil, or_false] at hentry
  rcases hentry with rfl | rfl | rfl <;> rfl

theorem replaceTokens_country :
    replaceTokens c.table (countryKey ++ countryTok) = countryKey ++ c.country := by
  have h : replaceTokens c.table (countryKey ++ (countryTok ++ [])) =
      countryKey ++ (c.country ++ []) := replaceTokens_keyed c (by decide) (by decide) rfl
  rwa [List.append_nil, List.append_nil] at h

theorem replaceTokens_ssid :
    replaceTokens c.table (ssidKey ++ ssidTok ++ ['"']) = ssidKey ++ c.ssid ++ ['"'] := by
  rw [List.append_assoc, replaceTokens_keyed c (by decide) (by decide) rfl, List.append_assoc]
  rfl

theorem replaceTokens_psk :
    replaceTokens c.table (pskKey ++ pskTok ++ ['"']) = pskKey ++ c.psk ++ ['"'] := by
  rw [List.append_assoc, replaceTokens_keyed c (by decide) (by decide) rfl, List.append_assoc]
  rfl

/-- The sequential commands write what is meant when they do so on the three lines. -/
theorem map_template
    (hcountry : replaceAll pskTok psk (replaceAll ssidTok ssid country) = c.country)
    (hssid : replaceAll pskTok psk ssid = c.ssid) (hpsk : psk = c.psk) :
    template.map (sedLine country ssid psk) = template.map (replaceTokens c.table) := by
  refine List.map_congr_left fun l hl => ?_
  rcases mem_template hl with hl | rfl | rfl | rfl
  · rw [sedLine_of_kept hl, replaceTokens_of_kept hl]
  · rw [sedLine_country, replaceTokens_country, hcountry]
  · rw [sedLine_ssid, replaceTokens_ssid, hssid]
  · rw [sedLine_psk, replaceTokens_psk, hpsk]

/-! ## Plain values -/

theorem plain_append (hv : Plain v) : '\\' ∉ v ++ ['|', 'g'] ∧ NoExpansion (v ++ ['|', 'g']) := by
  obtain ⟨hspecial, hexp⟩ := hv
  constructor
  · intro hmem
    rcases List.mem_append.mp hmem with hmem | hmem
    · exact hspecial _ hmem (by decide)
    · exact absurd hmem (by decide)
  · refine noExpansion_append ?_ ?_ hexp
    · exact noExpansion_cons.mpr ⟨by decide, noExpansion_cons.mpr ⟨by decide, noExpansion_nil⟩⟩
    · intro d hd
      obtain rfl : '|' = d := by simpa using hd
      decide

theorem expression_plain (hv : Plain v) : expression host tok v = .replace v := by
  obtain ⟨hescape, hexp⟩ := plain_append hv
  have hspecial : ∀ ch ∈ ['"', '`', '\\', '|', '&'], ch ∉ v := fun ch hch hmem => hv.1 ch hmem hch
  have hsplit : splitReplacement false (v ++ ['|', 'g']) = some (v, ['g']) :=
    splitReplacement_append (hspecial _ (by decide)) (hspecial _ (by decide)) _
  have hrep : replacement host.extension tok false v = some v :=
    replacement_plain (hspecial _ (by decide)) (hspecial _ (by decide))
  simp only [expression, command, dquote_plain hescape hexp, hsplit, hrep, if_true]

theorem bake_plain (hssid : Plain c.ssid) (hpsk : Plain c.psk) (hcountry : Plain c.country) :
    bake host c = some (template.map (sedLine c.country c.ssid c.psk)) := by
  have hcode : ∀ {v : Str} {atEnd : Bool}, Plain v → isCode atEnd .plain v = false := by
    intro v atEnd hv
    refine isCode_plain (fun ch hch hmem => hv.1 ch hch ?_) hv.2
    simp only [List.mem_cons, List.not_mem_nil, or_false] at hmem ⊢
    tauto
  have hvalue : ∀ {v : Str}, Plain v → dquote host.param .plain v = v := fun hv =>
    dquote_plain (fun hmem => hv.1 _ hmem (by decide)) hv.2
  rw [bake, hcode hssid, hcode hpsk, hcode hcountry, hvalue hssid, hvalue hpsk]
  simp only [Bool.or_self, Bool.false_eq_true, if_false, c.ssid_ne, c.psk_ne, decide_false,
    expression_plain hssid, expression_plain hpsk, expression_plain hcountry]

/-! ## Reading the file back -/

theorem quotedValue_eq {key : Str} (hkey : '"' ∉ key) (v : Str) :
    quotedValue (key ++ ['"'] ++ v ++ ['"']) = v := by
  have hdrop : (key ++ ['"'] ++ v ++ ['"']).dropWhile (· ≠ '"') = '"' :: (v ++ ['"']) := by
    rw [List.append_assoc, List.append_assoc, List.dropWhile_append_of_pos fun ch hch => by
      simpa using ne_of_mem_of_not_mem hch hkey]
    rfl
  rw [quotedValue, hdrop, List.tail_cons, List.rdropWhile_concat_neg _ _ _ (by decide),
    List.dropLast_concat]

/-- The file that is meant, from the country on. -/
def meantTail (c : Credentials) : List Str :=
  [countryKey ++ c.country, [], "network=\x7b".toList, ssidKey ++ c.ssid ++ ['"'],
    pskKey ++ c.psk ++ ['"'], "    key_mgmt=WPA-PSK".toList, "    scan_ssid=1".toList, "\x7d".toList]

theorem map_replaceTokens :
    template.map (replaceTokens c.table) = templateHead ++ meantTail c := by
  have hhead : templateHead.map (replaceTokens c.table) = templateHead := by
    have hid := List.map_congr_left fun l hl =>
      replaceTokens_of_kept (c := c) (templateHead_lines l hl).1
    rwa [List.map_id'] at hid
  have hfixed : ∀ l ∈ fixedLines, replaceTokens c.table l = l :=
    fun l hl => replaceTokens_of_kept (fixedLines_kept l hl)
  simp only [fixedLines, List.mem_cons, List.not_mem_nil, or_false, forall_eq_or_imp,
    forall_eq] at hfixed
  obtain ⟨hblank, hopen, hmgmt, hscan, hclose⟩ := hfixed
  rw [template, List.map_append, hhead, meantTail]
  simp only [List.map_cons, List.map_nil, replaceTokens_country, replaceTokens_ssid,
    replaceTokens_psk, hblank, hopen, hmgmt, hscan, hclose]

/-- Only the lines behind the head can start with a key. -/
theorem linesOf_map {key : Str} (hkey : key ∈ [countryKey, ssidKey, pskKey]) :
    linesOf key (template.map (replaceTokens c.table)) = linesOf key (meantTail c) := by
  have hhead : templateHead.filter key.isPrefixOf = [] := by
    refine List.filter_eq_nil_iff.mpr fun l hl => ?_
    rw [List.isPrefixOf_iff_prefix]
    exact (templateHead_lines l hl).2 key hkey
  rw [map_replaceTokens, linesOf, List.filter_append, hhead, List.nil_append, linesOf]

theorem linesOf_ssid :
    linesOf ssidKey (template.map (replaceTokens c.table)) = [ssidKey ++ c.ssid ++ ['"']] := by
  rw [linesOf_map (by simp)]
  rfl

theorem linesOf_psk :
    linesOf pskKey (template.map (replaceTokens c.table)) = [pskKey ++ c.psk ++ ['"']] := by
  rw [linesOf_map (by simp)]
  rfl

theorem linesOf_country :
    linesOf countryKey (template.map (replaceTokens c.table)) = [countryKey ++ c.country] := by
  rw [linesOf_map (by simp)]
  rfl

/-- The file of the sequential commands is faithful if it is the one of the replacement at once and
the inserted texts stay. -/
theorem faithful_of_eq
    (heq : template.map (sedLine country ssid psk) = template.map (replaceTokens c.table))
    (hunaltered : Unaltered host c) :
    Faithful host c (template.map (sedLine country ssid psk)) where
  literal := heq
  ssid := by
    have hkey : ssidKey = "    ssid=".toList ++ ['"'] := rfl
    rw [heq, linesOf_ssid, List.map_singleton, hkey, quotedValue_eq (by decide)]
  psk := by
    have hkey : pskKey = "    psk=".toList ++ ['"'] := rfl
    rw [heq, linesOf_psk, List.map_singleton, hkey, quotedValue_eq (by decide)]
  country := by
    rw [heq, linesOf_country, List.map_singleton, List.drop_left]
  others := by
    intro i l hl hkept
    have hline : KeptLine l := by
      simp only [Credentials.table, List.forall_mem_cons] at hkept
      simp only [KeptLine, List.forall_mem_cons]
      exact ⟨hkept.1, hkept.2.1, hkept.2.2.1, by simp⟩
    rw [List.getElem?_map, hl, Option.map_some, sedLine_of_kept hline]
  unaltered := hunaltered

/-- What the three commands insert stays as it is exactly when each value stays as it is under the
later commands. -/
theorem unaltered_iff
    (hcountry : expression host countryTok c.country = .replace country)
    (hssid : expression host ssidTok c.ssid = .replace ssid)
    (hpsk : expression host pskTok c.psk = .replace psk) :
    Unaltered host c ↔ replaceAll ssidTok ssid country = country ∧
      replaceAll pskTok psk country = country ∧ replaceAll pskTok psk ssid = ssid := by
  simp [Unaltered, Credentials.table, hcountry, hssid, hpsk, and_assoc]

/-! ## The host that tells the values apart -/

/-- Every parameter holds a bar, and sed's extensions leave the text as it is. -/
def barHost : Host where
  param _ := ['|']
  extension := keepExtension
  runCode _ := none

/-- What the command inserts is the value itself, if it has no fewer of the characters that are
special to sed; and then the value is plain. -/
theorem plain_of_count {atEnd : Bool} (hescape : '\\' ∉ tok) (hamp : '&' ∉ tok)
    (hcode : isCode atEnd .plain v = false) (hout : expression barHost tok v = .replace out)
    (hcount : ∀ ch ∈ ['\\', '&'], v.count ch ≤ out.count ch) : Plain v ∧ out = v := by
  obtain ⟨l, hsplit, hrep⟩ := of_command_eq_replace hout
  have hword := eq_of_splitReplacement hsplit
  have hbars : ∀ n, '|' ∈ barHost.param n := fun n => List.mem_singleton.mpr rfl
  have hslash : ∀ n, '\\' ∉ barHost.param n := fun n => by
    show '\\' ∉ ['|']
    decide
  -- A backslash of the replacement would be lost.
  have hle : l.count '\\' ≤ out.count '\\' := by
    have hshell := count_dquote_le hslash .plain (v ++ ['|', 'g'])
    have hv := hcount '\\' (by decide)
    rw [hword] at hshell
    simp only [List.count_append, Mode.pending] at hshell
    have hbar : ['|', 'g'].count '\\' = 0 := by decide
    omega
  have hl : '\\' ∉ l := by
    intro hmem
    have hlt := count_replacement_lt hescape hmem hrep
    omega
  have hv : '\\' ∉ v := by
    have hout := (count_replacement_le hescape hrep).trans_eq (List.count_eq_zero.mpr hl)
    have hcountv := (hcount '\\' (by decide)).trans hout
    exact List.count_eq_zero.mp (Nat.le_zero.mp hcountv)
  -- The replacement ends at the bar behind the value, so the value has no bar and no expansion.
  have hbar : '|' ∉ l := bar_not_mem_of_splitReplacement hl hsplit
  have hone : (dquote barHost.param .plain (v ++ ['|', 'g'])).count '|' = 1 := by
    rw [hword, List.count_append, List.count_eq_zero.mpr hbar]
    rfl
  have htext : (v ++ ['|', 'g']).count '|' = v.count '|' + 1 := List.count_append
  have hge := count_dquote_ge hbars .plain (v ++ ['|', 'g'])
  simp only [Mode.started, Nat.add_zero, hone, htext] at hge
  have hbarv : '|' ∉ v := List.count_eq_zero.mp (by omega)
  have hescape' : '\\' ∉ v ++ ['|', 'g'] := by
    rw [List.mem_append, not_or]
    exact ⟨hv, by decide⟩
  have hcode' : isCode atEnd .plain (v ++ ['|', 'g']) = false :=
    isCode_append (fun m => by cases m <;> rfl) hcode
  have hexp : NoExpansion (v ++ ['|', 'g']) :=
    (noExpansion_of_count hbars hescape').1 hcode' (by omega)
  have hlv : l = v := by
    rw [dquote_plain hescape' hexp] at hword
    exact (List.append_cancel_right hword).symm
  subst hlv
  have hampv : '&' ∉ l := by
    have hzero := List.count_eq_zero.mpr (amp_not_mem_of_replacement hl hamp hrep)
    exact List.count_eq_zero.mp (Nat.le_zero.mp ((hcount '&' (by decide)).trans_eq hzero))
  refine ⟨⟨fun ch hch hmem => ?_, fun u ch t ht => ?_⟩, ?_⟩
  · have hquotes := not_mem_of_isCode hl (by simp) hcode ch hch
    simp only [List.mem_cons, List.not_mem_nil, or_false, not_or] at hmem hquotes
    rcases hmem with hmem | hmem | rfl | rfl | rfl
    · exact hquotes.1 hmem
    · exact hquotes.2 hmem
    · exact hl hch
    · exact hbar hch
    · exact hampv hch
  · refine hexp u ch (t ++ ['|', 'g']) ?_
    rw [ht, List.append_assoc]
    rfl
  · rw [replacement_plain hl hampv] at hrep
    exact (Option.some.inj hrep).symm

/-! ## The file of that host -/

theorem bake_barHost {file : List Str} (h : bake barHost c = some file) (hne : file ≠ placeholder) :
    isCode true .plain c.ssid = false ∧ isCode true .plain c.psk = false ∧
      isCode false .plain c.country = false ∧ ∃ country ssid psk,
        expression barHost countryTok c.country = .replace country ∧
        expression barHost ssidTok c.ssid = .replace ssid ∧
        expression barHost pskTok c.psk = .replace psk ∧
        file = template.map (sedLine country ssid psk) := by
  rw [bake] at h
  split at h
  · exact absurd h (by simp [barHost])
  · next hcode =>
    simp only [Bool.not_eq_true, Bool.or_eq_false_iff] at hcode
    refine ⟨hcode.1.1, hcode.1.2, hcode.2, ?_⟩
    split at h
    · exact absurd (Option.some.inj h).symm hne
    · split at h
      · next country ssid psk hcountry hssid hpsk =>
        exact ⟨country, ssid, psk, hcountry, hssid, hpsk, (Option.some.inj h).symm⟩
      all_goals exact absurd h (by simp [barHost])

/-- A replacement with a plain text brings no special character back. -/
theorem count_replaceAll_plain (tok : Str) (hv : Plain v) {ch : Char} (hch : ch ∈ ['\\', '&'])
    (s : Str) :
    (replaceAll tok v s).count ch ≤ s.count ch := by
  refine count_replaceAll_le (fun hmem => hv.1 ch hmem ?_) s
  simp only [List.mem_cons, List.not_mem_nil, or_false] at hch ⊢
  tauto

theorem safe_of_baked (h : Baked barHost c) : Safe c := by
  obtain ⟨file, hbake, hfaithful⟩ := h
  have hne : file ≠ placeholder := by
    rintro rfl
    have hlength := congrArg List.length hfaithful.literal
    rw [List.length_map] at hlength
    exact absurd hlength (by decide)
  obtain ⟨hcodeSsid, hcodePsk, hcodeCountry, country, ssid, psk, hcountry, hssid, hpsk, rfl⟩ :=
    bake_barHost hbake hne
  have hline : ∀ l ∈ template, sedLine country ssid psk l = replaceTokens c.table l :=
    List.map_inj_left.mp hfaithful.literal
  have hpskLine := hline (pskKey ++ pskTok ++ ['"']) (by simp [template])
  have hssidLine := hline (ssidKey ++ ssidTok ++ ['"']) (by simp [template])
  have hcountryLine := hline (countryKey ++ countryTok) (by simp [template])
  rw [sedLine_psk, replaceTokens_psk] at hpskLine
  rw [sedLine_ssid, replaceTokens_ssid] at hssidLine
  rw [sedLine_country, replaceTokens_country] at hcountryLine
  have hpskEq := List.append_cancel_left (List.append_cancel_right hpskLine)
  have hssidEq := List.append_cancel_left (List.append_cancel_right hssidLine)
  have hcountryEq := List.append_cancel_left hcountryLine
  obtain ⟨hplainPsk, -⟩ := plain_of_count (by decide) (by decide) hcodePsk hpsk
    fun ch _ => hpskEq ▸ le_rfl
  subst hpskEq
  obtain ⟨hplainSsid, rfl⟩ := plain_of_count (by decide) (by decide) hcodeSsid hssid
    fun ch hch => by
      have hle := count_replaceAll_plain pskTok hplainPsk hch ssid
      rwa [hssidEq] at hle
  obtain ⟨hplainCountry, rfl⟩ := plain_of_count (by decide) (by decide) hcodeCountry hcountry
    fun ch hch => by
      have hle := (count_replaceAll_plain pskTok hplainPsk hch _).trans
        (count_replaceAll_plain ssidTok hplainSsid hch country)
      rwa [hcountryEq] at hle
  obtain ⟨hcountrySsid, hcountryPsk, hssidPsk⟩ :=
    (unaltered_iff hcountry hssid hpsk).mp hfaithful.unaltered
  exact ⟨hplainSsid, hplainPsk, hplainCountry, (replaceAll_eq_self_iff (by decide)).mp hssidPsk,
    (replaceAll_eq_self_iff (by decide)).mp hcountrySsid,
    (replaceAll_eq_self_iff (by decide)).mp hcountryPsk⟩

/-- Every host writes the file that is meant exactly when the credentials are safe. -/
theorem baked_iff (c : Credentials) : (∀ host, Baked host c) ↔ Safe c := by
  constructor
  · intro h
    exact safe_of_baked (h barHost)
  · intro h host
    have hcountrySsid : replaceAll ssidTok c.ssid c.country = c.country :=
      (replaceAll_eq_self_iff (by decide)).mpr h.country_ssid
    have hcountryPsk : replaceAll pskTok c.psk c.country = c.country :=
      (replaceAll_eq_self_iff (by decide)).mpr h.country_psk
    have hssidPsk : replaceAll pskTok c.psk c.ssid = c.ssid :=
      (replaceAll_eq_self_iff (by decide)).mpr h.ssid_psk
    refine ⟨_, bake_plain h.ssid h.psk h.country, faithful_of_eq ?_ ?_⟩
    · exact map_template (by rw [hcountrySsid, hcountryPsk]) hssidPsk rfl
    · exact (unaltered_iff (expression_plain h.country) (expression_plain h.ssid)
        (expression_plain h.psk)).mpr ⟨hcountrySsid, hcountryPsk, hssidPsk⟩

/-- A pass phrase with an ampersand. -/
def ampersandPsk : Credentials where
  ssid := "home".toList
  psk := "a&b".toList
  country := "IE".toList
  ssid_ne := by decide
  psk_ne := by decide
  oneLine := by decide

/-- Whatever the host, sed inserts the token for the ampersand. -/
theorem not_baked_ampersandPsk : ¬ ∃ host, Baked host ampersandPsk := by
  rintro ⟨host, file, hbake, hfaithful⟩
  have hfile : bake host ampersandPsk = some (template.map
      (sedLine "IE".toList "home".toList ("a".toList ++ pskTok ++ "b".toList))) := rfl
  obtain rfl := Option.some.inj (hfile.symm.trans hbake)
  have hline := List.map_inj_left.mp hfaithful.literal (pskKey ++ pskTok ++ ['"'])
    (by simp [template])
  rw [sedLine_psk, replaceTokens_psk] at hline
  have hpsk := List.append_cancel_left (List.append_cancel_right hline)
  exact absurd (congrArg List.length hpsk) (by decide)

end Wifi
