import LuckfoxPico.Html.Document
import LuckfoxPico.Html.Proofs.TokenizerProofs
import LuckfoxPico.Text.Proofs.StrProofs

/-!
# Proofs: documents that are written without escaping

A document is tokenized as it is meant exactly when its values are safe. Node by node, an unsafe
value makes the tokens differ at once: a token of markup, or of another tag, stands where a
character or the tag is meant.
-/

namespace Html

variable {c : Char} {s u name : Str} {ts : List Token} {t : Tag} {doc : List Node}

/-! ## Texts -/

theorem inert_cons : Inert (c :: s) ↔ (c = '<' → ∀ d ∈ s.head?, opens d = false) ∧ Inert s :=
  Str.noPair_cons

theorem inert_of_not_mem (h : '<' ∉ s) : Inert s := Str.noPair_of_not_mem h

theorem inert_append_iff (hhead : ∀ d ∈ u.head?, opens d = false) :
    Inert (s ++ u) ↔ Inert s ∧ Inert u := Str.noPair_append_iff hhead

/-- An inert text in front of a `<` is its characters. -/
theorem run_text (hs : Inert s) (hu : u.head? = some '<') :
    run .data (s ++ u) = s.map .char ++ run .data u := by
  induction s with
  | nil => rfl
  | cons c s ih =>
    obtain ⟨hhead, hrest⟩ := inert_cons.mp hs
    by_cases hc : c = '<'
    · subst hc
      have htext : opening (s ++ u) = .text := by
        cases s with
        | nil =>
          obtain ⟨u, rfl⟩ : ∃ x, u = '<' :: x := List.head?_eq_some_iff.mp hu
          exact opening_of_not_opens (by decide) u
        | cons d s => exact opening_of_not_opens (hhead rfl d rfl) (s ++ u)
      rw [List.cons_append, run_lt_of_text htext, ih hrest]
      rfl
    · rw [List.cons_append, run_data_of_ne hc, ih hrest]
      rfl

/-- A `/>` in front of a `<` is inside of the text. -/
theorem exists_of_append {r : Str} (hu : u.head? = some '<') (h : s ++ u = '/' :: '>' :: r) :
    ∃ s', s = '/' :: '>' :: s' ∧ r = s' ++ u := by
  obtain ⟨x, rfl⟩ : ∃ x, u = '<' :: x := List.head?_eq_some_iff.mp hu
  cases s with
  | nil => exact absurd (List.cons.inj h).1 (by decide)
  | cons c s =>
    obtain ⟨rfl, htail⟩ := List.cons.inj h
    cases s with
    | nil => exact absurd (List.cons.inj htail).1 (by decide)
    | cons d s =>
      obtain ⟨rfl, rfl⟩ := List.cons.inj htail
      exact ⟨s, rfl, rfl⟩

/-- A text yields no more characters than it has in front of markup. -/
theorem length_le_of_run {w : Str} (hu : u.head? = some '<')
    (hmarkup : ∀ c ts, run .data u ≠ .char c :: ts)
    (h : run .data (s ++ u) = w.map .char ++ ts) : w.length ≤ s.length := by
  induction hn : s.length using Nat.strong_induction_on generalizing s w with
  | _ n ih =>
    cases w with
    | nil => exact Nat.zero_le _
    | cons d w =>
      cases s with
      | nil => exact absurd h (hmarkup d _)
      | cons c s =>
        rw [List.length_cons] at hn
        have hrest : ∀ {e : Char}, run .data (c :: (s ++ u)) = .char e :: run .data (s ++ u) →
            (d :: w).length ≤ n := by
          intro e he
          have htail := (List.cons.inj (he.symm.trans h)).2
          have hle := ih s.length (by omega) htail rfl
          rw [List.length_cons]
          omega
        by_cases hc : c = '<'
        · subst hc
          by_cases htext : opening (s ++ u) = .text
          · exact hrest (run_lt_of_text htext)
          · rcases run_lt_of_ne htext with ⟨st, hst, hrun⟩ | ⟨r, hr, hrun⟩
            · exact absurd (hrun.symm.trans h) (run_inMarkup hst _ d _)
            · -- Three characters of the text are dropped.
              obtain ⟨s', rfl, rfl⟩ := exists_of_append hu hr
              simp only [List.length_cons] at hn
              have hle := ih s'.length (by omega) (hrun.symm.trans h) rfl
              omega
        · exact hrest (run_data_of_ne hc (s ++ u))

/-- A text in front of markup that yields its own characters is inert. -/
theorem run_text_iff (hu : u.head? = some '<') (hmarkup : ∀ c ts, run .data u ≠ .char c :: ts) :
    run .data (s ++ u) = s.map .char ++ ts ↔ Inert s ∧ run .data u = ts := by
  constructor
  · intro h
    induction s with
    | nil => exact ⟨Str.noPair_nil, h⟩
    | cons c s ih =>
      by_cases hc : c = '<'
      · subst hc
        by_cases htext : opening (s ++ u) = .text
        · have hrest := (List.cons.inj ((run_lt_of_text htext).symm.trans h)).2
          obtain ⟨hs, hts⟩ := ih hrest
          refine ⟨inert_cons.mpr ⟨fun _ d hd => ?_, hs⟩, hts⟩
          obtain ⟨s, rfl⟩ : ∃ x, s = d :: x := List.head?_eq_some_iff.mp hd
          refine opens_of_opening_text htext ?_
          intro hnil
          rw [(List.append_eq_nil_iff.mp hnil).2] at hu
          exact absurd hu (by simp)
        · rcases run_lt_of_ne htext with ⟨st, hst, hrun⟩ | ⟨r, hr, hrun⟩
          · exact absurd (hrun.symm.trans h) (run_inMarkup hst _ '<' _)
          · -- What is left of the text has too few characters.
            obtain ⟨s', rfl, rfl⟩ := exists_of_append hu hr
            have hle := length_le_of_run hu hmarkup (hrun.symm.trans h)
            simp only [List.length_cons] at hle
            omega
      · have hrest := (List.cons.inj ((run_data_of_ne hc (s ++ u)).symm.trans h)).2
        obtain ⟨hs, hts⟩ := ih hrest
        exact ⟨inert_cons.mpr ⟨fun heq => absurd heq hc, hs⟩, hts⟩
  · rintro ⟨hs, rfl⟩
    exact run_text hs hu

/-! ## Names -/

/-- The characters of names. -/
def nameChar (c : Char) : Bool := c.isLower || c.isDigit || c = '-'

theorem isAlpha_of_isLower (h : c.isLower = true) : c.isAlpha = true := by
  have halpha : c.isAlpha = (c.isUpper || c.isLower) := rfl
  rw [halpha, h, Bool.or_true]

theorem toLower_of_nameChar (h : nameChar c = true) : c.toLower = c := by
  unfold Char.toLower
  rw [dif_neg]
  rintro ⟨hlow, hhigh⟩
  have hlower :
      c.isLower = (decide (c.val ≥ ('a' : Char).val) && decide (c.val ≤ ('z' : Char).val)) := rfl
  simp only [nameChar, hlower, Char.isDigit, Bool.or_eq_true, Bool.and_eq_true,
    decide_eq_true_eq, ge_iff_le, UInt32.le_iff_toNat_le] at h hlow hhigh
  have hA : ('A' : Char).val.toNat = 65 := rfl
  have hZ : ('Z' : Char).val.toNat = 90 := rfl
  have ha : ('a' : Char).val.toNat = 97 := rfl
  have h9 : ('9' : Char).val.toNat = 57 := rfl
  rcases h with (h | h) | rfl
  · omega
  · omega
  · exact absurd hlow (by decide)

theorem nameChar_ne (h : nameChar c = true) :
    isSpace c = false ∧ c ≠ '/' ∧ c ≠ '>' ∧ c ≠ '=' ∧ c ≠ '<' := by
  have hne : ∀ {d : Char}, nameChar d = false → c ≠ d := by
    rintro d hd rfl
    exact absurd (hd.symm.trans h) (by decide)
  refine ⟨?_, hne (by decide), hne (by decide), hne (by decide), hne (by decide)⟩
  simp [isSpace, hne (show nameChar '\t' = false by decide),
    hne (show nameChar '\n' = false by decide), hne (show nameChar '\x0c' = false by decide),
    hne (show nameChar '\r' = false by decide), hne (show nameChar ' ' = false by decide)]

theorem nameChar_of_isName (h : isName name = true) : ∀ c ∈ name, nameChar c = true := by
  cases name with
  | nil => exact absurd h (by simp [isName])
  | cons c s =>
    simp only [isName, Bool.and_eq_true, List.all_eq_true] at h
    intro d hd
    rcases List.mem_cons.mp hd with rfl | hd
    · simp [nameChar, h.1]
    · simp [nameChar, h.2 d hd]

theorem nameChar_of_isAttrName (h : isAttrName name = true) :
    name ≠ [] ∧ ∀ c ∈ name, nameChar c = true := by
  simp only [isAttrName, Bool.and_eq_true, List.all_eq_true, decide_eq_true_eq] at h
  refine ⟨h.1, fun c hc => ?_⟩
  have hchar := h.2 c hc
  simp only [Bool.or_eq_true, decide_eq_true_eq] at hchar
  rcases hchar with hchar | hchar <;> simp [nameChar, hchar]

/-- A name is read into the tag. -/
theorem run_tagName (hname : ∀ c ∈ name, nameChar c = true) (t : Tag) (r : Str) :
    run (.tagName t) (name ++ r) = run (.tagName { t with name := t.name ++ name }) r := by
  induction name generalizing t with
  | nil => rw [List.append_nil]; rfl
  | cons c name ih =>
    have hc := hname c List.mem_cons_self
    obtain ⟨hspace, hslash, hclose, -⟩ := nameChar_ne hc
    have hstep : step (.tagName t) c (name ++ r) =
        ([], .tagName { t with name := t.name ++ [c] }) := by
      rw [step, toLower_of_nameChar hc]
      simp [hspace, hslash, hclose]
    rw [List.cons_append, run_cons, hstep, List.nil_append,
      ih fun d hd => hname d (List.mem_cons_of_mem _ hd)]
    simp

theorem run_attrName {n : Str} (hname : ∀ c ∈ n, nameChar c = true) (t : Tag) (k r : Str) :
    run (.attrName t k) (n ++ r) = run (.attrName t (k ++ n)) r := by
  induction n generalizing k with
  | nil => rw [List.append_nil]; rfl
  | cons c n ih =>
    have hc := hname c List.mem_cons_self
    obtain ⟨hspace, hslash, hclose, heq, -⟩ := nameChar_ne hc
    have hstep : step (.attrName t k) c (n ++ r) = ([], .attrName t (k ++ [c])) := by
      rw [step, toLower_of_nameChar hc]
      simp [hspace, hslash, hclose, heq]
    rw [List.cons_append, run_cons, hstep, List.nil_append,
      ih fun d hd => hname d (List.mem_cons_of_mem _ hd), List.append_assoc]
    rfl

/-- A quoted value is read up to the quote. -/
theorem run_attrValue {q : Char} {v : Str} (hv : q ∉ v) (t : Tag) (n w r : Str) :
    run (.attrValue (some q) t n w) (v ++ q :: r) = run (.betweenAttrs (t.add n (w ++ v))) r := by
  induction v generalizing w with
  | nil =>
    rw [List.nil_append, List.append_nil, run_cons, step, if_pos rfl]
    rfl
  | cons c v ih =>
    obtain ⟨hc, hv⟩ := List.ne_and_not_mem_of_not_mem_cons hv
    rw [List.cons_append, run_cons, step, if_neg (Ne.symm hc), List.nil_append, ih hv,
      List.append_assoc]
    rfl

/-- An attribute is read up to the first quote in its value. -/
theorem run_attr {n v : Str} (hn : isAttrName n = true) (hv : '"' ∉ v) (t : Tag) (r : Str) :
    run (.betweenAttrs t) (' ' :: (n ++ ['=', '"'] ++ v ++ '"' :: r)) =
      run (.betweenAttrs (t.add n v)) r := by
  obtain ⟨hne, hchars⟩ := nameChar_of_isAttrName hn
  obtain ⟨c, n, rfl⟩ := List.exists_cons_of_ne_nil hne
  have hc := hchars c List.mem_cons_self
  obtain ⟨hspace, hslash, hclose, -⟩ := nameChar_ne hc
  have hblank : run (.betweenAttrs t) (' ' :: (c :: n ++ ['=', '"'] ++ v ++ '"' :: r)) =
      run (.betweenAttrs t) (c :: (n ++ ['=', '"'] ++ v ++ '"' :: r)) := rfl
  have hfirst : step (.betweenAttrs t) c (n ++ ['=', '"'] ++ v ++ '"' :: r) =
      ([], .attrName t [c]) := by
    rw [step, stepBetween, toLower_of_nameChar hc]
    simp [hspace, hslash, hclose]
  rw [hblank, run_cons, hfirst, List.nil_append, List.append_assoc, List.append_assoc,
    run_attrName (fun d hd => hchars d (List.mem_cons_of_mem _ hd))]
  show run (.attrValue (some '"') t ([c] ++ n) []) (v ++ '"' :: r) = _
  rw [run_attrValue hv]
  rfl

/-! ## Tags -/

theorem add_of_not_mem {n v : Str} (h : n ∉ t.attrs.map Prod.fst) :
    t.add n v = { t with attrs := t.attrs ++ [(n, v)] } := by
  unfold Tag.add
  rw [if_neg]
  intro hany
  obtain ⟨attr, hattr, heq⟩ := List.any_eq_true.mp hany
  exact h (List.mem_map.mpr ⟨attr, hattr, by simpa using heq⟩)

theorem renderAttr_append (n v r : Str) :
    renderAttr (n, v) ++ r = ' ' :: (n ++ ['=', '"'] ++ v ++ '"' :: r) := by
  simp [renderAttr]

/-- The attributes are read as they are meant exactly when no value has a quote. -/
theorem run_attrs_iff {attrs : List (Str × Str)} (hnames : ∀ attr ∈ attrs, isAttrName attr.1 = true)
    (hnodup : (t.attrs.map Prod.fst ++ attrs.map Prod.fst).Nodup) :
    run (.betweenAttrs t) (attrs.flatMap renderAttr ++ '>' :: u) =
      .tag { t with attrs := t.attrs ++ attrs } :: ts ↔
    (∀ attr ∈ attrs, '"' ∉ attr.2) ∧ run t.next u = ts := by
  induction attrs generalizing t with
  | nil =>
    have hend : run (.betweenAttrs t) ('>' :: u) = .tag t :: run t.next u := rfl
    simp [hend]
  | cons attr attrs ih =>
    obtain ⟨n, v⟩ := attr
    have hn : isAttrName n = true := hnames (n, v) List.mem_cons_self
    have hfresh : n ∉ t.attrs.map Prod.fst := by
      intro hmem
      exact (List.nodup_append.mp hnodup).2.2 n hmem n (by simp) rfl
    rw [List.flatMap_cons, List.append_assoc, renderAttr_append]
    by_cases hv : '"' ∈ v
    · -- The value ends at its first quote, and this stays so.
      obtain ⟨v₁, v₂, rfl, hv₁⟩ := List.eq_append_cons_of_mem hv
      have hsplit : n ++ ['=', '"'] ++ (v₁ ++ '"' :: v₂) ++
          '"' :: (attrs.flatMap renderAttr ++ '>' :: u) = n ++ ['=', '"'] ++ v₁ ++
          '"' :: (v₂ ++ '"' :: (attrs.flatMap renderAttr ++ '>' :: u)) := by
        simp
      rw [hsplit, run_attr hn hv₁, add_of_not_mem hfresh]
      constructor
      · intro h
        have htag : (State.betweenAttrs { t with attrs := t.attrs ++ [(n, v₁)] }).tag? =
            some { t with attrs := t.attrs ++ [(n, v₁)] } := rfl
        rcases run_inTag htag _ with hnone | ⟨t', ts', hrun, hattrs⟩
        · exact absurd (hnone.symm.trans h) (by simp)
        · obtain rfl := Token.tag.inj (List.cons.inj (hrun.symm.trans h)).1
          have hhead : (n, v₁) = (n, v₁ ++ '"' :: v₂) := by
            have hstart := (List.prefix_append_right_inj _).mp hattrs
            exact (List.cons_prefix_cons.mp hstart).1
          have hlength := congrArg List.length (Prod.mk.inj hhead).2
          simp at hlength
      · rintro ⟨hsafe, -⟩
        exact absurd hv (hsafe _ List.mem_cons_self)
    · rw [run_attr hn hv, add_of_not_mem hfresh]
      have hrest := ih (t := { t with attrs := t.attrs ++ [(n, v)] })
        (fun attr hattr => hnames attr (List.mem_cons_of_mem _ hattr)) (by simpa using hnodup)
      have hmeant : { t with attrs := t.attrs ++ (n, v) :: attrs } =
          ({ t with attrs := t.attrs ++ [(n, v)] ++ attrs } : Tag) := by simp
      rw [hmeant, hrest, List.forall_mem_cons]
      exact ⟨fun ⟨hsafe, hts⟩ => ⟨⟨hv, hsafe⟩, hts⟩, fun ⟨⟨_, hsafe⟩, hts⟩ => ⟨hsafe, hts⟩⟩

theorem next_data (h : rawElements.contains name = false) (attrs : List (Str × Str)) :
    Tag.next ⟨false, name, attrs⟩ = .data := by
  rw [Tag.next, h]
  rfl

theorem next_raw (h : rawElements.contains name = true) (attrs : List (Str × Str)) :
    Tag.next ⟨false, name, attrs⟩ = .raw name := by
  rw [Tag.next, h]
  rfl

theorem opening_name (h : isName name = true) (r : Str) : opening (name ++ r) = .startTag := by
  cases name with
  | nil => exact absurd h (by simp [isName])
  | cons c s =>
    simp only [isName, Bool.and_eq_true] at h
    simp [opening, isAlpha_of_isLower h.1]

/-- A start tag up to its attributes. -/
theorem run_start (h : isName name = true) {x : Str}
    (hx : x.head? = some ' ' ∨ x.head? = some '>') :
    run .data ('<' :: (name ++ x)) = run (.betweenAttrs ⟨false, name, []⟩) x := by
  have hopen : run .data ('<' :: (name ++ x)) = run (.tagName ⟨false, [], []⟩) (name ++ x) := by
    rw [run_cons, step, if_pos rfl, opening_name h]
    rfl
  rw [hopen, run_tagName (nameChar_of_isName h)]
  rcases hx with hx | hx
  · obtain ⟨r, rfl⟩ : ∃ r, x = ' ' :: r := List.head?_eq_some_iff.mp hx
    rfl
  · obtain ⟨r, rfl⟩ : ∃ r, x = '>' :: r := List.head?_eq_some_iff.mp hx
    rfl

theorem run_close (h : isName name = true) (u : Str) :
    run .data ('<' :: '/' :: (name ++ '>' :: u)) = .tag ⟨true, name, []⟩ :: run .data u := by
  have hopen : run .data ('<' :: '/' :: (name ++ '>' :: u)) =
      run (.tagName ⟨true, [], []⟩) (name ++ '>' :: u) := by
    cases name with
    | nil => exact absurd h (by simp [isName])
    | cons c s =>
      simp only [isName, Bool.and_eq_true] at h
      have halpha : c.isAlpha = true := isAlpha_of_isLower h.1
      have hend : opening ('/' :: (c :: s ++ '>' :: u)) = .endTag := by
        simp [opening, openingEnd, halpha]
      rw [run_cons, step, if_pos rfl, hend]
      rfl
  rw [hopen, run_tagName (nameChar_of_isName h)]
  rfl

/-! ## Raw texts -/

theorem rawInert_cons :
    RawInert name (c :: s) ↔ (c = '<' → closes name s = false) ∧ RawInert name s :=
  Str.forall_split_cons

theorem rawInert_nil : RawInert name [] := by
  intro u v h
  exact absurd h (by simp)

/-- The character behind the name of an end tag. -/
def endsName (c : Char) : Bool := isSpace c || c = '/' || c = '>'

theorem closes_cons (name : Str) (c : Char) (s : Str) : closes name (c :: s) =
    (decide (c = '/') && (name.isPrefixOf (s.map Char.toLower) &&
      (s.drop name.length).head?.any endsName)) := Bool.and_assoc ..

/-- Another `<` behind the text does not help to end the element. -/
theorem closes_append (hname : ∀ c ∈ name, nameChar c = true) (s u : Str) :
    closes name (s ++ '<' :: u) = closes name s := by
  cases s with
  | nil => rfl
  | cons c s =>
    rw [List.cons_append, closes_cons, closes_cons]
    congr 1
    induction name generalizing s with
    | nil => cases s <;> rfl
    | cons d name ih =>
      have hd : d ≠ '<' := (nameChar_ne (hname d List.mem_cons_self)).2.2.2.2
      cases s with
      | nil => simp [hd]
      | cons e s =>
        have hrest := ih (fun c hc => hname c (List.mem_cons_of_mem _ hc)) s
        simp only [List.cons_append, List.map_cons, List.isPrefixOf, List.length_cons,
          List.drop_succ_cons, Bool.and_assoc, hrest]

theorem closes_end (hname : ∀ c ∈ name, nameChar c = true) (u : Str) :
    closes name ('/' :: (name ++ '>' :: u)) = true := by
  have hlower : name.map Char.toLower = name := by
    have hid := List.map_congr_left fun c hc => toLower_of_nameChar (hname c hc)
    rwa [List.map_id'] at hid
  have hstart : name.isPrefixOf ((name ++ '>' :: u).map Char.toLower) = true := by
    rw [List.map_append, hlower, List.isPrefixOf_iff_prefix]
    exact List.prefix_append _ _
  rw [closes_cons, hstart, List.drop_left]
  rfl

/-- An inert text ends no element. -/
theorem rawInert_of_inert (h : Inert s) (name : Str) : RawInert name s := by
  rintro u v rfl
  cases v with
  | nil => rfl
  | cons c v =>
    rw [closes_cons]
    by_cases hc : c = '/'
    · subst hc
      exact absurd (h u '/' v rfl) (by decide)
    · rw [decide_eq_false hc, Bool.false_and]

theorem run_skip {w : Str} {n : Nat} (hw : w.length = n + 1) (st : State) (r : Str) :
    run (.skip n st) (w ++ r) = run st r := by
  induction n generalizing w with
  | zero =>
    obtain ⟨c, rfl⟩ := List.length_eq_one_iff.mp hw
    rfl
  | succ n ih =>
    obtain ⟨c, w, rfl⟩ := List.exists_cons_of_length_eq_add_one hw
    exact ih (by simpa using hw)

theorem run_rawEnd (hname : ∀ c ∈ name, nameChar c = true) (u : Str) :
    run (.raw name) ('<' :: '/' :: (name ++ '>' :: u)) = .tag ⟨true, name, []⟩ :: run .data u := by
  have hopen : run (.raw name) ('<' :: '/' :: (name ++ '>' :: u)) =
      run (.skip name.length (.betweenAttrs ⟨true, name, []⟩)) ('/' :: name ++ '>' :: u) := by
    rw [run_cons, step, closes_end hname]
    rfl
  rw [hopen, run_skip (by simp)]
  rfl

/-- A raw text in front of its end tag yields its characters exactly when it does not end the
element itself. -/
theorem run_raw_iff (hname : ∀ c ∈ name, nameChar c = true) :
    run (.raw name) (s ++ '<' :: '/' :: (name ++ '>' :: u)) =
      s.map .char ++ .tag ⟨true, name, []⟩ :: ts ↔ RawInert name s ∧ run .data u = ts := by
  induction s with
  | nil =>
    rw [List.nil_append, run_rawEnd hname]
    simp [rawInert_nil]
  | cons c s ih =>
    rw [rawInert_cons, List.cons_append, run_cons, step, closes_append hname]
    by_cases hc : c = '<' ∧ closes name s = true
    · obtain ⟨rfl, hcloses⟩ := hc
      have hmarkup : (State.skip name.length (.betweenAttrs ⟨true, name, []⟩)).InMarkup := trivial
      rw [hcloses, decide_eq_true rfl, Bool.and_self, if_pos rfl, List.nil_append]
      constructor
      · intro h
        exact absurd h (run_inMarkup hmarkup _ _ _)
      · rintro ⟨⟨hnot, -⟩, -⟩
        exact absurd (hnot rfl) (by simp)
    · have hstep : (decide (c = '<') && closes name s) = false := by
        rw [Bool.and_eq_false_iff, decide_eq_false_iff_not]
        by_cases heq : c = '<'
        · exact Or.inr (Bool.eq_false_iff.mpr fun h => hc ⟨heq, h⟩)
        · exact Or.inl heq
      have hhead : c = '<' → closes name s = false :=
        fun heq => Bool.eq_false_iff.mpr fun h => hc ⟨heq, h⟩
      rw [hstep, if_neg Bool.false_ne_true]
      constructor
      · intro h
        obtain ⟨hs, hts⟩ := ih.mp (List.cons.inj h).2
        exact ⟨⟨hhead, hs⟩, hts⟩
      · rintro ⟨⟨-, hs⟩, hts⟩
        exact congrArg (Token.char c :: ·) (ih.mpr ⟨hs, hts⟩)

/-! ## Documents -/

theorem render_start (name : Str) (attrs : List (Str × Str)) (u : Str) :
    (Node.start name attrs).render ++ u =
      '<' :: (name ++ (attrs.flatMap renderAttr ++ '>' :: u)) := by
  show '<' :: (name ++ attrs.flatMap renderAttr ++ ['>']) ++ u = _
  rw [List.cons_append, List.append_assoc, List.append_assoc, List.singleton_append]

theorem render_close (name u : Str) :
    (Node.close name).render ++ u = '<' :: '/' :: (name ++ '>' :: u) := by
  show '<' :: '/' :: (name ++ ['>']) ++ u = _
  rw [List.cons_append, List.cons_append, List.append_assoc, List.singleton_append]

theorem render_raw (name s u : Str) : (Node.raw name s).render ++ u =
    '<' :: (name ++ '>' :: (s ++ '<' :: '/' :: (name ++ '>' :: u))) := by
  show '<' :: (name ++ ['>'] ++ s ++ ['<', '/'] ++ name ++ ['>']) ++ u = _
  simp only [List.cons_append, List.append_assoc, List.nil_append]

theorem run_node_iff {node : Node} (hwf : node.wellFormed = true) (htext : ∀ s, node ≠ .text s) :
    run .data (node.render ++ u) = node.tokens ++ ts ↔ node.Safe ∧ run .data u = ts := by
  cases node with
  | text s => exact absurd rfl (htext s)
  | doctype =>
    have hrun : run .data (Node.doctype.render ++ u) = .doctype :: run .data u := rfl
    rw [hrun]
    simp [Node.tokens, Node.Safe]
  | start name attrs =>
    simp only [Node.wellFormed, Bool.and_eq_true, Bool.not_eq_true', decide_eq_true_eq,
      List.all_eq_true] at hwf
    obtain ⟨⟨⟨hname, hraw⟩, hattrs⟩, hnodup⟩ := hwf
    have hx : (attrs.flatMap renderAttr ++ '>' :: u).head? = some ' ' ∨
        (attrs.flatMap renderAttr ++ '>' :: u).head? = some '>' := by
      cases attrs with
      | nil => exact Or.inr rfl
      | cons attr attrs => exact Or.inl rfl
    rw [render_start, run_start hname hx]
    refine (run_attrs_iff (t := ⟨false, name, []⟩) hattrs hnodup).trans ?_
    rw [next_data hraw]
    rfl
  | close name =>
    rw [render_close, run_close hwf]
    simp [Node.tokens, Node.Safe]
  | raw name s =>
    simp only [Node.wellFormed, Bool.and_eq_true] at hwf
    obtain ⟨hname, hraw⟩ := hwf
    have hnext := next_raw hraw []
    have hopen : ∀ x : Str, run (.betweenAttrs ⟨false, name, []⟩) ('>' :: x) =
        .tag ⟨false, name, []⟩ :: run (.raw name) x := by
      intro x
      rw [run_cons, ← hnext]
      rfl
    rw [render_raw, run_start hname (Or.inr rfl), hopen]
    constructor
    · intro h
      refine (run_raw_iff (nameChar_of_isName hname)).mp ((List.cons.inj h).2.trans ?_)
      simp
    · intro h
      refine congrArg (_ :: ·) (((run_raw_iff (nameChar_of_isName hname)).mpr h).trans ?_)
      simp

/-- Markup starts with a `<` and does not yield a character first. -/
theorem run_node_markup {node : Node} (hwf : node.wellFormed = true)
    (htext : ∀ s, node ≠ .text s) (u : Str) :
    (node.render ++ u).head? = some '<' ∧ ∀ c ts, run .data (node.render ++ u) ≠ .char c :: ts := by
  cases node with
  | text s => exact absurd rfl (htext s)
  | doctype => exact ⟨rfl, fun c ts h => absurd (List.cons.inj h).1 (by simp)⟩
  | start name attrs =>
    refine ⟨rfl, fun c ts h => ?_⟩
    simp only [Node.wellFormed, Bool.and_eq_true] at hwf
    rw [render_start, run_cons, step, if_pos rfl, opening_name hwf.1.1.1] at h
    have hname : (State.tagName ⟨false, [], []⟩).InMarkup := trivial
    exact run_inMarkup hname _ _ _ h
  | close name =>
    refine ⟨rfl, fun c ts h => ?_⟩
    rw [render_close, run_close hwf] at h
    exact absurd (List.cons.inj h).1 (by simp)
  | raw name s =>
    refine ⟨rfl, fun c ts h => ?_⟩
    simp only [Node.wellFormed, Bool.and_eq_true] at hwf
    rw [render_raw, run_cons, step, if_pos rfl, opening_name hwf.1] at h
    have hname : (State.tagName ⟨false, [], []⟩).InMarkup := trivial
    exact run_inMarkup hname _ _ _ h

theorem separated_tail {node : Node} (h : separated (node :: doc) = true) :
    separated doc = true := by
  cases node with
  | text s =>
    cases doc with
    | nil => exact absurd h Bool.false_ne_true
    | cons node doc => cases node <;> first | exact h | exact absurd h Bool.false_ne_true
  | _ => exact h

theorem separated_append {doc' : List Node} (h : separated doc = true)
    (h' : separated doc' = true) :
    separated (doc ++ doc') = true := by
  induction doc with
  | nil => exact h'
  | cons node doc ih =>
    have hrest := ih (separated_tail h)
    cases node with
    | text s =>
      cases doc with
      | nil => exact absurd h Bool.false_ne_true
      | cons next doc => cases next <;> first | exact hrest | exact absurd h Bool.false_ne_true
    | _ => exact hrest

theorem Proper.append {doc' : List Node} (h : Proper doc) (h' : Proper doc') :
    Proper (doc ++ doc') := by
  refine ⟨?_, separated_append h.2 h'.2⟩
  rw [List.all_append, h.1, h'.1]
  rfl

theorem safe_append {doc' : List Node} : Safe (doc ++ doc') ↔ Safe doc ∧ Safe doc' :=
  List.forall_mem_append

theorem safe_start {attrs : List (Str × Str)}
    (h : attrs.all (fun attr => !attr.2.contains '"') = true) :
    (Node.start name attrs).Safe := by
  intro attr hattr hmem
  have hnot := List.all_eq_true.mp h attr hattr
  rw [List.contains_eq_mem, decide_eq_true hmem] at hnot
  exact absurd hnot (by decide)

theorem safe_doctype : Node.doctype.Safe := trivial

theorem safe_tag : (Node.start name []).Safe := fun _ h => absurd h List.not_mem_nil

theorem safe_close : (Node.close name).Safe := trivial

theorem safe_text : (Node.text s).Safe ↔ Inert s := Iff.rfl

theorem safe_raw : (Node.raw name s).Safe ↔ RawInert name s := Iff.rfl

theorem safe_nil : Safe [] := fun _ h => absurd h List.not_mem_nil

theorem safe_cons {node : Node} : Safe (node :: doc) ↔ node.Safe ∧ Safe doc := List.forall_mem_cons

/-- A document is tokenized as it is meant exactly when its values are safe. -/
theorem run_render_iff (h : Proper doc) (t : Str) :
    run .data (render doc ++ t) = tokens doc ++ ts ↔ Safe doc ∧ run .data t = ts := by
  obtain ⟨hwf, hsep⟩ := h
  unfold Safe
  induction doc with
  | nil => simp [render, tokens]
  | cons node doc ih =>
    obtain ⟨hnode, hdoc⟩ : node.wellFormed = true ∧ doc.all Node.wellFormed = true := by
      simpa using hwf
    have hrest := ih hdoc (separated_tail hsep)
    have hrender : render (node :: doc) ++ t = node.render ++ (render doc ++ t) := by
      rw [render, List.flatMap_cons, List.append_assoc]
      rfl
    have htokens : tokens (node :: doc) ++ ts = node.tokens ++ (tokens doc ++ ts) := by
      rw [tokens, List.flatMap_cons, List.append_assoc]
      rfl
    rw [hrender, htokens, List.forall_mem_cons, and_assoc, ← hrest]
    by_cases htext : ∀ s, node ≠ .text s
    · exact run_node_iff hnode htext
    · obtain ⟨s, hs⟩ := not_forall.mp htext
      obtain rfl := not_not.mp hs
      -- The text is in front of a node that is markup.
      cases doc with
      | nil => exact absurd hsep Bool.false_ne_true
      | cons next doc =>
        have hnext : ∀ s, next ≠ .text s := by
          rintro s rfl
          exact absurd hsep Bool.false_ne_true
        have hsplit : render (next :: doc) ++ t = next.render ++ (render doc ++ t) := by
          rw [render, List.flatMap_cons, List.append_assoc]
          rfl
        obtain ⟨hhead, hmarkup⟩ :=
          run_node_markup (List.all_eq_true.mp hdoc next List.mem_cons_self) hnext (render doc ++ t)
        rw [hsplit]
        exact run_text_iff hhead hmarkup

end Html
