import EmailMarkup.Proofs.Css.Weight

/-!
# Declaration blocks that are written back

What was read from a declaration block is written as names and values with colons and semicolons
between them. A name is written as it was decoded, and a value as it stood in the source. Read
again, a name whose escapes are gone may end early, and a value that was ended by the end of the
block, inside brackets or quotes, goes on into what follows (`rereading_changes_declarations`).

These are the only ways. `rereading_block_iff` says that a block is read back as it was read exactly
if every name in it is plain and every value stands, and both can be decided. The declarations of a
block do not matter to each other (`declarationsOf_flatMap_text_iff`), since the first is cut off by
its own semicolon (`cut_first`). For a single one, the name that is read has to be the name that is
written, as it is no shorter and all that is read has to fit into the text (`spelled_at_start`).
-/

set_option autoImplicit false

namespace EmailMarkup.Css

open EmailMarkup.Text

variable {segment tail : List Component} {t : Token} {cs : List Char}

/-! ### Plain names -/

/-- A name without escapes. -/
structure PlainName (cs : List Char) : Prop where
  atName : atName cs = true
  nameChars : ∀ c ∈ cs, isNameChar c = true

instance (cs : List Char) : Decidable (PlainName cs) :=
  decidable_of_iff (Css.atName cs = true ∧ cs.all isNameChar = true)
    ⟨fun h => ⟨h.1, List.all_eq_true.mp h.2⟩, fun h => ⟨h.atName, List.all_eq_true.mpr h.nameChars⟩⟩

/-- The colon as a token. -/
def colon : Token :=
  { kind := .colon, source := [':'] }

/-- A name as a token. -/
def nameToken (cs : List Char) : Token :=
  { kind := .ident (String.ofList (decodeName cs)), source := cs }

theorem atName_append_colon (cs more : List Char) : atName (cs ++ ':' :: more) = atName cs := by
  cases cs with
  | nil => rfl
  | cons c cs =>
    by_cases hminus : c = '-'
    · subst hminus
      cases cs <;> rfl
    · by_cases hslash : c = '\\'
      · subst hslash
        cases cs <;> rfl
      · simp [atName, hminus]

theorem name_append_colon (h : ∀ c ∈ cs, isNameChar c = true) (more : List Char) :
    (name (cs ++ ':' :: more)).taken = cs ∧ (name (cs ++ ':' :: more)).rest = ':' :: more := by
  induction cs with
  | nil =>
    rw [List.nil_append, name, if_neg (by decide), if_neg (by decide)]
    exact ⟨rfl, rfl⟩
  | cons c cs ih =>
    rw [List.forall_mem_cons] at h
    obtain ⟨htaken, hrest⟩ := ih h.2
    have hslash : ¬ (c == '\\') = true := by
      rw [beq_iff_eq]
      rintro rfl
      exact absurd h.1 (by decide)
    rw [List.cons_append, name, if_neg hslash, if_pos h.1]
    exact ⟨congrArg (c :: ·) htaken, hrest⟩

/-- A plain name with a colon behind it is read as that name. -/
theorem readTokens_plain (h : PlainName cs) (more : List Char) :
    readTokens (cs ++ ':' :: more) = nameToken cs :: colon :: readTokens more := by
  have hat := h.atName
  cases cs with
  | nil => cases hat
  | cons c cs =>
    have hall := List.forall_mem_cons.mp h.nameChars
    rw [← atName_append_colon _ more, List.cons_append] at hat
    -- The closing mark would have a bracket in the name, or the colon in its place.
    have hmark : ¬ ['-', '>'] <+: cs ++ ':' :: more := by
      rintro ⟨tail, htail⟩
      match cs with
      | [] => cases htail
      | [d] => cases htail
      | d :: e :: cs =>
        obtain ⟨-, rfl, -⟩ : '-' = d ∧ '>' = e ∧ _ := by simpa using htail
        exact absurd (hall.2 '>' (by simp)) (by decide)
    have hslash : ¬ (c == '\\') = true := by
      rw [beq_iff_eq]
      rintro rfl
      exact absurd hall.1 (by decide)
    obtain ⟨htaken, hrest⟩ := name_append_colon hall.2 more
    have htail : nameTail c (cs ++ ':' :: more) = name (cs ++ ':' :: more) := by
      rw [nameTail, if_neg hslash]
    have hread : readToken c (cs ++ ':' :: more) =
        (.ident (String.ofList (decodeName (c :: cs))), name (cs ++ ':' :: more)) := by
      rw [readToken_of_atName hat hall.1 hmark, identLike_of_not_bracket, htail, htaken]
      rw [htail, hrest]
      simp
    have hcolon : readTokens (':' :: more) = colon :: readTokens more := readTokens_cons ':' more
    rw [List.cons_append, readTokens_cons, hread]
    simp only [htaken, hrest, hcolon]
    rfl

theorem components_plain (h : PlainName cs) (more : List Char) :
    components (cs ++ ':' :: more) =
      .token (nameToken cs) :: .token colon :: components more := by
  have hgroup := group_append (rfl : ([nameToken cs, colon].foldl Grouping.step
    { top := [], stack := [] }).stack = []) (readTokens more)
  rw [components, readTokens_plain h]
  exact hgroup

/-! ### One declaration -/

theorem span_semicolon (h : ∀ c ∈ segment, c.isKind .semicolon = false) :
    (segment ++ [Component.token semicolon]).takeWhile (fun c => !c.isKind .semicolon) = segment ∧
      (segment ++ [Component.token semicolon]).dropWhile (fun c => !c.isKind .semicolon) =
        [.token semicolon] :=
  span_of_forall (fun c hc => by rw [h c hc]; rfl) (by simp [Component.isKind, semicolon])

/-- A name is declared up to the first semicolon. -/
theorem declarationsOf_segment {name : String} (ht : t.kind = .ident name)
    (h : ∀ c ∈ segment, c.isKind .semicolon = false) :
    declarationsOf (.token t :: (segment ++ [.token semicolon])) =
      (declarationOf? name segment).toList := by
  have hnone : declarationsOf [] = [] := by rw [declarationsOf]
  have hdrop : dropThrough (Component.isKind .semicolon) (segment ++ [.token semicolon]) = [] :=
    congrArg (List.drop 1) (span_semicolon h).2
  rw [declarationsOf]
  simp only [ht, (span_semicolon h).1, hdrop, hnone, List.append_nil]

theorem declarationOf?_colon_iff {name : String} {cs : List Component} {d : Declaration} :
    declarationOf? name (.token colon :: cs) = some d ↔
      d.property = lower name ∧ d.value.toList = trimChars (readValue [] cs).1 ∧
        d.value.toList ≠ [] ∧ d.important = (readValue [] cs).2 := by
  have hread : declarationOf? name (.token colon :: cs) =
      if (trimChars (readValue [] cs).1).isEmpty then none else
        some { property := lower name, value := String.ofList (trimChars (readValue [] cs).1),
               important := (readValue [] cs).2 } := rfl
  rw [hread]
  split
  · rename_i hempty
    rw [List.isEmpty_iff] at hempty
    refine ⟨fun h => (nomatch h), fun ⟨_, hvalue, hne, _⟩ => absurd (hvalue.trans hempty) hne⟩
  · rename_i hempty
    rw [List.isEmpty_iff] at hempty
    constructor
    · intro h
      cases h
      exact ⟨rfl, String.toList_ofList, by rwa [String.toList_ofList], rfl⟩
    · rintro ⟨hproperty, hvalue, -, himportant⟩
      rw [← hproperty, ← hvalue, ← himportant, String.ofList_toList]

/-- What holds of every declaration that was read. -/
structure Declaration.IsNormal (d : Declaration) : Prop where
  lowered : lowerChars d.property.toList = d.property.toList
  notNul : '\x00' ∉ d.property.toList
  unpadded : Unpadded d.value.toList
  value_ne : d.value.toList ≠ []

/-- Each declaration among components begins with its name. -/
theorem exists_of_mem_declarationsOf {cs : List Component} {d : Declaration}
    (h : d ∈ declarationsOf cs) : ∃ t name segment, .token t ∈ cs ∧ t.kind = .ident name ∧
      declarationOf? name segment = some d := by
  generalize hds : declarationsOf cs = ds at h
  induction ds generalizing cs with
  | nil => cases h
  | cons first ds ih =>
    obtain ⟨before, t, name, segment, behind, rfl, hkind, -, hfound, hbehind⟩ :=
      declares_of_declarationsOf hds
    rcases List.mem_cons.mp h with rfl | h
    · exact ⟨t, name, segment, by simp, hkind, hfound⟩
    · obtain ⟨-, rfl⟩ | ⟨s, after, rfl, -, hafter⟩ := hbehind
      · cases h
      · obtain ⟨u, other, more, hmem, hother⟩ := ih hafter h
        exact ⟨u, other, more, by simp [hmem], hother⟩

theorem isNormal_of_mem {css : String} {d : Declaration} (h : d ∈ readDeclarations css) :
    d.IsNormal := by
  obtain ⟨t, name, segment, hmem, hkind, hfound⟩ := exists_of_mem_declarationsOf h
  have hread : t.IsRead := isRead_components _ _ hmem
  obtain ⟨rest, hfits⟩ := hread.fits
  rw [hkind] at hfits
  obtain ⟨_, _, cs, -, -, -, hproperty, hvalue, hne, -⟩ := exists_of_declarationOf? hfound
  have hname : d.property.toList = lowerChars (decodeName t.source) := by
    rw [hproperty, hfits.1, lower, String.toList_ofList, String.toList_ofList]
  refine ⟨?_, ?_, ?_, hne⟩
  · rw [hname, lowerChars_lowerChars]
  · rw [hname, lowerChars, List.mem_map]
    rintro ⟨c, hc, hlower⟩
    rw [eq_of_toLower (by decide) hlower] at hc
    exact nul_notMem_decodeName _ hc
  · rw [hvalue]
    exact unpadded_trimChars _

/-- The value of a declaration is read back as it is written: the first semicolon outside of all
blocks is the one behind it. -/
def Declaration.ValueStands (d : Declaration) : Prop :=
  ∃ cs, components (d.value.toList ++ d.ending) = cs ++ [.token semicolon] ∧
    (∀ c ∈ cs, c.isKind .semicolon = false) ∧
    trimChars (readValue [] cs).1 = d.value.toList ∧ (readValue [] cs).2 = d.important

/-- The value stands if, and only if, the first semicolon outside of all blocks is the last
component and what stands before it is read as the value and its mark. -/
theorem valueStands_iff (d : Declaration) :
    d.ValueStands ↔
      let cs := components (d.value.toList ++ d.ending)
      let segment := cs.takeWhile fun c => !c.isKind .semicolon
      cs.length = segment.length + 1 ∧ trimChars (readValue [] segment).1 = d.value.toList ∧
        (readValue [] segment).2 = d.important := by
  dsimp only
  constructor
  · rintro ⟨cs, hcs, hnot, hread⟩
    rw [hcs, (span_semicolon hnot).1]
    exact ⟨by simp, hread⟩
  · rintro ⟨hlength, hread⟩
    have happ := List.takeWhile_append_dropWhile (p := fun c => !c.isKind .semicolon)
      (l := components (d.value.toList ++ d.ending))
    rw [← happ, List.length_append, happ, Nat.add_left_cancel_iff,
      List.length_eq_one_iff] at hlength
    obtain ⟨c, hc⟩ := hlength
    obtain ⟨happ, hstop⟩ := of_dropWhile_eq_cons hc
    have hsemicolon : c = .token semicolon := by
      refine (isRead_components (d.value.toList ++ d.ending) c ?_).eq_semicolon
        (by simpa using hstop)
      rw [happ]
      simp
    rw [hsemicolon] at happ
    exact ⟨_, happ, fun c hc => by simpa using List.mem_takeWhile_imp hc, hread⟩

instance (d : Declaration) : Decidable d.ValueStands :=
  decidable_of_iff _ (valueStands_iff d).symm

theorem Spells.ten_le_length {d : Declaration} (h : Spells t segment d tail)
    (hread : ∀ c ∈ segment, c.IsRead) (himportant : d.important = true) :
    10 ≤ (sourceOf tail).length := by
  obtain ⟨front, word, rest, htail, hfront, hword, -⟩ := h.ten_le hread himportant
  have hfrontLength : solid front ≤ front.length := List.countP_le_length
  have hwordLength : solid word ≤ word.length := List.countP_le_length
  have hnine := nine_le_solid hword
  rw [htail, List.length_append, List.length_append]
  omega

/-- A declaration that is read from its own text is cut off by its semicolon. -/
theorem cut_alone {d : Declaration} (h : declarationsOf (components d.text) = [d]) :
    ∃ before t segment tail, components d.text =
        before ++ .token t :: (segment ++ [.token semicolon]) ∧
      t.IsRead ∧ (∀ c ∈ segment, c.IsRead) ∧ (∀ c ∈ segment, c.isKind .semicolon = false) ∧
      Spells t segment d tail := by
  have hsingle : declarationsOf (components ([d].flatMap Declaration.text)) = [d] := by
    rwa [List.flatMap_singleton]
  obtain ⟨before, t, segment, tail, hcs, ht, hread, hnot, hspells, -⟩ := cut_first hsingle
  exact ⟨before, t, segment, tail, hcs, ht, hread, hnot, hspells⟩

/-- A declaration that is read as it is written is spelled by its own text from the beginning. -/
theorem spelled_at_start {d : Declaration} (hnormal : d.IsNormal) {before : List Component}
    (h : components d.text = before ++ .token t :: (segment ++ [.token semicolon]))
    (hread : ∀ c ∈ segment, c.IsRead) (hspells : Spells t segment d tail) :
    sourceOf before = [] ∧ t.source = d.property.toList := by
  obtain ⟨gap, left, right, hsource, -, -⟩ := hspells.sourceOf_eq
  have hwhole := sourceOf_components d.text
  rw [h, sourceOf_spelled, hsource, text_eq] at hwhole
  have hone : sourceOf [.token semicolon] = [';'] := rfl
  rw [hone] at hwhole
  have hname : d.property.toList.length ≤ t.source.length := by
    have hle := countP_decodeName_le (p := fun _ => true) rfl rfl t.source
    rw [hspells.property, lowerChars, List.length_map]
    simpa using hle
  have hlength := congrArg List.length hwhole
  simp only [List.length_append, List.length_cons, List.length_nil] at hlength
  -- All that was read has to fit into the text, and only the name may have been longer.
  have hle : (sourceOf before).length + t.source.length ≤ d.property.toList.length := by
    cases himportant : d.important with
    | false =>
      have hending : d.ending = [';'] := by rw [Declaration.ending, himportant]; rfl
      rw [hending, List.length_singleton] at hlength
      omega
    | true =>
      have hending : d.ending = [' '] ++ "!important;".toList := by
        rw [Declaration.ending, himportant]
        rfl
      have hten := hspells.ten_le_length hread himportant
      have heleven : "!important;".toList.length = 11 := rfl
      rw [hending, List.length_append, List.length_singleton, heleven] at hlength
      by_contra hlong
      -- The mark would be read without the space before it, which is then left to the value.
      have hgap : gap = [] := List.eq_nil_of_length_eq_zero (by omega)
      have hleft : left = [] := List.eq_nil_of_length_eq_zero (by omega)
      have hright : right = [] := List.eq_nil_of_length_eq_zero (by omega)
      have hshift : (sourceOf before ++ (t.source ++ ':' :: d.value.toList)) ++
          (sourceOf tail ++ [';']) =
          (d.property.toList ++ ':' :: (d.value.toList ++ [' '])) ++ "!important;".toList := by
        rw [hending, hgap, hleft, hright] at hwhole
        simpa using hwhole
      obtain ⟨hvalue, -⟩ := List.append_inj' hshift
        (by rw [List.length_append, List.length_singleton, heleven]; omega)
      obtain ⟨w, c, hw⟩ := (List.eq_nil_or_concat d.value.toList).resolve_left hnormal.value_ne
      rw [List.concat_eq_append] at hw
      have hc := hnormal.unpadded.2 c (by rw [hw]; simp)
      have hlast : (sourceOf before ++ (t.source ++ ':' :: w)) ++ [c] =
          (d.property.toList ++ ':' :: (w ++ [c])) ++ [' '] := by
        rw [hw] at hvalue
        simpa using hvalue
      obtain ⟨-, hspace⟩ := List.append_inj' hlast rfl
      obtain rfl : c = ' ' := by simpa using hspace
      cases hc
  have hbefore : sourceOf before = [] := List.eq_nil_of_length_eq_zero (by omega)
  refine ⟨hbefore, ?_⟩
  rw [hbefore, List.nil_append, List.append_assoc] at hwhole
  exact (List.append_inj hwhole (by omega)).1

/-- A name that is read from itself is plain. -/
theorem plainName_of_spells {d : Declaration} {behind : List Component}
    (h : components d.text = .token t :: behind) (hspells : Spells t segment d tail)
    (hsource : t.source = d.property.toList) : PlainName d.property.toList := by
  have htokens : readTokens d.text = [] ++ t :: tokensOf behind := by
    rw [← tokensOf_group (readTokens d.text), ← components, h]
    rfl
  have hwhole := flatMap_source_readTokens d.text
  rw [htokens, List.nil_append, List.flatMap_cons] at hwhole
  obtain ⟨name, hkind⟩ := hspells.kind
  have hfits := fits_of_readTokens htokens
  rw [hkind] at hfits
  obtain ⟨-, hat, hchars⟩ := hfits
  rw [hwhole, text_eq, atName_append_colon] at hat
  have hself := hspells.property.symm
  rw [hsource] at hself hchars
  exact ⟨hat, hchars (notMem_of_decodeName hself)⟩

/-- A declaration is read from its own text as it is, if and only if its name is plain and its value
is read back. -/
theorem declarationsOf_text_iff {d : Declaration} (hnormal : d.IsNormal) :
    declarationsOf (components d.text) = [d] ↔
      PlainName d.property.toList ∧ d.ValueStands := by
  -- Behind a plain name, it is all a matter of the value.
  have hplain (hname : PlainName d.property.toList) {cs : List Component}
      (hcs : components (d.value.toList ++ d.ending) = cs ++ [.token semicolon])
      (hnot : ∀ c ∈ cs, c.isKind .semicolon = false) :
      declarationsOf (components d.text) = [d] ↔
        d.value.toList = trimChars (readValue [] cs).1 ∧ d.important = (readValue [] cs).2 := by
    have hslash : '\\' ∉ d.property.toList :=
      fun hmem => absurd (hname.nameChars _ hmem) (by decide)
    have hcolon : ∀ c ∈ Component.token colon :: cs, c.isKind .semicolon = false :=
      List.forall_mem_cons.mpr ⟨rfl, hnot⟩
    rw [text_eq, components_plain hname, hcs, ← List.cons_append, declarationsOf_segment rfl hcolon,
      Option.toList_eq_singleton_iff, declarationOf?_colon_iff,
      decodeName_of_plain hslash hnormal.notNul, lower, String.toList_ofList, hnormal.lowered,
      String.ofList_toList]
    exact ⟨fun h => ⟨h.2.1, h.2.2.2⟩, fun h => ⟨rfl, h.1, hnormal.value_ne, h.2⟩⟩
  constructor
  · intro h
    obtain ⟨before, t, segment, tail, hcomponents, -, hread, hnot, hspells⟩ := cut_alone h
    obtain ⟨hbefore, hsource⟩ := spelled_at_start hnormal hcomponents hread hspells
    have hnil : before = [] := by
      refine eq_nil_of_sourceOf (fun c hc => isRead_components d.text c ?_) hbefore
      rw [hcomponents]
      exact List.mem_append_left _ hc
    rw [hnil, List.nil_append] at hcomponents
    have hname := plainName_of_spells hcomponents hspells hsource
    rw [text_eq, components_plain hname] at hcomponents
    obtain ⟨-, hrest⟩ := List.cons.inj hcomponents
    cases segment with
    | nil => cases hrest
    | cons c cs =>
      obtain ⟨-, hcs⟩ := List.cons.inj hrest
      have hnotRest := (List.forall_mem_cons.mp hnot).2
      obtain ⟨hvalue, himportant⟩ := (hplain hname hcs hnotRest).mp h
      exact ⟨hname, cs, hcs, hnotRest, hvalue.symm, himportant.symm⟩
  · rintro ⟨hname, cs, hcs, hnot, hvalue, himportant⟩
    exact (hplain hname hcs hnot).mpr ⟨hvalue.symm, himportant.symm⟩

/-! ### Declaration blocks -/

/-- Declarations are read as they are written, if and only if each of them is on its own. -/
theorem declarationsOf_flatMap_text_iff (ds : List Declaration) :
    declarationsOf (components (ds.flatMap Declaration.text)) = ds ↔
      ∀ d ∈ ds, declarationsOf (components d.text) = [d] := by
  induction ds with
  | nil =>
    rw [List.flatMap_nil, components_nil, declarationsOf]
    simp
  | cons d ds ih =>
    rw [List.forall_mem_cons, ← ih]
    constructor
    · intro h
      obtain ⟨_, _, _, _, -, -, -, -, -, hfirst, hothers⟩ := cut_first h
      exact ⟨hfirst, hothers⟩
    · rintro ⟨hfirst, hothers⟩
      -- What is read on its own is cut off by its semicolon, so the others do not change it.
      obtain ⟨before, t, segment, tail, hcs, -⟩ := cut_alone hfirst
      obtain ⟨body, hbody⟩ := text_eq_concat d
      rw [hbody, ← List.cons_append, ← List.append_assoc] at hcs
      have hsource : sourceOf (before ++ .token t :: segment) = body := by
        have hwhole := sourceOf_components (body ++ [';'])
        rw [hcs, sourceOf_append] at hwhole
        exact List.append_cancel_right hwhole
      rw [List.flatMap_cons, hbody, List.append_assoc, List.singleton_append,
        components_replace hcs hsource, declarationsOf_append, hothers, ← hcs, ← hbody, hfirst]
      rfl

/-- A declaration block is read back as it was read, if and only if no name in it needs an escape
and every value ends before the semicolon that is written behind it. -/
theorem rereading_block_iff (css : String) :
    readDeclarations (printDeclarations (readDeclarations css)) = readDeclarations css ↔
      ∀ d ∈ readDeclarations css, PlainName d.property.toList ∧ d.ValueStands := by
  rw [readDeclarations, toList_printDeclarations, declarationsOf_flatMap_text_iff]
  exact forall₂_congr fun d hd => declarationsOf_text_iff (isNormal_of_mem hd)

/-- An escaped colon is written without its escape and ends the name, and an open bracket takes in
the semicolon behind it. -/
theorem rereading_changes_declarations :
    readDeclarations "a\\:b:red" = [⟨"a:b", "red", false⟩] ∧
      readDeclarations (printDeclarations (readDeclarations "a\\:b:red")) =
        [⟨"a", "b:red", false⟩] ∧
      readDeclarations "a:(b" = [⟨"a", "(b", false⟩] ∧
      readDeclarations (printDeclarations (readDeclarations "a:(b")) = [⟨"a", "(b;", false⟩] := by
  decide +kernel

example : ∀ d ∈ readDeclarations "Color: 'a;b' url(c;d); margin: 0 ! important",
    PlainName d.property.toList ∧ d.ValueStands := by
  decide +kernel

end EmailMarkup.Css
