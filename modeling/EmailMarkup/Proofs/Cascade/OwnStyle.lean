import EmailMarkup.Proofs.Cascade.Turns

/-!
# What an element's own style keeps

`restyle_cascade` is about styles that declare no property twice. A style may well do so, and then
the pass over it compares each declaration with the one that is stored at the moment, not with all
that came before. A declaration of a rule that is important holds off plain ones until the style
has an important one of its own; from then on every declaration of the style replaces the one before
it, important or not (`get?_addStyle_repeated`).

So an important declaration of an element is never lost to a rule, but it may be lost to a plain one
further on in the same style (`overridden_importance_lost`). `importance_kept_iff` says exactly when
it is kept: if the last declaration of its property is important.
-/

set_option autoImplicit false

namespace EmailMarkup.Cascade

open EmailMarkup.Css EmailMarkup.Html EmailMarkup.Text OrderedMap

variable {property : String} {ds : List Declaration} {d : Declaration}

/-! ### The pass over a style -/

/-- What `last?` finds is a declaration of the property that meets the condition. -/
theorem last?_spec {condition : Declaration → Bool} (h : last? condition ds property = some d) :
    d ∈ ds ∧ d.property = property ∧ condition d = true := by
  have hmem := List.mem_reverse.mp (List.mem_of_find?_eq_some h)
  have hd := List.find?_some h
  rw [Bool.and_eq_true, beq_iff_eq] at hd
  exact ⟨hmem, hd⟩

theorem last?_eq_none_iff {condition : Declaration → Bool} :
    last? condition ds property = none ↔
      ∀ d ∈ ds, d.property = property → condition d = false := by
  simp [last?]

/-- The last declaration of a property is the last important one, if it is important. -/
theorem last?_important_of_last? (hlast : last? (fun _ => true) ds property = some d)
    (himportant : d.important = true) : last? Declaration.important ds property = some d := by
  induction ds using List.reverseRecOn with
  | nil => cases hlast
  | append_singleton ds e ih =>
    rw [last?_concat] at hlast ⊢
    by_cases hp : e.property = property
    · rw [if_pos ⟨hp, rfl⟩] at hlast
      cases hlast
      rw [if_pos ⟨hp, himportant⟩]
    · rw [if_neg fun h => hp h.1] at hlast ⊢
      exact ih hlast

namespace Winners

/-- Whether an important declaration of a rule is winning for a property. -/
def ruledImportant (w : Winners) (property : String) : Bool :=
  (w.get? property).any fun old => !old.own && old.declaration.important

theorem addStyle_concat (w : Winners) (own : List Declaration) (d : Declaration) :
    w.addStyle (own ++ [d]) = (w.addStyle own).addOwn d := by
  unfold addStyle
  rw [List.foldl_append]
  rfl

/-- What a declaration of the element's own style does to its own property. -/
theorem get?_addOwn_self (w : Winners) (d : Declaration) :
    (w.addOwn d).get? d.property =
      if w.ruledImportant d.property && !d.important then w.get? d.property
      else some { declaration := d, own := true } := by
  rw [get?_addOwn, if_pos rfl]
  unfold ruledImportant
  cases w.get? d.property with
  | none | some old => rfl

/-- An important declaration of a rule stays until the style has an important one. -/
theorem ruledImportant_addStyle (w : Winners) (own : List Declaration) (property : String) :
    (w.addStyle own).ruledImportant property =
      (w.ruledImportant property && (last? Declaration.important own property).isNone) := by
  induction own using List.reverseRecOn with
  | nil => exact (Bool.and_true _).symm
  | append_singleton own d ih =>
    rw [addStyle_concat, last?_concat]
    by_cases hp : d.property = property
    · subst hp
      have hstep : ((w.addStyle own).addOwn d).ruledImportant d.property =
          ((w.addStyle own).ruledImportant d.property && !d.important) := by
        rw [ruledImportant, get?_addOwn_self]
        split
        · rename_i hheld
          rw [hheld]
          exact (Bool.and_eq_true_iff.mp hheld).1
        · rename_i hfree
          rw [Bool.not_eq_true] at hfree
          rw [hfree]
          rfl
      rw [hstep, ih]
      by_cases hd : d.important = true
      · simp [hd]
      · simp [hd]
    · rw [ruledImportant, get?_addOwn, if_neg (Ne.symm hp), ← ruledImportant, ih]
      simp [hp]

/-- After the pass over a style, in which a property may be declared any number of times, the last of
its declarations has won. The exception is a property for which a rule is important and no
declaration of the style is: there the rule has won. -/
theorem get?_addStyle_repeated (w : Winners) (own : List Declaration) (property : String) :
    (w.addStyle own).get? property =
      match last? (fun _ => true) own property with
      | none => w.get? property
      | some d =>
        if w.ruledImportant property && (last? Declaration.important own property).isNone then
          w.get? property
        else some { declaration := d, own := true } := by
  induction own using List.reverseRecOn with
  | nil => rfl
  | append_singleton own d ih =>
    rw [addStyle_concat, last?_concat, last?_concat]
    by_cases hp : d.property = property
    · subst hp
      simp only [and_self, true_and, if_true]
      rw [get?_addOwn_self, ruledImportant_addStyle]
      by_cases hd : d.important = true
      · simp [hd]
      · simp only [hd, Bool.not_false, Bool.and_true, Bool.false_eq_true, if_false]
        split
        · -- The rule has held so far, and holds against this declaration too.
          rename_i hheld
          rw [ih]
          cases last? (fun _ => true) own d.property with
          | none => rfl
          | some e => exact if_pos hheld
        · rfl
    · simp only [hp, false_and, if_false]
      rw [get?_addOwn, if_neg (Ne.symm hp), ih]

/-- A declaration wins for its own property. -/
theorem property_of_get?_merged {ruled own : List Declaration} {v : Winner}
    (h : ((ofRules ruled).addStyle own).get? property = some v) :
    v.declaration.property = property := by
  have hrules : ∀ {v : Winner}, (ofRules ruled).get? property = some v →
      v.declaration.property = property := by
    intro v hv
    rw [get?_ofRules, Option.map_eq_some_iff] at hv
    obtain ⟨d, hd, rfl⟩ := hv
    rcases Option.or_eq_some_iff.mp hd with himportant | ⟨-, hlast⟩
    · exact (last?_spec himportant).2.1
    · exact (last?_spec hlast).2.1
  rw [get?_addStyle_repeated] at h
  split at h
  · exact hrules h
  · rename_i d hlast
    split at h
    · exact hrules h
    · cases h
      exact (last?_spec hlast).2.1

end Winners

/-! ### The style that is written -/

/-- The declarations of the style that rules, weakest first, and an element's own style make. -/
def mergedStyle (rules : List StyleRule) (p : Place) : List Declaration :=
  ((Winners.ofRules (ruled rules p)).addStyle (ownStyle p.tag)).values.map Winner.written

/-- In a map whose values know their keys, the values of a key are the value under it. -/
theorem filter_values {α : Type} {m : OrderedMap α} {f : α → String}
    (h : ∀ key value, m.get? key = some value → f value = key) (key : String) :
    m.values.filter (fun value => f value == key) = (m.get? key).toList := by
  have hentries : ∀ e ∈ m.entries, f e.2 = e.1 := fun e he => h _ _ (lookup_of_mem m.nodup he)
  show (m.entries.map Prod.snd).filter _ = (lookup key m.entries).toList
  have hnodup := m.nodup
  generalize m.entries = entries at hentries hnodup
  induction entries with
  | nil => rfl
  | cons e rest ih =>
    obtain ⟨he, hrest⟩ := List.forall_mem_cons.mp hentries
    rw [List.map_cons, List.nodup_cons] at hnodup
    rw [List.map_cons, List.filter_cons, ih hrest hnodup.2, he]
    by_cases hk : e.1 = key
    · -- No other entry has the key.
      rw [lookup_eq_none (hk ▸ hnodup.1)]
      simp [lookup, hk]
    · simp [lookup, hk]

/-- A style declares each property at most once: as its winner is written. -/
theorem filter_mergedStyle (rules : List StyleRule) (p : Place) (property : String) :
    (mergedStyle rules p).filter (fun d => d.property == property) =
      ((((Winners.ofRules (ruled rules p)).addStyle (ownStyle p.tag)).get? property).map
        Winner.written).toList := by
  have hvalues := filter_values (f := fun v : Winner => v.declaration.property)
    (fun _ _ => Winners.property_of_get?_merged) property
    (m := (Winners.ofRules (ruled rules p)).addStyle (ownStyle p.tag))
  rw [mergedStyle, List.filter_map, Option.toList_map, ← hvalues]
  rfl

/-- An element is left as it is, or gets the style that is merged for it. -/
theorem restyle_eq_or (rules : List StyleRule) (p : Place) :
    restyle rules p = p.tag ∨ restyle rules p =
      p.tag.setAttribute "style" (escapeAttribute (printDeclarations (mergedStyle rules p))) := by
  unfold restyle
  split
  · exact .inl rfl
  · simp only
    split
    · exact .inl rfl
    · exact .inr rfl

/-- If a property has an important declaration in the element's own style, the last declaration of
the property in that style is the one that is written, with its mark if it has one. -/
theorem filter_mergedStyle_of_important (rules : List StyleRule) {p : Place}
    (hd : d ∈ ownStyle p.tag) (hproperty : d.property = property)
    (himportant : d.important = true) :
    ∃ last, last? (fun _ => true) (ownStyle p.tag) property = some last ∧
      (mergedStyle rules p).filter (fun d => d.property == property) = [last] := by
  cases hlast : last? (fun _ => true) (ownStyle p.tag) property with
  | none => cases last?_eq_none_iff.mp hlast d hd hproperty
  | some last =>
    have hsome : (last? Declaration.important (ownStyle p.tag) property).isNone = false := by
      rw [← Bool.not_eq_true, Option.isNone_iff_eq_none]
      intro hnone
      rw [last?_eq_none_iff.mp hnone d hd hproperty] at himportant
      cases himportant
    refine ⟨last, rfl, ?_⟩
    rw [filter_mergedStyle, Winners.get?_addStyle_repeated, hlast, hsome]
    simp [Winner.written]

/-- Whatever the text and the sheets are: an element that inlining gives a new style keeps an
important declaration of its own, with its mark, exactly if the last declaration of the property in
its own style is important. In any case that last declaration is the one that is written for the
property, however important the rules are. -/
theorem importance_kept_iff (html : String) (sheets : List String) :
    let sheet := Sheet.read ("\n".intercalate sheets)
    let given := Document.read html
    let result := given.updateInOrder (restyle sheet.ranked)
    (inlineSheets html sheets).html = (if sheet.rules.isEmpty then html else result.print) ∧
    ∀ i t, given.tags[i]? = some t → result.tags[i]? = some t ∨ ∃ p, p.tag = t ∧
      (given.retag (result.tags.take i)).places[i]? = some p ∧
      result.tags[i]? = some (t.setAttribute "style"
        (escapeAttribute (printDeclarations (mergedStyle sheet.ranked p)))) ∧
      ∀ property, (∃ d ∈ ownStyle t, d.property = property ∧ d.important = true) →
        ∃ last kept, last? (fun _ => true) (ownStyle t) property = some last ∧
          last? Declaration.important (ownStyle t) property = some kept ∧
          (mergedStyle sheet.ranked p).filter (fun d => d.property == property) = [last] ∧
          ((mergedStyle sheet.ranked p).filter (fun d => d.property == property) = [kept] ↔
            last.important = true) := by
  intro sheet given result
  refine ⟨html_inlineSheets html sheets, ?_⟩
  intro i t ht
  have htags : result.tags = (turnsAmong (restyle sheet.ranked) [] [] given.children).map
      (restyle sheet.ranked) := tagsAmong_updateAmong _ _ _ _
  rw [Document.tags, ← map_tag_turnsAmong (restyle sheet.ranked) [] [], List.getElem?_map,
    Option.map_eq_some_iff] at ht
  obtain ⟨p, hturn, rfl⟩ := ht
  have hresult : result.tags[i]? = some (restyle sheet.ranked p) := by
    rw [htags, List.getElem?_map, hturn, Option.map_some]
  have hplace : (given.retag (result.tags.take i)).places[i]? = some p := by
    rw [htags, ← hturn]
    exact (getElem?_turnsAmong _ _ _ _ i).symm
  rw [hresult]
  rcases restyle_eq_or sheet.ranked p with hsame | hnew
  · exact .inl (congrArg some hsame)
  · refine .inr ⟨p, rfl, hplace, congrArg some hnew, ?_⟩
    rintro property ⟨d, hd, hproperty, himportant⟩
    obtain ⟨last, hlast, hwritten⟩ := filter_mergedStyle_of_important sheet.ranked hd
      hproperty himportant
    cases hkept : last? Declaration.important (ownStyle p.tag) property with
    | none =>
      rw [last?_eq_none_iff.mp hkept d hd hproperty] at himportant
      cases himportant
    | some kept =>
      refine ⟨last, kept, hlast, rfl, hwritten, ?_⟩
      rw [hwritten, List.singleton_inj]
      constructor
      · rintro rfl
        exact (last?_spec hkept).2.2
      · -- The last declaration is the last important one if it is important at all.
        intro hlastImportant
        exact Option.some.inj ((last?_important_of_last? hlast hlastImportant).symm.trans hkept)

/-- The text of a link with a style and nothing in it. -/
def styledLink (style : String) : String :=
  "<a style=\"" ++ style ++ "\"></a>"

/-- The document of such a link. -/
def styledLinkDocument (style : String) : Document :=
  { children := [.element (styledTag "a" style) []] }

theorem tags_styledLinkDocument (style : String) :
    (styledLinkDocument style).tags = [styledTag "a" style] := by
  simp [Document.tags, tagsAmong, styledLinkDocument]

theorem read_styledLink {style : String} (hquote : '"' ∉ style.toList)
    (hprint : (styledLinkDocument style).print = styledLink style) :
    Document.read (styledLink style) = styledLinkDocument style := by
  have hne : "style".toList ≠ [] := by decide
  have hchars : "style".toList.all isAttributeNameChar = true := by decide
  have hattribute : (Attribute.mk "style" (some style)).Canonical := by
    refine ⟨hne, List.all_eq_true.mp hchars, ?_⟩
    intro value hvalue
    cases hvalue
    exact .inl hquote
  rw [← hprint]
  exact read_print (.container (by decide) (List.forall_mem_singleton.mpr hattribute) (by decide)
    (by decide) .nil .nil)

/-- What inlining makes of such a link, given what its one rule makes of its tag. -/
theorem updateInOrder_styledLink (css style style' : String)
    (hone : (Sheet.read css).rules.length = 1)
    (hrestyle : restyle (Sheet.read css).rules
      ⟨⟨[], ⟨styledTag "a" style, true⟩, []⟩, []⟩ = styledTag "a" style') :
    (styledLinkDocument style).updateInOrder (restyle (Sheet.read css).ranked) =
      styledLinkDocument style' := by
  have hranked : (Sheet.read css).ranked = (Sheet.read css).rules := by
    obtain ⟨rule, hrule⟩ := List.length_eq_one_iff.mp hone
    rw [Sheet.ranked, hrule, List.mergeSort_singleton]
  rw [hranked]
  simp [Document.updateInOrder, updateAmong, elementsAmong, styledLinkDocument, hrestyle]

/-- A link that declares its colour twice, the second time as important, and a sheet with a rule that
is important too. The link keeps its second colour. -/
theorem contested_importance_kept :
    let style := "color:red;color:blue !important"
    let sheet := Sheet.read ("\n".intercalate ["a\x7bcolor:green !important\x7d"])
    let given := Document.read (styledLink style)
    let result := given.updateInOrder (restyle sheet.ranked)
    given.tags[0]? = some (styledTag "a" style) ∧
    ownStyle (styledTag "a" style) = [⟨"color", "red", false⟩, ⟨"color", "blue", true⟩] ∧
    ∃ p, p.tag = styledTag "a" style ∧
      result.tags[0]? = some ((styledTag "a" style).setAttribute "style"
        (escapeAttribute (printDeclarations (mergedStyle sheet.ranked p)))) ∧
      (mergedStyle sheet.ranked p).filter (fun d => d.property == "color") =
        [⟨"color", "blue", true⟩] := by
  intro style sheet given result
  have hread : given = styledLinkDocument style :=
    read_styledLink (by decide) (by decide +kernel)
  have htag : given.tags[0]? = some (styledTag "a" style) := by
    rw [hread, tags_styledLinkDocument]
    rfl
  have hown : ownStyle (styledTag "a" style) =
      [⟨"color", "red", false⟩, ⟨"color", "blue", true⟩] := by
    decide +kernel
  have hresult : result.tags[0]? = some (styledTag "a" "color:blue !important;") := by
    have hupdate : result = styledLinkDocument "color:blue !important;" := by
      rw [← updateInOrder_styledLink "a\x7bcolor:green !important\x7d" style _ (by decide +kernel)
        (by decide +kernel), ← hread]
      rfl
    rw [hupdate, tags_styledLinkDocument]
    rfl
  refine ⟨htag, hown, ?_⟩
  rcases (importance_kept_iff (styledLink style) ["a\x7bcolor:green !important\x7d"]).2 0 _ htag
    with hsame | ⟨p, hp, -, hnew, hkept⟩
  · have hne : styledTag "a" "color:blue !important;" ≠ styledTag "a" style := by decide
    exact absurd (Option.some.inj (hresult.symm.trans hsame)) hne
  · obtain ⟨last, kept, hlast, hlastImportant, -, hiff⟩ :=
      hkept "color" ⟨⟨"color", "blue", true⟩, by rw [hown]; decide, rfl, rfl⟩
    rw [hown] at hlast hlastImportant
    cases hlast
    cases hlastImportant
    exact ⟨p, hp, hnew, hiff.mpr rfl⟩

/-- A link that declares its colour twice, the first time as important. A rule that says nothing
about colours is enough for the important one to be lost. -/
theorem overridden_importance_lost :
    let style := "color:red !important;color:blue"
    ownStyle (styledTag "a" style) = [⟨"color", "red", true⟩, ⟨"color", "blue", false⟩] ∧
    (inlineSheets (styledLink style) ["a\x7bmargin:0\x7d"]).html =
      styledLink "margin:0;color:blue;" ∧
    ownStyle (styledTag "a" "margin:0;color:blue;") =
      [⟨"margin", "0", false⟩, ⟨"color", "blue", false⟩] := by
  intro style
  refine ⟨by decide +kernel, ?_, by decide +kernel⟩
  have hrules : (Sheet.read "a\x7bmargin:0\x7d").rules.isEmpty = false := by decide +kernel
  have hsheets : "\n".intercalate ["a\x7bmargin:0\x7d"] = "a\x7bmargin:0\x7d" := by
    decide +kernel
  have hread : Document.read (styledLink style) = styledLinkDocument style :=
    read_styledLink (by decide) (by decide +kernel)
  rw [html_inlineSheets, hsheets, hrules, hread,
    updateInOrder_styledLink _ _ "margin:0;color:blue;" (by decide +kernel) (by decide +kernel)]
  decide +kernel

end EmailMarkup.Cascade
