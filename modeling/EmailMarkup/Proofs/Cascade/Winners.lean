import EmailMarkup.Cascade.Inline
import EmailMarkup.Proofs.Html.Retag
import EmailMarkup.Proofs.OrderedMap
import Mathlib.Data.List.Induction

/-!
# Which declaration wins

The style of an element is made in one pass over the declarations of the rules that select it and
one over its own style, with a map that is changed on the way. Here the outcome is said without the
passes. Among the rules the last important declaration of a property is the strongest, or the last
one if none is important (`strongest?`). The element's own declaration wins over it, unless it is
important and the own one is not (`winner?`).

`get?_ofRules` and `get?_addStyle` tie the two passes to these definitions. Each rests on what one
declaration does to the map (`get?_addRuled`, `get?_addOwn`). For the first pass the induction is
from the end of the list, since the last declaration is the one that decides. For the second it is
from the front: a property is declared once in the element's own style, so its turn comes once.

`restyle_cascade` puts them together with the style that is written.
-/

set_option autoImplicit false

namespace EmailMarkup.Cascade

open EmailMarkup.Css EmailMarkup.Html EmailMarkup.Text OrderedMap

/-! ### The cascade without a map -/

/-- The last declaration of a property that satisfies a condition. -/
def last? (condition : Declaration → Bool) (ds : List Declaration) (property : String) :
    Option Declaration :=
  ds.reverse.find? fun d => d.property == property && condition d

/-- The strongest declaration of a property among those of rules, weakest first: the last important
one, or the last one if none is important. -/
def strongest? (ds : List Declaration) (property : String) : Option Declaration :=
  (last? Declaration.important ds property).or (last? (fun _ => true) ds property)

/-- The declaration of a property that wins, given those of rules and those of the element's own
style. -/
def winner? (ruled own : List Declaration) (property : String) : Option Winner :=
  match own.find? (·.property == property), strongest? ruled property with
  | some d, some w =>
    if w.important && !d.important then some { declaration := w, own := false }
    else some { declaration := d, own := true }
  | some d, none => some { declaration := d, own := true }
  | none, some w => some { declaration := w, own := false }
  | none, none => none

/-- The text of a winner in a style: only what is the element's own is marked as important. -/
def Winner.text (w : Winner) : String :=
  w.declaration.property ++ ":" ++ w.declaration.value ++
    (if w.own && w.declaration.important then " !important;" else ";")

theorem last?_concat (condition : Declaration → Bool) (ds : List Declaration) (d : Declaration)
    (property : String) :
    last? condition (ds ++ [d]) property =
      if d.property = property ∧ condition d = true then some d
      else last? condition ds property := by
  unfold last?
  rw [List.reverse_append, List.reverse_singleton, List.singleton_append, List.find?_cons]
  by_cases h : d.property = property ∧ condition d = true
  · simp [h.1, h.2]
  · rw [if_neg h]
    split
    · rename_i hboth
      rw [Bool.and_eq_true, beq_iff_eq] at hboth
      exact absurd hboth h
    · rfl

/-- A declaration at the end is the strongest of its property, unless it is not important and an
important one comes before it. -/
theorem strongest?_concat (ds : List Declaration) (d : Declaration) (property : String) :
    strongest? (ds ++ [d]) property =
      if d.property = property then
        if d.important then some d
        else (last? Declaration.important ds property).or (some d)
      else strongest? ds property := by
  unfold strongest?
  rw [last?_concat, last?_concat]
  by_cases hp : d.property = property
  · by_cases hi : d.important = true
    · simp [hp, hi]
    · simp [hp, hi]
  · simp [hp]

theorem isSome_last?_iff (ds : List Declaration) (property : String) :
    (last? (fun _ => true) ds property).isSome = true ↔ ∃ d ∈ ds, d.property = property := by
  simp [last?, List.find?_isSome]

theorem isSome_strongest?_iff (ds : List Declaration) (property : String) :
    (strongest? ds property).isSome = true ↔ ∃ d ∈ ds, d.property = property := by
  rw [← isSome_last?_iff]
  unfold strongest?
  cases himp : last? Declaration.important ds property with
  | none => simp
  | some d =>
    -- An important declaration of the property is in particular a declaration of it.
    have hmem := List.mem_reverse.mp (List.mem_of_find?_eq_some himp)
    have hd := List.find?_some himp
    rw [Bool.and_eq_true, beq_iff_eq] at hd
    have hany := (isSome_last?_iff ds property).mpr ⟨d, hmem, hd.1⟩
    simp [hany]

/-! ### One declaration -/

namespace Winners

/-- What a declaration of a rule changes: its own property, unless an important declaration of that
property stands against it. -/
theorem get?_addRuled (w : Winners) (d : Declaration) (property : String) :
    (w.addRuled d).get? property =
      if property = d.property then
        match w.get? property with
        | some old => if old.declaration.important && !d.important then some old
          else some { declaration := d, own := false }
        | none => some { declaration := d, own := false }
      else w.get? property := by
  unfold addRuled
  by_cases hp : property = d.property
  · subst hp
    cases hold : w.get? d.property with
    | none => simp
    | some old =>
      by_cases hwins : (old.declaration.important && !d.important) = true
      · simp [hwins, hold]
      · simp [hwins]
  · rw [if_neg hp]
    split
    · split
      · rfl
      · exact get?_insert_of_ne w _ hp
    · exact get?_insert_of_ne w _ hp

/-- What a declaration of the element's own style changes: its own property, unless an important
declaration of a rule stands against it. -/
theorem get?_addOwn (w : Winners) (d : Declaration) (property : String) :
    (w.addOwn d).get? property =
      if property = d.property then
        match w.get? property with
        | some old => if !old.own && old.declaration.important && !d.important then some old
          else some { declaration := d, own := true }
        | none => some { declaration := d, own := true }
      else w.get? property := by
  unfold addOwn
  by_cases hp : property = d.property
  · subst hp
    cases hold : w.get? d.property with
    | none => simp
    | some old =>
      by_cases hwins : (!old.own && old.declaration.important && !d.important) = true
      · simp [hwins, hold]
      · simp [hwins]
  · rw [if_neg hp]
    split
    · split
      · rfl
      · rw [get?_insert_of_ne _ _ hp, get?_erase, if_neg hp]
    · exact get?_insert_of_ne w _ hp

/-! ### The two passes -/

theorem ofRules_concat (ds : List Declaration) (d : Declaration) :
    ofRules (ds ++ [d]) = (ofRules ds).addRuled d := by
  unfold ofRules
  rw [List.foldl_append]
  rfl

/-- The first pass finds the strongest declaration of every property. -/
theorem get?_ofRules (ds : List Declaration) (property : String) :
    (ofRules ds).get? property =
      (strongest? ds property).map fun d => { declaration := d, own := false } := by
  induction ds using List.reverseRecOn with
  | nil => rfl
  | append_singleton ds d ih =>
    rw [ofRules_concat, get?_addRuled, strongest?_concat, ih]
    by_cases hp : property = d.property
    · subst hp
      rw [if_pos rfl, if_pos rfl]
      unfold strongest?
      cases himp : last? Declaration.important ds d.property with
      | some w =>
        have hw : w.important = true := by
          have hfound := List.find?_some himp
          exact (Bool.and_eq_true_iff.mp hfound).2
        by_cases hd : d.important = true
        · simp [hw, hd]
        · simp [hw, hd]
      | none =>
        -- Without an important one before it, the declaration wins whatever it is.
        have hnone : ∀ w ∈ last? (fun _ => true) ds d.property, w.important = false := by
          intro w hw
          have hmem := List.mem_of_find?_eq_some hw
          have hfound := List.find?_some hw
          have hnot := List.find?_eq_none.mp himp w hmem
          rw [Bool.and_true] at hfound
          simpa [hfound] using hnot
        cases hlast : last? (fun _ => true) ds d.property with
        | none => by_cases hd : d.important = true <;> simp [hd]
        | some w =>
          have hw := hnone w hlast
          by_cases hd : d.important = true <;> simp [hw, hd]
    · rw [if_neg hp, if_neg (Ne.symm hp)]

/-- The first pass lists the properties that are declared. -/
theorem mem_keys_ofRules {ds : List Declaration} {property : String} :
    property ∈ (ofRules ds).keys ↔ ∃ d ∈ ds, d.property = property := by
  rw [mem_keys_iff, get?_ofRules, Option.isSome_map, isSome_strongest?_iff]

/-- The second pass lets the element's own declaration of a property compete with what the first
pass left, and changes nothing for properties that the element does not declare. -/
theorem get?_addStyle (own : List Declaration) (hown : (own.map Declaration.property).Nodup)
    (w : Winners) (property : String) :
    (w.addStyle own).get? property =
      match own.find? (·.property == property) with
      | some d => (w.addOwn d).get? property
      | none => w.get? property := by
  induction own generalizing w with
  | nil => rfl
  | cons d rest ih =>
    rw [List.map_cons, List.nodup_cons] at hown
    have hstep : w.addStyle (d :: rest) = (w.addOwn d).addStyle rest := rfl
    rw [hstep, ih hown.2, List.find?_cons]
    by_cases hp : d.property = property
    · -- The property is not declared again, so the rest leaves it alone.
      have hrest : rest.find? (·.property == property) = none := by
        refine List.find?_eq_none.mpr fun e he heq => hown.1 ?_
        rw [hp, ← beq_iff_eq.mp heq]
        exact List.mem_map_of_mem he
      rw [hrest]
      simp [hp]
    · have hother : (d.property == property) = false := by simpa using hp
      rw [hother]
      cases rest.find? (·.property == property) with
      | none => simp [get?_addOwn, Ne.symm hp]
      | some e => simp [get?_addOwn, Ne.symm hp]

/-- Both passes together find the winner of every property. -/
theorem get?_merged (ruled own : List Declaration) (hown : (own.map Declaration.property).Nodup)
    (property : String) :
    ((ofRules ruled).addStyle own).get? property = winner? ruled own property := by
  rw [get?_addStyle own hown]
  unfold winner?
  cases hfind : own.find? (·.property == property) with
  | none =>
    rw [get?_ofRules]
    cases strongest? ruled property <;> rfl
  | some d =>
    have hd : d.property = property := by simpa using List.find?_some hfind
    simp only
    rw [get?_addOwn, if_pos hd.symm, get?_ofRules]
    cases strongest? ruled property <;> rfl

/-- The style that winners make is the texts of the winners, one after the other. -/
theorem style_eq (w : Winners) : w.style = String.join (w.values.map Winner.text) := by
  unfold style printDeclarations
  rw [List.map_map]
  refine congrArg String.join (List.map_congr_left fun v _ => ?_)
  show v.written.print = v.text
  unfold Winner.written Declaration.print Winner.text
  rw [Bool.and_comm]

end Winners

/-- Something wins for a property exactly if it is declared. -/
theorem isSome_winner?_iff (ruled own : List Declaration) (property : String) :
    (winner? ruled own property).isSome = true ↔
      (∃ d ∈ ruled, d.property = property) ∨ ∃ d ∈ own, d.property = property := by
  have hown : (own.find? (·.property == property)).isSome = true ↔
      ∃ d ∈ own, d.property = property := by
    simp [List.find?_isSome]
  rw [← isSome_strongest?_iff, ← hown]
  unfold winner?
  cases own.find? (·.property == property) with
  | none => cases strongest? ruled property <;> simp
  | some d =>
    cases strongest? ruled property with
    | none => simp
    | some w =>
      simp only [Option.isSome_some, or_true, iff_true]
      split <;> rfl

/-! ### The style that is written -/

/-- An element that is shown and that a rule has something for is given the style of its winners. -/
theorem restyle_of_ruled {sheet : List StyleRule} {p : Place}
    (hshown : lower p.tag.name ∉ unstyled) (hruled : ruled sheet p ≠ []) :
    restyle sheet p = p.tag.setAttribute "style" (escapeAttribute
      ((Winners.ofRules (ruled sheet p)).addStyle (ownStyle p.tag)).style) := by
  have hsome : (Winners.ofRules (ruled sheet p)).isEmpty = false := by
    obtain ⟨d, rest, hd⟩ := List.exists_cons_of_ne_nil hruled
    have hkey : d.property ∈ (Winners.ofRules (ruled sheet p)).keys :=
      Winners.mem_keys_ofRules.mpr ⟨d, hd ▸ List.mem_cons_self, rfl⟩
    unfold OrderedMap.isEmpty
    rw [List.isEmpty_eq_false_iff]
    intro hnil
    rw [OrderedMap.keys, hnil] at hkey
    cases hkey
  have hcontains : unstyled.contains (lower p.tag.name) = false := by
    rw [← Bool.not_eq_true, List.contains_iff_mem]
    exact hshown
  unfold restyle
  rw [hcontains, if_neg (by decide)]
  simp only [hsome, Bool.false_eq_true, if_false]

theorem attribute?_restyle {sheet : List StyleRule} {p : Place}
    (hshown : lower p.tag.name ∉ unstyled) (hruled : ruled sheet p ≠ []) :
    (restyle sheet p).attribute? "style" = some (escapeAttribute
      ((Winners.ofRules (ruled sheet p)).addStyle (ownStyle p.tag)).style) := by
  rw [restyle_of_ruled hshown hruled]
  exact attribute?_setAttribute _ _ _

/-- The cascade. For all rules, weakest first, and an element's own style in which no property
occurs twice, the merged map lists exactly the properties that are declared, each once, with the
winner of each. An element that a sheet selects with just these rules is given the texts of the
winners as its style: a declaration is marked as important there exactly if it is the element's own
and important. -/
theorem restyle_cascade (rules : List StyleRule) (own : List Declaration)
    (hown : (own.map Declaration.property).Nodup) :
    let ruled := rules.flatMap StyleRule.declarations
    let merged := (Winners.ofRules ruled).addStyle own
    merged.keys.Nodup ∧
    (∀ property, property ∈ merged.keys ↔
      (∃ r ∈ rules, ∃ d ∈ r.declarations, d.property = property) ∨
        ∃ d ∈ own, d.property = property) ∧
    (∀ property, merged.get? property = winner? ruled own property) ∧
    (∀ (sheet : List StyleRule) (p : Place), sheet.filter (·.selector.selects p) = rules →
      ownStyle p.tag = own → lower p.tag.name ∉ unstyled → ruled ≠ [] →
      (restyle sheet p).attribute? "style" = some (escapeAttribute
        (String.join ((merged.keys.filterMap (winner? ruled own)).map Winner.text)))) := by
  intro declared merged
  have hget : ∀ property, merged.get? property = winner? declared own property :=
    Winners.get?_merged declared own hown
  have hnodup : merged.keys.Nodup := merged.nodup_keys
  refine ⟨hnodup, ?_, hget, ?_⟩
  · intro property
    have hdeclared : (∃ d ∈ declared, d.property = property) ↔
        ∃ r ∈ rules, ∃ d ∈ r.declarations, d.property = property := by
      constructor
      · rintro ⟨d, hd, hproperty⟩
        obtain ⟨r, hr, hmem⟩ := List.mem_flatMap.mp hd
        exact ⟨r, hr, d, hmem, hproperty⟩
      · rintro ⟨r, hr, d, hmem, hproperty⟩
        exact ⟨d, List.mem_flatMap.mpr ⟨r, hr, hmem⟩, hproperty⟩
    rw [mem_keys_iff, hget, isSome_winner?_iff, hdeclared]
  · intro sheet p hsheet hstyle hshown hdeclared
    have hruled : ruled sheet p = declared := congrArg (List.flatMap StyleRule.declarations) hsheet
    have hvalues : merged.values = merged.keys.filterMap (winner? declared own) := by
      rw [values_eq_filterMap]
      exact List.filterMap_congr fun property _ => hget property
    rw [attribute?_restyle hshown (hruled ▸ hdeclared), hruled, hstyle, Winners.style_eq]
    show some (escapeAttribute (String.join (merged.values.map Winner.text))) = _
    rw [hvalues]

/-- Three rules and an own style that meet on `color` and `margin`. The important `color` of the
first rule holds against the later rule and against the element, and needs no mark; the own `margin`
is important and keeps its mark. -/
theorem restyle_cascade_paragraph :
    (restyle
      [{ selector := { subject := [.type "p"], context := [] },
         declarations := [⟨"color", "red", true⟩, ⟨"margin", "0", false⟩] },
       { selector := { subject := [.type "a"], context := [] },
         declarations := [⟨"font", "serif", true⟩] },
       { selector := { subject := [.className "x"], context := [] },
         declarations := [⟨"color", "green", false⟩, ⟨"margin", "1px", true⟩] }]
      { row := { before := [], after := [], here :=
          { tag := { name := "p", selfClosing := false, closed := true, attributes :=
              [⟨"class", some "x"⟩, ⟨"style", some "margin:2px !important;color:blue;top:0"⟩] }
            isEmpty := true } }
        above := [] }).attribute? "style" =
      some "color:red;margin:2px !important;top:0;" := by
  refine Eq.trans ((restyle_cascade
    [{ selector := { subject := [.type "p"], context := [] },
       declarations := [⟨"color", "red", true⟩, ⟨"margin", "0", false⟩] },
     { selector := { subject := [.className "x"], context := [] },
       declarations := [⟨"color", "green", false⟩, ⟨"margin", "1px", true⟩] }]
    [⟨"margin", "2px", true⟩, ⟨"color", "blue", false⟩, ⟨"top", "0", false⟩]
    (by decide)).2.2.2 _ _ rfl (by decide +kernel) (by decide +kernel) (by decide)) ?_
  decide +kernel

end EmailMarkup.Cascade
