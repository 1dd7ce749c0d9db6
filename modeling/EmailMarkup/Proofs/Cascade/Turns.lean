import EmailMarkup.Proofs.Cascade.Winners
import EmailMarkup.Proofs.Html.Canonical
import EmailMarkup.Proofs.Selector.Style

/-!
# Which rules are merged into an element

Inlining goes through the elements in document order and writes the style of one before it asks
which rules select the next. A rule that asks for the style of an element further up or further left
therefore sees what was just written there. In `<a></a><b></b>` the sheet
`a{color:red}[style]+b{color:blue}` selects no `b`, but once the `a` has its style it does
(`styled_neighbour_matched`).

`inlineSheets_merges_in_turn` says which rules are merged into the element number `i`, for every
text and all sheets: those that select it in the document whose first `i` elements have their new
tags already (`retag`). A rule whose selector asks for no style around the element it names is among
them exactly if it selects the element in the document as given.
-/

set_option autoImplicit false

namespace EmailMarkup.Cascade

open EmailMarkup.Css EmailMarkup.Html EmailMarkup.Selector EmailMarkup.Text

/-- The rules that select the element at a place. -/
def matching (rules : List StyleRule) (p : Place) : List StyleRule :=
  rules.filter fun r => r.selector.selects p

/-- The tag of an element with the declarations of rules, weakest first, merged into its style. -/
def mergeInto (rules : List StyleRule) (t : Tag) : Tag :=
  if unstyled.contains (lower t.name) then t
  else
    let winners := Winners.ofRules (rules.flatMap StyleRule.declarations)
    if winners.isEmpty then t
    else t.setAttribute "style" (escapeAttribute (winners.addStyle (ownStyle t)).style)

theorem restyle_eq_mergeInto (rules : List StyleRule) (p : Place) :
    restyle rules p = mergeInto (matching rules p) p.tag := rfl

/-- Merging declarations into a style changes nothing but the style. -/
theorem sameButStyle_restyle (rules : List StyleRule) (p : Place) :
    SameButStyle (restyle rules p) p.tag := by
  unfold restyle
  split
  · exact .refl p.tag
  · simp only
    split
    · exact .refl p.tag
    · exact .setAttribute p.tag _

/-- In its turn an element has its own tag, and the selectors that ask for no style around it select
it exactly if they do in the document as given. -/
theorem exists_turn {d : Document} {i : Nat} {p : Place} (hp : d.places[i]? = some p)
    (rules : List StyleRule) :
    ∃ q, (turnsAmong (restyle rules) [] [] d.children)[i]? = some q ∧ q.tag = p.tag ∧
      ∀ s : Selector, s.asksStyleAround = false → selects s q = selects s p := by
  have halike := forall₂_turnsAmong (sameButStyle_restyle rules) SameButStyle.refl .nil .nil
    d.children
  obtain ⟨hlength, hget⟩ := List.forall₂_iff_get.mp halike
  obtain ⟨hi, hpi⟩ := List.getElem?_eq_some_iff.mp hp
  have hturn : i < (turnsAmong (restyle rules) [] [] d.children).length := hlength ▸ hi
  obtain ⟨hq, htag⟩ := hget i hturn hi
  have hplace : (placesAmong [] [] d.children).get ⟨i, hi⟩ = p := hpi
  rw [hplace] at hq htag
  exact ⟨_, List.getElem?_eq_getElem hturn, htag, fun s hs => selects_congr hs hq htag⟩

theorem html_inlineSheets (html : String) (sheets : List String) :
    (inlineSheets html sheets).html =
      if (Sheet.read ("\n".intercalate sheets)).rules.isEmpty then html
      else ((Document.read html).updateInOrder
        (restyle (Sheet.read ("\n".intercalate sheets)).ranked)).print := by
  unfold inlineSheets
  simp only
  split
  · rfl
  · rfl

/-- Inlining merges into each element the rules that select it in the document in which the elements
before it have their new tags, and it and the elements after it are as given. A rule that asks for
no style around the element is among them exactly if it selects the element in the document as
given. -/
theorem inlineSheets_merges_in_turn (html : String) (sheets : List String) :
    let sheet := Sheet.read ("\n".intercalate sheets)
    let rules := sheet.ranked
    let given := Document.read html
    let result := given.updateInOrder (restyle rules)
    (inlineSheets html sheets).html = (if sheet.rules.isEmpty then html else result.print) ∧
    ∀ i p, given.places[i]? = some p → ∃ q,
      (given.retag (result.tags.take i)).places[i]? = some q ∧
      result.tags[i]? = some (mergeInto (matching rules q) p.tag) ∧
      ∀ r ∈ rules, r.selector.asksStyleAround = false →
        (r ∈ matching rules q ↔ r ∈ matching rules p) := by
  intro sheet rules given result
  refine ⟨html_inlineSheets html sheets, ?_⟩
  intro i p hp
  obtain ⟨q, hturn, htag, hselects⟩ := exists_turn hp rules
  have htags : result.tags = (turnsAmong (restyle rules) [] [] given.children).map
      (restyle rules) := tagsAmong_updateAmong _ _ _ _
  refine ⟨q, ?_, ?_, ?_⟩
  · rw [htags, ← hturn]
    exact (getElem?_turnsAmong _ _ _ _ i).symm
  · rw [htags, List.getElem?_map, hturn, Option.map_some, restyle_eq_mergeInto, htag]
  · intro r hr hasks
    unfold matching
    rw [List.mem_filter, List.mem_filter, hselects r.selector hasks]

theorem read_neighbours : Document.read "<a></a><b></b>" =
    { children := [.element (plainTag "a") [], .element (plainTag "b") []] } := by
  refine Eq.trans (congrArg Document.read (by decide +kernel)) (read_print ?_)
  exact .plain (by decide) .nil (.plain (by decide) .nil .nil)

/-- The place of the second of the two neighbours. -/
def secondNeighbour : Place :=
  { row := { before := [⟨plainTag "a", true⟩], here := ⟨plainTag "b", true⟩, after := [] }
    above := [] }

theorem places_neighbours :
    (Document.read "<a></a><b></b>").places[1]? = some secondNeighbour := by
  rw [read_neighbours]
  simp [Document.places, placesAmong, elementsAmong, secondNeighbour]

/-- The one rule of the sheet asks for no style, and is merged into the second element. -/
theorem neighbour_merges_in_turn :
    let rules := (Sheet.read ("\n".intercalate ["a + b\x7bcolor:blue\x7d"])).ranked
    let given := Document.read "<a></a><b></b>"
    let result := given.updateInOrder (restyle rules)
    ∃ r q, rules = [r] ∧ (given.retag (result.tags.take 1)).places[1]? = some q ∧
      r ∈ matching rules q ∧
      result.tags[1]? = some (mergeInto (matching rules q) (plainTag "b")) := by
  intro rules given result
  have hranked : rules = (Sheet.read ("\n".intercalate ["a + b\x7bcolor:blue\x7d"])).rules :=
    List.mergeSort_of_pairwise (by decide +kernel)
  obtain ⟨r, hr⟩ : ∃ r, rules = [r] := by
    rw [hranked]
    exact List.length_eq_one_iff.mp (by decide +kernel)
  have hrule : rules.all (fun r => !r.selector.asksStyleAround &&
      r.selector.selects secondNeighbour) = true := by
    rw [hranked]
    decide +kernel
  rw [hr, List.all_cons, Bool.and_eq_true, Bool.and_eq_true, Bool.not_eq_true'] at hrule
  have hmem : r ∈ rules := hr ▸ List.mem_cons_self
  obtain ⟨q, hq, htag, hsame⟩ := (inlineSheets_merges_in_turn "<a></a><b></b>"
    ["a + b\x7bcolor:blue\x7d"]).2 1 secondNeighbour places_neighbours
  have hmatch : r ∈ matching rules secondNeighbour := List.mem_filter.mpr ⟨hmem, hrule.1.2⟩
  exact ⟨r, q, hr, hq, (hsame r hmem hrule.1.1).mpr hmatch, htag⟩

/-- The tag of an element that has a style and no other attribute. -/
def styledTag (name style : String) : Tag :=
  { plainTag name with attributes := [⟨"style", some style⟩] }

/-- A sheet whose second rule asks for the style of the element before. -/
def neighbourSheet : String := "a\x7bcolor:red\x7d[style]+b\x7bcolor:blue\x7d"

/-- No rule selects the second element of the document as given, but one is merged into it, because
the first element has been given a style. -/
theorem styled_neighbour_matched :
    (∃ p, (Document.read "<a></a><b></b>").places[1]? = some p ∧
      matching (Sheet.read neighbourSheet).ranked p = []) ∧
    (inlineSheets "<a></a><b></b>" [neighbourSheet]).html =
      "<a style=\"color:red;\"></a><b style=\"color:blue;\"></b>" := by
  -- The rules are in the order of their weight as they are written.
  have hranked : (Sheet.read neighbourSheet).ranked = (Sheet.read neighbourSheet).rules :=
    List.mergeSort_of_pairwise (by decide +kernel)
  have hfirst : restyle (Sheet.read neighbourSheet).rules
      ⟨⟨[], ⟨plainTag "a", true⟩, [⟨plainTag "b", true⟩]⟩, []⟩ = styledTag "a" "color:red;" := by
    decide +kernel
  have hsecond : restyle (Sheet.read neighbourSheet).rules
      ⟨⟨[⟨styledTag "a" "color:red;", true⟩], ⟨plainTag "b", true⟩, []⟩, []⟩ =
      styledTag "b" "color:blue;" := by
    decide +kernel
  have hupdate : (Document.read "<a></a><b></b>").updateInOrder
      (restyle (Sheet.read neighbourSheet).rules) =
      { children := [.element (styledTag "a" "color:red;") [],
        .element (styledTag "b" "color:blue;") []] } := by
    rw [read_neighbours]
    simp [Document.updateInOrder, updateAmong, elementsAmong, hfirst, hsecond]
  have hsheets : "\n".intercalate [neighbourSheet] = neighbourSheet := by decide +kernel
  refine ⟨⟨secondNeighbour, places_neighbours, ?_⟩, ?_⟩
  · rw [hranked, ← List.length_eq_zero_iff]
    decide +kernel
  · rw [html_inlineSheets, hsheets, hranked, hupdate]
    decide +kernel

end EmailMarkup.Cascade
