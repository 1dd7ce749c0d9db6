import EmailMarkup.Proofs.Body.Elements
import EmailMarkup.Proofs.Body.Fragment
import EmailMarkup.Proofs.Number.Text
import EmailMarkup.Proofs.OrderedMap

/-!
# Which width a column gets

All columns of a document share one table of media queries, under classes that are made of their
widths. The number of a width can be read off its class again, and so can whether its unit is `%`
(`className_eq_iff`), but all other units look the same. A class stands for the width of the last
column that has it (`get?_mediaQueries`), so a column keeps its own width exactly if the last column
with its number, of those that are shares of their rows or of those that are not, has its unit too
(`column_keeps_width_iff`).
-/

set_option autoImplicit false

namespace EmailMarkup.Body

open EmailMarkup.Html (attributeChar escapeAttribute escapeAttributeChars)
open EmailMarkup.Layout EmailMarkup.Markup EmailMarkup.Text

/-! ### Classes -/

namespace Column

/-- A point for a hyphen. -/
def unhyphenate (c : Char) : Char :=
  if c = '-' then '.' else c

theorem map_unhyphenate {cs : List Char} (h : '-' ∉ cs) : cs.map unhyphenate = cs := by
  induction cs with
  | nil => rfl
  | cons c cs ih =>
    rw [List.mem_cons, not_or] at h
    rw [List.map_cons, ih h.2, unhyphenate, if_neg (Ne.symm h.1)]

/-- The number in a class is the text of the number with a hyphen for its point, and any other
hyphen comes first. -/
theorem classNumber_form (x : Float) :
    ∃ first rest, (classNumber x).toList = first :: rest ∧
      (Number.text x).toList = first :: rest.map unhyphenate := by
  obtain ⟨first, rest, htext, hpoint, hhyphen, -⟩ := Number.text_form x
  unfold classNumber
  simp only
  rw [htext]
  cases hsplit : splitAtMark? ['.'] (first :: rest) with
  | none => exact ⟨first, rest, String.toList_ofList, by rw [map_unhyphenate hhyphen]⟩
  | some sides =>
    obtain ⟨whole, fraction⟩ := sides
    obtain ⟨hsides, -⟩ := splitAtMark?_char_eq_some hsplit
    -- The point is not the first character, so it has something before it.
    cases whole with
    | nil =>
      rw [List.nil_append, List.cons.injEq] at hsides
      exact absurd hsides.1 hpoint
    | cons c whole =>
      rw [List.cons_append, List.cons.injEq] at hsides
      obtain ⟨rfl, rfl⟩ := hsides
      rw [List.mem_append, List.mem_cons, not_or, not_or] at hhyphen
      refine ⟨first, whole ++ '-' :: fraction, String.toList_ofList, ?_⟩
      rw [List.map_append, List.map_cons, map_unhyphenate hhyphen.1, map_unhyphenate hhyphen.2.2]
      rfl

theorem classNumber_eq_iff {x y : Float} :
    classNumber x = classNumber y ↔ Number.text x = Number.text y := by
  constructor
  · intro h
    obtain ⟨first, rest, hclass, htext⟩ := classNumber_form x
    obtain ⟨first', rest', hclass', htext'⟩ := classNumber_form y
    rw [h, hclass', List.cons.injEq] at hclass
    obtain ⟨rfl, rfl⟩ := hclass
    exact String.toList_inj.mp (htext.trans htext'.symm)
  · intro h
    unfold classNumber
    rw [h]

/-- Whether two widths are written with the same number, and are both shares of a row, or both
not. -/
def sameNumber (a b : Width) : Bool :=
  Number.text a.value == Number.text b.value && a.isPercent == b.isPercent

/-- The last of some columns that has the number of a column, and is a share as well, or is none
either. -/
def lastLike? (columns : List Element) (c : Element) : Option Element :=
  (columns.filter fun e => sameNumber (declaredWidth c) (declaredWidth e)).getLast?

/-- The class of a width tells its number and whether it is a share, and nothing more. -/
theorem className_eq_iff (a b : Width) : className a = className b ↔ sameNumber a b = true := by
  rw [sameNumber, Bool.and_eq_true, beq_iff_eq, beq_iff_eq, ← classNumber_eq_iff]
  unfold className
  cases a.isPercent <;> cases b.isPercent <;> simp [← String.toList_inj]

/-! ### Markup -/

theorem escapeAttributeChars_of_isNumberChar {cs : List Char}
    (h : ∀ c ∈ cs, Number.isNumberChar c = true) : escapeAttributeChars cs = cs := by
  induction cs with
  | nil => rfl
  | cons c cs ih =>
    obtain ⟨hc, hcs⟩ := List.forall_mem_cons.mp h
    have hplain : attributeChar c = [c] := by
      unfold attributeChar
      split
      · exact absurd hc (by decide)
      · exact absurd hc (by decide)
      · exact absurd hc (by decide)
      · exact absurd hc (by decide)
      · rfl
    rw [escapeAttributeChars, List.flatMap_cons, hplain]
    exact congrArg (c :: ·) (ih hcs)

/-- A class is written without anything that would have to be escaped. -/
theorem isNumberChar_of_mem_className {w : Width} {c : Char} (h : c ∈ (className w).toList) :
    Number.isNumberChar c = true := by
  have hshare : ∀ c ∈ "mj-column-per-".toList, Number.isNumberChar c = true :=
    List.all_eq_true.mp (by decide)
  have hother : ∀ c ∈ "mj-column-px-".toList, Number.isNumberChar c = true :=
    List.all_eq_true.mp (by decide)
  obtain ⟨first, rest, hclass, htext⟩ := classNumber_form w.value
  rw [className, String.toList_append, List.mem_append, hclass, List.mem_cons] at h
  rcases h with h | rfl | h
  · split at h
    · exact hshare c h
    · exact hother c h
  · exact Number.isNumberChar_of_mem_text (htext ▸ List.mem_cons_self)
  · by_cases hc : c = '-'
    · subst hc
      rfl
    · refine Number.isNumberChar_of_mem_text (x := w.value) (htext ▸ List.mem_cons_of_mem _ ?_)
      exact List.mem_map.mpr ⟨c, h, if_neg hc⟩

/-- The start of the tag of a column. -/
def tagStart (e : Element) : String :=
  "<div class=\"" ++ className (declaredWidth e) ++ " mj-outlook-group-fix"

/-- A column is drawn with its class. -/
theorem tagStart_prefix_draw (row : Float) (e : Element) (children : List Child) :
    (tagStart e).toList <+: (printFragments (draw row e children)).toList := by
  have hclasses : (tagStart e).toList <+:
      ("<div class=\"" ++ escapeAttribute (classes e)).toList := by
    have hclass := escapeAttributeChars_of_isNumberChar fun c hc =>
      isNumberChar_of_mem_className (w := declaredWidth e) hc
    rw [tagStart, classes, escapeAttribute]
    simp only [String.toList_append, String.toList_ofList, escapeAttributeChars,
      List.flatMap_append, List.append_assoc] at hclass ⊢
    rw [hclass]
    refine (List.prefix_append_right_inj _).mpr ((List.prefix_append_right_inj _).mpr ?_)
    exact List.prefix_append (" mj-outlook-group-fix".toList) _
  have htag : ∀ more, ("<div class=\"" ++ escapeAttribute (classes e)).toList <+:
      (Fragment.opening "div" (("class", some (classes e)) :: more)).print.toList := by
    intro more
    refine ⟨("\"" ++ printAttributes more ++ ">").toList, ?_⟩
    simp [Fragment.print, printAttributes, printAttribute]
  show (tagStart e).toList <+: (printFragments (.opening "div" (("class", some (classes e)) ::
    written (slots row e) [("style", .slot "div")]) :: _)).toList
  rw [toList_printFragments_cons]
  exact (hclasses.trans (htag _)).trans (List.prefix_append _ _)

end Column

theorem Notes.mediaQuery_inj {a b : String} : Notes.mediaQuery a = Notes.mediaQuery b ↔ a = b := by
  constructor
  · intro h
    have hlists := String.toList_inj.mpr h
    unfold Notes.mediaQuery at hlists
    simp only [String.toList_append, List.append_assoc] at hlists
    have hlength := congrArg List.length hlists
    simp only [List.length_append] at hlength
    have hrest := List.append_cancel_left hlists
    exact String.toList_inj.mp (List.append_inj hrest (by omega)).1
  · exact congrArg _

/-- A class has the width of the last column that belongs to it. -/
theorem get?_mediaQueries {s : Setting} {width : Float} {siblings : Siblings} {n : Node}
    {d : Drawing} (h : draw s width siblings n = .ok d) (key : String) :
    d.notes.mediaQueries.get? key =
      ((columnsOf s siblings n).filter fun e =>
        Column.className (Column.declaredWidth e) = key).getLast?.map fun e =>
          Notes.mediaQuery (Column.declaredWidth e).text := by
  rw [Notes.mediaQueries, OrderedMap.get?_ofList, columns_draw h, List.map_map, ← List.map_reverse,
    List.getLast?_filter]
  exact OrderedMap.lookup_map _ _ key _

/-- A piece of a drawing is a piece of its text. -/
theorem infix_printFragments {a b : List Fragment} (h : a <:+: b) :
    (printFragments a).toList <:+: (printFragments b).toList := by
  obtain ⟨before, after, rfl⟩ := h
  rw [toList_printFragments_append, toList_printFragments_append]
  exact List.infix_append _ _ _

/-- The class of a column has the width of the last column like it. -/
theorem get?_mediaQueries_className {s : Setting} {width : Float} {siblings : Siblings} {n : Node}
    {d : Drawing} (h : draw s width siblings n = .ok d) (c : Element) :
    d.notes.mediaQueries.get? (Column.className (Column.declaredWidth c)) =
      (Column.lastLike? (columnsOf s siblings n) c).map fun e =>
        Notes.mediaQuery (Column.declaredWidth e).text := by
  have hclasses : ((columnsOf s siblings n).filter fun e =>
      Column.className (Column.declaredWidth e) = Column.className (Column.declaredWidth c)) =
      (columnsOf s siblings n).filter fun e =>
        Column.sameNumber (Column.declaredWidth c) (Column.declaredWidth e) := by
    refine List.filter_congr fun e _ => ?_
    rw [Bool.eq_iff_iff, decide_eq_true_iff, eq_comm, Column.className_eq_iff]
  rw [get?_mediaQueries h, hclasses, Column.lastLike?]

/-- Among columns there is a last one like each of them. -/
theorem Column.exists_lastLike? {columns : List Element} {c : Element} (hc : c ∈ columns) :
    ∃ last, lastLike? columns c = some last ∧ last ∈ columns ∧
      sameNumber (declaredWidth c) (declaredWidth last) = true := by
  have hshared : c ∈ columns.filter fun e => sameNumber (declaredWidth c) (declaredWidth e) :=
    List.mem_filter.mpr ⟨hc, (className_eq_iff _ _).mp rfl⟩
  obtain ⟨last, hlast⟩ := Option.ne_none_iff_exists'.mp
    (mt List.getLast?_eq_none_iff.mp (List.ne_nil_of_mem hshared))
  exact ⟨last, hlast, List.mem_filter.mp (List.mem_of_getLast? hlast)⟩

/-- Every column that is drawn has a tag with its class, and the class stands for the width of the
last column like it. This is the column's own width exactly if that last column has its unit. -/
theorem column_keeps_width_iff (s : Setting) (width : Float) (siblings : Siblings) (n : Node)
    {d : Drawing} {root : Element} {html : String} (hdraw : draw s width siblings n = .ok d)
    (hdrawn : d.drawn? = some (root, html)) {c : Element} (hc : c ∈ columnsOf s siblings n) :
    let own := Column.declaredWidth c
    ("<div class=\"" ++ Column.className own ++ " mj-outlook-group-fix").toList <:+: html.toList ∧
    ∃ last, Column.lastLike? (columnsOf s siblings n) c = some last ∧
      d.notes.mediaQueries.get? (Column.className own) =
        some (Notes.mediaQuery (Column.declaredWidth last).text) ∧
      (d.notes.mediaQueries.get? (Column.className own) = some (Notes.mediaQuery own.text) ↔
        (Column.declaredWidth last).unit = own.unit) := by
  intro own
  constructor
  · obtain ⟨set, hset, ⟨-, rfl⟩ | ⟨e, b, he, hb, rfl⟩⟩ := draw_cases hdraw
    · cases hdrawn
    · cases hdrawn
      obtain ⟨hmem, hkind⟩ := List.mem_filter.mp hc
      obtain ⟨row, children, hinfix⟩ := infix_fragments he hb width c hmem
      rw [Element.draw, of_decide_eq_true hkind] at hinfix
      exact (Column.tagStart_prefix_draw row c children).isInfix.trans (infix_printFragments hinfix)
  · obtain ⟨last, hlast, -, hsame⟩ := Column.exists_lastLike? hc
    have hstored := get?_mediaQueries_className hdraw c
    rw [hlast, Option.map_some] at hstored
    refine ⟨last, hlast, hstored, ?_⟩
    rw [hstored, Option.some.injEq, Notes.mediaQuery_inj]
    -- The two columns have the same number, so their widths differ in the unit at most.
    rw [Column.sameNumber, Bool.and_eq_true, beq_iff_eq] at hsame
    rw [Width.text, Width.text, ← hsame.1]
    exact String.append_right_inj _

/-- A row of columns with given widths. -/
def rowOf (widths : List String) : Node :=
  let column (width : String) : Node :=
    .element "mj-column" (.ofList [("width", width)]) [] "" .start
  .element "mj-section" ∅ (widths.map column) "" .start

/-- A row with two columns of the same number and different units, and one that is a share of it. -/
def crowdedRow : Node :=
  rowOf ["10px", "10em", "50%"]

/-- The columns of the row. -/
theorem entries_crowdedRow :
    (columnsOf coreSetting .single crowdedRow).map Column.entry =
      [("mj-column-px-10", "10px"), ("mj-column-px-10", "10em"), ("mj-column-per-50", "50%")] := by
  decide +kernel

theorem exists_drawn_crowdedRow :
    ∃ d root html, draw coreSetting 600 .single crowdedRow = .ok d ∧
      d.drawn? = some (root, html) := by
  obtain ⟨d, root, html, hdraw, hdrawn, -⟩ :=
    exists_drawn coreSetting 600 .single crowdedRow (fun _ => true) (by decide +kernel)
  exact ⟨d, root, html, hdraw, hdrawn⟩

/-- A column of the row with its entry. -/
theorem exists_column_crowdedRow {entry : String × String}
    (h : entry ∈ [("mj-column-px-10", "10px"), ("mj-column-px-10", "10em"),
      ("mj-column-per-50", "50%")]) :
    ∃ c ∈ columnsOf coreSetting .single crowdedRow, Column.entry c = entry :=
  List.mem_map.mp (entries_crowdedRow ▸ h)

/-- The law for the first column of the row, which is ten pixels wide. -/
theorem crowdedRow_keeps_width_iff :
    ∃ d root html c, draw coreSetting 600 .single crowdedRow = .ok d ∧
      d.drawn? = some (root, html) ∧ c ∈ columnsOf coreSetting .single crowdedRow ∧
      Column.entry c = ("mj-column-px-10", "10px") ∧
      ("<div class=\"" ++ Column.className (Column.declaredWidth c) ++
        " mj-outlook-group-fix").toList <:+: html.toList ∧
      ∃ last, Column.lastLike? (columnsOf coreSetting .single crowdedRow) c = some last ∧
        d.notes.mediaQueries.get? (Column.className (Column.declaredWidth c)) =
          some (Notes.mediaQuery (Column.declaredWidth last).text) ∧
        (d.notes.mediaQueries.get? (Column.className (Column.declaredWidth c)) =
            some (Notes.mediaQuery (Column.declaredWidth c).text) ↔
          (Column.declaredWidth last).unit = (Column.declaredWidth c).unit) := by
  obtain ⟨d, root, html, hdraw, hdrawn⟩ := exists_drawn_crowdedRow
  obtain ⟨c, hc, hentry⟩ := exists_column_crowdedRow List.mem_cons_self
  exact ⟨d, root, html, c, hdraw, hdrawn, hc, hentry,
    column_keeps_width_iff coreSetting 600 .single crowdedRow hdraw hdrawn hc⟩

/-- The class of that column stands for ten em, the width of its neighbour. -/
theorem crowdedRow_loses_width :
    ∃ d root html c, draw coreSetting 600 .single crowdedRow = .ok d ∧
      d.drawn? = some (root, html) ∧ c ∈ columnsOf coreSetting .single crowdedRow ∧
      (Column.declaredWidth c).text = "10px" ∧
      d.notes.mediaQueries.get? (Column.className (Column.declaredWidth c)) =
        some (Notes.mediaQuery "10em") ∧
      d.notes.mediaQueries.get? (Column.className (Column.declaredWidth c)) ≠
        some (Notes.mediaQuery (Column.declaredWidth c).text) := by
  obtain ⟨d, root, html, hdraw, hdrawn⟩ := exists_drawn_crowdedRow
  obtain ⟨c, hc, hentry⟩ := exists_column_crowdedRow List.mem_cons_self
  obtain ⟨hclass, htext⟩ := Prod.mk.injEq .. ▸ hentry
  have hstored : d.notes.mediaQueries.get? "mj-column-px-10" = some (Notes.mediaQuery "10em") := by
    rw [Notes.mediaQueries, columns_draw hdraw, entries_crowdedRow]
    decide +kernel
  refine ⟨d, root, html, c, hdraw, hdrawn, hc, htext, ?_⟩
  rw [hclass, htext, hstored]
  exact ⟨rfl, by decide +kernel⟩

end EmailMarkup.Body
