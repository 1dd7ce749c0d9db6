import EmailMarkup.Proofs.Body.Elements
import EmailMarkup.Proofs.Body.Fragment

/-!
# The marks of a text block

A text block is drawn as one tag with a style, and the cell for its height in Outlook. Whatever
stands in the style is escaped, so that no attribute of the block adds a bracket or a quote to the
drawing that way (`count_print_block`). The height is also put into the cell, twice and as it is.
So two blocks with the same content are drawn with the same number of brackets and of quotes exactly
if their heights have the same number of them (`count_text_eq_iff`).
-/

set_option autoImplicit false

namespace EmailMarkup.Body

open EmailMarkup.Html EmailMarkup.Layout

/-! ### Attributes -/

/-- A style is not empty if one of its properties has a value. -/
theorem Style.print_ne_empty {style : Style} {property value : String}
    (h : (property, some value) ∈ style) (hvalue : value.isEmpty = false) :
    style.print.isEmpty = false := by
  have hcolon : ':' ∈ style.print.toList := by
    rw [Style.print, String.toList_join, List.flatMap_map, List.mem_flatMap]
    refine ⟨_, h, ?_⟩
    simp [hvalue]
  rw [String.isEmpty_eq_false_iff]
  intro hempty
  rw [hempty] at hcolon
  cases hcolon

/-- An attribute adds the marks of its name and of the quotes around its value, whatever the value
is. -/
theorem count_printAttribute {x : Char} (hx : x = '<' ∨ x = '"') (name value : String) :
    (printAttribute (name, some value)).toList.count x =
      (printAttribute (name, some "")).toList.count x := by
  have hvalue : ∀ v, (escapeAttribute v).toList.count x = 0 := by
    intro v
    refine List.count_eq_zero.mpr (notMem_escapeAttribute ?_ v)
    rcases hx with rfl | rfl
    · exact .inr (.inl rfl)
    · exact .inl rfl
  simp only [printAttribute, String.toList_append, List.count_append, hvalue]

namespace Text

/-! ### The block -/

/-- The tag with the content. -/
def block (o : Options) (e : Element) : List Fragment :=
  Fragment.element "div" (written (slots e) [("style", .slot "text")]) [.verbatim (e.contentHtml o)]

/-- The scaffolding before the tag. -/
def scaffold (height : String) : Fragment :=
  .outlook [.opening "table" heightTable, .bare "tr", .verbatim (heightCell height)]

theorem draw_of_none {o : Options} {e : Element} (h : e.attr? "height" = none) :
    draw o e = block o e := by
  rw [draw, h]
  rfl

theorem draw_of_some {o : Options} {e : Element} {height : String}
    (h : e.attr? "height" = some height) :
    draw o e = scaffold height ::
      block o e ++ [.outlook [.closing "td", .closing "tr", .closing "table"]] := by
  rw [draw, h]
  rfl

/-- The tag always has a style, since the text is always aligned. -/
theorem written_slots (e : Element) :
    ∃ style, written (slots e) [("style", .slot "text")] = [("style", some style)] := by
  obtain ⟨style, hget, halign⟩ : ∃ style, (slots e).get? "text" = some style ∧
      ("text-align", some (Keyword.name (e.keyword "align" Align.left))) ∈ style := by
    refine ⟨_, rfl, ?_⟩
    simp
  have hname : (Keyword.name (e.keyword "align" Align.left)).isEmpty = false := by
    cases e.keyword "align" Align.left <;> rfl
  have hprint := Style.print_ne_empty halign hname
  refine ⟨style.print, ?_⟩
  simp [written, AttributeValue.written, hget, AttributeValue.styled, hprint]

/-- The attributes of a block do not change the marks of its tag. -/
theorem count_print_block {x : Char} (hx : x = '<' ∨ x = '"') (o : Options) (e : Element) :
    (printFragments (block o e)).toList.count x =
      (Fragment.opening "div" [("style", some "")]).print.toList.count x +
        (e.contentHtml o).toList.count x + (Fragment.closing "div").print.toList.count x := by
  obtain ⟨style, hstyle⟩ := written_slots e
  have hopening : (Fragment.opening "div" [("style", some style)]).print.toList.count x =
      (Fragment.opening "div" [("style", some "")]).print.toList.count x := by
    have hattribute := count_printAttribute hx "style" style
    simp only [Fragment.print, printAttributes, List.map_cons, List.map_nil, String.toList_append,
      String.toList_join, List.flatMap_cons, List.flatMap_nil, List.append_nil, List.count_append,
      hattribute]
  rw [block, hstyle, Fragment.element, List.cons_append, List.singleton_append,
    toList_printFragments_cons, toList_printFragments_cons, toList_printFragments_cons,
    List.count_append, List.count_append, List.count_append, hopening,
    show (Fragment.verbatim (e.contentHtml o)).print = e.contentHtml o by rw [Fragment.print]]
  have hend : (printFragments []).toList.count x = 0 := rfl
  omega

/-- The scaffolding has every mark of the height twice. -/
theorem count_print_scaffold (x : Char) (height : String) :
    (scaffold height).print.toList.count x =
      (scaffold "").print.toList.count x + 2 * height.toList.count x := by
  have hcell : ∀ h : String, (heightCell h).toList.count x =
      (heightCell "").toList.count x + 2 * h.toList.count x := by
    intro h
    simp only [heightCell, String.toList_append, List.count_append]
    have hempty : "".toList.count x = 0 := rfl
    omega
  simp only [scaffold, Fragment.print, Outlook.block, printFragments, String.toList_append,
    List.count_append]
  rw [hcell height]
  omega

/-- The height that is put into the cell. -/
def cellHeight (e : Element) : String :=
  (e.attr? "height").getD ""

/-- Text blocks with the same content that both have a height, or both have none, differ in the
number of marks by twice as much as their heights do. -/
theorem count_draw_add {x : Char} (hx : x = '<' ∨ x = '"') {o : Options} {e e' : Element}
    (hcontent : e.content = e'.content) (hheight : e.has "height" = e'.has "height") :
    (printFragments (draw o e)).toList.count x + 2 * (cellHeight e').toList.count x =
      (printFragments (draw o e')).toList.count x + 2 * (cellHeight e).toList.count x := by
  have hblock : (printFragments (block o e)).toList.count x =
      (printFragments (block o e')).toList.count x := by
    rw [count_print_block hx, count_print_block hx, Element.contentHtml, Element.contentHtml,
      hcontent]
  rw [Element.has, Element.has] at hheight
  cases he : e.attr? "height" with
  | none =>
    rw [he, Option.isSome_none, eq_comm, Option.isSome_eq_false_iff, Option.isNone_iff_eq_none]
      at hheight
    rw [cellHeight, cellHeight, he, hheight, draw_of_none he, draw_of_none hheight, hblock]
  | some height =>
    rw [he, Option.isSome_some, eq_comm] at hheight
    obtain ⟨height', he'⟩ := Option.isSome_iff_exists.mp hheight
    rw [cellHeight, cellHeight, he, he', draw_of_some he, draw_of_some he', List.cons_append,
      List.cons_append, toList_printFragments_cons, toList_printFragments_cons,
      toList_printFragments_append, toList_printFragments_append]
    simp only [List.count_append, hblock, count_print_scaffold x height,
      count_print_scaffold x height', Option.getD_some]
    omega

/-- A text block is drawn by itself. -/
theorem html_of_draw {s : Setting} {width : Float} {siblings : Siblings} {n : Markup.Node}
    {d : Drawing} {e : Element} {html : String} (hdraw : Body.draw s width siblings n = .ok d)
    (hdrawn : d.drawn? = some (e, html)) (hkind : e.kind = .text) :
    html = printFragments (draw s.options e) := by
  obtain ⟨set, -, ⟨-, rfl⟩ | ⟨e, b, -, hb, rfl⟩⟩ := draw_cases hdraw
  · cases hdrawn
  · cases hdrawn
    have hblock : blockOf s e n = .ok (.block e {} []) := by
      cases n
      rw [blockOf, hkind]
      rfl
    cases hb.symm.trans hblock
    rw [Block.fragments, Element.draw, hkind]

end Text

/-- Two text blocks with the same content that both have a height, or both have none, are drawn with
the same number of brackets and with the same number of quotes, whatever their other attributes are,
exactly if their heights have the same number of them: each one in a height is drawn twice. -/
theorem count_text_eq_iff (s : Setting) (width width' : Float) (siblings siblings' : Siblings)
    (n n' : Markup.Node) {d d' : Drawing} {e e' : Element} {html html' : String}
    (hdraw : draw s width siblings n = .ok d) (hdrawn : d.drawn? = some (e, html))
    (hkind : e.kind = .text)
    (hdraw' : draw s width' siblings' n' = .ok d') (hdrawn' : d'.drawn? = some (e', html'))
    (hkind' : e'.kind = .text)
    (hcontent : e.content = e'.content) (hheight : e.has "height" = e'.has "height")
    {x : Char} (hx : x = '<' ∨ x = '"') :
    let height := (e.attr? "height").getD ""
    let height' := (e'.attr? "height").getD ""
    html.toList.count x + 2 * height'.toList.count x =
      html'.toList.count x + 2 * height.toList.count x ∧
    (html.toList.count x = html'.toList.count x ↔
      height.toList.count x = height'.toList.count x) := by
  intro height height'
  have hcount := Text.count_draw_add hx (o := s.options) hcontent hheight
  rw [← Text.html_of_draw hdraw hdrawn hkind, ← Text.html_of_draw hdraw' hdrawn' hkind'] at hcount
  refine ⟨hcount, ?_⟩
  show _ ↔ (Text.cellHeight e).toList.count x = (Text.cellHeight e').toList.count x
  omega

/-- A text block with a height. -/
def tallText (height : String) : Markup.Node :=
  .element "mj-text" (.ofList [("height", height)]) [] "<b>Hi</b>" .start

/-- Whether an element is such a block, with the defaults of a text block besides. -/
def isTallText (height : String) (e : Element) : Bool :=
  e.kind = .text && e.content == "<b>Hi</b>" && e.attr? "height" == some height &&
    e.attributes.keys == ["align", "color", "font-family", "font-size", "line-height", "padding",
      "height"] && e.attributes.values.all fun value => !value.isEmpty

theorem isTallText_iff (height : String) (e : Element) :
    isTallText height e = true ↔ e.kind = .text ∧ e.content = "<b>Hi</b>" ∧
      e.attr? "height" = some height ∧
      e.attributes.keys = ["align", "color", "font-family", "font-size", "line-height", "padding",
        "height"] ∧ ∀ value ∈ e.attributes.values, value.isEmpty = false := by
  simp [isTallText, and_assoc]

/-- Two heights with a bracket and a quote each, in different places. -/
theorem count_tallText_eq :
    ∃ d e html d' e' html',
      draw coreSetting 600 .single (tallText "\"<") = .ok d ∧ d.drawn? = some (e, html) ∧
      draw coreSetting 600 .single (tallText "<4\"") = .ok d' ∧ d'.drawn? = some (e', html') ∧
      e.kind = .text ∧ e'.kind = .text ∧ e.content = e'.content ∧
      e.has "height" = e'.has "height" ∧
      html.toList.count '<' = html'.toList.count '<' ∧
      html.toList.count '"' = html'.toList.count '"' := by
  obtain ⟨d, e, html, hdraw, hdrawn, he⟩ :=
    exists_drawn coreSetting 600 .single (tallText "\"<") (isTallText "\"<") (by decide +kernel)
  obtain ⟨d', e', html', hdraw', hdrawn', he'⟩ :=
    exists_drawn coreSetting 600 .single (tallText "<4\"") (isTallText "<4\"") (by decide +kernel)
  obtain ⟨hkind, hcontent, hheight, -⟩ := (isTallText_iff _ _).mp he
  obtain ⟨hkind', hcontent', hheight', -⟩ := (isTallText_iff _ _).mp he'
  have hhas : e.has "height" = e'.has "height" := by
    rw [Element.has, Element.has, hheight, hheight']
    rfl
  have hiff := fun x => count_text_eq_iff coreSetting 600 600 .single .single (tallText "\"<")
    (tallText "<4\"") hdraw hdrawn hkind hdraw' hdrawn' hkind' (hcontent.trans hcontent'.symm)
    hhas (x := x)
  refine ⟨d, e, html, d', e', html', hdraw, hdrawn, hdraw', hdrawn', hkind, hkind',
    hcontent.trans hcontent'.symm, hhas, ?_, ?_⟩
  · refine (hiff '<' (.inl rfl)).2.mpr ?_
    rw [hheight, hheight']
    rfl
  · refine (hiff '"' (.inr rfl)).2.mpr ?_
    rw [hheight, hheight']
    rfl

/-- A height with a bracket and a quote adds two of each to the drawing. -/
theorem count_tallText_ne :
    ∃ d e html d' e' html',
      draw coreSetting 600 .single (tallText "\"<") = .ok d ∧ d.drawn? = some (e, html) ∧
      draw coreSetting 600 .single (tallText "40px") = .ok d' ∧ d'.drawn? = some (e', html') ∧
      e.content = e'.content ∧ e.attributes.keys = e'.attributes.keys ∧
      (∀ value ∈ e.attributes.values ++ e'.attributes.values, value.isEmpty = false) ∧
      html.toList.count '<' = html'.toList.count '<' + 2 ∧
      html.toList.count '"' = html'.toList.count '"' + 2 := by
  obtain ⟨d, e, html, hdraw, hdrawn, he⟩ :=
    exists_drawn coreSetting 600 .single (tallText "\"<") (isTallText "\"<") (by decide +kernel)
  obtain ⟨d', e', html', hdraw', hdrawn', he'⟩ :=
    exists_drawn coreSetting 600 .single (tallText "40px") (isTallText "40px") (by decide +kernel)
  obtain ⟨hkind, hcontent, hheight, hkeys, hvalues⟩ := (isTallText_iff _ _).mp he
  obtain ⟨hkind', hcontent', hheight', hkeys', hvalues'⟩ := (isTallText_iff _ _).mp he'
  have hcount := fun x hx => @Text.count_draw_add x hx coreSetting.options e e'
    (hcontent.trans hcontent'.symm) (by rw [Element.has, Element.has, hheight, hheight']; rfl)
  rw [← Text.html_of_draw hdraw hdrawn hkind, ← Text.html_of_draw hdraw' hdrawn' hkind',
    Text.cellHeight, Text.cellHeight, hheight, hheight'] at hcount
  exact ⟨d, e, html, d', e', html', hdraw, hdrawn, hdraw', hdrawn', hcontent.trans hcontent'.symm,
    hkeys.trans hkeys'.symm, List.forall_mem_append.mpr ⟨hvalues, hvalues'⟩,
    hcount '<' (.inl rfl), hcount '"' (.inr rfl)⟩

end EmailMarkup.Body
