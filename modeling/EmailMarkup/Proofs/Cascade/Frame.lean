import EmailMarkup.Proofs.Cascade.Turns
import EmailMarkup.Proofs.Html.Entity
import EmailMarkup.Proofs.Html.Reread

/-!
# Inlining touches only styles

Inlining gives a text, and what it has changed is seen when that text is read. For a document that is
written as it was read this is the document as given, in which some elements have another style
(`OnlyStyles`): those that a rule selects when their turn comes, and that are shown. This is
`inlineSheets_touches_only_styles`.

There are two parts to it. What inlining does to the tree is a matter of its tags, one at a time
(`restyle_cases`, `onlyStyles_updateInOrder`). That the tree is read back from what it is written as
follows from the laws on shape: the document was in shape and settled, and a style never holds a
double quote once it is escaped, so the new tags keep it so (`keeps_restyle`, `Shaped.updateAmong`,
`settled_updateAmong`).
-/

set_option autoImplicit false

namespace EmailMarkup.Html

open EmailMarkup.Text

/-! ### Changes that can be read back -/

/-- A tag with other attributes, which can be read back if those of the first can. -/
structure Tag.Keeps (t t' : Tag) : Prop where
  name : t'.name = t.name
  selfClosing : t'.selfClosing = t.selfClosing
  closed : t'.closed = t.closed
  names : (∀ a ∈ t.attributes, a.HasName) → ∀ a ∈ t'.attributes, a.HasName
  quotes : t.attributes.all Attribute.leavesQuote = true →
    t'.attributes.all Attribute.leavesQuote = true

section Update
variable {f : Place → Tag} (hf : ∀ p : Place, p.tag.Keeps (f p))

theorem updateAmong_nil (above : List Row) (before : List Element) :
    updateAmong f above before [] = [] := by
  rw [updateAmong]

theorem startsWithText_updateAmong (above : List Row) (before : List Element) (nodes : List Node) :
    startsWithText (updateAmong f above before nodes) = startsWithText nodes := by
  cases nodes with
  | nil => rw [updateAmong]
  | cons n rest => cases n <;> simp [updateAmong, startsWithText]

theorem updateAmong_rawChildren (above : List Row) (before : List Element) (content : String) :
    updateAmong f above before (rawChildren content) = rawChildren content := by
  unfold rawChildren
  split <;> simp [updateAmong]

include hf

/-- Of an element only the attributes change, and what is in its content and behind it. -/
theorem exists_updateAmong_element (above : List Row) (before : List Element) (tag : Tag)
    (children rest : List Node) :
    ∃ attributes above' before', tag.Keeps { tag with attributes } ∧
      updateAmong f above before (.element tag children :: rest) =
        .element { tag with attributes } (updateAmong f above' [] children) ::
          updateAmong f above before' rest := by
  let here : Element := { tag, isEmpty := children.isEmpty }
  let row : Row := { before, here, after := elementsAmong rest }
  let changed : Element := { here with tag := f { row, above } }
  have hkeeps : tag.Keeps changed.tag := hf { row, above }
  have htag : ∀ {t' : Tag}, tag.Keeps t' → t' = { tag with attributes := t'.attributes } := by
    rintro ⟨name, attributes, selfClosing, closed⟩ ⟨rfl, rfl, rfl, -, -⟩
    rfl
  refine ⟨changed.tag.attributes, { row with here := changed } :: above, changed :: before, ?_, ?_⟩
  · rw [← htag hkeeps]
    exact hkeeps
  · rw [updateAmong, ← htag hkeeps]

/-- Changing tags in this way keeps nodes in shape. -/
theorem Shaped.updateAmong {ended : Bool} {left : List String} {nodes : List Node}
    (h : Shaped ended left nodes) (above : List Row) (before : List Element) :
    Shaped ended left (Html.updateAmong f above before nodes) := by
  induction h generalizing above before with
  | nil =>
    rw [updateAmong_nil]
    exact .nil
  | text hne hapart _ ih =>
    rw [Html.updateAmong]
    · exact .text hne (by rw [startsWithText_updateAmong, hapart]) (ih above before)
    · simp
  | comment hopen _ ih =>
    rw [Html.updateAmong]
    · exact .comment hopen (ih above before)
    · simp
  | declaration hform _ ih =>
    rw [Html.updateAmong]
    · exact .declaration hform (ih above before)
    · simp
  | openDeclaration hform =>
    rw [Html.updateAmong, updateAmong_nil]
    · exact .openDeclaration hform
    · simp
  | hollow hname hattrs hhollow _ ih =>
    obtain ⟨_, _, _, hkeeps, heq⟩ := exists_updateAmong_element hf above before _ [] _
    rw [heq, updateAmong_nil]
    exact .hollow hname (hkeeps.names hattrs) hhollow (ih _ _)
  | @rawText _ _ _ _ content _ hname hattrs hraw hcontent _ ih =>
    obtain ⟨_, _, _, hkeeps, heq⟩ :=
      exists_updateAmong_element hf above before _ (rawChildren content) _
    rw [heq, updateAmong_rawChildren]
    exact .rawText hname (hkeeps.names hattrs) hraw hcontent (ih _ _)
  | @openRawText _ _ content hname hattrs hraw hcontent =>
    obtain ⟨_, _, _, hkeeps, heq⟩ :=
      exists_updateAmong_element hf above before _ (rawChildren content) []
    rw [heq, updateAmong_rawChildren, updateAmong_nil]
    exact .openRawText hname (hkeeps.names hattrs) hraw hcontent
  | container hname hpad hattrs hvoid hraw _ hinner _ ihChildren ihRest =>
    obtain ⟨_, _, _, hkeeps, heq⟩ := exists_updateAmong_element hf above before _ _ _
    rw [heq]
    exact .container hname hpad (hkeeps.names hattrs) hvoid hraw (ihChildren _ _) hinner
      (ihRest _ _)
  | openContainer hname hattrs hvoid hraw _ ih =>
    obtain ⟨_, _, _, hkeeps, heq⟩ := exists_updateAmong_element hf above before _ _ []
    rw [heq, updateAmong_nil]
    exact .openContainer hname (hkeeps.names hattrs) hvoid hraw (ih _ _)

/-- Changing tags in this way leaves nodes settled. -/
theorem settled_updateAmong {nodes : List Node} (h : settled nodes = true) (above : List Row)
    (before : List Element) : settled (updateAmong f above before nodes) = true := by
  induction nodes using forest_induction generalizing above before with
  | nil => rw [updateAmong, settled]
  | text content rest ih =>
    rw [settled, Bool.and_eq_true] at h
    simp [updateAmong, settled, h.1, ih h.2]
  | comment content rest ih | declaration content rest ih =>
    simpa [updateAmong, settled] using ih (by simpa [settled] using h) above before
  | element tag children rest ihChildren ihRest =>
    obtain ⟨_, _, _, hkeeps, heq⟩ := exists_updateAmong_element hf above before tag children rest
    rw [settled, Bool.and_eq_true, Bool.and_eq_true, Bool.or_eq_true] at h
    rw [heq, settled, Bool.and_eq_true, Bool.and_eq_true, Bool.or_eq_true]
    exact ⟨⟨hkeeps.quotes h.1.1, h.1.2.imp_right fun hchildren => ihChildren hchildren _ _⟩,
      ihRest h.2 _ _⟩

end Update

end EmailMarkup.Html

namespace EmailMarkup.Cascade

open EmailMarkup.Css EmailMarkup.Html EmailMarkup.Selector EmailMarkup.Text

/-! ### Attributes -/

/-- Attributes of which the first one named `style`, in any case, is given a value, or at whose end
there is one more if none is. -/
inductive SetsStyle (style : String) : List Attribute → List Attribute → Prop
  | replaced {before : List Attribute} {a : Attribute} {after : List Attribute}
      (hbefore : ∀ b ∈ before, sameName b.name "style" = false)
      (ha : sameName a.name "style" = true) :
      SetsStyle style (before ++ a :: after) (before ++ { a with value := some style } :: after)
  | appended {attributes : List Attribute}
      (hnone : ∀ a ∈ attributes, sameName a.name "style" = false) :
      SetsStyle style attributes (attributes ++ [⟨"style", some style⟩])

theorem SetsStyle.cons {style : String} {a : Attribute} (ha : sameName a.name "style" = false)
    {attributes attributes' : List Attribute} (h : SetsStyle style attributes attributes') :
    SetsStyle style (a :: attributes) (a :: attributes') := by
  cases h with
  | @replaced before b after hbefore hb =>
    exact @SetsStyle.replaced style (a :: before) b after
      (List.forall_mem_cons.mpr ⟨ha, hbefore⟩) hb
  | appended hnone => exact .appended (List.forall_mem_cons.mpr ⟨ha, hnone⟩)

theorem setsStyle_setAttributeIn (style : String) (attributes : List Attribute) :
    SetsStyle style attributes (setAttributeIn "style" style attributes) := by
  induction attributes with
  | nil => exact .appended (by simp)
  | cons a rest ih =>
    rw [setAttributeIn]
    split
    · rename_i ha
      exact @SetsStyle.replaced style [] a rest (by simp) ha
    · rename_i ha
      exact ih.cons (Bool.not_eq_true _ ▸ ha)

/-- A property of attributes is kept, if an attribute with the new value has it. -/
theorem SetsStyle.forall_mem {style : String} {attributes attributes' : List Attribute}
    (h : SetsStyle style attributes attributes') {P : Attribute → Prop}
    (hnew : P ⟨"style", some style⟩) (hvalue : ∀ a, P a → P { a with value := some style })
    (hall : ∀ a ∈ attributes, P a) : ∀ a ∈ attributes', P a := by
  cases h with
  | replaced hbefore ha =>
    rw [List.forall_mem_append, List.forall_mem_cons] at hall ⊢
    exact ⟨hall.1, hvalue _ hall.2.1, hall.2.2⟩
  | appended hnone =>
    rw [List.forall_mem_append, List.forall_mem_singleton]
    exact ⟨hall, hnew⟩

/-! ### Tags -/

/-- A tag with a new style. -/
structure Restyled (t t' : Tag) (style : String) : Prop where
  attributes : SetsStyle style t.attributes t'.attributes
  name : t'.name = t.name
  selfClosing : t'.selfClosing = t.selfClosing
  closed : t'.closed = t.closed

/-- What rules make of an element: it stays as it is, or a rule selects it, it is one that is shown,
and it has a new style in which there is no double quote. -/
theorem restyle_cases (rules : List StyleRule) (p : Place) :
    restyle rules p = p.tag ∨
      (∃ r ∈ rules, r.selector.selects p = true) ∧ unstyled.contains (lower p.tag.name) = false ∧
        ∃ style, '"' ∉ style.toList ∧ Restyled p.tag (restyle rules p) style := by
  unfold restyle
  split
  · exact .inl rfl
  · rename_i hshown
    simp only
    split
    · exact .inl rfl
    · rename_i hwinners
      refine .inr ⟨?_, Bool.not_eq_true _ ▸ hshown, _, quote_notMem_escapeAttribute _,
        ⟨setsStyle_setAttributeIn _ _, rfl, rfl, rfl⟩⟩
      -- Without a rule there would be no declaration, and nothing to win.
      by_contra hnone
      push Not at hnone
      have hruled : ruled rules p = [] := by
        rw [ruled, List.filter_eq_nil_iff.mpr hnone, List.flatMap_nil]
      exact hwinners (by rw [hruled]; rfl)

/-- Rules leave every tag one that can be read back. -/
theorem keeps_restyle (rules : List StyleRule) (p : Place) : p.tag.Keeps (restyle rules p) := by
  rcases restyle_cases rules p with h | ⟨-, -, style, hquote, h⟩
  · rw [h]
    exact ⟨rfl, rfl, rfl, id, id⟩
  · refine ⟨h.name, h.selfClosing, h.closed, ?_, ?_⟩
    · have hne : "style".toList ≠ [] := by decide
      have hchars : "style".toList.all isAttributeNameChar = true := by decide
      exact h.attributes.forall_mem ⟨hne, List.all_eq_true.mp hchars⟩
        fun a ha => ⟨ha.name_ne_nil, ha.name_chars⟩
    · rw [List.all_eq_true, List.all_eq_true]
      have hleaves : ∀ a : Attribute, a.value = some style → a.leavesQuote = true := by
        intro a ha
        simp [Attribute.leavesQuote, ha, hquote]
      exact h.attributes.forall_mem (hleaves _ rfl) fun a _ => hleaves _ rfl

/-! ### Documents -/

/-- The second document is the first with other styles on elements that some rule selects. An element
is looked at when the elements before it have their new tags. -/
structure OnlyStyles (rules : List StyleRule) (given result : Document) : Prop where
  /-- No node is added, removed or moved, and only tags differ. -/
  nodes : result = given.retag result.tags
  length : result.tags.length = given.tags.length
  tags : ∀ i t, given.tags[i]? = some t → ∃ t', result.tags[i]? = some t' ∧
    (t' = t ∨ ∃ p style, (given.retag (result.tags.take i)).places[i]? = some p ∧ p.tag = t ∧
      (∃ r ∈ rules, r.selector.selects p = true) ∧ unstyled.contains (lower t.name) = false ∧
      Restyled t t' style)

theorem onlyStyles_updateInOrder (sheet : Sheet) (d : Document) :
    OnlyStyles sheet.rules d (d.updateInOrder (restyle sheet.ranked)) := by
  let f := restyle sheet.ranked
  have htags : (d.updateInOrder f).tags = (turnsAmong f [] [] d.children).map f :=
    tagsAmong_updateAmong _ _ _ _
  refine ⟨congrArg Document.mk (updateAmong_eq_retagAmong _ _ _ d.children), ?_, ?_⟩
  · rw [htags, List.length_map, length_turnsAmong]
    rfl
  · intro i t ht
    obtain ⟨p, rfl, hplace, htag⟩ := d.exists_shown f ht
    refine ⟨f p, htag, ?_⟩
    refine (restyle_cases sheet.ranked p).imp_right ?_
    rintro ⟨⟨r, hr, hselects⟩, hshown, style, -, hstyle⟩
    exact ⟨p, style, hplace, rfl, ⟨r, List.mem_mergeSort.mp hr, hselects⟩, hshown, hstyle⟩

/-- Without rules nothing changes. -/
theorem updateInOrder_restyle_nil (d : Document) : d.updateInOrder (restyle []) = d := by
  have hkeep : ∀ p, restyle [] p = p.tag := by
    intro p
    rcases restyle_cases [] p with h | ⟨⟨r, hr, -⟩, -⟩
    · exact h
    · cases hr
  exact congrArg Document.mk (updateAmong_eq_self hkeep [] [] d.children)

/-- A document that is written as it was read can be read back when rules have changed its styles. -/
theorem read_print_updateInOrder {html : String} (h : (Document.read html).print = html)
    (rules : List StyleRule) :
    Document.read ((Document.read html).updateInOrder (restyle rules)).print =
      (Document.read html).updateInOrder (restyle rules) := by
  obtain ⟨left, hshaped⟩ := shaped_read html
  exact read_print_of_shaped (hshaped.updateAmong (keeps_restyle rules) [] [])
    (settled_updateAmong (keeps_restyle rules) (settled_of_print_read h) [] [])

/-- Inlining into a document that is written as it was read changes nothing but the styles of
elements that a rule selects, as read back from the text that it gives. Without any rule the text is
the same. -/
theorem inlineSheets_touches_only_styles {html : String} (hsame : (Document.read html).print = html)
    (sheets : List String) :
    let sheet := Sheet.read ("\n".intercalate sheets)
    (sheet.rules = [] → (inlineSheets html sheets).html = html) ∧
      OnlyStyles sheet.rules (Document.read html)
        (Document.read (inlineSheets html sheets).html) := by
  intro sheet
  have hhtml : (inlineSheets html sheets).html = if sheet.rules.isEmpty then html
      else ((Document.read html).updateInOrder (restyle sheet.ranked)).print :=
    html_inlineSheets html sheets
  have hresult : Document.read (inlineSheets html sheets).html =
      (Document.read html).updateInOrder (restyle sheet.ranked) := by
    rw [hhtml]
    split
    · rename_i hempty
      have hranked : sheet.ranked = [] := by
        rw [Sheet.ranked, List.isEmpty_iff.mp hempty, List.mergeSort_nil]
      rw [hranked, updateInOrder_restyle_nil]
    · exact read_print_updateInOrder hsame sheet.ranked
  refine ⟨fun hempty => by rw [hhtml, hempty]; rfl, ?_⟩
  rw [hresult]
  exact onlyStyles_updateInOrder sheet (Document.read html)

/-- Two neighbours, and a sheet with a rule for the second. -/
theorem neighbours_touched_only_in_styles :
    let sheet := Sheet.read ("\n".intercalate ["a + b\x7bcolor:blue\x7d"])
    (Document.read "<a></a><b></b>").print = "<a></a><b></b>" ∧ sheet.rules ≠ [] ∧
      OnlyStyles sheet.rules (Document.read "<a></a><b></b>")
        (Document.read (inlineSheets "<a></a><b></b>" ["a + b\x7bcolor:blue\x7d"]).html) := by
  intro sheet
  have hsame : (Document.read "<a></a><b></b>").print = "<a></a><b></b>" := by
    rw [read_neighbours]
    decide +kernel
  have hrules : sheet.rules.isEmpty = false := by decide +kernel
  refine ⟨hsame, ?_, (inlineSheets_touches_only_styles hsame _).2⟩
  intro hempty
  rw [hempty] at hrules
  cases hrules

end EmailMarkup.Cascade
