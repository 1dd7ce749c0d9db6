import EmailMarkup.Proofs.Body.Fragment

/-!
# Attributes are read back

A component gives its attributes as values of several kinds, some of which leave the attribute out.
`printAttributes_read_back` says what a start tag with these attributes is read as, for all values
and styles: the attributes that are not left out, in order, each with the text it was given once the
value is decoded. No value can end its quotes, and so none can add an attribute or end the tag.

`leftOut` and `ReadsAs` say which attributes are there and what they say. They go by the kinds of
values and not by how the attributes are written.
-/

set_option autoImplicit false

namespace EmailMarkup.Body

open EmailMarkup.Html EmailMarkup.Text

/-- Whether a value leaves its attribute out: nothing, a flag that is off, a style the component does
not have, or a style without any declaration. -/
def leftOut (slots : Slots) : AttributeValue → Bool
  | .absent => true
  | .flag on => !on
  | .text _ => false
  | .slot name => (slots.get? name).all fun s => s.print == ""
  | .style s => s.print == ""

/-- An attribute that was read has the name of a pair and says what the pair was given. -/
inductive ReadsAs (slots : Slots) : String × AttributeValue → Attribute → Prop
  | flag {name : String} : ReadsAs slots (name, .flag true) ⟨name, none⟩
  | text {name content value : String} (hvalue : unescape value = content) :
      ReadsAs slots (name, .text content) ⟨name, some value⟩
  | slot {name slot value : String} {s : Style} (hslot : slots.get? slot = some s)
      (hvalue : unescape value = s.print) : ReadsAs slots (name, .slot slot) ⟨name, some value⟩
  | style {name value : String} {s : Style} (hvalue : unescape value = s.print) :
      ReadsAs slots (name, .style s) ⟨name, some value⟩

/-- A pair is left out, or its attribute reads as it was given. -/
theorem written_cases (slots : Slots) (pair : String × AttributeValue) :
    leftOut slots pair.2 = true ∧ pair.2.written slots = none ∨
      leftOut slots pair.2 = false ∧ ∃ v, pair.2.written slots = some v ∧
        ReadsAs slots pair (attributeOf (pair.1, v)) := by
  obtain ⟨name, value⟩ := pair
  have hstyled : ∀ s : Style, (s.print == "") = true ∧ AttributeValue.styled s = none ∨
      (s.print == "") = false ∧ AttributeValue.styled s = some (some s.print) := by
    intro s
    unfold AttributeValue.styled
    split
    · rename_i hempty
      exact .inl ⟨by rw [String.isEmpty_iff.mp hempty]; rfl, rfl⟩
    · rename_i hshown
      exact .inr ⟨beq_eq_false_iff_ne.mpr (mt String.isEmpty_iff.mpr hshown), rfl⟩
  cases value with
  | absent => exact .inl ⟨rfl, rfl⟩
  | flag on =>
    cases on with
    | false => exact .inl ⟨rfl, rfl⟩
    | true => exact .inr ⟨rfl, none, rfl, .flag⟩
  | text content => exact .inr ⟨rfl, some content, rfl, .text (unescape_escapeAttribute content)⟩
  | slot slot =>
    cases hslot : slots.get? slot with
    | none => exact .inl ⟨by simp [leftOut, hslot], by simp [AttributeValue.written, hslot]⟩
    | some s =>
      rcases hstyled s with ⟨hempty, hnone⟩ | ⟨hshown, hsome⟩
      · exact .inl ⟨by rw [leftOut, hslot]; exact hempty,
          by rw [AttributeValue.written, hslot]; exact hnone⟩
      · exact .inr ⟨by rw [leftOut, hslot]; exact hshown, _,
          by rw [AttributeValue.written, hslot]; exact hsome,
          .slot hslot (unescape_escapeAttribute _)⟩
  | style s =>
    rcases hstyled s with ⟨hempty, hnone⟩ | ⟨hshown, hsome⟩
    · exact .inl ⟨hempty, hnone⟩
    · exact .inr ⟨hshown, _, hsome, .style (unescape_escapeAttribute _)⟩

/-- The attributes that are written are those that are not left out. -/
theorem forall₂_written (slots : Slots) (pairs : List (String × AttributeValue)) :
    List.Forall₂ (ReadsAs slots) (pairs.filter fun pair => !leftOut slots pair.2)
      ((written slots pairs).map attributeOf) := by
  induction pairs with
  | nil => exact .nil
  | cons pair rest ih =>
    rw [List.filter_cons]
    rcases written_cases slots pair with ⟨hout, hnone⟩ | ⟨hshown, v, hsome, hreads⟩
    · have hskip : written slots (pair :: rest) = written slots rest := by simp [written, hnone]
      rw [hskip, hout]
      exact ih
    · have hkeep : written slots (pair :: rest) = (pair.1, v) :: written slots rest := by
        simp [written, hsome]
      rw [hkeep, hshown]
      exact .cons hreads ih

/-- A start tag whose attributes were written is read as one open element with these attributes. -/
theorem read_startTag {attributes : List (String × Option String)}
    (hnames : ∀ a ∈ attributes, (attributeOf a).HasName) :
    Document.read ("<x" ++ printAttributes attributes ++ ">") =
      { children := [.element { name := "x", attributes := attributes.map attributeOf,
                                selfClosing := false, closed := false } []] } := by
  have hquotes : (attributes.map attributeOf).all Attribute.leavesQuote = true := by
    rw [List.all_eq_true]
    intro a ha
    obtain ⟨⟨name, value⟩, -, rfl⟩ := List.mem_map.mp ha
    cases value with
    | none => rfl
    | some v => simp [attributeOf, Attribute.leavesQuote, quote_notMem_escapeAttribute v]
  let d : Document :=
    { children := [.element { name := "x", attributes := attributes.map attributeOf,
                              selfClosing := false, closed := false } []] }
  have hprint : d.print = "<x" ++ printAttributes attributes ++ ">" := by
    rw [← String.toList_inj]
    simp [d, Document.print, printNodes, Node.print, Tag.printStart, Tag.printEnd,
      toList_printAttributes]
  have hshaped : Shaped true ["x"] d.children :=
    .openContainer (by decide) (List.forall_mem_map.mpr hnames) (by decide) (by decide) .nil
  rw [← hprint]
  exact read_print_of_shaped hshaped (by simp [d, settled, hquotes])

/-- Attributes that a component gives are read back, for all their values and all styles. The names
must be such that no blank, equals sign, bracket or slash ends them. -/
theorem printAttributes_read_back {pairs : List (String × AttributeValue)}
    (hnames : ∀ pair ∈ pairs, pair.1 ≠ "" ∧
      ∀ c ∈ pair.1.toList, isAsciiBlank c = false ∧ c ≠ '=' ∧ c ≠ '>' ∧ c ≠ '/')
    (slots : Slots) :
    ∃ attributes,
      Document.read ("<x" ++ printAttributes (written slots pairs) ++ ">") =
        { children := [.element { name := "x", attributes, selfClosing := false,
                                  closed := false } []] } ∧
      List.Forall₂ (ReadsAs slots) (pairs.filter fun pair => !leftOut slots pair.2) attributes := by
  refine ⟨(written slots pairs).map attributeOf, read_startTag ?_, forall₂_written slots pairs⟩
  intro a ha
  obtain ⟨pair, hpair, hwritten⟩ := List.mem_filterMap.mp ha
  obtain ⟨v, -, rfl⟩ := Option.map_eq_some_iff.mp hwritten
  obtain ⟨hne, hchars⟩ := hnames pair hpair
  refine ⟨mt String.toList_eq_nil_iff.mp hne, ?_⟩
  intro c hc
  obtain ⟨hblank, hequals, hbracket, hslash⟩ := hchars c hc
  simp [isAttributeNameChar, hblank, hequals, hbracket, hslash]

/-- One pair of every kind: a name and a value that look like markup, flags, and styles with and
without declarations. -/
def awkwardPairs : List (String × AttributeValue) :=
  [("a\"<b", .text "\" c='&amp;'><d e=\""), ("hidden", .flag true), ("open", .flag false),
    ("title", .absent), ("style", .slot "box"), ("lang", .slot "none"),
    ("dir", .style [("color", none)])]

/-- Their attributes are read back: the text, the flag and the style of the box. -/
theorem awkwardPairs_read_back :
    let slots : Slots := { entries := [("box", [("font-family", some "\"A B\"")])] }
    (∀ pair ∈ awkwardPairs, pair.1 ≠ "" ∧
      ∀ c ∈ pair.1.toList, isAsciiBlank c = false ∧ c ≠ '=' ∧ c ≠ '>' ∧ c ≠ '/') ∧
    ∃ attributes,
      Document.read ("<x" ++ printAttributes (written slots awkwardPairs) ++ ">") =
        { children := [.element { name := "x", attributes, selfClosing := false,
                                  closed := false } []] } ∧
      List.Forall₂ (ReadsAs slots) (awkwardPairs.filter fun pair => !leftOut slots pair.2)
        attributes := by
  intro slots
  have hnames : ∀ pair ∈ awkwardPairs, pair.1 ≠ "" ∧
      ∀ c ∈ pair.1.toList, isAsciiBlank c = false ∧ c ≠ '=' ∧ c ≠ '>' ∧ c ≠ '/' := by
    simp [awkwardPairs, isAsciiBlank]
  exact ⟨hnames, printAttributes_read_back hnames slots⟩

end EmailMarkup.Body
