import EmailMarkup.Proofs.Html.Shape

/-!
# Canonical documents

A document can be written in ways that reading does not give back: two texts side by side become
one, a `<` in a text may open a tag, the content of a void element moves out of it. `Canonical`
lists the nodes for which none of this happens, all with end tags where they can have one, and
`read_print` says that a document of such nodes is read back as it is. It is a case of
`read_print_of_shaped`: canonical nodes are of the shape that reading makes (`Canonical.shaped`) and
hold nothing that would be read as something else (`Canonical.settled`).
-/

set_option autoImplicit false

namespace EmailMarkup.Html

open EmailMarkup.Text

/-! ### Canonical nodes -/

/-- Nodes side by side that are read back as they are written. -/
inductive Canonical : List Node → Prop
  | nil : Canonical []
  | text {content : String} {rest : List Node} (hne : content ≠ "")
      (hplain : '<' ∉ content.toList) (hapart : startsWithText rest = false)
      (hrest : Canonical rest) : Canonical (.text content :: rest)
  | comment {content : String} {rest : List Node} (hopen : ¬ "-->".toList <:+: content.toList)
      (hrest : Canonical rest) : Canonical (.comment content :: rest)
  | declaration {content : String} {rest : List Node} (hform : IsDeclaration content)
      (hrest : Canonical rest) : Canonical (.declaration content :: rest)
  /-- An element that its start tag closes, and that has no end tag therefore. -/
  | selfClosing {name : String} {attributes : List Attribute} {rest : List Node}
      (hname : isTagName name = true) (hattrs : ∀ a ∈ attributes, a.Canonical)
      (hrest : Canonical rest) :
      Canonical (.element { name, attributes, selfClosing := true, closed := false } [] :: rest)
  /-- An element that never has content or an end tag. -/
  | void {name : String} {attributes : List Attribute} {rest : List Node}
      (hname : isTagName name = true) (hattrs : ∀ a ∈ attributes, a.Canonical)
      (hvoid : isVoid name = true) (hrest : Canonical rest) :
      Canonical (.element { name, attributes, selfClosing := false, closed := false } [] :: rest)
  /-- An element whose content is text that does not close it. -/
  | rawText {name : String} {attributes : List Attribute} {content : String} {rest : List Node}
      (hname : isTagName name = true) (hattrs : ∀ a ∈ attributes, a.Canonical)
      (hraw : isRawText name = true)
      (hcontent : ¬ endMark name <:+: lowerChars content.toList) (hrest : Canonical rest) :
      Canonical (.element { name, attributes, selfClosing := false, closed := true }
        (rawChildren content) :: rest)
  /-- Any other element: it has an end tag. -/
  | container {name : String} {attributes : List Attribute} {children rest : List Node}
      (hname : isTagName name = true) (hattrs : ∀ a ∈ attributes, a.Canonical)
      (hvoid : isVoid name = false) (hraw : isRawText name = false)
      (hchildren : Canonical children) (hrest : Canonical rest) :
      Canonical (.element { name, attributes, selfClosing := false, closed := true } children ::
        rest)

/-- A start tag without attributes, of an element that an end tag closes. -/
def plainTag (name : String) : Tag :=
  { name, attributes := [], selfClosing := false, closed := true }

/-- Whether an element of this name is written with two tags and may hold elements. -/
def isContainerName (name : String) : Bool :=
  isTagName name && !isVoid name && !isRawText name

/-- A container without attributes is read back as it is written. -/
theorem Canonical.plain {name : String} {children rest : List Node}
    (hname : isContainerName name = true) (hchildren : Canonical children)
    (hrest : Canonical rest) : Canonical (.element (plainTag name) children :: rest) := by
  simp only [isContainerName, Bool.and_eq_true, Bool.not_eq_true'] at hname
  obtain ⟨⟨htag, hvoid⟩, hraw⟩ := hname
  exact .container htag (fun _ h => nomatch h) hvoid hraw hchildren hrest

/-- Canonical nodes are of the shape that reading makes, with no element left open. -/
theorem Canonical.shaped {nodes : List Node} (h : Canonical nodes) (ended : Bool) :
    Shaped ended [] nodes := by
  have hnames : ∀ {attributes : List Attribute}, (∀ a ∈ attributes, a.Canonical) →
      ∀ a ∈ attributes, a.HasName :=
    fun hattrs a ha => (Attribute.canonical_iff.mp (hattrs a ha)).1
  induction h generalizing ended with
  | nil => exact .nil
  | text hne _ hapart _ ih => exact .text hne hapart (ih ended)
  | comment hopen _ ih => exact .comment hopen (ih ended)
  | declaration hform _ ih => exact .declaration hform (ih ended)
  | selfClosing hname hattrs _ ih =>
    exact .hollow (isElementName_of_isTagName hname) (hnames hattrs) (.inl rfl) (ih ended)
  | void hname hattrs hvoid _ ih =>
    exact .hollow (isElementName_of_isTagName hname) (hnames hattrs) (.inr hvoid) (ih ended)
  | rawText hname hattrs hraw hcontent _ ih =>
    exact .rawText (isElementName_of_isTagName hname) (hnames hattrs) hraw hcontent (ih ended)
  | container hname hattrs hvoid hraw _ _ ihChildren ihRest =>
    exact .container (isElementName_of_isTagName hname) (unpadded_of_isTagName hname)
      (hnames hattrs) hvoid hraw (ihChildren false) (fun _ hn => nomatch hn) (ihRest ended)

/-- Canonical nodes say nothing that would be read as something else. -/
theorem Canonical.settled {nodes : List Node} (h : Canonical nodes) : settled nodes = true := by
  have hquotes : ∀ {attributes : List Attribute}, (∀ a ∈ attributes, a.Canonical) →
      attributes.all Attribute.leavesQuote = true :=
    fun hattrs => List.all_eq_true.mpr fun a ha => (Attribute.canonical_iff.mp (hattrs a ha)).2
  induction h with
  | nil => rw [Html.settled]
  | text _ hplain _ _ ih => simp [Html.settled, plainBefore_of_bracket_notMem hplain, ih]
  | comment _ _ ih | declaration _ _ ih => simpa [Html.settled] using ih
  | selfClosing _ hattrs _ ih | void _ hattrs _ _ ih => simp [Html.settled, hquotes hattrs, ih]
  | rawText _ hattrs hraw _ _ ih => simp [Html.settled, hquotes hattrs, hraw, ih]
  | container _ hattrs _ _ _ _ ihChildren ihRest =>
    simp [Html.settled, hquotes hattrs, ihChildren, ihRest]

/-- A document of canonical nodes is read back as it was written. -/
theorem read_print {d : Document} (h : Canonical d.children) : Document.read d.print = d :=
  read_print_of_shaped (h.shaped true) h.settled

/-- Reading undoes writing on canonical documents, and what was read is written as it was. -/
theorem canonical_round_trip {d : Document} (h : Canonical d.children) :
    Document.read d.print = d ∧ (Document.read d.print).print = d.print := by
  have hread := read_print h
  exact ⟨hread, congrArg Document.print hread⟩

/-- A document with a node of every kind: a value with quotes in it, a bare attribute, elements
without content in both spellings, and raw text with a bracket in it. -/
def mixedDocument : Document :=
  { children := [
      .declaration "<!DOCTYPE html>",
      .comment " a > b ",
      .element { name := "p", attributes := [⟨"title", some "say \"hi\""⟩, ⟨"hidden", none⟩],
                 selfClosing := false, closed := true }
        [.text "one",
         .element { name := "br", attributes := [], selfClosing := false, closed := false } [],
         .text "two",
         .element { name := "hr", attributes := [], selfClosing := true, closed := false } []],
      .element (plainTag "script") [.text "a < b"]] }

/-- The document is canonical, and is read back from what it is written as. -/
theorem mixedDocument_round_trip :
    Canonical mixedDocument.children ∧ Document.read mixedDocument.print = mixedDocument ∧
      (Document.read mixedDocument.print).print = mixedDocument.print := by
  have hattrs : ∀ a ∈ [Attribute.mk "title" (some "say \"hi\""), ⟨"hidden", none⟩],
      a.Canonical := by
    rw [List.forall_mem_cons, List.forall_mem_singleton]
    constructor
    · exact ⟨by decide, List.all_eq_true.mp (by decide), by simp⟩
    · exact ⟨by decide, List.all_eq_true.mp (by decide), by simp⟩
  have hform : IsDeclaration "<!DOCTYPE html>" :=
    ⟨'!', "DOCTYPE html".toList, by decide, by decide, Or.inr ⟨rfl, by decide⟩⟩
  have hchildren : Canonical mixedDocument.children := by
    refine .declaration hform (.comment (by decide) (.container (by decide) hattrs (by decide)
      (by decide) ?_ ?_))
    · refine .text (by decide) (by decide) rfl (.void (by decide) (fun _ h => nomatch h) (by decide)
        (.text (by decide) (by decide) rfl (.selfClosing (by decide) (fun _ h => nomatch h) .nil)))
    · exact @Canonical.rawText "script" [] "a < b" [] (by decide) (fun _ h => nomatch h) (by decide)
        (by decide) .nil
  exact ⟨hchildren, canonical_round_trip hchildren⟩

end EmailMarkup.Html
