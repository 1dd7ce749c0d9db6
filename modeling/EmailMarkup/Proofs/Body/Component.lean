import EmailMarkup.Proofs.Body.Drawing
import EmailMarkup.Proofs.Sanitize.Safety

/-!
# What components do to the open elements

A row opens tables for Outlook in one comment and closes them in another, with its columns in
between, and so does a text block with a height. Nothing in such a comment is balanced by itself. A
whole component is: if its children are drawn without opening or closing anything in either
document, then so is the component (`neutral_draw`), whatever its attributes are and whichever of
its variants they choose.

Two things are drawn unescaped. The content of texts and buttons is one, and it is either cleaned,
which leaves it well nested (`moves_sanitize`), or it must have no `<`. The other is the height of a
text block, in the cell that only Outlook sees. `Element.Sound` asks for that much and no more.
-/

set_option autoImplicit false

namespace EmailMarkup.Body

open EmailMarkup.Html EmailMarkup.Outlook EmailMarkup.Sanitize

/-! ### Content -/

/-- The attributes of a profile have ordinary names. -/
theorem isTagName_of_mem_attributes {p : Profile} {name : String} (h : name ∈ p.attributes) :
    isTagName name = true := by
  have hall : ∀ n ∈ Profile.permissive.attributes, isTagName n = true := by decide +kernel
  exact hall name (attributes_mono p.le_permissive name h)

theorem tame_of_keptAttribute {p : Profile} {a : Attribute} (h : KeptAttribute p a) : a.Tame := by
  refine ⟨isTagName_of_mem_attributes (keepsAttribute_iff.mp h.kept).2, ?_⟩
  obtain ⟨value, hvalue, -⟩ := h.escaped
  intro v hv
  rw [hvalue, Option.mem_some_iff] at hv
  subst hv
  exact ⟨notMem_escapeAttribute (by decide) value, notMem_escapeAttribute (by decide) value⟩

/-- Cleaned nodes are written well nested. -/
theorem moves_printNodes {p : Profile} {nodes : List Node} (h : Cleaned p nodes)
    (s : List String) : Moves (printNodes nodes) s s := by
  induction h generalizing s with
  | nil => exact .nil s
  | @text content rest _ ih =>
    rw [printNodes, Node.print]
    refine Moves.append (.text ?_ s) (ih s)
    rw [escapeText, String.toList_ofList]
    exact (bracket_notMem_escapeTextChars content.toList).1
  | hollow hname hattrs _ ih =>
    rw [printNodes, Node.print, if_pos rfl]
    refine Moves.append (Tag.Tame.moves ⟨?_, ?_, ?_⟩ s) (ih s)
    · exact (of_mem_elements hname).1
    · exact (of_mem_elements hname).2.1
    · exact fun a ha => tame_of_keptAttribute (hattrs a ha)
  | @container name attributes children rest hname _ hattrs _ _ ihChildren ihRest =>
    obtain ⟨htag, hraw, -⟩ := of_mem_elements hname
    have htame : Tag.Tame { name, attributes, selfClosing := false, closed := true } :=
      ⟨htag, hraw, fun a ha => tame_of_keptAttribute (hattrs a ha)⟩
    rw [printNodes, Node.print, if_neg (by simp)]
    exact (((htame.moves s).append (ihChildren _)).append (.endTag htag s)).append (ihRest s)

/-- Cleaned text is well nested, whatever it was. -/
theorem moves_sanitize (p : Profile) (html : String) (s : List String) :
    Moves (sanitize p html).toList s s := by
  rw [sanitize, sanitizeWithin, Document.print, String.toList_ofList]
  exact moves_printNodes (cleaned_cleanNodes p _) s

/-- Content that is cleaned, or has no bracket, opens nothing. -/
theorem neutral_content {o : Options} {e : Element}
    (h : o.sanitize.isSome = true ∨ '<' ∉ e.content.toList) :
    Neutral [.verbatim (e.contentHtml o)] := by
  refine neutral_of_moves fun s => ?_
  rw [Fragment.print, Element.contentHtml]
  cases hprofile : o.sanitize with
  | some profile => exact moves_sanitize profile e.content s
  | none =>
    rw [hprofile] at h
    exact .text (h.resolve_left (by decide)) s

/-! ### Components -/

/-- What may be said of an element so that its drawing is well nested. -/
structure Element.Sound (o : Options) (e : Element) : Prop where
  kind : e.kind ≠ .raw
  content : e.kind = .text ∨ e.kind = .button →
    o.sanitize.isSome = true ∨ '<' ∉ e.content.toList
  height : e.kind = .text → ∀ h ∈ e.attr? "height", '"' ∉ h.toList ∧ '<' ∉ h.toList

theorem moves_of_opens {o : Options} {starts : List Fragment} {names : List String}
    (h : Opens o starts names) (s : List String) :
    Moves (printFragments starts).toList s (names.reverse ++ s) := by
  induction h generalizing s with
  | nil => exact moves_nil s
  | @cons name _ _ names hname hproper hrest ih =>
    rw [List.reverse_cons, List.append_assoc]
    exact moves_cons (moves_opening hname hproper.named s) (ih (name :: s))

/-- Whatever components are made of keeps the open elements as they were. -/
theorem composes_neutral (o : Options) : Composes o Neutral where
  nil := neutral_nil
  append ha hb := ha.append hb
  element hname hproper hcontent := neutral_element hname hproper.named hcontent
  scaffold names hopens hcontent := by
    have htags : names.reverse.all isTagName = true := by
      rw [List.all_reverse]
      induction hopens with
      | nil => rfl
      | cons hname _ _ ih => rw [List.all_cons, (of_isContainerName hname).1, ih]; rfl
    exact neutral_scaffold _ (moves_of_opens hopens) hcontent (moves_closings _ htags)
  single hname hraw hproper :=
    neutral_of_moves fun s => moves_single hname hraw hproper.named s

/-- The start tag of the cell of a height. -/
def heightTag (height : String) : Tag where
  name := "td"
  attributes := [⟨"height", some height⟩,
    ⟨"style", some ("vertical-align:top;height:" ++ height ++ ";")⟩]
  selfClosing := false
  closed := true

theorem toList_heightCell {height : String} (hquote : '"' ∉ height.toList) :
    (Text.heightCell height).toList = (heightTag height).printStart := by
  have hstyle : '"' ∉ ("vertical-align:top;height:" ++ height ++ ";").toList := by
    simp [hquote]
  simp only [Tag.printStart, heightTag, List.flatMap_cons, List.flatMap_nil,
    Attribute.print_of_quote_notMem _ hquote, Attribute.print_of_quote_notMem _ hstyle,
    Text.heightCell, String.toList_append, List.append_assoc, List.cons_append, List.nil_append]
  rfl

/-- The cell of a height opens, if the height cannot end the value that it is written in. -/
theorem moves_heightCell {height : String} (hquote : '"' ∉ height.toList)
    (hbracket : '<' ∉ height.toList) (s : List String) :
    Moves (Fragment.verbatim (Text.heightCell height)).print.toList s ("td" :: s) := by
  have hstyle : '"' ∉ ("vertical-align:top;height:" ++ height ++ ";").toList ∧
      '<' ∉ ("vertical-align:top;height:" ++ height ++ ";").toList := by
    simp [hquote, hbracket]
  have hnames : ∀ name ∈ ["height", "style"], isTagName name = true := by decide
  have htag : isTagName "td" = true ∧ isRawText "td" = false := by decide
  have htame : (heightTag height).Tame := by
    refine ⟨htag.1, htag.2, ?_⟩
    intro a ha
    simp only [heightTag, List.mem_cons, List.not_mem_nil, or_false] at ha
    rcases ha with rfl | rfl
    · exact ⟨hnames "height" (by simp), fun v hv => by cases hv; exact ⟨hquote, hbracket⟩⟩
    · exact ⟨hnames "style" (by simp), fun v hv => by cases hv; exact hstyle⟩
  rw [Fragment.print, toList_heightCell hquote]
  exact htame.moves s

/-- A sound element is drawn without opening or closing anything, if its children are. -/
theorem neutral_draw (s : Setting) (width : Float) {e : Element} (he : e.Sound s.options)
    {children : List Child} (hchildren : ∀ c ∈ children, Neutral c.fragments) :
    Neutral (e.draw s width children) := by
  have hcomposes := composes_neutral s.options
  refine hcomposes.draw rfl width (fun hkind => neutral_content (he.content hkind)) ?_
    (fun hkind => absurd hkind he.kind) hchildren
  intro hkind height hattr content hcontent
  obtain ⟨hquote, hbracket⟩ := he.height hkind height hattr
  refine neutral_scaffold (fun s => "td" :: "tr" :: "table" :: s) (fun s => ?_) hcontent
    (moves_closings ["td", "tr", "table"] (by decide))
  exact moves_cons (moves_opening (by decide) (by decide) s)
    (moves_cons (moves_opening (by decide) (by decide) _)
      (moves_cons (moves_heightCell hquote hbracket _) (moves_nil _)))

end EmailMarkup.Body
