import EmailMarkup.Proofs.Html.Canonical
import EmailMarkup.Proofs.Html.Entity
import EmailMarkup.Proofs.Sanitize.Profile

/-!
# A sanitised text is safe when it is read again

The sanitiser judges a tree, but what leaves it is a text, and the mail reader makes a tree of its
own from that text. `Safe` says what this second tree may hold: texts, and elements and attributes
that the profile lists, with values that are harmless once their references are decoded. The main
result, `safe_read_sanitizeWithin`, is that the second tree is safe for every input, every limit on
its length and every profile.

The way there is through the tree that cleaning gives. `Cleaned` describes it exactly as it is
written: texts without a `<`, elements closed either by their start tag or by an end tag, values
escaped for double quotes. Two facts meet in it:

* `canonical_joinTexts`: once neighbouring texts are joined, cleaned nodes are canonical, so reading
  gives them back (`read_sanitizeWithin`). No boundary of a tag or a value has moved.
* `safe_joinTexts`: cleaned nodes are safe, because the judgement was passed on the decoded value
  and decoding undoes the escaping.
-/

set_option autoImplicit false

namespace EmailMarkup.Sanitize

open EmailMarkup.Text EmailMarkup.Html

variable {p : Profile} {nodes : List Node} {a : Attribute}

/-! ### What is safe -/

/-- What a style may not hold, in lower case: the ways in which it runs code. -/
def styleMarks : List String :=
  ["expression(", "javascript:", "behavior:"]

/-- A decoded value that may stand in an attribute of a name: addresses pass the policy for their
kind, and a style does not run code. -/
structure SafeValue (name value : String) : Prop where
  link : name = "href" ∨ name = "background" → linkPolicy.accepts value = true
  media : name = "src" ∨ name = "poster" → mediaPolicy.accepts value = true
  sourceSet : name = "srcset" → ∀ url ∈ candidates value, mediaPolicy.accepts url = true
  style : name = "style" → ∀ mark ∈ styleMarks, ¬ mark.toList <:+: lowerChars value.toList

/-- An attribute that a profile lists, that is no event handler, and whose value is safe as a reader
of the message decodes it. -/
structure SafeAttribute (p : Profile) (a : Attribute) : Prop where
  listed : a.name ∈ p.attributes
  noHandler : ¬ "on".toList <+: a.name.toList
  value : SafeValue a.name (unescape (a.value.getD ""))

/-- Nodes that a message may carry under a profile: texts and listed elements, at every depth. There
is no case for comments and declarations. -/
inductive Safe (p : Profile) : List Node → Prop
  | nil : Safe p []
  | text {content : String} {rest : List Node} (hrest : Safe p rest) :
      Safe p (.text content :: rest)
  | element {tag : Tag} {children rest : List Node} (hname : tag.name ∈ p.elements)
      (hkept : tag.name ∉ droppedElements) (hattrs : ∀ a ∈ tag.attributes, SafeAttribute p a)
      (hchildren : Safe p children) (hrest : Safe p rest) :
      Safe p (.element tag children :: rest)

/-- A style passes the judgement exactly when it holds none of the marks. -/
theorem styleIsSafe_iff {style : List Char} :
    (!occursIn "expression(".toList style && !occursIn "javascript:".toList style &&
      !occursIn "behavior:".toList style) = true ↔
    ∀ mark ∈ styleMarks, ¬ mark.toList <:+: style := by
  simp only [← occursIn_iff, Bool.and_eq_true, Bool.not_eq_true', styleMarks, List.forall_mem_cons,
    Bool.not_eq_true, List.not_mem_nil, false_implies, implies_true, and_true, and_assoc]

/-- The judgement on a value is the one that `SafeValue` spells out. -/
theorem safeValue_iff {name value : String} :
    SafeValue name value ↔ valueIsSafe name value = true := by
  constructor
  · intro h
    unfold valueIsSafe
    simp only [Bool.or_eq_true, beq_iff_eq]
    split
    · exact h.link ‹_›
    split
    · exact h.media ‹_›
    split
    · exact List.all_eq_true.mpr (h.sourceSet ‹_›)
    split
    · exact styleIsSafe_iff.mpr (h.style ‹_›)
    · rfl
  · intro h
    refine ⟨?_, ?_, ?_, ?_⟩
    · rintro (rfl | rfl)
      · exact h
      · exact h
    · rintro (rfl | rfl)
      · exact h
      · exact h
    · rintro rfl
      exact List.all_eq_true.mp h
    · rintro rfl
      exact styleIsSafe_iff.mp h

/-! ### What cleaning gives -/

/-- An attribute as cleaning leaves it: listed, with a safe value that is escaped. -/
structure KeptAttribute (p : Profile) (a : Attribute) : Prop where
  kept : p.keepsAttribute a.name = true
  escaped : ∃ value, a.value = some (escapeAttribute value) ∧ valueIsSafe a.name value = true

/-- Nodes as cleaning leaves them. -/
inductive Cleaned (p : Profile) : List Node → Prop
  | nil : Cleaned p []
  | text {content : String} {rest : List Node} (hrest : Cleaned p rest) :
      Cleaned p (.text (escapeText content) :: rest)
  /-- An element that is written without content. -/
  | hollow {name : String} {attributes : List Attribute} {rest : List Node}
      (hname : name ∈ p.elements) (hattrs : ∀ a ∈ attributes, KeptAttribute p a)
      (hrest : Cleaned p rest) :
      Cleaned p (.element { name, attributes, selfClosing := true, closed := false } [] :: rest)
  /-- An element that is written with its content and an end tag. -/
  | container {name : String} {attributes : List Attribute} {children rest : List Node}
      (hname : name ∈ p.elements) (hcontent : name ∉ withoutContent)
      (hattrs : ∀ a ∈ attributes, KeptAttribute p a) (hchildren : Cleaned p children)
      (hrest : Cleaned p rest) :
      Cleaned p (.element { name, attributes, selfClosing := false, closed := true } children ::
        rest)

/-- What is left of nodes side by side stands side by side. -/
theorem Cleaned.append {a b : List Node} (ha : Cleaned p a) (hb : Cleaned p b) :
    Cleaned p (a ++ b) := by
  induction ha with
  | nil => exact hb
  | text _ ih => exact .text ih
  | hollow hname hattrs _ ih => exact .hollow hname hattrs ih
  | container hname hcontent hattrs hchildren _ _ ih =>
    exact .container hname hcontent hattrs hchildren ih

/-- An attribute that stays is listed, safe and escaped. -/
theorem keptAttribute_of_cleanAttribute? {b : Attribute} (h : cleanAttribute? p a = some b) :
    KeptAttribute p b := by
  unfold cleanAttribute? at h
  simp only at h
  split at h
  · rename_i hkept
    rw [Bool.and_eq_true] at hkept
    cases h
    exact ⟨hkept.1, _, rfl, hkept.2⟩
  · cases h

/-- Cleaning gives cleaned nodes, whatever it is given. -/
theorem cleaned_cleanNodes (p : Profile) (nodes : List Node) : Cleaned p (cleanNodes p nodes) := by
  induction nodes using forest_induction with
  | nil => exact .nil
  | text content rest ih =>
    rw [cleanNodes, cleanNode]
    exact .text ih
  | comment content rest ih | declaration content rest ih => rw [cleanNodes, cleanNode]; exact ih
  | element tag children rest ihChildren ihRest =>
    have hattrs : ∀ a ∈ tag.attributes.filterMap (cleanAttribute? p), KeptAttribute p a := by
      intro a ha
      obtain ⟨b, -, hb⟩ := List.mem_filterMap.mp ha
      exact keptAttribute_of_cleanAttribute? hb
    rw [cleanNodes, cleanNode]
    simp only
    refine Cleaned.append ?_ ihRest
    -- Dropped with its content, or listed, or unwrapped: then the content stands in its place.
    split
    · exact .nil
    split
    · rename_i hlisted
      rw [List.contains_iff_mem] at hlisted
      split
      · exact .hollow hlisted hattrs .nil
      · rename_i hopen
        rw [Bool.or_eq_true, not_or, List.contains_iff_mem] at hopen
        exact .container hlisted hopen.2 hattrs ihChildren .nil
    · exact ihChildren

/-! ### Reading it again -/

/-- A kept attribute is read back as it is written. -/
theorem KeptAttribute.canonical (h : KeptAttribute p a) : a.Canonical := by
  obtain ⟨hne, hchars⟩ := of_mem_attributes (keepsAttribute_iff.mp h.kept).2
  obtain ⟨value, hvalue, -⟩ := h.escaped
  refine ⟨hne, hchars, ?_⟩
  intro v hv
  rw [hvalue, Option.mem_some_iff] at hv
  subst hv
  exact Or.inl (quote_notMem_escapeAttribute value)

/-- A kept attribute is safe as it is decoded. -/
theorem KeptAttribute.safe (h : KeptAttribute p a) : SafeAttribute p a := by
  obtain ⟨hhandler, hlisted⟩ := keepsAttribute_iff.mp h.kept
  obtain ⟨value, hvalue, hsafe⟩ := h.escaped
  refine ⟨hlisted, hhandler, ?_⟩
  rw [hvalue, Option.getD_some, unescape_escapeAttribute]
  exact safeValue_iff.mpr hsafe

/-- Text without a bracket may be put in front of canonical nodes. -/
theorem canonical_consText {content : String} (hplain : '<' ∉ content.toList)
    (h : Canonical nodes) : Canonical (consText content nodes) := by
  unfold consText
  split
  · exact h
  · rename_i hne
    split
    · rename_i next rest
      cases h with
      | text hne' hplain' hapart hrest =>
        refine .text ?_ ?_ hapart hrest
        · intro hempty
          obtain ⟨hcontent, -⟩ : content = "" ∧ next = "" := by simpa using hempty
          exact hne hcontent
        · rw [String.toList_append, List.mem_append, not_or]
          exact ⟨hplain, hplain'⟩
    · rename_i hnot
      refine .text hne hplain ?_ h
      unfold startsWithText
      split
      · exact absurd rfl (hnot _ _)
      · rfl

/-- Cleaned nodes are canonical once neighbouring texts are joined. -/
theorem canonical_joinTexts (h : Cleaned p nodes) : Canonical (joinTexts nodes) := by
  induction h with
  | nil => rw [joinTexts]; exact .nil
  | @text content _ _ ih =>
    rw [joinTexts]
    refine canonical_consText ?_ ih
    rw [escapeText, String.toList_ofList]
    exact (bracket_notMem_escapeTextChars content.toList).1
  | hollow hname hattrs _ ih =>
    rw [joinTexts, joinTexts]
    exact .selfClosing (of_mem_elements hname).1 (fun a ha => (hattrs a ha).canonical) ih
  | container hname hcontent hattrs _ _ ihChildren ihRest =>
    obtain ⟨htag, hraw, -, hvoid⟩ := of_mem_elements hname
    rw [joinTexts]
    refine .container htag (fun a ha => (hattrs a ha).canonical) ?_ hraw ihChildren ihRest
    -- A void element would be read without its content, but those are written without any.
    rw [← Bool.not_eq_true]
    exact fun hv => hcontent (hvoid hv)

theorem safe_consText (content : String) (h : Safe p nodes) : Safe p (consText content nodes) := by
  unfold consText
  split
  · exact h
  split
  · cases h with
    | text hrest => exact .text hrest
  · exact .text h

/-- Cleaned nodes are safe. -/
theorem safe_joinTexts (h : Cleaned p nodes) : Safe p (joinTexts nodes) := by
  induction h with
  | nil => rw [joinTexts]; exact .nil
  | text _ ih => rw [joinTexts]; exact safe_consText _ ih
  | hollow hname hattrs _ ih =>
    rw [joinTexts, joinTexts]
    exact .element hname (of_mem_elements hname).2.2.1 (fun a ha => (hattrs a ha).safe) .nil ih
  | container hname _ hattrs _ _ ihChildren ihRest =>
    rw [joinTexts]
    exact .element hname (of_mem_elements hname).2.2.1 (fun a ha => (hattrs a ha).safe) ihChildren
      ihRest

/-- A sanitised text is read as the cleaned nodes, with neighbouring texts joined. -/
theorem read_sanitizeWithin (limit : Nat) (p : Profile) (html : String) :
    Document.read (sanitizeWithin limit p html) = { children := joinTexts (cleanNodes p
      (Document.read (String.ofList (takeBytes limit html.toList))).children) } := by
  unfold sanitizeWithin
  simp only
  -- From here on it does not matter where the nodes come from.
  generalize (Document.read (String.ofList (takeBytes limit html.toList))).children = nodes
  have hprint : Document.print { children := cleanNodes p nodes } =
      Document.print { children := joinTexts (cleanNodes p nodes) } := by
    rw [Document.print, Document.print, printNodes_joinTexts]
  rw [hprint]
  exact read_print (canonical_joinTexts (cleaned_cleanNodes p nodes))

/-- Whatever is sanitised, under every profile and every limit on the length of the input, the
result read again holds only texts and elements that the profile lists, with attributes that the
profile lists and values that are safe once they are decoded. -/
theorem safe_read_sanitizeWithin (limit : Nat) (p : Profile) (html : String) :
    Safe p (Document.read (sanitizeWithin limit p html)).children := by
  rw [read_sanitizeWithin]
  exact safe_joinTexts (cleaned_cleanNodes p _)

end EmailMarkup.Sanitize
