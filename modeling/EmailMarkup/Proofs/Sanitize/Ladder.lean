import EmailMarkup.Proofs.Html.ReadShape
import EmailMarkup.Proofs.Sanitize.Safety
import Mathlib.Data.String.Basic

/-!
# Sanitising again

Sanitising a text under one profile and the result under another is sanitising it once, under the
lower of the two (`sanitizeWithin_sanitizeWithin`). With one profile twice this says that a
sanitised text is left as it is.

On trees the law is exact: cleaning cleaned nodes is cleaning once (`cleanNodes_cleanNodes`). It
needs that elements which cannot have content have none, because such an element is written without
content when the first profile lists it, but would leave its content behind when the lower one does
not; documents that were read satisfy it.

Between the two passes the tree is written and read, which joins texts that were separated by a tag
or a comment. Escaping the joined text gives the same characters as escaping its parts, since every
part is escaped already and no reference begins in one part and ends in the next
(`printNodes_cleanNodes_joinTexts`).
-/

set_option autoImplicit false

namespace EmailMarkup.Sanitize

open EmailMarkup.Text EmailMarkup.Html

/-! ### Cleaning a tree twice -/

/-- Cleaning goes node by node. -/
theorem cleanNodes_append (p : Profile) (a b : List Node) :
    cleanNodes p (a ++ b) = cleanNodes p a ++ cleanNodes p b := by
  induction a with
  | nil => rw [cleanNodes]; rfl
  | cons n a ih => rw [List.cons_append, cleanNodes, ih, cleanNodes, List.append_assoc]

/-- An attribute that stays twice is one that stays under the lower profile. -/
theorem cleanAttribute?_cleanAttribute? (p q : Profile) (a : Attribute) :
    (cleanAttribute? q a).bind (cleanAttribute? p) = cleanAttribute? (min p q) a := by
  unfold cleanAttribute?
  simp only [keepsAttribute_min]
  cases hq : q.keepsAttribute (lower a.name) with
  | false => simp
  | true =>
    cases hsafe : valueIsSafe (lower a.name) (unescape (a.value.getD "")) with
    | false => simp
    | true => simp [hsafe]

section Element
variable {p : Profile} {tag : Tag} (children : List Node)

/-- Nothing stays of an element that goes together with its content. -/
theorem cleanNode_of_dropped (hdropped : lower tag.name ∈ droppedElements) :
    cleanNode p (.element tag children) = [] := by
  rw [cleanNode]
  simp only [List.contains_iff_mem]
  rw [if_pos hdropped]

/-- The content stays of any other element that the profile does not list. -/
theorem cleanNode_of_unlisted (hdropped : lower tag.name ∉ droppedElements)
    (hunlisted : lower tag.name ∉ p.elements) :
    cleanNode p (.element tag children) = cleanNodes p children := by
  rw [cleanNode]
  simp only [List.contains_iff_mem]
  rw [if_neg hdropped, if_neg hunlisted]

/-- A listed element that closes itself, or never has content, stays without content. -/
theorem cleanNode_of_hollow (hlisted : lower tag.name ∈ p.elements)
    (hhollow : tag.selfClosing = true ∨ lower tag.name ∈ withoutContent) :
    cleanNode p (.element tag children) =
      [.element { name := lower tag.name,
                  attributes := tag.attributes.filterMap (cleanAttribute? p),
                  selfClosing := true, closed := false } []] := by
  rw [cleanNode]
  simp only [List.contains_iff_mem, Bool.or_eq_true]
  rw [if_neg (of_mem_elements hlisted).2.2.1, if_pos hlisted, if_pos hhollow]

/-- Any other listed element stays, with what stays of its content. -/
theorem cleanNode_of_listed (hlisted : lower tag.name ∈ p.elements)
    (hhollow : ¬ (tag.selfClosing = true ∨ lower tag.name ∈ withoutContent)) :
    cleanNode p (.element tag children) =
      [.element { name := lower tag.name,
                  attributes := tag.attributes.filterMap (cleanAttribute? p),
                  selfClosing := false, closed := true } (cleanNodes p children)] := by
  rw [cleanNode]
  simp only [List.contains_iff_mem, Bool.or_eq_true]
  rw [if_neg (of_mem_elements hlisted).2.2.1, if_pos hlisted, if_neg hhollow]

end Element

@[simp]
theorem cleanNodes_nil (p : Profile) : cleanNodes p [] = [] := by
  rw [cleanNodes]

@[simp]
theorem cleanNodes_singleton (p : Profile) (n : Node) : cleanNodes p [n] = cleanNode p n := by
  rw [cleanNodes, cleanNodes_nil, List.append_nil]

/-- Attributes that stay twice are those that stay under the lower profile. -/
theorem filterMap_cleanAttribute? (p q : Profile) (attributes : List Attribute) :
    (attributes.filterMap (cleanAttribute? q)).filterMap (cleanAttribute? p) =
      attributes.filterMap (cleanAttribute? (min p q)) := by
  rw [List.filterMap_filterMap]
  simp only [cleanAttribute?_cleanAttribute?]

/-- Cleaning what stays of an element is cleaning it once under the lower profile, if that holds of
its content and an element that cannot have content has none. -/
theorem cleanNodes_cleanNode_element (p q : Profile) {tag : Tag} {children : List Node}
    (hempty : tag.isHollow = true → children = [])
    (hchildren : cleanNodes p (cleanNodes q children) = cleanNodes (min p q) children) :
    cleanNodes p (cleanNode q (.element tag children)) =
      cleanNode (min p q) (.element tag children) := by
  -- The cases of `cleanNode` under `q`, and in each of the last two whether `p` lists the element.
  by_cases hdropped : lower tag.name ∈ droppedElements
  · rw [cleanNode_of_dropped children hdropped, cleanNode_of_dropped children hdropped,
      cleanNodes_nil]
  by_cases hq : lower tag.name ∈ q.elements
  case neg =>
    have hmin : lower tag.name ∉ (min p q).elements :=
      fun h => hq ((mem_min_iff elements_mono).mp h).2
    rw [cleanNode_of_unlisted children hdropped hq, cleanNode_of_unlisted children hdropped hmin,
      hchildren]
  by_cases hhollow : tag.selfClosing = true ∨ lower tag.name ∈ withoutContent
  case pos =>
    rw [cleanNode_of_hollow children hq hhollow, cleanNodes_singleton]
    by_cases hp : lower tag.name ∈ p.elements
    · have hmin := (mem_min_iff elements_mono).mpr ⟨hp, hq⟩
      rw [cleanNode_of_hollow children hmin hhollow,
        cleanNode_of_hollow [] (by rwa [lower_lower]) (Or.inl rfl), lower_lower,
        filterMap_cleanAttribute?]
    · have hmin : lower tag.name ∉ (min p q).elements :=
        fun h => hp ((mem_min_iff elements_mono).mp h).1
      -- The element goes in the second pass, and its content was given up in the first one.
      have hnone : children = [] := by
        apply hempty
        rw [Tag.isHollow, Bool.or_eq_true]
        rcases hhollow with h | h
        · exact Or.inl h
        · exact Or.inr (isVoid_of_mem_withoutContent h)
      rw [cleanNode_of_unlisted children hdropped hmin, hnone,
        cleanNode_of_unlisted [] (by rwa [lower_lower]) (by rwa [lower_lower]), cleanNodes_nil,
        cleanNodes_nil]
  case neg =>
    rw [cleanNode_of_listed children hq hhollow, cleanNodes_singleton]
    by_cases hp : lower tag.name ∈ p.elements
    · have hmin := (mem_min_iff elements_mono).mpr ⟨hp, hq⟩
      -- The first pass gave the element an end tag, so the second one reads on into its content.
      have hcontent : ¬ (false = true ∨ lower (lower tag.name) ∈ withoutContent) := by
        rw [lower_lower]
        rintro (h | h)
        · cases h
        · exact hhollow (Or.inr h)
      rw [cleanNode_of_listed children hmin hhollow,
        cleanNode_of_listed _ (by rwa [lower_lower]) hcontent, lower_lower,
        filterMap_cleanAttribute?, hchildren]
    · have hmin : lower tag.name ∉ (min p q).elements :=
        fun h => hp ((mem_min_iff elements_mono).mp h).1
      rw [cleanNode_of_unlisted children hdropped hmin,
        cleanNode_of_unlisted _ (by rwa [lower_lower]) (by rwa [lower_lower]), hchildren]

/-- Cleaning twice is cleaning once under the lower profile. -/
theorem cleanNodes_cleanNodes (p q : Profile) {nodes : List Node} (h : HollowsEmpty nodes) :
    cleanNodes p (cleanNodes q nodes) = cleanNodes (min p q) nodes := by
  induction h with
  | nil => simp
  | text _ ih | comment _ ih | declaration _ ih => simp [cleanNodes, cleanNode, ih]
  | element hempty _ _ ihChildren ihRest =>
    rw [cleanNodes, cleanNodes_append, ihRest, cleanNodes_cleanNode_element p q hempty ihChildren,
      cleanNodes]

/-! ### Joined texts -/

/-- Escaped text in front of nodes is written in front of what stays of them, whether or not it is
joined with their first text. -/
theorem printNodes_cleanNodes_consText (p : Profile) (s : String) (nodes : List Node) :
    printNodes (cleanNodes p (consText (escapeText s) nodes)) =
      (escapeText s).toList ++ printNodes (cleanNodes p nodes) := by
  unfold consText
  split
  · rename_i hempty
    rw [hempty]
    rfl
  split
  · -- Joined with the first text: escaping passes over the part that is escaped already.
    rename_i next rest
    simp [cleanNodes, cleanNode, printNodes, Node.print, escapeText_append]
  · simp [cleanNodes, cleanNode, printNodes, Node.print]

/-- What stays of an element is written by what stays of its content. -/
theorem printNodes_cleanNode_congr (p : Profile) (tag : Tag) {a b : List Node}
    (h : printNodes (cleanNodes p a) = printNodes (cleanNodes p b)) :
    printNodes (cleanNode p (.element tag a)) = printNodes (cleanNode p (.element tag b)) := by
  by_cases hdropped : lower tag.name ∈ droppedElements
  · rw [cleanNode_of_dropped a hdropped, cleanNode_of_dropped b hdropped]
  by_cases hlisted : lower tag.name ∈ p.elements
  case neg =>
    rw [cleanNode_of_unlisted a hdropped hlisted, cleanNode_of_unlisted b hdropped hlisted, h]
  by_cases hhollow : tag.selfClosing = true ∨ lower tag.name ∈ withoutContent
  · rw [cleanNode_of_hollow a hlisted hhollow, cleanNode_of_hollow b hlisted hhollow]
  · rw [cleanNode_of_listed a hlisted hhollow, cleanNode_of_listed b hlisted hhollow]
    simp [printNodes, Node.print, h]

/-- Joining the texts of cleaned nodes does not change how they are written when they are cleaned
again. -/
theorem printNodes_cleanNodes_joinTexts (p : Profile) {q : Profile} {nodes : List Node}
    (h : Cleaned q nodes) :
    printNodes (cleanNodes p (joinTexts nodes)) = printNodes (cleanNodes p nodes) := by
  induction h with
  | nil => rw [joinTexts]
  | text _ ih =>
    rw [joinTexts, printNodes_cleanNodes_consText, ih]
    simp [cleanNodes, cleanNode, printNodes, Node.print]
  | hollow _ _ _ ih =>
    rw [joinTexts, joinTexts, cleanNodes, cleanNodes, printNodes_append, printNodes_append, ih]
  | container _ _ _ _ _ ihChildren ihRest =>
    rw [joinTexts, cleanNodes, cleanNodes, printNodes_append, printNodes_append, ihRest,
      printNodes_cleanNode_congr p _ ihChildren]

/-! ### Sanitising twice -/

/-- The bytes of a text are those of its characters. -/
theorem utf8ByteSize_eq_byteLength (s : String) : s.utf8ByteSize = byteLength s.toList := by
  have hlen : ∀ cs : List Char, String.utf8Len cs = byteLength cs := by
    intro cs
    induction cs with
    | nil => rfl
    | cons c cs ih => rw [String.utf8Len_cons, byteLength, ih, Nat.add_comm]
  rw [← hlen, ← String.utf8ByteSize_ofList, String.ofList_toList]

/-- A text within the limit is taken whole. -/
theorem takeBytes_of_le {limit : Nat} {cs : List Char} (h : byteLength cs ≤ limit) :
    takeBytes limit cs = cs := by
  induction cs generalizing limit with
  | nil => rw [takeBytes]
  | cons c cs ih =>
    rw [byteLength] at h
    rw [takeBytes, if_pos (by omega), ih (by omega)]

/-- A text within the limit is read as a whole. -/
theorem sanitizeWithin_of_le {limit : Nat} (p : Profile) {html : String}
    (h : html.utf8ByteSize ≤ limit) :
    sanitizeWithin limit p html =
      Document.print { children := cleanNodes p (Document.read html).children } := by
  rw [utf8ByteSize_eq_byteLength] at h
  rw [sanitizeWithin, takeBytes_of_le h, String.ofList_toList]

/-- Sanitising under one profile and then under another is sanitising once under the lower of the
two, as long as the limit cuts off neither the input nor what is handed on. -/
theorem sanitizeWithin_sanitizeWithin (limit : Nat) (p q : Profile) (html : String)
    (hinput : html.utf8ByteSize ≤ limit)
    (hbetween : (sanitizeWithin limit q html).utf8ByteSize ≤ limit) :
    sanitizeWithin limit p (sanitizeWithin limit q html) = sanitizeWithin limit (min p q) html := by
  have hread := read_sanitizeWithin limit q html
  rw [takeBytes_of_le (utf8ByteSize_eq_byteLength html ▸ hinput), String.ofList_toList] at hread
  rw [sanitizeWithin_of_le p hbetween, hread, sanitizeWithin_of_le (min p q) hinput]
  have hcleaned := cleaned_cleanNodes q (Document.read html).children
  have hhollow := hollowsEmpty_read html
  generalize (Document.read html).children = nodes at hcleaned hhollow ⊢
  -- What is left is about trees: reading joined the texts, and cleaning settles the rest.
  calc Document.print ⟨cleanNodes p (joinTexts (cleanNodes q nodes))⟩
      = Document.print ⟨cleanNodes p (cleanNodes q nodes)⟩ := by
        rw [Document.print, Document.print, printNodes_cleanNodes_joinTexts p hcleaned]
    _ = Document.print ⟨cleanNodes (min p q) nodes⟩ := by
        rw [cleanNodes_cleanNodes p q hhollow]

/-- The widest profile keeps the container and the narrowest unwraps it, so that the texts on both
sides of its start tag meet in the result. -/
theorem sanitizeWithin_strict_permissive :
    ("A &am<div>p; B<br></div>".utf8ByteSize ≤ 64 ∧
      (sanitizeWithin 64 .permissive "A &am<div>p; B<br></div>").utf8ByteSize ≤ 64) ∧
    sanitizeWithin 64 .strict (sanitizeWithin 64 .permissive "A &am<div>p; B<br></div>") =
      sanitizeWithin 64 (min .strict .permissive) "A &am<div>p; B<br></div>" := by
  have hinput : "A &am<div>p; B<br></div>".utf8ByteSize ≤ 64 := by decide +kernel
  have hbetween : (sanitizeWithin 64 .permissive "A &am<div>p; B<br></div>").utf8ByteSize ≤ 64 := by
    decide +kernel
  exact ⟨⟨hinput, hbetween⟩, sanitizeWithin_sanitizeWithin 64 .strict .permissive _ hinput hbetween⟩

end EmailMarkup.Sanitize
