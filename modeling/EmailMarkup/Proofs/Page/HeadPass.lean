import EmailMarkup.Page.Compile
import EmailMarkup.Proofs.Fallible
import EmailMarkup.Proofs.Head.LastWord

/-!
# The pass over the head

The first pass over a document takes in the elements of its head. Those that belong there are
resolved and handled, in document order (`takenFrom`); what is passed through and what is misplaced
leaves the tables alone. So the pass leaves what the elements have said last
(`head_pass_last_word`).

A later element may say something about what an earlier one has set. The statement is therefore
about the whole list of elements and not about each of them, and the induction adds one at its end.
-/

set_option autoImplicit false

namespace EmailMarkup.Page

open EmailMarkup.Component EmailMarkup.Markup EmailMarkup.HeadState

/-- An element with its resolved attributes, if it belongs into a head. -/
def taken? (r : Registry) (o : Options) (n : Node) : Option Taken :=
  (r.get? n.tag).bind fun spec =>
    match spec.kind with
    | .head kind => (spec.schema.resolve o.level none n).result.toOption.map fun resolved =>
        { kind, node := n, attributes := resolved.1 }
    | _ => none

/-- The elements of the first head that belong there, in document order. -/
def takenFrom (r : Registry) (o : Options) (root : Node) : List Taken :=
  ((root.child? "mj-head").elim [] Node.children).filterMap (taken? r o)

/-- One element of the head is handled if it belongs there. -/
theorem lastWord_takeHeadElement {r : Registry} {o : Options} {pass next : HeadPass} {n : Node}
    {elements : List Taken} (h : LastWord elements pass.head)
    (hnext : takeHeadElement r o pass n = .ok next) :
    LastWord (elements ++ (taken? r o n).toList) next.head := by
  unfold takeHeadElement at hnext
  unfold taken?
  cases hspec : r.get? n.tag with
  | none =>
    rw [hspec] at hnext
    cases hnext
    rw [Option.bind_none, Option.toList_none, List.append_nil]
    exact h
  | some spec =>
    rw [hspec] at hnext
    simp only at hnext
    rw [Option.bind_some]
    cases hkind : spec.kind with
    | head kind =>
      rw [hkind] at hnext
      obtain ⟨resolved, hresolved, rfl⟩ := exists_of_map hnext
      rw [hresolved]
      exact h.handle { kind, node := n, attributes := resolved.1 }
    | body kind | structural =>
      rw [hkind] at hnext
      simp only at hnext ⊢
      rw [Option.toList_none, List.append_nil]
      -- What is passed through is gathered apart from the tables.
      split at hnext
      · cases hnext
        exact ⟨⟨h.defaults.tags, h.defaults.classes, h.defaults.classTags⟩,
          ⟨h.selectors.values, h.selectors.listed⟩, h.styles, h.inlineStyles⟩
      · cases hnext
        exact h

/-- Elements of the head, one after the other. -/
theorem lastWord_foldlM {r : Registry} {o : Options} {pass next : HeadPass} {nodes : List Node}
    {elements : List Taken} (h : LastWord elements pass.head)
    (hnext : nodes.foldlM (takeHeadElement r o) pass = .ok next) :
    LastWord (elements ++ nodes.filterMap (taken? r o)) next.head := by
  induction nodes generalizing elements pass with
  | nil =>
    cases hnext
    rw [List.filterMap_nil, List.append_nil]
    exact h
  | cons n nodes ih =>
    rw [List.foldlM_cons] at hnext
    obtain ⟨middle, hmiddle, hrest⟩ := exists_of_bind hnext
    have hfirst := ih (lastWord_takeHeadElement h hmiddle) hrest
    rw [List.append_assoc] at hfirst
    have hsplit : (n :: nodes).filterMap (taken? r o) =
        (taken? r o n).toList ++ nodes.filterMap (taken? r o) := by
      rw [List.filterMap_cons]
      cases taken? r o n with
      | none => rfl
      | some e => rfl
    rw [hsplit]
    exact hfirst

/-- Whatever elements of the head are handled, in whatever order, the tables have in the end what
was said last, and an element of one kind changes nothing that another kind is about. The pass over
the head of a document handles the elements that belong there, in document order, so the same holds
of what it leaves. -/
theorem head_pass_last_word (r : Registry) (o : Options) :
    (∀ elements : List Taken, LastWord elements ((HeadState.initial o).handleAll elements)) ∧
    (∀ (s : HeadState) (e : Taken), SameBut e.kind s (s.handle e.kind e.node e.attributes)) ∧
    ∀ (root : Node) (reports : List Diagnostic) (pass : HeadPass),
      takeHead r o root { head := initialHead o root, reports } = .ok pass →
        LastWord (takenFrom r o root) pass.head := by
  refine ⟨?_, fun s e => sameBut_handle s e.kind e.node e.attributes, ?_⟩
  · intro elements
    exact (LastWord.initial o).handleAll elements
  · intro root reports pass hpass
    -- The language and the direction are not in the tables.
    have hstart : LastWord [] (initialHead o root) := by
      have hinitial := LastWord.initial o
      exact ⟨⟨hinitial.defaults.tags, hinitial.defaults.classes, hinitial.defaults.classTags⟩,
        ⟨hinitial.selectors.values, hinitial.selectors.listed⟩, rfl, rfl⟩
    unfold takeHead at hpass
    unfold takenFrom
    cases hhead : root.child? "mj-head" with
    | none =>
      rw [hhead] at hpass
      cases hpass
      exact hstart
    | some head =>
      rw [hhead] at hpass
      exact lastWord_foldlM hstart hpass

/-- An element without text. -/
def withChildren (tag : String) (attributes : List (String × String)) (children : List Node) :
    Node :=
  .element tag (.ofList attributes) children "" .start

/-- An element with text only. -/
def withText (tag : String) (attributes : List (String × String)) (content : String) : Node :=
  .element tag (.ofList attributes) [] content .start

/-- A document whose head says most things twice. -/
def insistentLetter : Node :=
  withChildren "mjml" [] [withChildren "mj-head" [] [
    withChildren "mj-attributes" [] [
      withChildren "mj-text" [("color", "red"), ("padding", "0")] [],
      withChildren "mj-class" [("name", "note"), ("color", "grey")] [
        withChildren "mj-text" [("align", "left")] []]],
    withText "mj-style" [] " p{margin:0} ",
    withText "mj-style" [("inline", "inline")] "a{color:red}",
    withChildren "mj-html-attributes" [] [
      withChildren "mj-selector" [("path", " .note ")] [
        withText "mj-html-attribute" [("name", "role")] "none",
        withText "mj-html-attribute" [("name", "role")] "note"]],
    withChildren "mj-attributes" [] [
      withChildren "mj-text" [("color", "blue")] [],
      withChildren "mj-class" [("name", "note")] [
        withChildren "mj-text" [("align", "right")] []]]]]

/-- The second word on a colour, on an alignment and on a role counts, and what is said once
stays. -/
theorem insistent_letter_last_word :
    ∃ pass, takeHead .core {} insistentLetter
        { head := initialHead {} insistentLetter, reports := [] } = .ok pass ∧
      pass.head.tagAttributes.value? "mj-text" "color" = some "blue" ∧
      pass.head.tagAttributes.value? "mj-text" "padding" = some "0" ∧
      pass.head.classes.value? "note" "color" = some "grey" ∧
      pass.head.classes.value? "note" "name" = none ∧
      pass.head.classTag? "note" "mj-text" "align" = some "right" ∧
      pass.head.htmlAttributes.value? ".note" "role" = some "note" ∧
      pass.head.styles = ["p{margin:0}"] ∧ pass.head.inlineStyles = ["a{color:red}"] := by
  have htaken : (takeHead .core {} insistentLetter
      { head := initialHead {} insistentLetter, reports := [] }).isOk = true := by decide +kernel
  cases hpass : takeHead .core {} insistentLetter
      { head := initialHead {} insistentLetter, reports := [] } with
  | error failure =>
    rw [hpass] at htaken
    exact absurd htaken Bool.false_ne_true
  | ok pass =>
    have hlast := (head_pass_last_word .core {}).2.2 insistentLetter [] pass hpass
    refine ⟨pass, rfl, ?_, ?_, ?_, ?_, ?_, ?_, ?_, ?_⟩
    · rw [hlast.defaults.tags]
      decide +kernel
    · rw [hlast.defaults.tags]
      decide +kernel
    · rw [hlast.defaults.classes]
      decide +kernel
    · rw [hlast.defaults.classes]
      decide +kernel
    · rw [hlast.defaults.classTags]
      decide +kernel
    · rw [hlast.selectors.values]
      decide +kernel
    · rw [hlast.styles]
      decide +kernel
    · rw [hlast.inlineStyles]
      decide +kernel

end EmailMarkup.Page
