import EmailMarkup.Page.Compile
import EmailMarkup.Proofs.Body.SetUp
import EmailMarkup.Proofs.Body.Sums
import EmailMarkup.Proofs.OrderedMap

/-!
# When a document can be compiled

A document of the core components fails to compile exactly if the level is strict and an element
that is looked at has an attribute that its component refuses (`compileNode_error_iff`). Looked at
are the elements of the first head, the first body, and what is reached from it through the children
of bodies, rows and columns. Everything else may be as wrong as it likes: misplaced and unknown
elements, whatever stands in a text or a button, and heads and bodies after the first.

The document has two passes, over its head and over its body, and neither depends on what the other
found for whether it fails.

Words that are added up wrap around, so a sum never keeps a document from being compiled. With
checked sums it can: `compileChecked` has the same outcome as long as all sums fit, and no document
otherwise (`agrees_compileChecked`).
-/

set_option autoImplicit false

namespace EmailMarkup.Page

open EmailMarkup.Body EmailMarkup.Component EmailMarkup.Markup EmailMarkup.Number
open Relation (ReflTransGen)

/-! ### The head -/

/-- The element belongs into a head, and has an attribute that its component refuses at the level
that is in force. -/
def HeadRefuses (r : Registry) (o : Options) (n : Node) : Prop :=
  o.level = .strict ∧ ∃ spec ∈ r.get? n.tag, spec.kind.isHead = true ∧ spec.schema.Refuses n

/-- An element of the head is taken in unless it is refused. -/
theorem ok_takeHeadElement_iff (r : Registry) (o : Options) (pass : HeadPass) (n : Node) :
    (∃ next, takeHeadElement r o pass n = .ok next) ↔ ¬ HeadRefuses r o n := by
  unfold takeHeadElement HeadRefuses
  cases hspec : r.get? n.tag with
  | none => simp
  | some spec =>
    simp only [Option.mem_def, Option.some.injEq, exists_eq_left']
    cases hkind : spec.kind with
    | head kind =>
      simp only [Kind.isHead, true_and]
      rw [ok_map_iff, Schema.result_resolve_ok_iff]
    | body _ | structural =>
      simp only [Kind.isHead, Bool.false_eq_true, false_and, and_false, not_false_eq_true, iff_true]
      split
      · exact ⟨_, rfl⟩
      · exact ⟨_, rfl⟩

/-- The head is taken in unless one of its elements is refused. -/
theorem ok_takeHead_iff (r : Registry) (o : Options) (root : Node) (pass : HeadPass) :
    (∃ next, takeHead r o root pass = .ok next) ↔
      ∀ head ∈ root.child? "mj-head", ∀ n ∈ head.children, ¬ HeadRefuses r o n := by
  unfold takeHead
  cases root.child? "mj-head" with
  | none => simp
  | some head => simpa using ok_foldlM_iff (ok_takeHeadElement_iff r o) pass

/-! ### The document -/

/-- A document compiles exactly if neither its head nor its body has an element that is refused. A
document without a body has nothing to refuse there. -/
theorem ok_compileNode_iff (r : Registry) (o : Options) {root : Node} (hroot : root.tag = "mjml") :
    (∃ compiled, compileNode r o root = .ok compiled) ↔
      (∀ head ∈ root.child? "mj-head", ∀ n ∈ head.children, ¬ HeadRefuses r o n) ∧
      ∀ head body, body = (root.child? "mj-body").getD (.bare "mj-body") →
        ∀ m, ReflTransGen (Setting.Parent ⟨r, o, head⟩) body m →
          ¬ Setting.Refuses ⟨r, o, head⟩ m := by
  unfold compileNode
  rw [if_neg (by simpa using hroot), ok_bind_iff,
    ← ok_takeHead_iff r o root { head := initialHead o root, reports := misplaced root }]
  constructor
  · rintro ⟨pass, hpass, hrest⟩
    refine ⟨⟨pass, hpass⟩, ?_⟩
    rintro head body rfl
    obtain ⟨drawing, hdrawing, -⟩ := ok_bind_iff.mp hrest
    exact (ok_draw_iff ⟨r, o, pass.head⟩ _ _ _).mp ⟨drawing, hdrawing⟩
  · rintro ⟨⟨pass, hpass⟩, hbody⟩
    obtain ⟨drawing, hdrawing⟩ :=
      (ok_draw_iff ⟨r, o, pass.head⟩ defaultWidth .single _).mpr (hbody pass.head _ rfl)
    exact ⟨pass, hpass, ok_bind_iff.mpr ⟨drawing, hdrawing, _, rfl⟩⟩

/-! ### Checked sums -/

/-- The sums in the style sheet that goes with a kind. -/
def sheetSums (breakpoint : String) : BodyKind → List Addends
  | .image => [Image.belowBreakpoint breakpoint]
  | _ => []

/-- The sums in the style sheets that a drawing asks for. -/
def HeadPass.sheetSums (pass : HeadPass) (drawing : Drawing) : List Addends :=
  drawing.notes.sheets.flatMap fun entry =>
    Page.sheetSums (Html.escapeAttribute pass.head.breakpoint) entry.2

/-- What is known before the head is taken in. -/
def HeadPass.first (o : Options) (root : Node) : HeadPass :=
  { head := initialHead o root, reports := misplaced root }

/-- The body of a document, or the one that stands in for it. -/
def bodyOf (root : Node) : Node :=
  (root.child? "mj-body").getD (.bare "mj-body")

/-- Compiles the tree of a document as far as its sums fit. The sheets for the head come last, and
only those that go with what was drawn. -/
def compileChecked (r : Registry) (o : Options) (root : Node) : Except Stop Compiled :=
  if root.tag ≠ "mjml" then .error (.failure (.malformed root.position (.wrongRoot root.tag)))
  else do
    let pass ← (takeHead r o root (.first o root)).mapError .failure
    let missing := if (root.child? "mj-body").isNone then [Diagnostic.missingBody] else []
    let drawing ← drawChecked ⟨r, o, pass.head⟩ defaultWidth .single (bodyOf root)
    checkSums (pass.sheetSums drawing)
    let notes : Notes := { reports := pass.reports ++ missing }
    return finish o pass.head (notes ++ drawing.notes) ((drawing.drawn?.map Prod.snd).getD "")

/-- All sums of a document fit: those of the elements that are drawn, and those of the style sheets
that the drawing asks for. -/
def SumsFit (r : Registry) (o : Options) (root : Node) : Prop :=
  ∀ pass, takeHead r o root (.first o root) = .ok pass →
    (∀ e ∈ elementsOf ⟨r, o, pass.head⟩ .single (bodyOf root), e.SumsFit) ∧
    ∀ drawing, Body.draw ⟨r, o, pass.head⟩ defaultWidth .single (bodyOf root) = .ok drawing →
      ∀ a ∈ pass.sheetSums drawing, a.fit = true

/-- With checked sums a document is compiled as without, if all its sums fit. If not, it is not
compiled, whether or not it would fail. -/
theorem agrees_compileChecked (r : Registry) (o : Options) (root : Node) :
    Agrees (SumsFit r o root) (compileChecked r o root) (compileNode r o root) := by
  unfold compileChecked compileNode
  split
  · exact .failure _
  refine ((agrees_unchecked (takeHead r o root (.first o root))).bind fun pass hpass => ?_).imp_iff
    (iff_of_eq (true_and _))
  -- The head fixes the setting, so `SumsFit` speaks of one drawing.
  have hfit : (∀ e ∈ elementsOf ⟨r, o, pass.head⟩ .single (bodyOf root), e.SumsFit) ∧
      (∀ drawing, Body.draw ⟨r, o, pass.head⟩ defaultWidth .single (bodyOf root) = .ok drawing →
        ∀ a ∈ pass.sheetSums drawing, a.fit = true) ↔ SumsFit r o root := by
    simp [SumsFit, hpass]
  refine Agrees.imp_iff ((agrees_drawChecked _ _ _ _).bind fun drawing hdrawing => ?_) hfit
  refine ((Agrees.ok _ trivial).after_sums (pass.sheetSums drawing)).imp_iff ?_
  simp [hdrawing]

/-! ### The core components -/

/-- The second element is a child of the first, which is a body, a row or a column. -/
def Holds (n c : Node) : Prop :=
  n.tag ∈ ["mj-body", "mj-section", "mj-column"] ∧ c ∈ n.children

/-- The elements of a document whose attributes are looked at. -/
inductive Checked (root : Node) : Node → Prop
  | head {head n : Node} {spec : Spec} (hhead : root.child? "mj-head" = some head)
      (hn : n ∈ head.children) (hspec : Registry.core.get? n.tag = some spec)
      (hkind : spec.kind.isHead = true) : Checked root n
  | body {body n : Node} {spec : Spec} (hbody : root.child? "mj-body" = some body)
      (hn : ReflTransGen Holds body n) (hspec : Registry.core.get? n.tag = some spec)
      (hkind : spec.kind.isBody = true) : Checked root n

/-- An attribute is written on the element, other than its classes, with a value that the component
of its tag does not take. -/
def Refused (n : Node) : Prop :=
  ∃ spec, Registry.core.get? n.tag = some spec ∧ spec.schema.Refuses n

/-- Of the core components, those of bodies, rows and columns are drawn with their children. -/
theorem core_hasChildren_iff (tag : String) :
    (∃ kind ∈ coreSetting.kind? tag, hasChildren kind = true) ↔
      tag ∈ ["mj-body", "mj-section", "mj-column"] := by
  constructor
  · have hall : ∀ e ∈ Registry.core.components.entries, ∀ kind ∈ [BodyKind.body, .row, .column],
        e.2.kind = .body kind → e.1 ∈ ["mj-body", "mj-section", "mj-column"] := by
      decide +kernel
    rintro ⟨kind, hkind, hholds⟩
    have hmem : kind ∈ [BodyKind.body, .row, .column] := by
      cases kind with
      | body | row | column => decide
      | text | image | button | raw => cases hholds
    obtain ⟨spec, hspec, hbody⟩ := Option.bind_eq_some_iff.mp hkind
    split at hbody
    · rename_i kind' hkind'
      cases hbody
      exact hall _ (OrderedMap.mem_entries_of_get? hspec) kind hmem hkind'
    · cases hbody
  · have hall : ∀ tag ∈ ["mj-body", "mj-section", "mj-column"],
        (coreSetting.kind? tag).any hasChildren = true := by
      decide +kernel
    intro htag
    exact (Option.any_eq_true ..).mp (hall tag htag)

/-- With the components of the standard, which elements hold others does not depend on the options.
-/
theorem parent_core_eq (o : Options) (head : HeadState) :
    Setting.Parent ⟨.core, o, head⟩ = Holds := by
  funext n c
  show ((∃ kind ∈ coreSetting.kind? n.tag, hasChildren kind = true) ∧ c ∈ n.children) = Holds n c
  rw [core_hasChildren_iff, Holds]

/-- In a document of the core components the elements that are refused are those that are looked at
and have a value that their component does not take. -/
theorem exists_refused_iff (o : Options) (root : Node) (head : HeadState) :
    (o.level = .strict ∧ ∃ n, Checked root n ∧ Refused n) ↔
      (∃ first ∈ root.child? "mj-head", ∃ n ∈ first.children, HeadRefuses .core o n) ∨
      ∃ m, ReflTransGen Holds ((root.child? "mj-body").getD (.bare "mj-body")) m ∧
        Setting.Refuses ⟨.core, o, head⟩ m := by
  constructor
  · rintro ⟨hstrict, n, hchecked, spec', hspec', hrefuses⟩
    cases hchecked with
    | @head first _ spec hhead hn hspec hkind =>
      obtain rfl : spec' = spec := Option.some.inj (hspec'.symm.trans hspec)
      exact .inl ⟨first, hhead, n, hn, hstrict, spec', hspec, hkind, hrefuses⟩
    | @body first _ spec hbody hn hspec hkind =>
      obtain rfl : spec' = spec := Option.some.inj (hspec'.symm.trans hspec)
      refine .inr ⟨n, ?_, hstrict, spec', hspec, hkind, hrefuses⟩
      rw [hbody]
      exact hn
  · rintro (⟨first, hfirst, n, hn, hstrict, spec, hspec, hkind, hrefuses⟩ |
      ⟨m, hm, hstrict, spec, hspec, hkind, hrefuses⟩)
    · exact ⟨hstrict, n, .head hfirst hn hspec hkind, spec, hspec, hrefuses⟩
    · refine ⟨hstrict, m, ?_, spec, hspec, hrefuses⟩
      cases hbody : root.child? "mj-body" with
      | some first =>
        rw [hbody] at hm
        exact .body hbody hm hspec hkind
      | none =>
        -- The body that stands in for a missing one has neither attributes nor children.
        rw [hbody] at hm
        rcases ReflTransGen.cases_head hm with rfl | ⟨c, hc, -⟩
        · obtain ⟨a, ha, -⟩ := hrefuses
          cases ha
        · cases hc.2

/-- A document of the core components fails to compile exactly if the level is strict and an element
that is looked at has a value that its component does not take. -/
theorem exists_error_compileNode_iff (o : Options) {root : Node} (hroot : root.tag = "mjml") :
    (∃ failure, compileNode .core o root = .error failure) ↔
      o.level = .strict ∧ ∃ n, Checked root n ∧ Refused n := by
  rw [exists_error_iff, ok_compileNode_iff .core o hroot, exists_refused_iff o root (.initial o)]
  simp only [parent_core_eq]
  constructor
  · intro h
    by_contra hnone
    rw [not_or] at hnone
    refine h ⟨?_, ?_⟩
    · intro first hfirst n hn hrefuses
      exact hnone.1 ⟨first, hfirst, n, hn, hrefuses⟩
    · rintro head body rfl m hm hrefuses
      exact hnone.2 ⟨m, hm, hrefuses⟩
  · rintro (⟨first, hfirst, n, hn, hrefuses⟩ | ⟨m, hm, hrefuses⟩) ⟨hhead, hbody⟩
    · exact hhead first hfirst n hn hrefuses
    · exact hbody (.initial o) _ rfl m hm hrefuses

/-- A document of the core components fails to compile exactly if the level is strict and an element
that is looked at has a value that its component does not take. At the other levels it always
compiles. No sum of lengths changes this, since the sums are words that wrap around. With checked
sums the outcome is the same for every document whose sums all fit, and no other one compiles. -/
theorem compileNode_error_iff (o : Options) (root : Node) (hroot : root.tag = "mjml") :
    ((∃ failure, compileNode .core o root = .error failure) ↔
      o.level = .strict ∧ ∃ n, Checked root n ∧ Refused n) ∧
    (o.level = .soft ∨ o.level = .skip → ∃ compiled, compileNode .core o root = .ok compiled) ∧
    (SumsFit .core o root →
      compileChecked .core o root = (compileNode .core o root).mapError .failure) ∧
    (¬ SumsFit .core o root → ∀ compiled, compileChecked .core o root ≠ .ok compiled) := by
  have hiff := exists_error_compileNode_iff o hroot
  have hagrees := agrees_compileChecked .core o root
  refine ⟨hiff, fun hlevel => ?_, hagrees.eq, hagrees.ne_ok⟩
  by_contra hfails
  have hstrict := (hiff.mp (exists_error_iff.mpr hfails)).1
  rcases hlevel with h | h
  · rw [h] at hstrict
    cases hstrict
  · rw [h] at hstrict
    cases hstrict

/-- An element with one other in it. -/
def around (tag : String) (n : Node) : Node :=
  .element tag ∅ [n] "" .start

/-- Each of the three elements holds what stands in it. -/
theorem holds_around {tag : String} (htag : tag ∈ ["mj-body", "mj-section", "mj-column"])
    (n : Node) : Holds (around tag n) n :=
  ⟨htag, List.mem_singleton_self n⟩

/-- A text that is to be aligned in a way that there is not. -/
def crookedText : Node :=
  .element "mj-text" (.ofList [("align", "middle")]) [] "a" .start

/-- A document with that text in a column of its body. -/
def crookedDocument : Node :=
  around "mjml" (around "mj-body" (around "mj-section" (around "mj-column" crookedText)))

/-- The value of the wrong type ends the compilation at the strict level and is let through at the
soft one. -/
theorem crookedDocument_error :
    crookedDocument.tag = "mjml" ∧
    (∃ failure, compileNode .core {} crookedDocument = .error failure) ∧
    ∃ compiled, compileNode .core { level := .soft } crookedDocument = .ok compiled := by
  have hspec : Registry.core.get? "mj-text" = some Core.text := rfl
  have hbody : crookedDocument.child? "mj-body" =
      some (around "mj-body" (around "mj-section" (around "mj-column" crookedText))) := rfl
  have hreached : ReflTransGen Holds
      (around "mj-body" (around "mj-section" (around "mj-column" crookedText))) crookedText :=
    .head (holds_around (by decide) _)
      (.head (holds_around (by decide) _) (.single (holds_around (by decide) _)))
  have hrefuses : Core.text.schema.Refuses crookedText :=
    ⟨("align", "middle"), by decide, by decide, _, rfl⟩
  refine ⟨rfl, ?_, ?_⟩
  · exact (compileNode_error_iff {} crookedDocument rfl).1.mpr
      ⟨rfl, crookedText, .body hbody hreached hspec rfl, Core.text, hspec, hrefuses⟩
  · exact (compileNode_error_iff { level := .soft } crookedDocument rfl).2.1 (.inl rfl)

/-- A document with a row whose paddings do not add up to a word. -/
def strainedDocument : Node :=
  around "mjml" (around "mj-body"
    (.element "mj-section" (.ofList [("padding", "9223372036854775807px")]) [] "" .start))

example : compileChecked .core {} strainedDocument = .error .overflow := by
  with_unfolding_all rfl

example : (compileNode .core {} strainedDocument).isOk = true := by
  decide +kernel

end EmailMarkup.Page
