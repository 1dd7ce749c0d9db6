import EmailMarkup.Page.Compile
import EmailMarkup.Proofs.Schema.Resolve

/-!
# What the strict level is good for

A document that compiles at the strict level compiles to the same at the soft level, with the same
reports in the same order (`compile_soft_of_strict`): to be strict is to reject, and nothing else.

The level is asked for in one place, when the attributes of an element are resolved. There the two
levels part only at a value that is refused, and at such a value the strict run has failed
(`Schema.subsumes_resolve`). All other steps either pass a result of resolving on, and then the soft
run follows the strict one (`Subsumes`), or they do not look at the level at all.
-/

set_option autoImplicit false

namespace EmailMarkup

open EmailMarkup.Body EmailMarkup.Component EmailMarkup.Markup

/-! ### Resolving -/

namespace Schema

variable (s : Schema)

/-- What is inherited depends on the level only by whether anything is checked at all. -/
theorem inheritHead_soft (head : HeadState) (n : Node) :
    s.inheritHead .soft head n = s.inheritHead .strict head n := rfl

/-- Where the strict search does not end at a refused value, the soft one finds the same. -/
theorem takeOwn_soft_of_strict (line : Nat) (r : Resolution) (entries : List (String × String))
    (hok : (s.takeOwn .strict line r entries).failure? = none) :
    s.takeOwn .soft line r entries = s.takeOwn .strict line r entries := by
  induction entries generalizing r with
  | nil => rfl
  | cons entry rest ih =>
    obtain ⟨name, value⟩ := entry
    rw [takeOwn, takeOwn]
    rw [takeOwn] at hok
    by_cases hname : name = "mj-class"
    · rw [if_pos hname] at hok ⊢
      rw [if_pos hname]
      exact ih r hok
    · rw [if_neg hname, if_neg (by decide)] at hok ⊢
      rw [if_neg hname, if_neg (by decide)]
      cases hcheck : s.check name value with
      | valid =>
        rw [hcheck] at hok
        exact ih _ hok
      | undeclared =>
        rw [hcheck] at hok
        exact ih _ hok
      | invalid expected =>
        -- The value is refused, so the strict search has failed.
        rw [hcheck] at hok
        cases hok

/-- The soft level resolves whatever the strict one does, and finds and reports the same. -/
theorem subsumes_resolve (head? : Option HeadState) (n : Node) :
    Subsumes (s.resolve .soft head? n).result (s.resolve .strict head? n).result := by
  intro found hfound
  obtain ⟨hfailure, -⟩ := Resolution.result_eq_ok_iff.mp hfound
  rw [← hfound]
  cases head? with
  | none => rw [resolve, resolve, takeOwn_soft_of_strict s n.line _ _ hfailure]
  | some head =>
    rw [resolve, resolve]
    simp only [inheritHead_soft]
    rw [takeOwn_soft_of_strict s n.line _ _ hfailure]

end Schema

/-! ### Setting up a body -/

namespace Body

/-- The setting with another level. -/
def Setting.atLevel (s : Setting) (level : Level) : Setting :=
  { s with options := { s.options with level } }

variable (s : Setting)

/-- Where an element is set up at the strict level, it is set up alike at the soft one. -/
theorem subsumes_setUp (siblings : Siblings) (n : Node) :
    Subsumes (setUp (s.atLevel .soft) siblings n) (setUp (s.atLevel .strict) siblings n) := by
  unfold setUp
  simp only [Setting.atLevel]
  cases s.registry.get? n.tag with
  | none => exact .refl _
  | some spec =>
    simp only
    cases spec.kind with
    | body kind => exact (spec.schema.subsumes_resolve (some s.head) n).map _
    | head _ | structural => exact .refl _

mutual

theorem subsumes_blockOf (e : Element) : ∀ n : Node,
    Subsumes (blockOf (s.atLevel .soft) e n) (blockOf (s.atLevel .strict) e n)
  | .element tag attributes children content position => by
    rw [blockOf, blockOf]
    split
    · refine (Subsumes.mapM (subsumes_setUp s _) children).bind fun set => ?_
      exact (subsumes_blocksOf (set.map SetUp.element?) children).bind fun _ => .refl _
    · exact .refl _

theorem subsumes_blocksOf : ∀ (elements : List (Option Element)) (nodes : List Node),
    Subsumes (blocksOf (s.atLevel .soft) elements nodes)
      (blocksOf (s.atLevel .strict) elements nodes)
  | some e :: elements, n :: nodes => by
    rw [blocksOf, blocksOf]
    exact (subsumes_blockOf e n).bind fun _ =>
      (subsumes_blocksOf elements nodes).bind fun _ => .refl _
  | none :: elements, n :: nodes => by
    rw [blocksOf, blocksOf]
    exact subsumes_blocksOf elements nodes
  | [], nodes => by simp [blocksOf, Subsumes.refl]
  | _ :: _, [] => by simp [blocksOf, Subsumes.refl]

end

/-! ### Drawing

What is drawn depends on the options, but not on the level. -/

/-- Drawing does not look at the level; only resolving attributes does. -/
theorem Element.draw_atLevel (level : Level) (width : Float) (e : Element) (children : List Child) :
    e.draw (s.atLevel level) width children = e.draw s width children := by
  unfold Element.draw
  cases e.kind <;> rfl

theorem Element.slots_atLevel (level : Level) (width : Float) (e : Element) :
    e.slots (s.atLevel level).options width = e.slots s.options width := by
  unfold Element.slots
  cases e.kind <;> rfl

theorem Element.notes_atLevel (level : Level) (width : Float) (e : Element) :
    e.notes (s.atLevel level).options width = e.notes s.options width := by
  unfold Element.notes
  cases e.kind <;> rfl

mutual

theorem Block.fragments_atLevel (level : Level) (width : Float) : ∀ b : Block,
    b.fragments (s.atLevel level) width = b.fragments s width
  | .block e setup children => by
    rw [Block.fragments, Block.fragments, childrenOf_atLevel level _ children,
      Element.draw_atLevel]

theorem childrenOf_atLevel (level : Level) (width : Float) : ∀ blocks : List Block,
    childrenOf (s.atLevel level) width blocks = childrenOf s width blocks
  | [] => by rw [childrenOf, childrenOf]
  | b :: rest => by
    rw [childrenOf, childrenOf, Block.fragments_atLevel level width b,
      childrenOf_atLevel level width rest, Element.slots_atLevel]

end

mutual

theorem Block.notes_atLevel (level : Level) (width : Float) : ∀ b : Block,
    b.notes (s.atLevel level).options width = b.notes s.options width
  | .block e setup children => by
    rw [Block.notes, Block.notes, notesOf_atLevel level _ children, Element.notes_atLevel]

theorem notesOf_atLevel (level : Level) (width : Float) : ∀ blocks : List Block,
    notesOf (s.atLevel level).options width blocks = notesOf s.options width blocks
  | [] => by rw [notesOf, notesOf]
  | b :: rest => by
    rw [notesOf, notesOf, Block.notes_atLevel level width b, notesOf_atLevel level width rest]

end

/-- A body that is drawn at the strict level is drawn alike at the soft one. -/
theorem subsumes_draw (width : Float) (siblings : Siblings) (n : Node) :
    Subsumes (draw (s.atLevel .soft) width siblings n)
      (draw (s.atLevel .strict) width siblings n) := by
  unfold draw
  refine (subsumes_setUp s siblings n).bind fun set => ?_
  cases set.element? with
  | none => exact .refl _
  | some e =>
    refine (subsumes_blockOf s e n).bind fun block => ?_
    simp only [Block.notes_atLevel, Block.fragments_atLevel]
    exact .refl _

end Body

/-! ### Compiling -/

namespace Page

variable (r : Registry) (o : Options)

/-- So it is with an element of the head. -/
theorem subsumes_takeHeadElement (pass : HeadPass) (n : Node) :
    Subsumes (takeHeadElement r { o with level := .soft } pass n)
      (takeHeadElement r { o with level := .strict } pass n) := by
  unfold takeHeadElement
  cases r.get? n.tag with
  | none => exact .refl _
  | some spec =>
    simp only
    cases spec.kind with
    | head kind => exact (spec.schema.subsumes_resolve none n).map _
    | body kind => exact .refl _
    | structural => exact .refl _

theorem subsumes_takeHead (root : Node) (pass : HeadPass) :
    Subsumes (takeHead r { o with level := .soft } root pass)
      (takeHead r { o with level := .strict } root pass) := by
  unfold takeHead
  cases root.child? "mj-head" with
  | none => exact .refl _
  | some head => exact .foldlM (subsumes_takeHeadElement r o) head.children pass

/-- So it is with the whole document, from a tree on. -/
theorem subsumes_compileNode (root : Node) :
    Subsumes (compileNode r { o with level := .soft } root)
      (compileNode r { o with level := .strict } root) := by
  unfold compileNode
  split
  · exact .refl _
  · refine (subsumes_takeHead r o root _).bind fun pass => ?_
    exact (subsumes_draw ⟨r, o, pass.head⟩ _ _ _).bind fun drawing => .refl _

/-- A document that compiles at the strict level compiles at the soft one to the same HTML, with the
same reports in the same order. -/
theorem compile_soft_of_strict (markup : String) {compiled : Compiled}
    (hstrict : compile r { o with level := .strict } markup = .ok compiled) :
    compile r { o with level := .soft } markup = .ok compiled := by
  have hread : Subsumes (compile r { o with level := .soft } markup)
      (compile r { o with level := .strict } markup) :=
    (Subsumes.refl (Node.read r o.keepComments markup)).bind (subsumes_compileNode r o)
  exact hread compiled hstrict

/-- A document with an attribute that its component does not declare, which is no reason to reject
it. -/
def foreignLetter : String :=
  "<mjml><mj-body><mj-text lang=\"de\">Hallo</mj-text></mj-body></mjml>"

/-- Its tree. -/
def foreignTree : Node :=
  .element "mjml" ∅ [.element "mj-body" ∅
    [.element "mj-text" (.ofList [("lang", "de")]) [] "Hallo" ⟨1, 16⟩] "" ⟨1, 7⟩] "" ⟨1, 1⟩

theorem foreignLetter_soft_of_strict :
    ∃ compiled, compile .core { level := .strict } foreignLetter = .ok compiled ∧
      compile .core { level := .soft } foreignLetter = .ok compiled := by
  have hread : Node.read .core true foreignLetter = .ok foreignTree := by with_unfolding_all rfl
  obtain ⟨compiled, hcompiled⟩ :
      ∃ compiled, compileNode .core { level := .strict } foreignTree = .ok compiled := ⟨_, rfl⟩
  have hstrict : compile .core { level := .strict } foreignLetter = .ok compiled := by
    unfold compile
    rw [hread]
    exact hcompiled
  exact ⟨compiled, hstrict, compile_soft_of_strict .core {} foreignLetter hstrict⟩

end Page

end EmailMarkup
