import EmailMarkup.Proofs.Body.Elements
import EmailMarkup.Proofs.Number.Sign

/-!
# The widths that are handed down

Every element of a drawing but the outermost is drawn in the width that its parent gives it.
`Block.placements` lists them with their parents and widths. Rows and columns cut off at zero what
is left for their children, and a body hands on the width that it is told. So the width of an
element is at least zero unless its parent is a body with a negative width (`width_nonneg_iff`).
-/

set_option autoImplicit false

namespace EmailMarkup.Body

open EmailMarkup.Component EmailMarkup.Layout EmailMarkup.Markup EmailMarkup.Number

/-! ### What parents give -/

/-- A body gives the integer that its width begins with. -/
theorem Container.childWidth_eq (e : Element) :
    Container.childWidth e = Float.ofInt (amount ((e.attr? "width").getD "600px")) := by
  unfold Container.childWidth widthOf amount
  simp only [Bool.not_true, Bool.and_false, Bool.false_eq_true, if_false]
  cases leadingInteger? ((e.attr? "width").getD "600px") with
  | none | some n => rfl

/-- An element is no body, or a body whose width does not begin with a negative integer. -/
def Element.IsNoNegativeBody (e : Element) : Prop :=
  e.kind = .body → 0 ≤ amount ((e.attr? "width").getD "600px")

instance (e : Element) : Decidable e.IsNoNegativeBody := by
  unfold Element.IsNoNegativeBody
  infer_instance

/-- Only a body gives its children less than nothing, and only if it is told so. -/
theorem zero_le_childWidth_iff {e : Element} (he : hasChildren e.kind = true) (width : Float) :
    0 ≤ e.childWidth width ↔ e.IsNoNegativeBody := by
  unfold Element.childWidth Element.IsNoNegativeBody
  cases hkind : e.kind with
  | body =>
    show 0 ≤ Container.childWidth e ↔ _
    rw [Container.childWidth_eq, zero_le_ofInt_iff]
    exact ⟨fun h _ => h, fun h => h rfl⟩
  | row | column => exact iff_of_true (zero_le_atLeastZero _) nofun
  | text | image | button | raw => rw [hkind] at he; cases he

/-! ### Placements -/

/-- A block with its parent and the width that its parent gives it. -/
structure Placement where
  parent : Element
  width : Float
  block : Block

mutual

/-- The blocks in a block that is drawn in a container of a width, in the order of the document. -/
def Block.placements (width : Float) : Block → List Placement
  | .block e _ children => placementsAmong e (e.childWidth width) children

/-- The children of an element and all that is in them. -/
def placementsAmong (parent : Element) (width : Float) : List Block → List Placement
  | [] => []
  | b :: rest => { parent, width, block := b } ::
      (b.placements width ++ placementsAmong parent width rest)

end

theorem placementsAmong_eq (parent : Element) (width : Float) (blocks : List Block) :
    placementsAmong parent width blocks =
      blocks.flatMap fun b => { parent, width, block := b } :: b.placements width := by
  induction blocks with
  | nil => rw [placementsAmong]; rfl
  | cons b rest ih => rw [placementsAmong, ih]; rfl

/-- A placement in a block is that of a child or one in a child. -/
theorem mem_placements {e : Element} {setup : Notes} {children : List Block} {width : Float}
    {p : Placement} : p ∈ (Block.block e setup children).placements width ↔
      ∃ b ∈ children, p = { parent := e, width := e.childWidth width, block := b } ∨
        p ∈ b.placements (e.childWidth width) := by
  rw [Block.placements, placementsAmong_eq, List.mem_flatMap]
  simp only [List.mem_cons]

variable {s : Setting}

/-- All elements that are drawn for a node are placed, apart from its own. -/
theorem elementsOf_eq_placements {siblings : Siblings} {n : Node} {e : Element} {b : Block}
    (he : s.element? siblings n = some e) (hb : blockOf s e n = .ok b) (width : Float) :
    elementsOf s siblings n = b.element :: (b.placements width).map fun p => p.block.element := by
  have hkept : KeptByBlocks s fun b elements => ∀ width,
      elements = b.element :: (b.placements width).map fun p => p.block.element := by
    refine ⟨fun e _ width => ?_, fun e set inner _ _ hinner width => ?_⟩
    · rw [Block.placements, placementsAmong]
      rfl
    · rw [Block.placements, placementsAmong_eq, List.map_flatMap, List.flatMap_map]
      refine congrArg (e :: ·) (List.flatMap_congr fun part hpart => ?_)
      exact hinner part hpart (e.childWidth width)
  exact block_induction hkept n he hb width

/-- What is placed is drawn in its width, and that is at least zero unless its parent is a body that
is told otherwise. -/
theorem placed_of_block {siblings : Siblings} {n : Node} {e : Element} {b : Block}
    (he : s.element? siblings n = some e) (hb : blockOf s e n = .ok b) (width : Float) :
    ∀ p ∈ b.placements width,
      p.block.fragments s p.width <:+: b.fragments s width ∧
      (0 ≤ p.width ↔ p.parent.IsNoNegativeBody) := by
  have hkept : KeptByBlocks s fun b _ => ∀ width, ∀ p ∈ b.placements width,
      p.block.fragments s p.width <:+: b.fragments s width ∧
      (0 ≤ p.width ↔ p.parent.IsNoNegativeBody) := by
    refine ⟨fun e _ width p hp => ?_, fun e set inner he _ hinner width p hp => ?_⟩
    · rw [Block.placements, placementsAmong] at hp
      cases hp
    · obtain ⟨b, hb, hp⟩ := mem_placements.mp hp
      obtain ⟨part, hpart, rfl⟩ := List.mem_map.mp hb
      obtain ⟨child, hchild, hfragments⟩ :=
        exists_mem_childrenOf (s := s) (e.childWidth width) hb
      have hdrawn : part.1.fragments s (e.childWidth width) <:+:
          (Block.block e (.join (set.map SetUp.notes)) (inner.map Prod.fst)).fragments s width := by
        rw [Block.fragments, ← hfragments]
        exact infix_draw he width hchild
      rcases hp with rfl | hp
      · exact ⟨hdrawn, zero_le_childWidth_iff he width⟩
      · obtain ⟨hpiece, hwidth⟩ := hinner part hpart (e.childWidth width) p hp
        exact ⟨hpiece.trans hdrawn, hwidth⟩
  exact block_induction hkept n he hb width

/-- Every element of a drawing but the outermost is drawn in the width that its parent gives it.
That width is at least zero exactly if the parent is no body, or if the integer that the width of
this body begins with is at least zero. -/
theorem width_nonneg_iff (s : Setting) (width : Float) (siblings : Siblings) (n : Node)
    {d : Drawing} {e : Element} {html : String} (hdraw : draw s width siblings n = .ok d)
    (hdrawn : d.drawn? = some (e, html)) :
    ∃ b, blockOf s e n = .ok b ∧ html = printFragments (b.fragments s width) ∧
      elementsOf s siblings n =
        b.element :: (b.placements width).map (fun p => p.block.element) ∧
      ∀ p ∈ b.placements width,
        p.block.fragments s p.width <:+: b.fragments s width ∧
        (0 ≤ p.width ↔ p.parent.IsNoNegativeBody) := by
  obtain ⟨set, -, ⟨-, rfl⟩ | ⟨e', b, he, hb, rfl⟩⟩ := draw_cases hdraw
  · cases hdrawn
  · cases hdrawn
    exact ⟨b, hb, rfl, elementsOf_eq_placements he hb width, placed_of_block he hb width⟩

/-- A block that passes a test when it is drawn. -/
theorem exists_drawn_block (s : Setting) (width : Float) (siblings : Siblings) (n : Node)
    (p : Block → Bool)
    (h : (draw s width siblings n).toOption.any (fun d => d.drawn?.any fun drawn =>
      (blockOf s drawn.1 n).toOption.any p) = true) :
    ∃ d e html b, draw s width siblings n = .ok d ∧ d.drawn? = some (e, html) ∧
      blockOf s e n = .ok b ∧ p b = true := by
  obtain ⟨d, e, html, hdraw, hdrawn, htest⟩ := exists_drawn s width siblings n
    (fun e => (blockOf s e n).toOption.any p) h
  cases hb : blockOf s e n with
  | error failure =>
    rw [hb] at htest
    cases htest
  | ok b =>
    rw [hb] at htest
    exact ⟨d, e, html, b, hdraw, hdrawn, hb, htest⟩

/-- All five elements in a body of the width that it has by default get a width of at least zero. -/
theorem sampleBody_widths_nonneg :
    ∃ d e html b, draw coreSetting 600 .single sampleBody = .ok d ∧ d.drawn? = some (e, html) ∧
      blockOf coreSetting e sampleBody = .ok b ∧ (b.placements 600).length = 5 ∧
      ∀ p ∈ b.placements 600, 0 ≤ p.width := by
  obtain ⟨d, e, html, b, hdraw, hdrawn, hb, hparents⟩ :=
    exists_drawn_block coreSetting 600 .single sampleBody
      (fun b => (b.placements 600).length = 5 &&
        (b.placements 600).all fun p => p.parent.IsNoNegativeBody) (by decide +kernel)
  rw [Bool.and_eq_true, decide_eq_true_iff, List.all_eq_true] at hparents
  obtain ⟨b', hb', -, -, hplaced⟩ :=
    width_nonneg_iff coreSetting 600 .single sampleBody hdraw hdrawn
  obtain rfl : b = b' := Except.ok.inj (hb.symm.trans hb')
  refine ⟨d, e, html, b, hdraw, hdrawn, hb, hparents.1, fun p hp => ?_⟩
  exact (hplaced p hp).2.mpr (of_decide_eq_true (hparents.2 p hp))

/-- A body of a negative width with a row in it. -/
def negativeBody : Node :=
  .element "mj-body" (.ofList [("width", "-5px")]) [.bare "mj-section"] "" .start

/-- The row in such a body is drawn in a width below zero. -/
theorem negativeBody_hands_on_negative :
    ∃ d e html b, draw coreSetting 600 .single negativeBody = .ok d ∧
      d.drawn? = some (e, html) ∧ blockOf coreSetting e negativeBody = .ok b ∧
      ∃ p ∈ b.placements 600, ¬ 0 ≤ p.width := by
  obtain ⟨d, e, html, b, hdraw, hdrawn, hb, hnegative⟩ :=
    exists_drawn_block coreSetting 600 .single negativeBody
      (fun b => (b.placements 600).any fun p => decide (¬ 0 ≤ p.width)) (by decide +kernel)
  obtain ⟨p, hp, hwidth⟩ := List.any_eq_true.mp hnegative
  exact ⟨d, e, html, b, hdraw, hdrawn, hb, p, hp, of_decide_eq_true hwidth⟩

end EmailMarkup.Body
