import EmailMarkup.Proofs.Body.Elements

/-!
# Sums that are checked

The lengths of a box are words, and a sum of two of them that leaves the range of words wraps
around. Words can also be added up with a check; then the first sum that does not fit ends the run,
and there is neither a drawing nor a failure. `drawChecked` draws in this way. It goes through the
document as a drawing does, and adds up the lengths of an element before it sets up its children.

A checked drawing is the drawing of the library if the sums of all its elements fit, and otherwise
there is none (`agrees_drawChecked`). `Agrees` says this of any checked run and the run without
checks. It is kept from step to step (`Agrees.bind`), so that a run is treated like its steps.
-/

set_option autoImplicit false

namespace EmailMarkup

open EmailMarkup.Number

/-! ### Checked runs -/

/-- A sum that fits is the sum of the integers, so that checked and wrapping words do not differ
there. -/
theorem Number.Addends.sum_of_fit {a : Addends} (h : a.fit = true) : a.sum = a.first + a.second := by
  simp only [Addends.fit, Bool.and_eq_true, decide_eq_true_eq] at h
  have hbound : (wordBound : Int) = 9223372036854775808 := rfl
  have hsize : (Int64.size : Int) = 18446744073709551616 := rfl
  rw [Addends.sum, Int64.toInt_add, Int64.toInt_ofInt, Int64.toInt_ofInt, Int.bmod_add_bmod,
    Int.add_bmod_bmod]
  exact Int.bmod_eq_of_le (by omega) (by omega)

/-- Why a checked run has no result. -/
inductive Stop where
  | failure (failure : Failure)
  /-- A sum does not fit its word. -/
  | overflow
  deriving DecidableEq, Repr

/-- Goes on only if all sums fit. -/
def checkSums (sums : List Addends) : Except Stop Unit :=
  if sums.all Addends.fit then .ok () else .error .overflow

/-- A checked run beside the run without checks, where `fits` says that all sums fit. It has the
same result or failure, unless it comes to a sum that does not fit. -/
inductive Agrees {α : Type} (fits : Prop) : Except Stop α → Except Failure α → Prop
  | ok (a : α) (h : fits) : Agrees fits (.ok a) (.ok a)
  | failure (failure : Failure) : Agrees fits (.error (.failure failure)) (.error failure)
  | overflow (x : Except Failure α) (h : ¬ fits) : Agrees fits (.error .overflow) x

section
variable {α β : Type} {p q : Prop} {x : Except Stop α} {y : Except Failure α}

/-- The condition may be replaced by one that says the same. -/
theorem Agrees.imp_iff (h : Agrees p x y) (hpq : p ↔ q) : Agrees q x y := by
  rwa [← hpq]

/-- A step without sums is the same with checks. -/
theorem agrees_unchecked (y : Except Failure α) : Agrees True (y.mapError .failure) y := by
  cases y with
  | error failure => exact .failure failure
  | ok a => exact .ok a trivial

/-- What is so of two steps is so of one after the other. -/
theorem Agrees.bind {f : α → Except Stop β} {g : α → Except Failure β} (h : Agrees p x y)
    (hfg : ∀ a, y = .ok a → Agrees q (f a) (g a)) : Agrees (p ∧ q) (x >>= f) (y >>= g) := by
  cases h with
  | failure failure => exact .failure failure
  | overflow y hp => exact .overflow _ fun hboth => hp hboth.1
  | ok a hp => exact (hfg a rfl).imp_iff (and_iff_right hp).symm

/-- Sums that are checked first count with those of what comes after. -/
theorem Agrees.after_sums (h : Agrees q x y) (sums : List Addends) :
    Agrees ((∀ a ∈ sums, a.fit = true) ∧ q) (checkSums sums >>= fun _ => x) y := by
  have hfirst : Agrees (∀ a ∈ sums, a.fit = true) (checkSums sums) (.ok ()) := by
    rw [checkSums]
    split
    · rename_i hall
      exact .ok () (List.all_eq_true.mp hall)
    · rename_i hnot
      exact .overflow _ (mt List.all_eq_true.mpr hnot)
  exact hfirst.bind fun _ _ => h

/-- The run without checks has all that the checked one has if the sums fit. -/
theorem Agrees.eq (h : Agrees p x y) (hp : p) : x = y.mapError .failure := by
  cases h with
  | ok a _ | failure failure => rfl
  | overflow y hnot => exact absurd hp hnot

/-- A checked run has no result if a sum does not fit. -/
theorem Agrees.ne_ok (h : Agrees p x y) (hp : ¬ p) (a : α) : x ≠ .ok a := by
  cases h with
  | ok a h => exact absurd h hp
  | failure failure => nofun
  | overflow y _ => nofun

end

namespace Body

open EmailMarkup.Component EmailMarkup.Markup

/-! ### Checked drawings -/

/-- The lengths that are added up when an element is drawn. -/
def Element.sums (e : Element) : List Addends :=
  let box := [e.sidePadding "padding", e.sideBorder "border"]
  match e.kind with
  | .row | .image => box
  | .column => box ++ [e.sideBorder "inner-border"]
  -- The link of a button is measured only in pixels.
  | .button => if (Button.askedWidth? e).isSome then box ++ [e.sidePadding "inner-padding"] else []
  | .body | .text | .raw => []

/-- All lengths of an element can be added up. -/
def Element.SumsFit (e : Element) : Prop :=
  ∀ a ∈ e.sums, a.fit = true

mutual

/-- Makes the block of an element that has been set up, as far as its sums fit. -/
def checkedBlockOf (s : Setting) (e : Element) : Node → Except Stop Block
  | .element _ _ children _ _ => do
    checkSums e.sums
    if hasChildren e.kind then do
      let set ← (setUpAll s children).mapError .failure
      let blocks ← checkedBlocksOf s (set.map SetUp.element?) children
      return .block e (.join (set.map SetUp.notes)) blocks
    else return .block e {} []

/-- Makes the blocks of elements that have been set up and were not left out. -/
def checkedBlocksOf (s : Setting) : List (Option Element) → List Node → Except Stop (List Block)
  | some e :: elements, n :: nodes => do
    let block ← checkedBlockOf s e n
    let blocks ← checkedBlocksOf s elements nodes
    return block :: blocks
  | none :: elements, _ :: nodes => checkedBlocksOf s elements nodes
  | _, _ => .ok []

end

/-- Draws an element in a container of a width, as far as the sums fit. -/
def drawChecked (s : Setting) (width : Float) (siblings : Siblings) (n : Node) :
    Except Stop Drawing := do
  let set ← (setUp s siblings n).mapError .failure
  match set.element? with
  | none => return { notes := set.notes, drawn? := none }
  | some e =>
    let block ← checkedBlockOf s e n
    return { notes := set.notes ++ block.notes s.options width
             drawn? := some (e, printFragments (block.fragments s width)) }

variable {s : Setting}

mutual

/-- A block is made with checks if the sums of the elements that are drawn for its node fit. -/
theorem agrees_checkedBlockOf : ∀ (n : Node) {siblings : Siblings} {e : Element},
    s.element? siblings n = some e →
      Agrees (∀ c ∈ elementsOf s siblings n, c.SumsFit) (checkedBlockOf s e n) (blockOf s e n)
  | .element tag attributes children content position, siblings, e, he => by
    rw [elementsOf_of_some he, checkedBlockOf, blockOf, List.forall_mem_cons]
    refine Agrees.after_sums ?_ e.sums
    split
    · have hinner : ∀ set, setUpAll s children = .ok set → Agrees
          (∀ c ∈ elementsAmong s (siblingsOf s.registry children) children, c.SumsFit)
          (checkedBlocksOf s (set.map SetUp.element?) children)
          (blocksOf s (set.map SetUp.element?) children) :=
        fun set hset => agrees_checkedBlocksOf children (forall₂_element?_of_setUpAll hset)
      have hmade := (agrees_unchecked (setUpAll s children)).bind fun set hset =>
        (hinner set hset).bind fun blocks _ =>
          .ok (Block.block e (.join (set.map SetUp.notes)) blocks) trivial
      exact hmade.imp_iff (by simp [Node.children])
    · exact .ok _ (by simp)

/-- So it is with the children of an element, side by side. -/
theorem agrees_checkedBlocksOf : ∀ (nodes : List Node) {siblings : Siblings}
    {elements : List (Option Element)},
    List.Forall₂ (fun element? n => element? = s.element? siblings n) elements nodes →
      Agrees (∀ c ∈ elementsAmong s siblings nodes, c.SumsFit) (checkedBlocksOf s elements nodes)
        (blocksOf s elements nodes)
  | [], siblings, _, .nil => by
    rw [checkedBlocksOf, blocksOf, elementsAmong]
    · exact .ok [] (by simp)
    all_goals simp
  | n :: nodes, siblings, none :: elements, .cons hn hnodes => by
    rw [checkedBlocksOf, blocksOf, elementsAmong, elementsOf_of_none hn.symm, List.nil_append]
    exact agrees_checkedBlocksOf nodes hnodes
  | n :: nodes, siblings, some e :: elements, .cons hn hnodes => by
    rw [checkedBlocksOf, blocksOf, elementsAmong]
    have hmade := (agrees_checkedBlockOf n hn.symm).bind fun block _ =>
      (agrees_checkedBlocksOf nodes hnodes).bind fun blocks _ =>
        .ok (block :: blocks) trivial
    exact hmade.imp_iff (by simp [or_imp, forall_and])

end

/-- A checked drawing is the drawing of the library, if the sums of all elements that are drawn fit.
If not, there is none. -/
theorem agrees_drawChecked (s : Setting) (width : Float) (siblings : Siblings) (n : Node) :
    Agrees (∀ e ∈ elementsOf s siblings n, e.SumsFit) (drawChecked s width siblings n)
      (draw s width siblings n) := by
  unfold drawChecked draw
  have hset := agrees_unchecked (setUp s siblings n)
  refine (hset.bind fun set hset => ?_).imp_iff (iff_of_eq (true_and _))
  cases helement : set.element? with
  | none =>
    have hnone := (element?_of_setUp hset).trans helement
    rw [elementsOf_of_none hnone]
    exact .ok _ nofun
  | some e =>
    have hblock := agrees_checkedBlockOf n ((element?_of_setUp hset).trans helement)
    exact (hblock.bind fun block _ => .ok _ trivial).imp_iff (iff_of_eq (and_true _))

end Body

end EmailMarkup
