import EmailMarkup.Proofs.Body.Elements
import EmailMarkup.Proofs.Schema.Resolve
import Mathlib.Logic.Relation

/-!
# When a body can be drawn

Drawing a body fails exactly if it comes to an element that its component refuses (`ok_draw_iff`).
It comes to the children of an element only if the element is one that is drawn with its children;
an element that has no place in the body is passed over, together with everything in it.

The children of one element are all set up before any of them is drawn, so a refusal among them wins
over one deeper in the tree. Which of the two is told matters for the message only, not for whether
drawing fails.
-/

set_option autoImplicit false

namespace EmailMarkup.Body

open EmailMarkup.Component EmailMarkup.Markup
open Relation (TransGen ReflTransGen)

/-- The element belongs into a body, and has an attribute that its component refuses at the level
that is in force. -/
def Setting.Refuses (s : Setting) (n : Node) : Prop :=
  s.options.level = .strict ∧
    ∃ spec ∈ s.registry.get? n.tag, spec.kind.isBody = true ∧ spec.schema.Refuses n

/-- The second element is a child of the first, which is drawn with its children. -/
def Setting.Parent (s : Setting) (n c : Node) : Prop :=
  (∃ kind ∈ s.kind? n.tag, hasChildren kind = true) ∧ c ∈ n.children

/-! ### One element -/

theorem ok_setUp_iff (s : Setting) (siblings : Siblings) (n : Node) :
    (∃ set, setUp s siblings n = .ok set) ↔ ¬ s.Refuses n := by
  unfold setUp Setting.Refuses
  cases hspec : s.registry.get? n.tag with
  | none => simp
  | some spec =>
    simp only [Option.mem_def, Option.some.injEq, exists_eq_left']
    cases hkind : spec.kind with
    | body kind =>
      simp only [Kind.isBody, true_and]
      rw [ok_map_iff, Schema.result_resolve_ok_iff]
    | head _ | structural => simp [Kind.isBody]

/-- An element is left out exactly if its tag has no kind in the body. -/
theorem kind_setUp {s : Setting} {siblings : Siblings} {n : Node} {set : SetUp}
    (h : setUp s siblings n = .ok set) : set.element?.map Element.kind = s.kind? n.tag := by
  obtain ⟨hnone, d, -, rfl⟩ | ⟨spec, kind, resolved, hspec, hkind, -, rfl⟩ := setUp_cases h
  · exact hnone.symm
  · simp [Setting.kind?, hspec, hkind]

/-- Below an element are its children and what is below them. -/
theorem forall_below_iff {s : Setting} {n : Node} {good : Node → Prop}
    (hn : ∃ kind ∈ s.kind? n.tag, hasChildren kind = true) :
    (∀ m, TransGen s.Parent n m → good m) ↔
      (∀ c ∈ n.children, good c) ∧ ∀ c ∈ n.children, ∀ m, TransGen s.Parent c m → good m := by
  constructor
  · intro h
    refine ⟨fun c hc => h c (.single ⟨hn, hc⟩), fun c hc m hm => h m ?_⟩
    exact .head ⟨hn, hc⟩ hm
  · rintro ⟨hchildren, hbelow⟩ m hm
    obtain ⟨c, hc, hm⟩ := TransGen.head'_iff.mp hm
    rcases Relation.reflTransGen_iff_eq_or_transGen.mp hm with rfl | hm
    · exact hchildren _ hc.2
    · exact hbelow c hc.2 m hm

/-- Nothing is below an element that is not drawn with its children. -/
theorem not_below {s : Setting} {n m : Node}
    (hn : ∀ kind ∈ s.kind? n.tag, hasChildren kind = false) : ¬ TransGen s.Parent n m := by
  intro hm
  obtain ⟨c, ⟨⟨kind, hkind, hholds⟩, -⟩, -⟩ := TransGen.head'_iff.mp hm
  rw [hn kind hkind] at hholds
  cases hholds

/-! ### Trees -/

mutual

/-- The block of an element can be made exactly if nothing below it is refused. -/
theorem ok_blockOf_iff {s : Setting} : ∀ (n : Node) {e : Element},
    s.kind? n.tag = some e.kind →
      ((∃ b, blockOf s e n = .ok b) ↔ ∀ m, TransGen s.Parent n m → ¬ s.Refuses m)
  | .element tag attributes children content position, e, hkind => by
    rw [blockOf]
    split
    · rename_i hholds
      rw [forall_below_iff ⟨e.kind, hkind, hholds⟩, ok_bind_iff]
      show (∃ set, setUpAll s children = .ok set ∧ _) ↔ (∀ c ∈ children, _) ∧ ∀ c ∈ children, _
      have hset : (∃ set, setUpAll s children = .ok set) ↔ ∀ c ∈ children, ¬ s.Refuses c := by
        rw [setUpAll, ok_mapM_iff]
        exact forall₂_congr fun c _ => ok_setUp_iff s _ c
      have hblocks : ∀ set, setUpAll s children = .ok set →
          ((∃ blocks, blocksOf s (set.map SetUp.element?) children = .ok blocks) ↔
            ∀ c ∈ children, ∀ m, TransGen s.Parent c m → ¬ s.Refuses m) := by
        intro set hset
        refine ok_blocksOf_iff children ?_
        rw [List.forall₂_map_left_iff]
        exact (forall₂_of_mapM hset).flip.imp fun _ _ => kind_setUp
      rw [← hset]
      constructor
      · rintro ⟨set, hset, hrest⟩
        obtain ⟨blocks, hmade, -⟩ := ok_bind_iff.mp hrest
        exact ⟨⟨set, hset⟩, (hblocks set hset).mp ⟨blocks, hmade⟩⟩
      · rintro ⟨⟨set, hset⟩, hbelow⟩
        obtain ⟨blocks, hmade⟩ := (hblocks set hset).mpr hbelow
        exact ⟨set, hset, ok_bind_iff.mpr ⟨blocks, hmade, _, rfl⟩⟩
    · rename_i hholds
      simp only [Except.ok.injEq, exists_eq', true_iff]
      intro m hm
      refine absurd hm (not_below fun kind hkind' => ?_)
      have hsame : some e.kind = some kind := hkind.symm.trans hkind'
      cases hsame
      simpa using hholds

theorem ok_blocksOf_iff {s : Setting} : ∀ (nodes : List Node) {elements : List (Option Element)},
    List.Forall₂ (fun element? n => element?.map Element.kind = s.kind? n.tag) elements nodes →
      ((∃ blocks, blocksOf s elements nodes = .ok blocks) ↔
        ∀ n ∈ nodes, ∀ m, TransGen s.Parent n m → ¬ s.Refuses m)
  | [], _, .nil => by
    rw [blocksOf]
    · simp
    · simp
    · simp
  | n :: nodes, none :: elements, .cons hn hnodes => by
    rw [blocksOf, ok_blocksOf_iff nodes hnodes, List.forall_mem_cons]
    -- An element that was left out has nothing below it.
    have hnothing : ∀ m, TransGen s.Parent n m → ¬ s.Refuses m := by
      intro m hm
      refine absurd hm (not_below fun kind hkind => ?_)
      rw [← hn] at hkind
      cases hkind
    exact ⟨fun h => ⟨hnothing, h⟩, fun h => h.2⟩
  | n :: nodes, some e :: elements, .cons hn hnodes => by
    rw [blocksOf, ok_bind_iff, List.forall_mem_cons, ← ok_blockOf_iff n hn.symm,
      ← ok_blocksOf_iff nodes hnodes]
    constructor
    · rintro ⟨block, hblock, hrest⟩
      obtain ⟨blocks, hblocks, -⟩ := ok_bind_iff.mp hrest
      exact ⟨⟨block, hblock⟩, blocks, hblocks⟩
    · rintro ⟨⟨block, hblock⟩, blocks, hblocks⟩
      exact ⟨block, hblock, ok_bind_iff.mpr ⟨blocks, hblocks, _, rfl⟩⟩

end

/-- An element can be drawn exactly if neither it nor anything below it is refused. -/
theorem ok_draw_iff (s : Setting) (width : Float) (siblings : Siblings) (n : Node) :
    (∃ d, draw s width siblings n = .ok d) ↔ ∀ m, ReflTransGen s.Parent n m → ¬ s.Refuses m := by
  have hsplit : (∀ m, ReflTransGen s.Parent n m → ¬ s.Refuses m) ↔
      ¬ s.Refuses n ∧ ∀ m, TransGen s.Parent n m → ¬ s.Refuses m := by
    constructor
    · intro h
      exact ⟨h n .refl, fun m hm => h m hm.to_reflTransGen⟩
    · rintro ⟨hself, hbelow⟩ m hm
      rcases Relation.reflTransGen_iff_eq_or_transGen.mp hm with rfl | hm
      · exact hself
      · exact hbelow m hm
  rw [hsplit, ← ok_setUp_iff s siblings n]
  unfold draw
  rw [ok_bind_iff]
  constructor
  · rintro ⟨set, hset, hrest⟩
    refine ⟨⟨set, hset⟩, ?_⟩
    have hkind := kind_setUp hset
    cases helement : set.element? with
    | none =>
      intro m hm
      refine absurd hm (not_below fun kind hkind' => ?_)
      rw [← hkind, helement] at hkind'
      cases hkind'
    | some e =>
      rw [helement] at hrest hkind
      obtain ⟨block, hblock, -⟩ := ok_bind_iff.mp hrest
      exact (ok_blockOf_iff n hkind.symm).mp ⟨block, hblock⟩
  · rintro ⟨⟨set, hset⟩, hbelow⟩
    refine ⟨set, hset, ?_⟩
    have hkind := kind_setUp hset
    cases helement : set.element? with
    | none => exact ⟨_, rfl⟩
    | some e =>
      rw [helement] at hkind
      obtain ⟨block, hblock⟩ := (ok_blockOf_iff n hkind.symm).mpr hbelow
      exact ok_bind_iff.mpr ⟨block, hblock, _, rfl⟩

end EmailMarkup.Body
