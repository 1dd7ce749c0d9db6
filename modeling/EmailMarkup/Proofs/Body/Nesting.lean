import EmailMarkup.Proofs.Body.Component
import EmailMarkup.Proofs.Body.Elements

/-!
# Bodies are well nested

What browsers see and what Outlook sees of a compiled body are both well nested, and no conditional
comment has another one in it (`draw_wellNested`). This holds of every tree of elements that are not
passed through as they are, with any attributes, in any head, and in a container of any width, as
long as the two things that are drawn unescaped are harmless (`Setting.Admits`).

The proof is an induction over the blocks of a body, with `neutral_draw` as its step. The elements
that are drawn are those of the nodes of the tree, which are all admitted.
-/

set_option autoImplicit false

namespace EmailMarkup.Body

open EmailMarkup.Component EmailMarkup.Markup EmailMarkup.Outlook
open EmailMarkup.Html (wellNested)

/-- An element that is not passed through as it is, and whose content and height are harmless where
they are drawn unescaped. -/
def Setting.Admits (s : Setting) (n : Node) : Prop :=
  s.kind? n.tag ≠ some .raw ∧
  (s.kind? n.tag = some .text ∨ s.kind? n.tag = some .button →
    s.options.sanitize.isSome = true ∨ '<' ∉ n.content.toList) ∧
  (s.kind? n.tag = some .text → ∀ attributes ∈ s.resolved? n, ∀ h ∈ attributes.get? "height",
    '"' ∉ h.toList ∧ '<' ∉ h.toList)

instance (s : Setting) (n : Node) : Decidable (s.Admits n) := by
  unfold Setting.Admits
  infer_instance

theorem sound_of_setUp {s : Setting} {siblings : Siblings} {n : Node} {set : SetUp} {e : Element}
    (hn : s.Admits n) (h : setUp s siblings n = .ok set) (he : set.element? = some e) :
    e.Sound s.options := by
  obtain ⟨hkind, hresolved, hcontent⟩ := setUp_spec h he
  obtain ⟨hpassed, hshown, hheight⟩ := hn
  refine ⟨?_, ?_, ?_⟩
  · intro hraw
    exact hpassed (by rw [hkind, hraw])
  · rw [hkind, Option.some.injEq, Option.some.injEq] at hshown
    rw [hcontent]
    exact hshown
  · intro htext height hattr
    have hget : height ∈ e.attributes.get? "height" := (Option.filter_eq_some_iff.mp hattr).1
    exact hheight (by rw [hkind, htext]) e.attributes hresolved height hget

/-- A drawing of elements of admitted nodes opens and closes nothing. -/
theorem neutral_fragments {s : Setting} {siblings : Siblings} {n : Node} {e : Element} {b : Block}
    (hn : ∀ m ∈ n.nodes, s.Admits m) (he : s.element? siblings n = some e)
    (hb : blockOf s e n = .ok b) (width : Float) : Neutral (b.fragments s width) := by
  refine fragments_of_elements (fun he => neutral_draw s _ he) he hb (fun c hc => ?_) width
  obtain ⟨m, hm, siblings, hc⟩ := exists_of_mem_elementsOf n hc
  obtain ⟨set, hset, helement⟩ := exists_setUp_of_element? hc
  exact sound_of_setUp (hn m hm) hset helement

/-- Both views of a compiled body are well nested, and none of its blocks has another one in it. -/
theorem draw_wellNested (s : Setting) (width : Float) (siblings : Siblings) (n : Node)
    (hn : ∀ m ∈ n.nodes, s.Admits m) {d : Drawing} {e : Element} {html : String}
    (hdraw : draw s width siblings n = .ok d) (hdrawn : d.drawn? = some (e, html)) :
    wellNested (browserView html.toList) = true ∧ wellNested (outlookView html.toList) = true ∧
      ∀ content ∈ blockContents html.toList, ¬ "<!--[if".toList <:+: content := by
  unfold draw at hdraw
  obtain ⟨set, hset, hdraw⟩ := exists_of_bind hdraw
  split at hdraw
  · cases hdraw
    cases hdrawn
  · rename_i e' helement
    obtain ⟨block, hblock, hdraw⟩ := exists_of_bind hdraw
    cases hdraw
    cases hdrawn
    have hown := (element?_of_setUp hset).trans helement
    have hsteps := neutral_fragments hn hown hblock width ⟨[], []⟩
    exact ⟨hsteps.browser.wellNested, hsteps.outlook.wellNested, hsteps.flat⟩

theorem sampleBody_wellNested :
    (∀ m ∈ sampleBody.nodes, coreSetting.Admits m) ∧
    ∃ d e html, draw coreSetting 600 .single sampleBody = .ok d ∧ d.drawn? = some (e, html) ∧
      wellNested (browserView html.toList) = true ∧ wellNested (outlookView html.toList) = true ∧
      ∀ content ∈ blockContents html.toList, ¬ "<!--[if".toList <:+: content := by
  have hadmits : ∀ m ∈ sampleBody.nodes, coreSetting.Admits m := by decide +kernel
  have hsome : (draw coreSetting 600 .single sampleBody).toOption.any
      (fun d => d.drawn?.isSome) = true := by decide +kernel
  refine ⟨hadmits, ?_⟩
  cases hdraw : draw coreSetting 600 .single sampleBody with
  | error failure =>
    rw [hdraw] at hsome
    cases hsome
  | ok d =>
    rw [hdraw] at hsome
    obtain ⟨⟨e, html⟩, hdrawn⟩ := Option.isSome_iff_exists.mp hsome
    exact ⟨d, e, html, rfl, hdrawn,
      draw_wellNested coreSetting 600 .single sampleBody hadmits hdraw hdrawn⟩

end EmailMarkup.Body
