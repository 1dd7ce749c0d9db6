import EmailMarkup.Proofs.Body.Guarded
import EmailMarkup.Proofs.Schema.Resolve

/-!
# Rejected addresses in a drawing

Drawing a body reports every address that the policy does not let through exactly once, in the order
of the document, and draws none of them (`rejected_reported_and_dropped`). Which elements a drawing
has is said by `elementsOf`, without reports and drawings; what one element does is in the modules
on addresses and on guarded tags.
-/

set_option autoImplicit false

namespace EmailMarkup.Body

open EmailMarkup.Component EmailMarkup.Markup

variable {siblings : Siblings} {n : Node}

variable {s : Setting}

/-! ### Reports -/

/-- No address is reported when an element is set up. -/
theorem filter_setUp {set : SetUp} (h : setUp s siblings n = .ok set) :
    set.notes.reports.filter isOnAddress = [] := by
  obtain ⟨-, d, rfl | rfl, rfl⟩ | ⟨spec, kind, resolved, -, -, hresolved, rfl⟩ := setUp_cases h
  · rfl
  · rfl
  · have habout := spec.schema.aboutAttributes_resolve s.options.level (some s.head) n
    obtain ⟨-, -, hreports⟩ := Schema.Resolution.result_eq_ok_iff.mp hresolved
    rw [List.filter_eq_nil_iff]
    intro d hd
    rcases habout d (hreports ▸ hd) with hkind | hkind
    · simp [isOnAddress, hkind]
    · simp [isOnAddress, hkind]

/-- A drawing reports the addresses in it that are not allowed. -/
theorem filter_draw {width : Float} {d : Drawing} (h : draw s width siblings n = .ok d) :
    d.notes.reports.filter isOnAddress =
      (elementsOf s siblings n).flatMap (Element.rejections s.options) := by
  have hpart : NotesPart fun notes => notes.reports.filter isOnAddress :=
    ⟨rfl, fun a b => List.filter_append a.reports b.reports⟩
  exact hpart.draw (fun e width => filter_notes s.options width e) filter_setUp h

/-! ### Tags -/

/-- All tags of a drawing are guarded. -/
theorem guardedTags_block {e : Element} {b : Block} (he : s.element? siblings n = some e)
    (hb : blockOf s e n = .ok b) (width : Float) : GuardedTags s.options (b.fragments s width) :=
  fragments_of_elements (fun _ => guardedTags_draw s _ _) he hb (fun _ _ => trivial) width

/-- The tags of a drawing show every address that is allowed. -/
theorem mem_attributes_block {e : Element} {b : Block} (he : s.element? siblings n = some e)
    (hb : blockOf s e n = .ok b) (width : Float) :
    ∀ c ∈ elementsOf s siblings n, ∀ name ∈ addressAttributes c.kind, ∀ url,
      c.url? s.options name = some url →
        (shownAs name, some url) ∈ attributesAmong (b.fragments s width) := by
  intro c hc name hname url hurl
  obtain ⟨own, children, hdrawn⟩ := infix_fragments he hb width c hc
  exact mem_attributesAmong_of_infix hdrawn (mem_attributes_draw hname hurl own children)

/-! ### Tags of the core components -/

/-- The attributes with addresses, by what is done with an element. -/
def addressAttributesOf : Kind → List String
  | .body kind => addressAttributes kind
  | .head _ => []
  | .structural => []

/-- The attributes with addresses, by the tags of the core components. -/
def coreAddressAttributes (tag : String) : List String :=
  if tag = "mj-image" then ["src", "href"]
  else if tag = "mj-button" then ["href"]
  else if tag = "mj-section" then ["background-url"]
  else []

theorem addressAttributes_of_core (hcore : s.registry = .core) {tag : String} {kind : BodyKind}
    (h : s.kind? tag = some kind) : addressAttributes kind = coreAddressAttributes tag := by
  have hall : (Registry.core.components.entries.all fun entry =>
      addressAttributesOf entry.2.kind == coreAddressAttributes entry.1) = true := by
    decide +kernel
  obtain ⟨spec, hspec, hbody⟩ := Option.bind_eq_some_iff.mp h
  rw [hcore] at hspec
  have hentry := List.all_eq_true.mp hall (tag, spec) (OrderedMap.mem_entries_of_get? hspec)
  cases hkind : spec.kind with
  | body kind' =>
    rw [hkind] at hbody
    obtain rfl : kind' = kind := Option.some.inj hbody
    replace hentry : addressAttributesOf spec.kind = coreAddressAttributes tag :=
      beq_iff_eq.mp hentry
    rwa [hkind] at hentry
  | head kind' | structural =>
    rw [hkind] at hbody
    cases hbody

/-- What is set up for a node has its tag. -/
theorem tag_setUp {set : SetUp} {e : Element} (h : setUp s siblings n = .ok set)
    (he : set.element? = some e) : e.tag = n.tag := by
  obtain ⟨-, d, -, rfl⟩ | ⟨spec, kind, resolved, -, -, -, rfl⟩ := setUp_cases h
  · cases he
  · cases he
    rfl

/-- The elements that are drawn for a node have the kinds of their tags. -/
theorem kind?_of_mem_elementsOf {e : Element} (he : e ∈ elementsOf s siblings n) :
    s.kind? e.tag = some e.kind := by
  obtain ⟨m, -, siblings, hm⟩ := exists_of_mem_elementsOf n he
  obtain ⟨set, hset, helement⟩ := exists_setUp_of_element? hm
  rw [tag_setUp hset helement]
  exact (setUp_spec hset helement).1

/-! ### Drawings -/

/-- An element shows nothing of addresses that are not allowed. -/
structure Element.HidesRejected (s : Setting) (e : Element) : Prop where
  backgrounds : e.kind = .row → ∀ width, ∀ slot ∈ (e.slots s.options width).entries, ∀ value,
    ("background", some value) ∈ slot.2 → Row.IsBackground s.options e value
  /-- Another address that is not allowed either makes no difference. -/
  alike : ∀ name ∈ addressAttributes e.kind, ∀ url, (e.rejected? s.options name).isSome = true →
    (Element.policy s.options).accepts url = false → ∀ width children,
      (e.withAttribute name url).draw s width children = e.draw s width children ∧
      (e.withAttribute name url).slots s.options width = e.slots s.options width

theorem hidesRejected (s : Setting) (e : Element) : e.HidesRejected s where
  backgrounds := by
    intro hrow width slot hslot value hvalue
    unfold Element.slots at hslot
    rw [hrow] at hslot
    exact Row.isBackground_of_mem_slots hslot hvalue
  alike := by
    intro name hname url hrejected hurl width children
    have hdiffer := Element.differInRejected_withAttribute hname hrejected hurl
    exact ⟨(hdiffer.draw width children).1, (hdiffer.draw width children).2.1⟩

/-- Drawing a body reports every address that is not allowed once, in the order of the document, and
no other address. The tags of what is drawn have every address that is allowed, and otherwise empty
ones only, and no element shows anything of an address that is not allowed. With the core components
the addresses are those of images, buttons and sections. -/
theorem rejected_reported_and_dropped (s : Setting) (width : Float) (siblings : Siblings) (n : Node)
    {d : Drawing} (hdraw : draw s width siblings n = .ok d) :
    d.notes.reports.filter isOnAddress =
      (elementsOf s siblings n).flatMap (Element.rejections s.options) ∧
    (∀ e html, d.drawn? = some (e, html) → ∃ b, blockOf s e n = .ok b ∧
      html = printFragments (b.fragments s width) ∧
      Guarded s.options (attributesAmong (b.fragments s width)) ∧
      ∀ c ∈ elementsOf s siblings n, ∀ name ∈ addressAttributes c.kind, ∀ url,
        c.url? s.options name = some url →
          (shownAs name, some url) ∈ attributesAmong (b.fragments s width)) ∧
    (∀ e ∈ elementsOf s siblings n, e.HidesRejected s) ∧
    (s.registry = .core → ∀ e ∈ elementsOf s siblings n,
      addressAttributes e.kind = coreAddressAttributes e.tag) := by
  refine ⟨filter_draw hdraw, ?_, fun e _ => hidesRejected s e, ?_⟩
  · intro e html hdrawn
    obtain ⟨set, -, ⟨-, rfl⟩ | ⟨e', b, he, hb, rfl⟩⟩ := draw_cases hdraw
    · cases hdrawn
    · cases hdrawn
      exact ⟨b, hb, rfl, guardedTags_block he hb width, mem_attributes_block he hb width⟩
  · intro hcore e he
    exact addressAttributes_of_core hcore (kind?_of_mem_elementsOf he)

/-- A body with four addresses that are not allowed and one that is. -/
def dubiousBody : Node :=
  let node (tag : String) (attributes : List (String × String)) (children : List Node) : Node :=
    .element tag (.ofList attributes) children "" .start
  node "mj-body" [] [node "mj-section" [("background-url", "javascript:a")] [node "mj-column" [] [
    node "mj-image" [("src", "data:b"), ("href", "file:c")] [],
    node "mj-button" [("href", "https://d")] [],
    node "mj-button" [("href", "vbscript:e")] []]]]

/-- The four are reported, in the order of the document, and the tags have none of them. The fifth
is shown. -/
theorem dubiousBody_reported_and_dropped :
    ∃ d e html b, draw coreSetting 600 .single dubiousBody = .ok d ∧ d.drawn? = some (e, html) ∧
      d.notes.reports.filter isOnAddress =
        [.unsafeUrl "mj-section" "background-url" "javascript:a",
          .unsafeUrl "mj-image" "src" "data:b", .unsafeUrl "mj-image" "href" "file:c",
          .unsafeUrl "mj-button" "href" "vbscript:e"] ∧
      blockOf coreSetting e dubiousBody = .ok b ∧
      html = printFragments (b.fragments coreSetting 600) ∧
      Guarded {} (attributesAmong (b.fragments coreSetting 600)) ∧
      ("href", some "https://d") ∈ attributesAmong (b.fragments coreSetting 600) := by
  have hrejections : (elementsOf coreSetting .single dubiousBody).flatMap
      (Element.rejections coreSetting.options) =
        [.unsafeUrl "mj-section" "background-url" "javascript:a",
          .unsafeUrl "mj-image" "src" "data:b", .unsafeUrl "mj-image" "href" "file:c",
          .unsafeUrl "mj-button" "href" "vbscript:e"] := rfl
  obtain ⟨d, e, html, hdraw, hdrawn, -⟩ := exists_drawn coreSetting 600 .single dubiousBody
    (fun _ => true) (by decide +kernel)
  obtain ⟨hreports, hblock, -, -⟩ :=
    rejected_reported_and_dropped coreSetting 600 .single dubiousBody hdraw
  obtain ⟨b, hb, hhtml, hguarded, hshown⟩ := hblock e html hdrawn
  have hlinked : ((elementsOf coreSetting .single dubiousBody).any fun c =>
      c.kind = .button && c.url? {} "href" = some "https://d") = true := by decide +kernel
  obtain ⟨c, hc, hlink⟩ := List.any_eq_true.mp hlinked
  rw [Bool.and_eq_true, decide_eq_true_iff, decide_eq_true_iff] at hlink
  have hhref := hshown c hc "href" (by rw [hlink.1]; decide) "https://d" hlink.2
  refine ⟨d, e, html, b, hdraw, hdrawn, hreports.trans hrejections, hb, hhtml, hguarded, ?_⟩
  rwa [show shownAs "href" = "href" by decide] at hhref

end EmailMarkup.Body
