import EmailMarkup.Body.Draw
import EmailMarkup.Proofs.OrderedMap

/-!
# Addresses of an element

Images, buttons and rows have attributes with addresses. Those that the policy does not let through
are reported (`filter_notes`), and an element shows nothing of them: the backgrounds of a row have
allowed addresses only (`Row.isBackground_of_mem_slots`), and a drawing is the same whatever the
address was that was turned away (`Element.DifferInRejected.draw`).
-/

set_option autoImplicit false

namespace EmailMarkup.Body

open EmailMarkup.Component EmailMarkup.Layout EmailMarkup.Markup

/-- The attributes with addresses. -/
def addressAttributes : BodyKind → List String
  | .image => ["src", "href"]
  | .button => ["href"]
  | .row => ["background-url"]
  | .body | .column | .text | .raw => []

namespace Element

/-- The address in an attribute, if it is not allowed. -/
def rejected? (o : Options) (e : Element) (name : String) : Option String :=
  (e.attr? name).filter fun url => !(policy o).accepts url

/-- One report for each address that is not allowed. -/
def rejections (o : Options) (e : Element) : List Diagnostic :=
  (addressAttributes e.kind).filterMap fun name =>
    (e.rejected? o name).map fun url => .unsafeUrl e.tag name url

end Element

/-! ### Reports -/

/-- Whether a report is about an address. -/
def isOnAddress (d : Diagnostic) : Bool :=
  d.kind = .unsafeUrl

theorem urlReports_eq (o : Options) (e : Element) (name : String) :
    e.urlReports o name =
      ((e.rejected? o name).map fun url => Diagnostic.unsafeUrl e.tag name url).toList := by
  unfold Element.urlReports Element.rejected?
  cases e.attr? name with
  | none => rfl
  | some url =>
    cases haccepts : (Element.policy o).accepts url with
    | true => simp [Option.filter, haccepts]
    | false => simp [Option.filter, haccepts]

theorem filter_urlReports (o : Options) (e : Element) (name : String) :
    (e.urlReports o name).filter isOnAddress = e.urlReports o name := by
  rw [urlReports_eq]
  cases e.rejected? o name with
  | none | some url => rfl

/-- The notes on an element report each of its addresses that is not allowed, once. -/
theorem filter_notes (o : Options) (width : Float) (e : Element) :
    (e.notes o width).reports.filter isOnAddress = e.rejections o := by
  have hoverflow : ∀ (p : Prop) [Decidable p] (x : Float),
      (if p then [Diagnostic.overflow e.tag x e.line] else []).filter isOnAddress = [] := by
    intro p _ x
    split <;> rfl
  have hone : ∀ name, [name].filterMap (fun name => (e.rejected? o name).map fun url =>
      Diagnostic.unsafeUrl e.tag name url) = e.urlReports o name := by
    intro name
    rw [urlReports_eq]
    cases h : e.rejected? o name with
    | none | some url => simp [h]
  unfold Element.notes Element.rejections
  cases hkind : e.kind with
  | body => rfl
  | row =>
    show (Row.notes o width e).reports.filter isOnAddress = _
    rw [Row.notes, List.filter_append, hoverflow, List.nil_append, filter_urlReports,
      addressAttributes, hone]
  | column => exact hoverflow _ _
  | text => rfl
  | image =>
    show (Image.notes o width e).reports.filter isOnAddress = _
    rw [Image.notes, List.filter_append, List.filter_append, hoverflow, List.nil_append,
      filter_urlReports, filter_urlReports, addressAttributes, ← hone, ← hone,
      ← List.filterMap_append]
    rfl
  | button =>
    show (Button.notes o e).reports.filter isOnAddress = _
    rw [Button.notes, filter_urlReports, addressAttributes, hone]
  | raw => rfl

/-! ### Backgrounds -/

namespace Row

/-- A background is that of a colour, or has an image from an allowed address. -/
def IsBackground (o : Options) (e : Element) (value : String) : Prop :=
  e.attr? "background-color" = some value ∨
    ∃ url, e.attr? "background-url" = some url ∧ (Element.policy o).accepts url = true ∧
      value = " ".intercalate ((e.attr? "background-color").toList ++ ["url('" ++ url ++ "')",
        backgroundPosition e, "/ " ++ (e.attr? "background-size").getD "auto",
        (e.attr? "background-repeat").getD "repeat"])

theorem isBackground_of_mem {o : Options} {e : Element} {value : String}
    (h : ("background", some value) ∈ background o e) : IsBackground o e value := by
  unfold background at h
  simp only at h
  cases hurl : backgroundUrl? o e with
  | none =>
    rw [hurl] at h
    simp at h
    exact .inl h.symm
  | some url =>
    rw [hurl] at h
    simp at h
    obtain ⟨hattr, haccepts⟩ := Option.filter_eq_some_iff.mp hurl
    exact .inr ⟨url, hattr, haccepts, h⟩

/-- Every background among the styles of a row is such a one. -/
theorem isBackground_of_mem_slots {o : Options} {width : Float} {e : Element} {slot value : String}
    {style : Style} (hslot : (slot, style) ∈ (slots o width e).entries)
    (hvalue : ("background", some value) ∈ style) : IsBackground o e value := by
  refine isBackground_of_mem ?_
  unfold slots at hslot
  simp only [List.mem_cons, List.not_mem_nil, or_false, Prod.mk.injEq] at hslot
  obtain ⟨-, rfl⟩ | ⟨-, rfl⟩ | ⟨-, rfl⟩ | ⟨-, rfl⟩ | ⟨-, rfl⟩ := hslot
  · -- On a full-width row the outermost table has it.
    cases hfull : isFullWidth e with
    | true => simpa [hfull] using hvalue
    | false => simp [hfull] at hvalue
  · cases hfull : isFullWidth e with
    | true => simp [hfull] at hvalue
    | false => simpa [hfull] using hvalue
  · simp [Element.styleOf] at hvalue
  · cases hfull : isFullWidth e with
    | true => simp [hfull] at hvalue
    | false => simpa [hfull] using hvalue
  · simp at hvalue

end Row

/-! ### What a rejected address shows -/

namespace Element

/-- Two elements that agree but for one address, which is not allowed in either of them. -/
structure DifferInRejected (o : Options) (name : String) (e e' : Element) : Prop where
  isAddress : name ∈ addressAttributes e.kind
  kind : e'.kind = e.kind
  content : e'.content = e.content
  others : ∀ other, other ≠ name → e'.attributes.get? other = e.attributes.get? other
  first : (e.rejected? o name).isSome = true
  second : (e'.rejected? o name).isSome = true

section
variable {o : Options} {name : String} {e e' : Element}

/-- An address is rejected exactly if it is there and the policy does not accept it. -/
theorem rejected?_isSome_iff : (e.rejected? o name).isSome = true ↔
    ∃ url, e.attr? name = some url ∧ (policy o).accepts url = false := by
  unfold rejected?
  cases h : e.attr? name with
  | none => simp
  | some url => simp [Option.filter]

theorem DifferInRejected.attr? (h : DifferInRejected o name e e') {other : String}
    (hother : other ≠ name) : e'.attr? other = e.attr? other := by
  unfold Element.attr?
  rw [h.others other hother]

theorem DifferInRejected.ne (h : DifferInRejected o name e e') {other : String}
    (hother : other ∉ ["src", "href", "background-url"]) : other ≠ name := by
  rintro rfl
  have hmem := h.isAddress
  revert hmem hother
  unfold addressAttributes
  cases e.kind <;> simp +contextual

/-- What is no address is the same in both. -/
theorem DifferInRejected.other (h : DifferInRejected o name e e') (other : String)
    (hother : other ∉ ["src", "href", "background-url"]) : e'.attr? other = e.attr? other :=
  h.attr? (h.ne hother)

/-- No address that is allowed shows a difference. -/
theorem DifferInRejected.url? (h : DifferInRejected o name e e') (other : String) :
    e'.url? o other = e.url? o other := by
  unfold Element.url?
  by_cases hother : other = name
  · subst hother
    obtain ⟨url, hurl, hrejected⟩ := rejected?_isSome_iff.mp h.first
    obtain ⟨url', hurl', hrejected'⟩ := rejected?_isSome_iff.mp h.second
    rw [hurl, hurl']
    simp [Option.filter, hrejected, hrejected']
  · rw [h.attr? hother]

/-- Nor does an address that is emptied if it is not allowed. -/
theorem DifferInRejected.clean (h : DifferInRejected o name e e') (other : String) :
    (e'.attr? other).map (policy o).clean = (e.attr? other).map (policy o).clean := by
  by_cases hother : other = name
  · subst hother
    obtain ⟨url, hurl, hrejected⟩ := rejected?_isSome_iff.mp h.first
    obtain ⟨url', hurl', hrejected'⟩ := rejected?_isSome_iff.mp h.second
    rw [hurl, hurl']
    simp [Url.Policy.clean, hrejected, hrejected']
  · rw [h.attr? hother]

/-- Nor does a padding, whose attributes hold no addresses. -/
theorem DifferInRejected.sidePadding (h : DifferInRejected o name e e') {padding : String}
    (hpadding : padding ∈ ["padding", "inner-padding"]) :
    e'.sidePadding padding = e.sidePadding padding := by
  unfold Element.sidePadding Element.edge
  simp only [List.mem_cons, List.not_mem_nil, or_false] at hpadding
  rcases hpadding with rfl | rfl
  · simp (disch := decide) only [h.other]
  · simp (disch := decide) only [h.other]

/-- The box of an element has nothing to do with addresses. -/
theorem DifferInRejected.box (h : DifferInRejected o name e e') (width : Float) :
    e'.box width = e.box width := by
  unfold Element.box Element.sideBorder Element.borderAt
  rw [h.sidePadding (by decide)]
  simp (disch := decide) only [h.other]

/-- An image looks the same whatever the rejected address was. -/
theorem DifferInRejected.image (h : DifferInRejected o name e e') (width : Float) :
    Image.slots width e' = Image.slots width e ∧
      Image.draw o width e' = Image.draw o width e := by
  have hslots : Image.slots width e' = Image.slots width e := by
    unfold Image.slots Image.isFullWidth Image.contentWidth Element.styleOf
    simp (disch := decide) only [h.box, h.other, List.map]
  have hpicture : Image.picture o width e' = Image.picture o width e := by
    unfold Image.picture Image.contentWidth Element.passed
    rw [h.others "alt" (h.ne (by decide))]
    simp (disch := decide) only [hslots, h.box, h.clean, h.other]
  refine ⟨hslots, ?_⟩
  unfold Image.draw Image.linked Image.isFluid Element.passed
  simp (disch := decide) only [hslots, hpicture, h.url?, h.other]

/-- So does a button. Its width comes from other attributes, which do not differ. -/
theorem DifferInRejected.button (h : DifferInRejected o name e e') (width : Float) :
    Button.slots width e' = Button.slots width e ∧
      Button.draw o width e' = Button.draw o width e := by
  have hslots : Button.slots width e' = Button.slots width e := by
    unfold Button.slots Button.linkWidth? Button.askedWidth? Element.styleOf
    rw [h.sidePadding (by decide)]
    simp (disch := decide) only [h.box, h.other, List.map]
  refine ⟨hslots, ?_⟩
  unfold Button.draw Element.passed Element.keyword Element.contentHtml
  simp (disch := decide) only [hslots, h.content, h.url?, h.other]

/-- So does a section, with any children. -/
theorem DifferInRejected.row (h : DifferInRejected o name e e') (width : Float)
    (children : List Child) : Row.slots o width e' = Row.slots o width e ∧
      Row.draw o width e' children = Row.draw o width e children := by
  have hslots : Row.slots o width e' = Row.slots o width e := by
    unfold Row.slots Row.isFullWidth Row.background Row.backgroundUrl? Row.backgroundPosition
      Element.styleOf Element.keyword
    simp (disch := decide) only [h.url?, h.other, List.map]
  have hinner : Row.inner o width e' children = Row.inner o width e children := by
    unfold Row.inner Row.isFullWidth Row.backgroundUrl?
    simp (disch := decide) only [hslots, h.url?, h.other]
  refine ⟨hslots, ?_⟩
  unfold Row.draw Row.before Row.isFullWidth Row.backgroundUrl? Element.outlookClass
  simp (disch := decide) only [hslots, hinner, h.url?, h.other]

end

/-- The element with another value of an attribute. -/
def withAttribute (e : Element) (name value : String) : Element :=
  { e with attributes := e.attributes.insert name value }

/-- Another address that is not allowed, in the place of one that is not. -/
theorem differInRejected_withAttribute {o : Options} {e : Element} {name url : String}
    (hname : name ∈ addressAttributes e.kind) (hfirst : (e.rejected? o name).isSome = true)
    (hurl : (policy o).accepts url = false) :
    DifferInRejected o name e (e.withAttribute name url) where
  isAddress := hname
  kind := rfl
  content := rfl
  others := fun other hother => OrderedMap.get?_insert_of_ne _ _ hother
  first := hfirst
  second := by
    have hne : url ≠ "" := by
      rintro rfl
      cases hurl
    have hattr : (e.withAttribute name url).attr? name = some url := by
      unfold attr? withAttribute
      rw [OrderedMap.get?_insert_self]
      simp [Option.filter, hne]
    exact rejected?_isSome_iff.mpr ⟨url, hattr, hurl⟩

/-- An element shows nothing of an address that is not allowed. -/
theorem DifferInRejected.draw {s : Setting} {name : String} {e e' : Element}
    (h : DifferInRejected s.options name e e') (width : Float) (children : List Child) :
    e'.draw s width children = e.draw s width children ∧
      e'.slots s.options width = e.slots s.options width ∧
      e'.childWidth width = e.childWidth width := by
  unfold Element.draw Element.slots Element.childWidth
  rw [h.kind]
  have hname := h.isAddress
  cases hkind : e.kind with
  | row =>
    obtain ⟨hslots, hdraw⟩ := h.row width children
    exact ⟨hdraw, hslots, congrArg BoxWidths.inner (h.box width)⟩
  | image => exact ⟨(h.image width).2, (h.image width).1, rfl⟩
  | button => exact ⟨(h.button width).2, (h.button width).1, rfl⟩
  | body | column | text | raw =>
    rw [hkind] at hname
    cases hname

end Element

end EmailMarkup.Body
