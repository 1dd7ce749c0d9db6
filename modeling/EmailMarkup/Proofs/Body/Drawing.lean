import EmailMarkup.Body.Draw
import EmailMarkup.Proofs.Body.Fragment
import Mathlib.Tactic.Tauto

/-!
# What every drawing is made of

The components are drawn from few shapes: elements, tags that are their whole element, and
scaffolding for Outlook that is opened in one block and closed in another. The tags have constant
names, and their attributes are in order (`Proper`): the names are ordinary ones, and what mail
readers take for an address is allowed by the policy or empty. A property of drawings that these
shapes keep (`Composes`) holds of every component whose children have it (`Composes.draw`),
whatever its attributes are and whichever of its variants they choose.
-/

set_option autoImplicit false

namespace EmailMarkup.Body

open EmailMarkup.Component EmailMarkup.Html

variable {name : String} {slots : Slots}

/-! ### Attributes of tags -/

/-- The attributes of tags that mail readers take for addresses. -/
def addressNames : List String :=
  ["href", "src", "background"]

/-- Each attribute that is taken for an address has one that is allowed, or an empty one. -/
def Guarded (o : Options) (attributes : List (String × Option String)) : Prop :=
  ∀ a ∈ attributes, a.1 ∈ addressNames →
    ∃ url, a.2 = some url ∧ (url = "" ∨ (Element.policy o).accepts url = true)

/-- Attributes with ordinary names, in which no address is one that is not allowed. -/
structure Proper (o : Options) (attributes : List (String × Option String)) : Prop where
  named : Named attributes
  guarded : Guarded o attributes

section
variable {o : Options}

theorem proper_nil : Proper o [] :=
  ⟨nofun, nofun⟩

/-- A name of an attribute that is an ordinary one, and does not stand for an address. -/
def isPlain (name : String) : Bool :=
  isTagName name && !addressNames.contains name

theorem of_isPlain {names : List String} (h : names.all isPlain = true) (hname : name ∈ names) :
    isTagName name = true ∧ name ∉ addressNames := by
  have hplain := List.all_eq_true.mp h name hname
  simpa [isPlain] using hplain

/-- It is enough to look at the names of attributes that are no addresses. -/
theorem proper_of_names {attributes : List (String × Option String)} (names : List String)
    (hnames : ∀ a ∈ attributes, a.1 ∈ names) (h : names.all isPlain = true) :
    Proper o attributes :=
  ⟨fun a ha => (of_isPlain h (hnames a ha)).1,
    fun a ha haddress => absurd haddress (of_isPlain h (hnames a ha)).2⟩

theorem exists_of_mem_written {pairs : List (String × AttributeValue)}
    {a : String × Option String} (ha : a ∈ written slots pairs) :
    ∃ value, (a.1, value) ∈ pairs ∧ value.written slots = some a.2 := by
  obtain ⟨⟨name, value⟩, hmem, hwritten⟩ := List.mem_filterMap.mp ha
  obtain ⟨v, hv, rfl⟩ := Option.map_eq_some_iff.mp hwritten
  exact ⟨value, hmem, hv⟩

/-- What is written under plain names is proper, whatever it is and whatever is left out. -/
theorem proper_written {pairs : List (String × AttributeValue)} (names : List String)
    (hnames : pairs.map Prod.fst = names) (h : names.all isPlain = true) :
    Proper o (written slots pairs) := by
  refine proper_of_names names (fun a ha => ?_) h
  obtain ⟨value, hmem, -⟩ := exists_of_mem_written ha
  rw [← hnames]
  exact List.mem_map_of_mem (f := Prod.fst) hmem

/-- An attribute that may be missing and has an allowed address or an empty one is proper among
attributes of plain names. -/
theorem proper_written_address (before : List (String × AttributeValue)) (url? : Option String)
    {after : List (String × AttributeValue)} (names : List String) (hname : isTagName name = true)
    (hnames : (before ++ after).map Prod.fst = names) (h : names.all isPlain = true)
    (hurl : ∀ url ∈ url?, url = "" ∨ (Element.policy o).accepts url = true) :
    Proper o (written slots (before ++ (name, .ofText? url?) :: after)) := by
  have hcases : ∀ a ∈ written slots (before ++ (name, .ofText? url?) :: after),
      a.1 ∈ names ∨ a.1 = name ∧ (AttributeValue.ofText? url?).written slots = some a.2 := by
    intro a ha
    obtain ⟨value, hmem, hvalue⟩ := exists_of_mem_written ha
    rw [List.mem_append, List.mem_cons] at hmem
    have hother : (a.1, value) ∈ before ++ after → a.1 ∈ names :=
      fun hmem => hnames ▸ List.mem_map_of_mem (f := Prod.fst) hmem
    rw [List.mem_append] at hother
    have hown : (a.1, value) = (name, .ofText? url?) →
        a.1 = name ∧ (AttributeValue.ofText? url?).written slots = some a.2 := by
      intro heq
      obtain ⟨hfirst, hsecond⟩ := Prod.mk.inj heq
      exact ⟨hfirst, hsecond ▸ hvalue⟩
    tauto
  constructor
  · intro a ha
    rcases hcases a ha with hother | ⟨hown, -⟩
    · exact (of_isPlain h hother).1
    · exact hown ▸ hname
  · intro a ha haddress
    rcases hcases a ha with hother | ⟨-, hvalue⟩
    · exact absurd haddress (of_isPlain h hother).2
    · cases url? with
      | none => cases hvalue
      | some url => exact ⟨url, (Option.some.inj hvalue).symm, hurl url rfl⟩

/-- An address that is allowed, if it is there. -/
theorem accepts_of_mem_url? {e : Element} {url : String} (h : url ∈ e.url? o name) :
    (Element.policy o).accepts url = true :=
  (Option.filter_eq_some_iff.mp h).2

end

/-! ### Properties that drawings keep -/

/-- Start tags of scaffolding, with the names of their elements from the outermost one on. -/
inductive Opens (o : Options) : List Fragment → List String → Prop
  | nil : Opens o [] []
  | cons {name : String} {attributes : List (String × Option String)} {rest : List Fragment}
      {names : List String} : isContainerName name = true → Proper o attributes →
      Opens o rest names → Opens o (.opening name attributes :: rest) (name :: names)

/-- Fragments between two blocks for Outlook. -/
def scaffold (starts content ends : List Fragment) : List Fragment :=
  .outlook starts :: content ++ [.outlook ends]

/-- A property of drawings that the shapes of the components keep. -/
structure Composes (o : Options) (P : List Fragment → Prop) : Prop where
  nil : P []
  append {a b : List Fragment} : P a → P b → P (a ++ b)
  element {name : String} {attributes : List (String × Option String)} {content : List Fragment} :
    isContainerName name = true → Proper o attributes → P content →
      P (Fragment.element name attributes content)
  scaffold {starts content : List Fragment} (names : List String) :
    Opens o starts names → P content → P (scaffold starts content (names.reverse.map .closing))
  single {name : String} {attributes : List (String × Option String)} :
    isTagName name = true → isRawText name = false → Proper o attributes →
      P [.single name attributes]

namespace Composes

variable {o : Options} {P : List Fragment → Prop} (h : Composes o P)

include h

theorem flatMap {α : Type} {xs : List α} {f : α → List Fragment} (hxs : ∀ x ∈ xs, P (f x)) :
    P (xs.flatMap f) := by
  induction xs with
  | nil => exact h.nil
  | cons x xs ih =>
    rw [List.flatMap_cons]
    exact h.append (hxs x List.mem_cons_self) (ih fun y hy => hxs y (List.mem_cons_of_mem _ hy))

/-- A table with one cell. -/
theorem table {attributes cell : List (String × Option String)} {content : List Fragment}
    (hattributes : Proper o attributes) (hcell : Proper o cell) (hcontent : P content) :
    P (Fragment.table attributes cell content) := by
  refine h.element (by decide) hattributes ?_
  refine h.element (by decide) proper_nil ?_
  refine h.element (by decide) proper_nil ?_
  exact h.element (by decide) hcell hcontent

/-- Scaffolding of one tag. -/
theorem scaffold_one {attributes : List (String × Option String)} {content : List Fragment}
    (hname : isContainerName name = true) (hattributes : Proper o attributes)
    (hcontent : P content) : P (Body.scaffold [.opening name attributes] content [.closing name]) :=
  h.scaffold [name] (.cons hname hattributes .nil) hcontent

variable {children : List Child}

theorem container (head : HeadState) (e : Element) (hchildren : ∀ c ∈ children, P c.fragments) :
    P (Container.draw head e children) :=
  h.element (by decide) (proper_written ["class", "style", "lang", "dir"] rfl (by decide))
    (h.flatMap hchildren)

/-- The table that Outlook sees around the children of a row, with a cell for each of them. -/
theorem rowChildren (hchildren : ∀ c ∈ children, P c.fragments) :
    P (Row.drawChildren children) := by
  have hcells : P (children.flatMap Row.drawChild) := by
    refine h.flatMap fun c hc => ?_
    unfold Row.drawChild
    split
    · exact hchildren c hc
    · exact h.scaffold_one (by decide) (proper_written ["align", "class", "style"] rfl (by decide))
        (hchildren c hc)
  -- The table and its row are opened and closed in blocks of their own, one inside the other.
  have hnest : Row.drawChildren children = Body.scaffold [.opening "table" Row.outlookTable]
      (Body.scaffold [.opening "tr" []] (children.flatMap Row.drawChild) [.closing "tr"])
      [.closing "table"] := by
    simp [Row.drawChildren, Body.scaffold, Fragment.bare]
  rw [hnest]
  refine h.scaffold_one (by decide) ?_ (h.scaffold_one (by decide) proper_nil hcells)
  exact proper_of_names ["role", "border", "cellpadding", "cellspacing"] (by decide) (by decide)

theorem rowInner (width : Float) (e : Element) (hchildren : ∀ c ∈ children, P c.fragments) :
    P (Row.inner o width e children) := by
  -- Over an image there is one more box around the table.
  have hbox : ∀ {content : List Fragment}, P content →
      P (if (Row.backgroundUrl? o e).isSome then Fragment.element "div"
        (written (Row.slots o width e) [("style", .slot "innerDiv")]) content else content) := by
    intro content hcontent
    split
    · exact h.element (by decide) (proper_written ["style"] rfl (by decide)) hcontent
    · exact hcontent
  refine h.element (by decide) (proper_written ["class", "style"] rfl (by decide))
    (hbox (h.table ?_ (proper_written ["style"] rfl (by decide)) (h.rowChildren hchildren)))
  have habsent : (if Row.isFullWidth e then AttributeValue.absent
      else .ofText? (Row.backgroundUrl? o e)) =
      .ofText? (if Row.isFullWidth e then none else Row.backgroundUrl? o e) := by
    split <;> rfl
  rw [habsent]
  refine proper_written_address [_] _ ["align", "border", "cellpadding", "cellspacing", "role",
    "style"] (by decide) rfl (by decide) fun url hurl => ?_
  split at hurl
  · cases hurl
  · exact .inr (accepts_of_mem_url? hurl)

theorem row (width : Float) (e : Element) (hchildren : ∀ c ∈ children, P c.fragments) :
    P (Row.draw o width e children) := by
  have hcontent : P (Row.before width e :: Row.inner o width e children ++ [Row.after]) := by
    refine h.scaffold ["table", "tr", "td"] ?_ (h.rowInner width e hchildren)
    refine .cons (by decide) ?_ (.cons (by decide) proper_nil (.cons (by decide) ?_ .nil))
    · exact proper_written ["align", "border", "cellpadding", "cellspacing", "class", "role",
        "style", "width", "bgcolor"] rfl (by decide)
    · exact proper_of_names ["style"] (by decide) (by decide)
  unfold Row.draw
  simp only
  split
  · refine h.table ?_ proper_nil hcontent
    exact proper_written_address [_, _] _ ["align", "class", "border", "cellpadding",
      "cellspacing", "role", "style"] (by decide) rfl (by decide)
      fun url hurl => .inr (accepts_of_mem_url? hurl)
  · exact hcontent

theorem column (row : Float) (e : Element) (hchildren : ∀ c ∈ children, P c.fragments) :
    P (Column.draw row e children) := by
  have hcells : P (children.flatMap Column.drawChild) := by
    refine h.flatMap fun c hc => ?_
    unfold Column.drawChild
    split
    · exact hchildren c hc
    · exact h.element (by decide) proper_nil (h.element (by decide)
        (proper_written ["align", "vertical-align", "class", "style"] rfl (by decide))
        (hchildren c hc))
  have hinner : P (Column.inner row e children) :=
    h.element (by decide) (proper_written ["border", "cellpadding", "cellspacing", "role", "style",
      "width"] rfl (by decide)) (h.element (by decide) proper_nil hcells)
  refine h.element (by decide) (proper_written ["class", "style"] rfl (by decide)) ?_
  split
  · exact h.table
      (proper_written ["border", "cellpadding", "cellspacing", "role", "width"] rfl (by decide))
      (proper_written ["style"] rfl (by decide)) hinner
  · exact hinner

theorem image (width : Float) (e : Element) : P (Image.draw o width e) := by
  have hclean : ∀ url ∈ (e.attr? "src").map (Element.policy o).clean,
      url = "" ∨ (Element.policy o).accepts url = true := by
    intro url hurl
    obtain ⟨src, -, rfl⟩ := Option.map_eq_some_iff.mp hurl
    unfold Url.Policy.clean
    cases haccepts : (Element.policy o).accepts src with
    | true => exact .inr haccepts
    | false => exact .inl rfl
  have hpicture : P [Image.picture o width e] :=
    h.single (by decide) (by decide) (proper_written_address [_] _ ["alt", "srcset", "sizes",
      "style", "title", "width", "height", "usemap"] (by decide) rfl (by decide) hclean)
  refine h.table
    (proper_written ["border", "cellpadding", "cellspacing", "role", "style", "class"] rfl
      (by decide))
    (proper_written ["style", "class"] rfl (by decide)) ?_
  unfold Image.linked
  split
  · rename_i href hhref
    refine h.element (by decide) ?_ hpicture
    exact proper_written_address [] (some href) ["target", "rel", "name", "title"] (by decide) rfl
      (by decide) fun url hurl => .inr (accepts_of_mem_url? (hhref ▸ hurl))
  · exact hpicture

theorem button (width : Float) {e : Element} (hcontent : P [.verbatim (e.contentHtml o)]) :
    P (Button.draw o width e) := by
  refine h.table
    (proper_written ["border", "cellpadding", "cellspacing", "role", "style"] rfl (by decide))
    (proper_written ["align", "bgcolor", "role", "style", "valign"] rfl (by decide))
    (h.element ?_ ?_ hcontent)
  · split
    · decide
    · decide
  · exact proper_written_address [] _ ["name", "rel", "title", "style", "target"] (by decide) rfl
      (by decide) fun url hurl => .inr (accepts_of_mem_url? hurl)

theorem text {e : Element} (hcontent : P [.verbatim (e.contentHtml o)])
    (hheight : ∀ height ∈ e.attr? "height", ∀ {content : List Fragment}, P content →
      P (Body.scaffold [.opening "table" Text.heightTable, .bare "tr",
        .verbatim (Text.heightCell height)] content
        [.closing "td", .closing "tr", .closing "table"])) :
    P (Text.draw o e) := by
  have hblock : P (Fragment.element "div" (written (Text.slots e) [("style", .slot "text")])
      [.verbatim (e.contentHtml o)]) :=
    h.element (by decide) (proper_written ["style"] rfl (by decide)) hcontent
  unfold Text.draw
  simp only
  split
  · exact hblock
  · rename_i height hattr
    exact hheight height hattr hblock

/-- Every element has the property if its children do, and what it draws as finished HTML. -/
theorem draw {s : Setting} (hs : s.options = o) (width : Float) {e : Element}
    (hcontent : e.kind = .text ∨ e.kind = .button → P [.verbatim (e.contentHtml o)])
    (hheight : e.kind = .text → ∀ height ∈ e.attr? "height", ∀ {content : List Fragment},
      P content → P (Body.scaffold [.opening "table" Text.heightTable, .bare "tr",
        .verbatim (Text.heightCell height)] content
        [.closing "td", .closing "tr", .closing "table"]))
    (hraw : e.kind = .raw → P [.verbatim e.content])
    (hchildren : ∀ c ∈ children, P c.fragments) : P (e.draw s width children) := by
  subst hs
  unfold Element.draw
  cases hkind : e.kind with
  | body => exact h.container s.head e hchildren
  | row => exact h.row width e hchildren
  | column => exact h.column width e hchildren
  | text => exact h.text (hcontent (.inl hkind)) (hheight hkind)
  | image => exact h.image width e
  | button => exact h.button width (hcontent (.inr hkind))
  | raw => exact hraw hkind

end Composes

end EmailMarkup.Body
