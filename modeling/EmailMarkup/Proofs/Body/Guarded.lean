import EmailMarkup.Proofs.Body.Address
import EmailMarkup.Proofs.Body.Drawing
import EmailMarkup.Proofs.Body.Elements

/-!
# Addresses in the tags of a drawing

Mail readers take some attributes of tags for addresses. In what the components draw each of them
has an address that the policy lets through, or an empty one (`guardedTags_draw`). On the other
hand no address that the policy lets through is left out (`mem_attributes_draw`).

The rule is one on attributes (`Guarded`), kept by joining, nesting and scaffolding. So each
component is followed as it is drawn, and only where it writes an address itself is there something
to show.
-/

set_option autoImplicit false

namespace EmailMarkup.Body

open EmailMarkup.Component

/-! ### Attributes of tags -/

mutual

/-- The attributes of all tags in a fragment. -/
def Fragment.attributes : Fragment → List (String × Option String)
  | .opening _ attributes => attributes
  | .single _ attributes => attributes
  | .closing _ => []
  | .verbatim _ => []
  | .outlook fragments => attributesAmong fragments

/-- The attributes of all tags in fragments. -/
def attributesAmong : List Fragment → List (String × Option String)
  | [] => []
  | f :: rest => f.attributes ++ attributesAmong rest

end

section
variable {o : Options}

theorem guarded_nil : Guarded o [] := nofun

theorem Guarded.append {a b : List (String × Option String)} (ha : Guarded o a)
    (hb : Guarded o b) : Guarded o (a ++ b) := by
  intro x hx
  rcases List.mem_append.mp hx with hx | hx
  · exact ha x hx
  · exact hb x hx

/-- Fragments whose tags are guarded. -/
def GuardedTags (o : Options) (fragments : List Fragment) : Prop :=
  Guarded o (attributesAmong fragments)

theorem attributesAmong_append (a b : List Fragment) :
    attributesAmong (a ++ b) = attributesAmong a ++ attributesAmong b := by
  induction a with
  | nil => rw [attributesAmong]; rfl
  | cons f a ih => rw [List.cons_append, attributesAmong, attributesAmong, ih, List.append_assoc]

theorem guardedTags_nil : GuardedTags o [] := by
  unfold GuardedTags
  rw [attributesAmong]
  exact guarded_nil

theorem GuardedTags.append {a b : List Fragment} (ha : GuardedTags o a) (hb : GuardedTags o b) :
    GuardedTags o (a ++ b) := by
  unfold GuardedTags
  rw [attributesAmong_append]
  exact Guarded.append ha hb

theorem GuardedTags.cons {f : Fragment} {rest : List Fragment} (hf : Guarded o f.attributes)
    (hrest : GuardedTags o rest) : GuardedTags o (f :: rest) := by
  unfold GuardedTags
  rw [attributesAmong]
  exact Guarded.append hf hrest

/-- What only Outlook sees around a content is guarded by the same rule. -/
theorem GuardedTags.scaffold {starts content ends : List Fragment} (hstarts : GuardedTags o starts)
    (hcontent : GuardedTags o content) (hends : GuardedTags o ends) :
    GuardedTags o (Body.scaffold starts content ends) := by
  refine .append (.cons ?_ hcontent) (.cons ?_ guardedTags_nil)
  · rw [Fragment.attributes]
    exact hstarts
  · rw [Fragment.attributes]
    exact hends

theorem guarded_opening {name : String} {attributes : List (String × Option String)}
    (h : Guarded o attributes) : Guarded o (Fragment.opening name attributes).attributes := by
  rw [Fragment.attributes]
  exact h

/-- End tags have no attributes. -/
theorem guardedTags_closings (names : List String) : GuardedTags o (names.map .closing) := by
  induction names with
  | nil => exact guardedTags_nil
  | cons name names ih =>
    refine .cons ?_ ih
    rw [Fragment.attributes]
    exact guarded_nil

theorem guardedTags_verbatim (html : String) : GuardedTags o [.verbatim html] := by
  refine .cons ?_ guardedTags_nil
  rw [Fragment.attributes]
  exact guarded_nil

/-! ### Components -/

theorem guardedTags_of_opens {starts : List Fragment} {names : List String}
    (h : Opens o starts names) : GuardedTags o starts := by
  induction h with
  | nil => exact guardedTags_nil
  | cons _ hproper _ ih => exact .cons (guarded_opening hproper.guarded) ih

/-- Whatever components are made of keeps the tags guarded. -/
theorem composes_guardedTags : Composes o (GuardedTags o) where
  nil := guardedTags_nil
  append ha hb := ha.append hb
  element _ hproper hcontent :=
    .append (.cons (guarded_opening hproper.guarded) hcontent) (guardedTags_closings [_])
  scaffold _ hopens hcontent :=
    .scaffold (guardedTags_of_opens hopens) hcontent (guardedTags_closings _)
  single _ _ hproper := by
    refine .cons ?_ guardedTags_nil
    rw [Fragment.attributes]
    exact hproper.guarded

end

/-- Every element draws guarded tags around children that do. -/
theorem guardedTags_draw (s : Setting) (width : Float) (e : Element) {children : List Child}
    (hchildren : ∀ c ∈ children, GuardedTags s.options c.fragments) :
    GuardedTags s.options (e.draw s width children) := by
  refine composes_guardedTags.draw rfl width (fun _ => guardedTags_verbatim _) ?_
    (fun _ => guardedTags_verbatim _) hchildren
  intro _ height _ content hcontent
  have htable : Proper s.options Text.heightTable :=
    proper_of_names ["role", "border", "cellpadding", "cellspacing"] (by decide) (by decide)
  refine .scaffold ?_ hcontent (guardedTags_closings ["td", "tr", "table"])
  exact .cons (guarded_opening htable.guarded)
    (.cons (guarded_opening guarded_nil) (guardedTags_verbatim _))

/-! ### Allowed addresses are shown -/

/-- The attribute of a tag that shows the address in an attribute of an element. -/
def shownAs (name : String) : String :=
  if name = "background-url" then "background" else name

/-- What is within a drawing has its tags there. -/
theorem mem_attributesAmong_of_infix {a b : List Fragment} (h : a <:+: b)
    {x : String × Option String} (hx : x ∈ attributesAmong a) : x ∈ attributesAmong b := by
  obtain ⟨before, after, rfl⟩ := h
  rw [attributesAmong_append, attributesAmong_append]
  exact List.mem_append_left _ (List.mem_append_right _ hx)

theorem mem_attributesAmong_element {name : String} {attributes : List (String × Option String)}
    {content : List Fragment} {x : String × Option String} (hx : x ∈ attributes) :
    x ∈ attributesAmong (Fragment.element name attributes content) := by
  unfold Fragment.element
  rw [List.cons_append, attributesAmong, Fragment.attributes]
  exact List.mem_append_left _ hx

theorem mem_written (slots : Slots) (before after : List (String × AttributeValue))
    (name value : String) :
    (name, some value) ∈ written slots (before ++ (name, .text value) :: after) := by
  refine List.mem_filterMap.mpr ⟨(name, .text value), ?_, rfl⟩
  exact List.mem_append_right _ List.mem_cons_self

section
variable {s : Setting} {e : Element} {name url : String}

/-- An address of an image that is allowed is shown. -/
theorem mem_attributes_image (width : Float) (hname : name ∈ ["src", "href"])
    (hurl : e.url? s.options name = some url) :
    (shownAs name, some url) ∈ attributesAmong (Image.draw s.options width e) := by
  obtain ⟨hattr, haccepts⟩ := Option.filter_eq_some_iff.mp hurl
  rcases List.mem_cons.mp hname with rfl | hname
  · -- The picture is there with or without a link around it.
    have hclean : (e.attr? "src").map (Element.policy s.options).clean = some url := by
      rw [hattr, Option.map_some, Url.Policy.clean, if_pos haccepts]
    have hpicture : ("src", some url) ∈ attributesAmong [Image.picture s.options width e] := by
      rw [attributesAmong, Image.picture, Fragment.attributes, hclean]
      exact List.mem_append_left _ (mem_written _ [_] _ "src" url)
    have hlinked : [Image.picture s.options width e] <:+: Image.linked s.options width e := by
      unfold Image.linked
      split
      · exact infix_element _ _ _
      · exact List.infix_rfl
    rw [show shownAs "src" = "src" by decide]
    exact mem_attributesAmong_of_infix (hlinked.trans (infix_table _ _ _)) hpicture
  · obtain rfl := List.mem_singleton.mp hname
    have hlink : ("href", some url) ∈ attributesAmong (Image.linked s.options width e) := by
      unfold Image.linked
      rw [hurl]
      exact mem_attributesAmong_element (mem_written _ [] _ "href" url)
    rw [show shownAs "href" = "href" by decide]
    exact mem_attributesAmong_of_infix (infix_table _ _ _) hlink

/-- So is the address of a button. -/
theorem mem_attributes_button (width : Float) (hurl : e.url? s.options "href" = some url) :
    (shownAs "href", some url) ∈ attributesAmong (Button.draw s.options width e) := by
  rw [show shownAs "href" = "href" by decide]
  unfold Button.draw
  simp only [hurl]
  refine mem_attributesAmong_of_infix (infix_table _ _ _) (mem_attributesAmong_element ?_)
  exact mem_written _ [] _ "href" url

/-- So is the background of a section. -/
theorem mem_attributes_row (width : Float) (children : List Child)
    (hurl : e.url? s.options "background-url" = some url) :
    (shownAs "background-url", some url) ∈
      attributesAmong (Row.draw s.options width e children) := by
  have hbackground : Row.backgroundUrl? s.options e = some url := hurl
  rw [show shownAs "background-url" = "background" by decide]
  unfold Row.draw
  simp only [hbackground]
  split
  · exact mem_attributesAmong_element (mem_written _ [_, _] _ "background" url)
  · rename_i hfull
    -- Without the full width it is the table in the inner box that shows the image.
    have hinner : ("background", some url) ∈
        attributesAmong (Row.inner s.options width e children) := by
      unfold Row.inner
      simp only [hbackground, hfull]
      refine mem_attributesAmong_of_infix ((infix_element _ _ _).trans (infix_element _ _ _)) ?_
      exact mem_attributesAmong_element (mem_written _ [_] _ "background" url)
    exact mem_attributesAmong_of_infix
      (List.infix_append [Row.before width e] (Row.inner s.options width e children) [Row.after])
      hinner

/-- Every address that is allowed is shown. -/
theorem mem_attributes_draw (hname : name ∈ addressAttributes e.kind)
    (hurl : e.url? s.options name = some url) (width : Float) (children : List Child) :
    (shownAs name, some url) ∈ attributesAmong (e.draw s width children) := by
  unfold Element.draw
  cases hkind : e.kind with
  | row =>
    rw [hkind] at hname
    obtain rfl := List.mem_singleton.mp hname
    exact mem_attributes_row width children hurl
  | image =>
    rw [hkind] at hname
    exact mem_attributes_image width hname hurl
  | button =>
    rw [hkind] at hname
    obtain rfl := List.mem_singleton.mp hname
    exact mem_attributes_button width hurl
  | body | column | text | raw =>
    rw [hkind] at hname
    cases hname

end

end EmailMarkup.Body
