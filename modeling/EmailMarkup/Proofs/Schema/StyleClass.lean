import EmailMarkup.Proofs.Schema.Priority

/-!
# Which style classes an element has

The attribute `css-class` is resolved in a way of its own. What the classes of an element say about
it is gathered from all of them and joined, and this is set after everything else that comes from
the head. So it also replaces what a class says for the tag of the element, although for every other
attribute that is the stronger source (`tag_classes_lost`).

`cssSources` lists the sources of `css-class` in the order in which they really count, and
`css_class_of_tag_iff` says when the style classes that a class sets for the tag are the ones that
the element gets: if no class sets any for all tags, or if these happen to be the same.
-/

set_option autoImplicit false

namespace EmailMarkup.Schema

open EmailMarkup.Component EmailMarkup.Markup

/-- What the classes of an element say about its style classes, for all tags: the values, joined. -/
def gathered? (head : HeadState) (n : Node) : Option String :=
  let css := cssClasses head (classesOf n)
  if css.isEmpty then none else some (" ".intercalate css)

/-- What the last class of an element that has style classes for its tag says. -/
def forTag? (s : Schema) (head : HeadState) (n : Node) : Option String :=
  (classesOf n).reverse.findSome? fun c =>
    ((head.classTags.get? c).bind fun table => table.get? s.tag).bind fun attributes =>
      attributes.get? "css-class"

/-- What the head offers for the style classes of an element, the strongest source first. -/
def cssHeadSources (s : Schema) (head : HeadState) (n : Node) : List (Option String) :=
  [gathered? head n, s.forTag? head n,
    (head.tagAttributes.get? s.tag).bind fun attributes => attributes.get? "css-class",
    (head.tagAttributes.get? "mj-all").bind fun attributes => attributes.get? "css-class"]

/-- What all sources offer for the style classes of an element, the strongest first: the element
itself, the head, and the component. -/
def cssSources (s : Schema) (head : HeadState) (n : Node) : List (Option String) :=
  n.attribute? "css-class" :: (s.cssHeadSources head n ++ [s.defaults.get? "css-class"])

section
variable (s : Schema)

/-- Every component takes style classes, whatever their value. -/
theorem check_css_class (value : String) : s.check "css-class" value = .valid := by
  have huniversal : universal.contains "css-class" = true := by decide
  rw [check, if_pos huniversal]

/-- No entry of the head is refused for its style classes. -/
theorem accepted?_css_class (level : Level) (attributes? : Option Attributes) :
    s.accepted? level "css-class" attributes? =
      attributes?.bind fun attributes => attributes.get? "css-class" := by
  have hall : ∀ value, s.accepts level "css-class" value = true := by
    intro value
    simp [accepts, s.check_css_class]
  rw [accepted?]
  cases attributes?.bind fun attributes => attributes.get? "css-class" with
  | none => rfl
  | some value => simp [Option.filter, hall]

/-- The attributes of a class for all tags leave the style classes alone at first. -/
theorem get?_inheritClass_css_class (level : Level) (head : HeadState) (r : Resolution)
    (c : String) : (s.inheritClass level head r c).attributes.get? "css-class" =
      r.attributes.get? "css-class" := by
  rw [inheritClass, get?_inheritAll, accepted?_css_class]
  cases head.classes.get? c with
  | none => rfl
  | some attributes => simp [OrderedMap.get?_erase]

/-- What the head offers for the style classes is inherited. -/
theorem get?_inheritHead_css_class (level : Level) (head : HeadState) (n : Node) (r : Resolution) :
    (s.inheritHead level head n r).attributes.get? "css-class" =
      ((s.cssHeadSources head n).findSome? id).or (r.attributes.get? "css-class") := by
  have hclasses : ∀ r : Resolution,
      ((classesOf n).foldl (s.inheritClass level head) r).attributes.get? "css-class" =
        r.attributes.get? "css-class" := by
    intro r
    induction classesOf n generalizing r with
    | nil => rfl
    | cons c classes ih => rw [List.foldl_cons, ih, get?_inheritClass_css_class]
  have htags : ∀ r : Resolution,
      ((classesOf n).foldl (s.inheritClassTag level head) r).attributes.get? "css-class" =
        (s.forTag? head n).or (r.attributes.get? "css-class") := by
    refine get?_foldl (fun r c => ?_) (classesOf n)
    rw [inheritClassTag, get?_inheritAll, accepted?_css_class]
  unfold inheritHead
  simp only
  rw [cssHeadSources, findSome?_id_cons, findSome?_id_cons, findSome?_id_cons, findSome?_id_cons,
    List.findSome?_nil, Option.or_none, gathered?]
  split
  · rw [htags, hclasses, get?_inheritAll, get?_inheritAll, accepted?_css_class,
      accepted?_css_class]
    simp only [Option.or_assoc, Option.none_or]
  · -- The gathered classes are set last, over all that the head has for the tag.
    rw [Resolution.set, OrderedMap.get?_insert_self, Option.some_or, Option.some_or]

/-- The style classes of an element are the first that a source offers. -/
theorem get?_resolve_css_class (level : Level) (head : HeadState) (n : Node) {m : Attributes}
    {reports : List Diagnostic} (hok : (s.resolve level (some head) n).result = .ok (m, reports)) :
    m.get? "css-class" = (s.cssSources head n).findSome? id := by
  obtain ⟨hfailure, hm, -⟩ := Resolution.result_eq_ok_iff.mp hok
  have hown := s.get?_takeOwn_offer level n.line
    (s.inheritHead level head n { attributes := s.defaults, reports := [] })
    (p := fun _ => true) (by decide : "css-class" ≠ "mj-class") (fun _ _ _ => rfl)
    (fun value _ hcheck => by rw [check_css_class] at hcheck; cases hcheck) n.attributes.nodup
    hfailure
  have hsame : ∀ found? : Option String, found?.filter (fun _ => true) = found? := by
    intro found?
    cases found? with
    | none | some value => rfl
  rw [hsame, get?_inheritHead_css_class] at hown
  rw [← hm, resolve, hown, cssSources, findSome?_id_cons, List.findSome?_append]
  simp [Node.attribute?, OrderedMap.get?]

end

/-- The style classes of an element are those that are written on it, or else those that its classes
have for all tags, joined, or else those that the last of its classes has for its tag, and so on.
For an element without any of its own, those for its tag are therefore used exactly if its classes
have none for all tags, or joined the same. Resolving fails only at the strict level, if a value on
the element is refused. -/
theorem css_class_of_tag_iff (s : Schema) (level : Level) (head : HeadState) (n : Node)
    (haccepted : ¬ (level = .strict ∧ s.Refuses n)) :
    ∃ m reports, (s.resolve level (some head) n).result = .ok (m, reports) ∧
      m.get? "css-class" = (s.cssSources head n).findSome? id ∧
      ∀ value, n.attribute? "css-class" = none → s.forTag? head n = some value →
        (m.get? "css-class" = some value ↔ cssClasses head (classesOf n) = [] ∨
          " ".intercalate (cssClasses head (classesOf n)) = value) := by
  obtain ⟨⟨m, reports⟩, hok⟩ := (s.result_resolve_ok_iff level (some head) n).mpr haccepted
  have hcss := s.get?_resolve_css_class level head n hok
  refine ⟨m, reports, hok, hcss, ?_⟩
  intro value hown htag
  rw [hcss, cssSources, hown, cssHeadSources, htag, gathered?]
  cases hclasses : cssClasses head (classesOf n) with
  | nil | cons c classes => simp

/-- A text in two classes, with no style class of its own. -/
def layeredText : Node :=
  .element "mj-text" (.ofList [("mj-class", "note wide")]) [] "a" .start

/-- A head in which both classes have style classes for texts, and none for all tags. -/
def tagClassHead : HeadState :=
  { HeadState.initial {} with
    tagAttributes := .ofList [("mj-text", .ofList [("css-class", "plain")])]
    classes := .ofList [("note", .ofList [("align", "right")])]
    classTags := .ofList [("note", .ofList [("mj-text", .ofList [("css-class", "low")])]),
      ("wide", .ofList [("mj-text", .ofList [("css-class", "high")])])] }

/-- The same head, in which the first class has a style class for all tags too. -/
def bothClassHead : HeadState :=
  { tagClassHead with classes := .ofList [("note", .ofList [("css-class", "loud")])] }

theorem css_class_of_tag_layeredText :
    ∃ m reports, (Core.text.schema.resolve .strict (some tagClassHead) layeredText).result =
      .ok (m, reports) ∧ m.get? "css-class" = some "high" := by
  have hrefuses : ¬ Core.text.schema.Refuses layeredText := by
    have honly : ∀ a ∈ layeredText.attributes.entries, a.1 = "mj-class" := by decide +kernel
    rintro ⟨a, ha, hname, -⟩
    exact hname (honly a ha)
  obtain ⟨m, reports, hok, -, hiff⟩ := css_class_of_tag_iff Core.text.schema .strict tagClassHead
    layeredText fun h => hrefuses h.2
  refine ⟨m, reports, hok, (hiff "high" ?_ ?_).mpr (.inl ?_)⟩
  · decide +kernel
  · decide +kernel
  · decide +kernel

/-- What a class has for the tag of an element is lost, if another class has style classes for all
tags. -/
theorem tag_classes_lost :
    layeredText.attribute? "css-class" = none ∧
    Core.text.schema.forTag? bothClassHead layeredText = some "high" ∧
    ∃ m reports, (Core.text.schema.resolve .strict (some bothClassHead) layeredText).result =
      .ok (m, reports) ∧ m.get? "css-class" = some "loud" := by
  have hfailure : (Core.text.schema.resolve .strict (some bothClassHead) layeredText).failure? =
      none := Option.isNone_iff_eq_none.mp (by decide +kernel)
  refine ⟨by decide +kernel, by decide +kernel, _, _,
    Resolution.result_eq_ok_iff.mpr ⟨hfailure, rfl, rfl⟩, by decide +kernel⟩

end EmailMarkup.Schema
