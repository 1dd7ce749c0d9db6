import EmailMarkup.Component.Core
import EmailMarkup.Proofs.OrderedMap
import EmailMarkup.Proofs.Schema.Resolve

/-!
# Which value of an attribute counts

Resolving goes through the sources of attributes from the weakest to the strongest, and a later
value replaces an earlier one. Seen from the outcome this is a search in the opposite direction:
`sources` lists for one attribute what each source has to offer, the strongest first, and
`get?_resolve_eq_findSome?` says that the first offer counts.

A value that is refused is no offer, so it does not hide what a weaker source has. Every step of
resolving has the same form for one attribute: what the step offers, or else what was there before
(`get?_inheritAll` for an entry of the head, `get?_takeOwn` for the element itself). Steps of this
form can be repeated, and then the last offer counts (`get?_foldl`).
-/

set_option autoImplicit false

namespace EmailMarkup.Schema

open EmailMarkup.Component EmailMarkup.Markup

variable {entries : List (String × String)}

/-! ### What the sources offer -/

/-- Whether a value from the head is taken over: at the lowest level always, and otherwise unless it
is of the wrong type. -/
def accepts (s : Schema) (level : Level) (name value : String) : Bool :=
  level = .skip || match s.check name value with
    | .invalid _ => false
    | _ => true

/-- Whether a value on the element itself is used, by a resolution that does not fail. -/
def uses (s : Schema) (level : Level) (name value : String) : Bool :=
  match level with
  | .skip => true
  | .soft => s.types.contains name
  | .strict => s.check name value = .valid

/-- What an entry of the head offers for an attribute. -/
def accepted? (s : Schema) (level : Level) (name : String) (attributes? : Option Attributes) :
    Option String :=
  (attributes?.bind fun attributes => attributes.get? name).filter (s.accepts level name)

/-- What the head offers for an attribute of an element, the strongest source first: the last of the
classes of the element that has an offer for its tag, the last of them that has an offer for every
tag, the attributes of the tag, and those of all tags. -/
def headSources (s : Schema) (level : Level) (head : HeadState) (n : Node) (name : String) :
    List (Option String) :=
  [(classesOf n).reverse.findSome? fun c =>
      s.accepted? level name ((head.classTags.get? c).bind fun table => table.get? s.tag),
    (classesOf n).reverse.findSome? fun c => s.accepted? level name (head.classes.get? c),
    s.accepted? level name (head.tagAttributes.get? s.tag),
    s.accepted? level name (head.tagAttributes.get? "mj-all")]

/-- What all sources offer for an attribute of an element, the strongest first: the element itself,
the head, and the component. Elements of the head do not inherit from it. -/
def sources (s : Schema) (level : Level) (head? : Option HeadState) (n : Node) (name : String) :
    List (Option String) :=
  (n.attribute? name).filter (s.uses level name) ::
    ((head?.elim [] fun head => s.headSources level head n name) ++ [s.defaults.get? name])

/-- The first offer is that of the first source, or else the first one of the others. -/
theorem findSome?_id_cons (offer? : Option String) (others : List (Option String)) :
    (offer? :: others).findSome? id = offer?.or (others.findSome? id) := by
  cases offer? with
  | none | some value => rfl

/-! ### One entry after the other

Entries are taken over from left to right. An entry under the name in question offers its value if
that passes a test `p`, and an entry under another name offers nothing. -/

section
variable {p : String → Bool} {name key value : String}

/-- An entry that is set makes an offer for its own key. -/
theorem get?_insert_offer (hp : key = name → p value = true) (m : Attributes) :
    (m.insert key value).get? name =
      ((OrderedMap.lookup name [(key, value)]).filter p).or (m.get? name) := by
  by_cases hkey : key = name
  · subst hkey
    simp [OrderedMap.lookup, Option.filter, hp rfl]
  · rw [OrderedMap.get?_insert_of_ne _ _ (Ne.symm hkey)]
    simp [OrderedMap.lookup, hkey]

/-- An entry that is not set makes no offer. -/
theorem get?_no_offer (hp : key = name → p value = false) (m : Attributes) :
    m.get? name = ((OrderedMap.lookup name [(key, value)]).filter p).or (m.get? name) := by
  by_cases hkey : key = name
  · simp [OrderedMap.lookup, Option.filter, hkey, hp hkey]
  · simp [OrderedMap.lookup, hkey]

/-- As no key comes twice, it does not matter that the first entry is taken over first. -/
theorem offer_cons {rest : List (String × String)} (hnew : key ∉ rest.map Prod.fst)
    (old? : Option String) :
    ((OrderedMap.lookup name rest).filter p).or
        (((OrderedMap.lookup name [(key, value)]).filter p).or old?) =
      ((OrderedMap.lookup name ((key, value) :: rest)).filter p).or old? := by
  by_cases hkey : key = name
  · subst hkey
    simp [OrderedMap.lookup_eq_none hnew, OrderedMap.lookup]
  · simp [OrderedMap.lookup, hkey]

end

/-! ### Inheriting -/

section
variable (s : Schema) (level : Level) (name : String)

/-- A value from the head is offered if it is accepted. -/
theorem get?_inherit (source key value : String) (r : Resolution) :
    (s.inherit level source r (key, value)).attributes.get? name =
      ((OrderedMap.lookup name [(key, value)]).filter (s.accepts level name)).or
        (r.attributes.get? name) := by
  have haccepts : ∀ b, s.accepts level key value = b → key = name →
      s.accepts level name value = b := by
    rintro b hb rfl
    exact hb
  unfold inherit
  by_cases hskip : level = .skip
  · rw [if_pos hskip]
    exact get?_insert_offer (haccepts true (by simp [accepts, hskip])) _
  · rw [if_neg hskip]
    cases hcheck : s.check key value with
    | valid | undeclared => exact get?_insert_offer (haccepts true (by simp [accepts, hcheck])) _
    | invalid expected =>
      exact get?_no_offer (haccepts false (by simp [accepts, hskip, hcheck])) _

theorem get?_foldl_inherit (source : String) (hnodup : (entries.map Prod.fst).Nodup)
    (r : Resolution) :
    (entries.foldl (s.inherit level source) r).attributes.get? name =
      ((OrderedMap.lookup name entries).filter (s.accepts level name)).or
        (r.attributes.get? name) := by
  induction entries generalizing r with
  | nil => rfl
  | cons entry rest ih =>
    rw [List.map_cons, List.nodup_cons] at hnodup
    rw [List.foldl_cons, ih hnodup.2, get?_inherit, offer_cons hnodup.1]

/-- An entry of the head offers the value under the name, if it is accepted. -/
theorem get?_inheritAll (source : String) (r : Resolution) (attributes? : Option Attributes) :
    (s.inheritAll level source r attributes?).attributes.get? name =
      (s.accepted? level name attributes?).or (r.attributes.get? name) := by
  cases attributes? with
  | none => rfl
  | some attributes => exact s.get?_foldl_inherit level name source attributes.nodup r

end

/-- If each step leaves what it offers for an attribute, or else what was there before, then a run
leaves the last offer. -/
theorem get?_foldl {α : Type} {f : Resolution → α → Resolution} {offer? : α → Option String}
    {name : String}
    (hstep : ∀ r x, (f r x).attributes.get? name = (offer? x).or (r.attributes.get? name))
    (xs : List α) (r : Resolution) :
    (xs.foldl f r).attributes.get? name =
      (xs.reverse.findSome? offer?).or (r.attributes.get? name) := by
  induction xs generalizing r with
  | nil => rfl
  | cons x xs ih =>
    rw [List.foldl_cons, ih, hstep, List.reverse_cons, List.findSome?_append, Option.or_assoc]
    simp

/-- Everything that is inherited, for an attribute other than the style classes, which are
gathered from all classes of the element. -/
theorem get?_inheritHead (s : Schema) (level : Level) (head : HeadState) (n : Node)
    (r : Resolution) {name : String} (hcss : name ≠ "css-class") :
    (s.inheritHead level head n r).attributes.get? name =
      ((s.headSources level head n name).findSome? id).or (r.attributes.get? name) := by
  have hclass : ∀ (r : Resolution) (c : String),
      (s.inheritClass level head r c).attributes.get? name =
        (s.accepted? level name (head.classes.get? c)).or (r.attributes.get? name) := by
    intro r c
    rw [inheritClass, get?_inheritAll]
    cases head.classes.get? c with
    | none => rfl
    | some attributes => simp [accepted?, OrderedMap.get?_erase, hcss]
  have htag : ∀ (r : Resolution) (c : String),
      (s.inheritClassTag level head r c).attributes.get? name =
        (s.accepted? level name
          ((head.classTags.get? c).bind fun table => table.get? s.tag)).or
          (r.attributes.get? name) :=
    fun r c => s.get?_inheritAll level name c r _
  have hgathered : ∀ (r : Resolution) (value : String),
      (r.set "css-class" value).attributes.get? name = r.attributes.get? name :=
    fun r value => OrderedMap.get?_insert_of_ne _ _ hcss
  unfold inheritHead
  simp only
  rw [headSources, findSome?_id_cons, findSome?_id_cons, findSome?_id_cons, findSome?_id_cons,
    List.findSome?_nil, Option.or_none]
  split
  · rw [get?_foldl htag, get?_foldl hclass, get?_inheritAll, get?_inheritAll]
    simp only [Option.or_assoc]
  · rw [hgathered, get?_foldl htag, get?_foldl hclass, get?_inheritAll, get?_inheritAll]
    simp only [Option.or_assoc]

/-! ### The element itself -/

/-- An attribute that not every component has is declared exactly if it has a type. -/
theorem check_eq_undeclared_iff (s : Schema) {name : String} (hcss : name ≠ "css-class")
    (hclass : name ≠ "mj-class") (value : String) :
    s.check name value = .undeclared ↔ s.types.contains name = false := by
  have huniversal : universal.contains name = false := by simp [universal, hcss, hclass]
  unfold check
  rw [huniversal, OrderedMap.contains]
  cases s.types.get? name with
  | none => simp
  | some type =>
    cases hobjection : type.objection? value with
    | none => simp [hobjection]
    | some expected => simp [hobjection]

/-- A declared attribute is used, unless the level is strict and its value is of the wrong type. -/
theorem uses_of_declared (s : Schema) {level : Level} {name value : String}
    (hcss : name ≠ "css-class") (hclass : name ≠ "mj-class")
    (hdeclared : s.check name value ≠ .undeclared)
    (hstrict : level = .strict → s.check name value = .valid) :
    s.uses level name value = true := by
  cases level with
  | skip => rfl
  | soft => simpa [uses] using (s.check_eq_undeclared_iff hcss hclass value).not.mp hdeclared
  | strict => simp [uses, hstrict rfl]

/-- The element offers the value that is written under the name, if it is set. The condition `p` says
which values are set: all those at the lowest level, and otherwise those that are declared. It need
not say anything about a value that makes resolving fail. -/
theorem get?_takeOwn_offer (s : Schema) (level : Level) (line : Nat) (r : Resolution)
    {name : String} {p : String → Bool} (hclass : name ≠ "mj-class")
    (hset : ∀ value, level = .skip ∨ s.check name value ≠ .undeclared →
      (level = .strict → s.check name value = .valid) → p value = true)
    (hdropped : ∀ value, level ≠ .skip → s.check name value = .undeclared → p value = false)
    (hnodup : (entries.map Prod.fst).Nodup)
    (hok : (s.takeOwn level line r entries).failure? = none) :
    (s.takeOwn level line r entries).attributes.get? name =
      ((OrderedMap.lookup name entries).filter p).or (r.attributes.get? name) := by
  fun_induction takeOwn s level line r entries with
  | case1 r => rfl
  | case2 r value rest ih =>
    rw [List.map_cons, List.nodup_cons] at hnodup
    have hother : "mj-class" = name → p value = false := fun h => absurd h.symm hclass
    rw [ih hnodup.2 hok, ← offer_cons hnodup.1, ← get?_no_offer hother]
  | case3 r key value rest hkey hskip ih =>
    rw [List.map_cons, List.nodup_cons] at hnodup
    have hp : key = name → p value = true := by
      rintro rfl
      exact hset value (.inl hskip) (by simp [hskip])
    rw [ih hnodup.2 hok, Resolution.set, get?_insert_offer hp, offer_cons hnodup.1]
  | case4 r key value rest hkey hskip hcheck ih =>
    rw [List.map_cons, List.nodup_cons] at hnodup
    have hp : key = name → p value = true := by
      rintro rfl
      exact hset value (.inr (by simp [hcheck])) fun _ => hcheck
    rw [ih hnodup.2 hok, Resolution.set, get?_insert_offer hp, offer_cons hnodup.1]
  | case5 r key value rest hkey hskip hcheck ih =>
    rw [List.map_cons, List.nodup_cons] at hnodup
    have hp : key = name → p value = false := by
      rintro rfl
      exact hdropped value hskip hcheck
    rw [ih hnodup.2 hok, Resolution.report, ← offer_cons hnodup.1, ← get?_no_offer hp]
  | case6 r key value rest hkey hskip expected hcheck hstrict => cases hok
  | case7 r key value rest hkey hskip expected hcheck hstrict ih =>
    rw [List.map_cons, List.nodup_cons] at hnodup
    have hp : key = name → p value = true := by
      rintro rfl
      exact hset value (.inr (by simp [hcheck])) fun h => absurd h hstrict
    rw [ih hnodup.2 hok, Resolution.set, Resolution.report, get?_insert_offer hp,
      offer_cons hnodup.1]

/-- The element offers the value that is written under the name, if it is used. -/
theorem get?_takeOwn (s : Schema) (level : Level) (line : Nat) (r : Resolution) {name : String}
    (hcss : name ≠ "css-class") (hclass : name ≠ "mj-class")
    (hnodup : (entries.map Prod.fst).Nodup)
    (hok : (s.takeOwn level line r entries).failure? = none) :
    (s.takeOwn level line r entries).attributes.get? name =
      ((OrderedMap.lookup name entries).filter (s.uses level name)).or
        (r.attributes.get? name) := by
  refine s.get?_takeOwn_offer level line r hclass ?_ ?_ hnodup hok
  · rintro value (hskip | hdeclared) hstrict
    · simp [uses, hskip]
    · exact s.uses_of_declared hcss hclass hdeclared hstrict
  · intro value hskip hcheck
    cases level with
    | skip => exact absurd rfl hskip
    | soft => exact (s.check_eq_undeclared_iff hcss hclass value).mp hcheck
    | strict => simp [uses, hcheck]

/-! ### All sources -/

/-- The value of an attribute, other than the classes of an element and its style classes, is the
first that a source offers, and there is none if no source offers one. -/
theorem get?_resolve_eq_findSome? (s : Schema) (level : Level) (head? : Option HeadState) (n : Node)
    {m : Attributes} {reports : List Diagnostic}
    (hok : (s.resolve level head? n).result = .ok (m, reports)) {name : String}
    (hcss : name ≠ "css-class") (hclass : name ≠ "mj-class") :
    m.get? name = (s.sources level head? n name).findSome? id := by
  obtain ⟨hfailure, hm, -⟩ := Resolution.result_eq_ok_iff.mp hok
  rw [← hm, sources, findSome?_id_cons]
  cases head? with
  | none =>
    rw [resolve, get?_takeOwn s level n.line _ hcss hclass n.attributes.nodup hfailure]
    simp [Node.attribute?, OrderedMap.get?]
  | some head =>
    rw [resolve, get?_takeOwn s level n.line _ hcss hclass n.attributes.nodup hfailure]
    simp only [get?_inheritHead s level head n _ hcss, Option.elim, List.findSome?_append]
    simp [Node.attribute?, OrderedMap.get?]

/-- A text in two classes. -/
def classedText : Node :=
  .element "mj-text" (.ofList [("mj-class", "note wide"), ("color", "red")]) [] "a" .start

/-- A head in which the stronger sources for the alignment of that text have values of the wrong
type: what a class says for texts, and what the later class says for all elements. -/
def crookedHead : HeadState :=
  { HeadState.initial {} with
    tagAttributes := .ofList [("mj-all", .ofList [("align", "left")]),
      ("mj-text", .ofList [("align", "center")])]
    classes := .ofList [("note", .ofList [("align", "right")]),
      ("wide", .ofList [("align", "middle")])]
    classTags := .ofList [("note", .ofList [("mj-text", .ofList [("align", "top")])])] }

/-- The refused values hide nothing: the earlier class aligns the text. -/
theorem align_classedText :
    ∃ m reports, (Core.text.schema.resolve .strict (some crookedHead) classedText).result =
        .ok (m, reports) ∧ m.get? "align" = some "right" := by
  have hvalid : ∀ a ∈ classedText.attributes.entries, a.1 ≠ "mj-class" →
      Core.text.schema.check a.1 a.2 = .valid := by decide +kernel
  have hrefuses : ¬ Core.text.schema.Refuses classedText := by
    rintro ⟨a, ha, hname, expected, hcheck⟩
    rw [hvalid a ha hname] at hcheck
    cases hcheck
  obtain ⟨⟨m, reports⟩, hok⟩ := (Core.text.schema.result_resolve_ok_iff .strict (some crookedHead)
    classedText).mpr fun h => hrefuses h.2
  refine ⟨m, reports, hok, ?_⟩
  rw [get?_resolve_eq_findSome? _ _ _ _ hok (by decide) (by decide)]
  decide +kernel

end EmailMarkup.Schema
