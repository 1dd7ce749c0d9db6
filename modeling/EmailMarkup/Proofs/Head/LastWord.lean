import EmailMarkup.Head.Handle
import EmailMarkup.Proofs.OrderedMap
import Mathlib.Data.List.Induction

/-!
# The last word counts

The elements of a head are taken in one after the other, and each changes what is known so far. Here
what is known in the end is said without the changes: under each key of each table stands what the
last element says that says anything about it (`lastSaid?`).

There are three levels of merging: the elements of the head, their children, and for classes the
children of these. Each level has a list of what has been taken in so far, and a lemma on what one
more does to the tables: `DefaultsOf.handleDefaults` for a child of an attributes element,
`SelectorsOf.handleSelector` for a selector element, and `LastWord.handle` for an element of the
head. The runs follow by induction.

What an element of one kind changes is its own: all other entries stay (`sameBut_handle`).
-/

set_option autoImplicit false

namespace EmailMarkup

open EmailMarkup.Component EmailMarkup.Markup EmailMarkup.Text

/-! ### Tables -/

/-- What the last one says that says anything. -/
def lastSaid? {α : Type} (says? : α → Option String) (xs : List α) : Option String :=
  xs.reverse.findSome? says?

section
variable {α : Type} (says? : α → Option String)

/-- What comes later has the last word, and what came before only where the later says nothing. -/
theorem lastSaid?_append (xs ys : List α) :
    lastSaid? says? (xs ++ ys) = (lastSaid? says? ys).or (lastSaid? says? xs) := by
  rw [lastSaid?, List.reverse_append, List.findSome?_append]
  rfl

@[simp] theorem lastSaid?_nil : lastSaid? says? [] = none := rfl

@[simp] theorem lastSaid?_singleton (x : α) : lastSaid? says? [x] = says? x := by
  simp [lastSaid?]

end

/-- The value of an attribute in an entry of a table. -/
def AttributeTable.value? (t : AttributeTable) (key name : String) : Option String :=
  (t.get? key).bind fun attributes => attributes.get? name

/-- What an entry of a table is extended with counts, and all else stays. -/
theorem AttributeTable.value?_extend (t : AttributeTable) (key : String) (attributes : Attributes)
    (other name : String) :
    (t.extend key attributes).value? other name =
      if other = key then (attributes.get? name).or (t.value? other name)
      else t.value? other name := by
  unfold value? extend
  by_cases h : other = key
  · subst h
    rw [if_pos rfl, OrderedMap.get?_insert_self, Option.bind_some,
      OrderedMap.get?_insertAll_entries]
    cases t.get? other with
    | none | some old => rfl
  · rw [if_neg h, OrderedMap.get?_insert_of_ne _ _ h]

namespace HeadState

/-! ### Attributes of tags and classes -/

/-- The value of an attribute for the elements of a class that have a tag. -/
def classTag? (s : HeadState) (name tag key : String) : Option String :=
  (s.classTags.get? name).bind fun table => table.value? tag key

/-- Those that are about all elements of a tag. -/
def aboutTag (nodes : List Node) (tag : String) : List Node :=
  nodes.filter fun n => n.tag != "mj-class" && n.tag == tag

/-- Those that are about a class. A class has a name. -/
def aboutClass (nodes : List Node) (name : String) : List Node :=
  nodes.filter fun n => n.tag == "mj-class" && name != "" && n.attribute? "name" == some name

theorem aboutTag_append (nodes more : List Node) (tag : String) :
    aboutTag (nodes ++ more) tag = aboutTag nodes tag ++ aboutTag more tag :=
  List.filter_append ..

theorem aboutClass_append (nodes more : List Node) (name : String) :
    aboutClass (nodes ++ more) name = aboutClass nodes name ++ aboutClass more name :=
  List.filter_append ..

/-- What an element that is about a class says about an attribute of all its elements. Its own name
is none of them. -/
def saysOfClass? (key : String) (n : Node) : Option String :=
  if key = "name" then none else n.attribute? key

/-- The tables of attributes say what children of attributes elements, in their order, have said
last. -/
structure DefaultsOf (nodes : List Node) (s : HeadState) : Prop where
  tags : ∀ tag key, s.tagAttributes.value? tag key =
    lastSaid? (fun n => n.attribute? key) (aboutTag nodes tag)
  classes : ∀ name key, s.classes.value? name key =
    lastSaid? (saysOfClass? key) (aboutClass nodes name)
  /-- Of all classes of one name, the last child of a tag counts. -/
  classTags : ∀ name tag key, s.classTag? name tag key =
    lastSaid? (fun n => n.attribute? key)
      ((aboutClass nodes name).flatMap fun n => n.childrenNamed tag)

section
variable (s : HeadState) (n : Node) (name tag key : String)

/-- A child of a class adds to the entry of its tag in that class. -/
theorem classTag?_addClassTag (name' tag' : String) (attributes : Attributes) :
    (s.addClassTag name' tag' attributes).classTag? name tag key =
      if name = name' ∧ tag = tag' then (attributes.get? key).or (s.classTag? name tag key)
      else s.classTag? name tag key := by
  unfold addClassTag classTag?
  by_cases h : name = name'
  · subst h
    simp only [true_and, OrderedMap.get?_insert_self, Option.bind_some,
      AttributeTable.value?_extend]
    cases s.classTags.get? name with
    | none | some table => rfl
  · simp only [h, false_and, if_false, OrderedMap.get?_insert_of_ne _ _ h]

/-- The children of a class change the table of tags in classes only. -/
theorem foldl_addClassTag_eq (children : List Node) :
    ∃ table, children.foldl (fun s c => s.addClassTag name c.tag c.attributes) s =
      { s with classTags := table } := by
  induction children generalizing s with
  | nil => exact ⟨s.classTags, rfl⟩
  | cons c children ih => exact ih (s.addClassTag name c.tag c.attributes)

/-- Of the children of a class that have a tag the last one counts. -/
theorem classTag?_foldl_addClassTag (name' : String) (children : List Node) :
    (children.foldl (fun s c => s.addClassTag name' c.tag c.attributes) s).classTag? name tag key =
      if name = name' then
        (lastSaid? (fun c => c.attribute? key) (children.filter fun c => c.tag == tag)).or
          (s.classTag? name tag key)
      else s.classTag? name tag key := by
  induction children using List.reverseRecOn with
  | nil => simp
  | append_singleton children c ih =>
    rw [List.foldl_append, List.foldl_cons, List.foldl_nil, classTag?_addClassTag, ih,
      List.filter_append, lastSaid?_append]
    by_cases hname : name = name'
    · by_cases htag : c.tag = tag
      · simp [hname, htag, Node.attribute?, Option.or_assoc]
      · simp [hname, htag, Ne.symm htag]
    · simp [hname]

/-- An attribute is given if it is there and not empty. -/
theorem given?_eq_some_iff {attributes : Attributes} {name value : String} :
    given? attributes name = some value ↔ attributes.get? name = some value ∧ value ≠ "" := by
  rw [given?, Option.filter_eq_some_iff, Bool.not_eq_true', ← Bool.not_eq_true,
    String.isEmpty_iff]

/-- An element is about a class exactly if it gives the name of the class. -/
theorem aboutClass_singleton (hclass : n.tag = "mj-class") :
    aboutClass [n] name = if given? n.attributes "name" = some name then [n] else [] := by
  have hiff : (n.tag == "mj-class" && name != "" && n.attribute? "name" == some name) = true ↔
      given? n.attributes "name" = some name := by
    rw [given?_eq_some_iff]
    simp [hclass, Node.attribute?, and_comm]
  rw [aboutClass, List.filter_singleton]
  by_cases h : given? n.attributes "name" = some name
  · rw [if_pos h, hiff.mpr h]
    rfl
  · rw [if_neg h, Bool.of_not_eq_true (mt hiff.mp h)]
    rfl

/-- A child of an attributes element says something about its tag, unless it is about a class. -/
theorem value?_tags_handleDefaults :
    (s.handleDefaults n).tagAttributes.value? tag key =
      (lastSaid? (fun n => n.attribute? key) (aboutTag [n] tag)).or
        (s.tagAttributes.value? tag key) := by
  unfold handleDefaults
  by_cases hclass : n.tag = "mj-class"
  · have habout : aboutTag [n] tag = [] := by simp [aboutTag, hclass]
    rw [if_pos hclass, habout]
    unfold handleClass
    split
    · rfl
    · obtain ⟨table, htable⟩ := foldl_addClassTag_eq (s.addClass _ (n.attributes.erase "name")) _
        n.children
      rw [htable]
      rfl
  · rw [if_neg hclass, addTagAttributes, AttributeTable.value?_extend]
    by_cases htag : tag = n.tag
    · simp [aboutTag, hclass, htag, Node.attribute?]
    · simp [aboutTag, htag, Ne.symm htag]

/-- What a child of an attributes element is to the classes. Either it is about none, and their tables
stay as they are, or it is about one, and adds its attributes and its children to that one. -/
theorem handleDefaults_cases :
    (∀ name, aboutClass [n] name = []) ∧ (s.handleDefaults n).classes = s.classes ∧
        (s.handleDefaults n).classTags = s.classTags ∨
      ∃ name', (∀ name, aboutClass [n] name = if name = name' then [n] else []) ∧
        s.handleDefaults n = n.children.foldl (fun s c => s.addClassTag name' c.tag c.attributes)
          (s.addClass name' (n.attributes.erase "name")) := by
  unfold handleDefaults
  by_cases hclass : n.tag = "mj-class"
  · rw [if_pos hclass, handleClass]
    cases hname : given? n.attributes "name" with
    | none => exact Or.inl ⟨fun name => by simp [aboutClass_singleton n name hclass, hname], rfl, rfl⟩
    | some name' =>
      refine Or.inr ⟨name', fun name => ?_, rfl⟩
      simp [aboutClass_singleton n name hclass, hname, eq_comm]
  · rw [if_neg hclass]
    exact Or.inl ⟨fun name => by simp [aboutClass, hclass], rfl, rfl⟩

/-- A child of an attributes element that is about a class says what the class has for all its
elements. -/
theorem value?_classes_handleDefaults :
    (s.handleDefaults n).classes.value? name key =
      (lastSaid? (saysOfClass? key) (aboutClass [n] name)).or (s.classes.value? name key) := by
  obtain ⟨habout, hclasses, -⟩ | ⟨name', habout, hadded⟩ := handleDefaults_cases s n
  · rw [habout, hclasses]
    rfl
  · obtain ⟨table, htable⟩ := foldl_addClassTag_eq (s.addClass name' (n.attributes.erase "name"))
      name' n.children
    rw [habout, hadded, htable, addClass, AttributeTable.value?_extend, OrderedMap.get?_erase]
    by_cases hname : name = name'
    · simp [hname, saysOfClass?, Node.attribute?]
    · simp [hname]

/-- A child of an attributes element that is about a class has children, of which those of one tag
say what the class has for its elements of that tag. -/
theorem classTag?_handleDefaults :
    (s.handleDefaults n).classTag? name tag key =
      (lastSaid? (fun n => n.attribute? key)
        ((aboutClass [n] name).flatMap fun n => n.childrenNamed tag)).or
          (s.classTag? name tag key) := by
  obtain ⟨habout, -, hclassTags⟩ | ⟨name', habout, hadded⟩ := handleDefaults_cases s n
  · rw [habout, classTag?, hclassTags]
    rfl
  · rw [habout, hadded, classTag?_foldl_addClassTag]
    by_cases hname : name = name'
    · rw [if_pos hname, if_pos hname, List.flatMap_singleton]
      rfl
    · rw [if_neg hname, if_neg hname]
      rfl

end

/-- One more child of an attributes element. -/
theorem DefaultsOf.handleDefaults {nodes : List Node} {s : HeadState} (h : DefaultsOf nodes s)
    (n : Node) : DefaultsOf (nodes ++ [n]) (s.handleDefaults n) := by
  refine ⟨fun tag key => ?_, fun name key => ?_, fun name tag key => ?_⟩
  · rw [value?_tags_handleDefaults, h.tags, aboutTag_append, lastSaid?_append]
  · rw [value?_classes_handleDefaults, h.classes, aboutClass_append, lastSaid?_append]
  · rw [classTag?_handleDefaults, h.classTags, aboutClass_append, List.flatMap_append,
      lastSaid?_append]

/-- More children of attributes elements, one after the other. -/
theorem DefaultsOf.foldl {nodes : List Node} {s : HeadState} (h : DefaultsOf nodes s)
    (more : List Node) : DefaultsOf (nodes ++ more) (more.foldl HeadState.handleDefaults s) := by
  induction more generalizing nodes s with
  | nil => rwa [List.append_nil]
  | cons n more ih =>
    rw [List.append_cons, List.foldl_cons]
    exact ih (h.handleDefaults n)

/-! ### Attributes of the compiled body -/

/-- The path of a selector element, without blanks around it. -/
def pathOf (n : Node) : String :=
  trim ((n.attribute? "path").getD "")

/-- The elements that ask for an attribute under a path. -/
def askedUnder (nodes : List Node) (path : String) : List Node :=
  (nodes.filter fun n => path != "" && pathOf n == path).flatMap fun n =>
    n.childrenNamed "mj-html-attribute"

/-- What an element that asks for an attribute says about the attribute of a name. -/
def saysOfAttribute? (name : String) (n : Node) : Option String :=
  if name ≠ "" ∧ n.attribute? "name" = some name then some n.content else none

/-- The table of attributes for the compiled body says what children of selector elements, in their
order, have said last. -/
structure SelectorsOf (nodes : List Node) (s : HeadState) : Prop where
  values : ∀ path name, s.htmlAttributes.value? path name =
    lastSaid? (saysOfAttribute? name) (askedUnder nodes path)
  /-- No path is there for nothing. -/
  listed : ∀ path, (s.htmlAttributes.get? path).isSome = true →
    ∃ name, (s.htmlAttributes.value? path name).isSome = true

theorem askedUnder_append (nodes more : List Node) (path : String) :
    askedUnder (nodes ++ more) path = askedUnder nodes path ++ askedUnder more path := by
  rw [askedUnder, List.filter_append, List.flatMap_append]
  rfl

/-- An element asks for an attribute by its name, and its content is the value. -/
theorem saysOfAttribute?_eq (name : String) (n : Node) :
    saysOfAttribute? name n =
      if given? n.attributes "name" = some name then some n.content else none := by
  refine if_congr ?_ rfl rfl
  rw [given?_eq_some_iff]
  exact and_comm

/-- Of the children of a selector element that ask for one attribute the last one counts. -/
theorem get?_attributesAsked (n : Node) (name : String) :
    (attributesAsked n).get? name =
      lastSaid? (saysOfAttribute? name) (n.childrenNamed "mj-html-attribute") := by
  rw [attributesAsked, OrderedMap.get?_ofList]
  induction n.childrenNamed "mj-html-attribute" using List.reverseRecOn with
  | nil => rfl
  | append_singleton children c ih =>
    rw [List.filterMap_append, List.reverse_append, OrderedMap.lookup_append, ih,
      lastSaid?_append, lastSaid?_singleton, saysOfAttribute?_eq]
    congr 1
    cases hgiven : given? c.attributes "name" with
    | none => simp [hgiven, OrderedMap.lookup]
    | some given => simp [hgiven, OrderedMap.lookup]

/-- A selector element says something if it has a path and asks for an attribute. -/
theorem handleSelector_eq (s : HeadState) (n : Node) :
    s.handleSelector n =
      if pathOf n = "" ∨ (attributesAsked n).isEmpty = true then s
      else s.addHtmlAttributes (pathOf n) (attributesAsked n) := by
  unfold handleSelector pathOf
  simp only [Bool.or_eq_true, String.isEmpty_iff]

/-- A selector element adds what its children say to what was asked for under its path. -/
theorem value?_handleSelector (s : HeadState) (n : Node) (path name : String) :
    (s.handleSelector n).htmlAttributes.value? path name =
      (lastSaid? (saysOfAttribute? name) (askedUnder [n] path)).or
        (s.htmlAttributes.value? path name) := by
  have hasked : lastSaid? (saysOfAttribute? name) (askedUnder [n] path) =
      if path ≠ "" ∧ pathOf n = path then (attributesAsked n).get? name else none := by
    rw [get?_attributesAsked]
    by_cases h : path ≠ "" ∧ pathOf n = path
    · simp [askedUnder, h.1, h.2]
    · simp [askedUnder, h]
  rw [hasked, handleSelector_eq]
  split
  · rename_i hskip
    split
    · rename_i hpath
      -- The path is not empty, so nothing is asked for.
      rcases hskip with hempty | hnothing
      · exact absurd (hpath.2.symm.trans hempty) hpath.1
      · rw [OrderedMap.get?_of_isEmpty hnothing]
        rfl
    · rfl
  · rename_i htaken
    rw [not_or] at htaken
    rw [addHtmlAttributes, AttributeTable.value?_extend]
    by_cases hpath : path = pathOf n
    · rw [if_pos hpath, if_pos ⟨hpath ▸ htaken.1, hpath.symm⟩]
    · rw [if_neg hpath, if_neg fun h => hpath h.2.symm]
      rfl

/-- One more selector element. -/
theorem SelectorsOf.handleSelector {nodes : List Node} {s : HeadState} (h : SelectorsOf nodes s)
    (n : Node) : SelectorsOf (nodes ++ [n]) (s.handleSelector n) := by
  refine ⟨fun path name => ?_, fun path => ?_⟩
  · rw [value?_handleSelector, h.values, askedUnder_append, lastSaid?_append]
  · rw [handleSelector_eq]
    split
    · exact h.listed path
    · rename_i htaken
      rw [not_or, Bool.not_eq_true] at htaken
      intro hlisted
      by_cases hpath : path = pathOf n
      · obtain ⟨name, value, hvalue⟩ := OrderedMap.exists_get?_of_isEmpty_eq_false htaken.2
        refine ⟨name, ?_⟩
        rw [addHtmlAttributes, AttributeTable.value?_extend, if_pos hpath, hvalue]
        rfl
      · have hget : (s.addHtmlAttributes (pathOf n) (attributesAsked n)).htmlAttributes.get? path =
            s.htmlAttributes.get? path := OrderedMap.get?_insert_of_ne _ _ hpath
        rw [hget] at hlisted
        unfold AttributeTable.value?
        rw [hget]
        exact h.listed path hlisted

/-- More selector elements, one after the other. -/
theorem SelectorsOf.foldl {nodes : List Node} {s : HeadState} (h : SelectorsOf nodes s)
    (more : List Node) : SelectorsOf (nodes ++ more) (more.foldl HeadState.handleSelector s) := by
  induction more generalizing nodes s with
  | nil => rwa [List.append_nil]
  | cons n more ih =>
    rw [List.append_cons, List.foldl_cons]
    exact ih (h.handleSelector n)

/-! ### Elements of the head -/

/-- An element of the head with its resolved attributes. -/
structure Taken where
  kind : HeadKind
  node : Node
  attributes : Attributes

/-- The children of the attributes elements, in document order. -/
def defaultsIn (elements : List Taken) : List Node :=
  (elements.filter fun e => e.kind = .attributes).flatMap fun e => e.node.children

/-- The selector elements, in document order. -/
def selectorsIn (elements : List Taken) : List Node :=
  (elements.filter fun e => e.kind = .htmlAttributes).flatMap fun e =>
    e.node.childrenNamed "mj-selector"

/-- Whether a style sheet is to be worked into the elements. -/
def Taken.isInline (e : Taken) : Bool :=
  e.attributes.get? "inline" == some "inline"

/-- The style sheets that are to be worked into the elements, or those that are not, in document
order. A blank one is none. -/
def sheetsIn (inline : Bool) (elements : List Taken) : List String :=
  ((elements.filter fun e => e.kind = .style && e.isInline == inline).map fun e =>
    trim e.node.content).filter fun css => css != ""

theorem defaultsIn_append (elements more : List Taken) :
    defaultsIn (elements ++ more) = defaultsIn elements ++ defaultsIn more := by
  rw [defaultsIn, List.filter_append, List.flatMap_append]
  rfl

theorem selectorsIn_append (elements more : List Taken) :
    selectorsIn (elements ++ more) = selectorsIn elements ++ selectorsIn more := by
  rw [selectorsIn, List.filter_append, List.flatMap_append]
  rfl

theorem sheetsIn_append (inline : Bool) (elements more : List Taken) :
    sheetsIn inline (elements ++ more) = sheetsIn inline elements ++ sheetsIn inline more := by
  rw [sheetsIn, List.filter_append, List.map_append, List.filter_append]
  rfl

/-- A style element adds its sheet to those of its kind, unless the sheet is blank. -/
theorem sheets_handleStyle (s : HeadState) {e : Taken} (hkind : e.kind = .style) :
    (s.handle .style e.node e.attributes).styles = s.styles ++ sheetsIn false [e] ∧
    (s.handle .style e.node e.attributes).inlineStyles =
      s.inlineStyles ++ sheetsIn true [e] := by
  have hone : ∀ inline, sheetsIn inline [e] =
      if e.isInline = inline ∧ trim e.node.content ≠ "" then [trim e.node.content] else [] := by
    intro inline
    by_cases hinline : e.isInline = inline
    · by_cases hblank : trim e.node.content = ""
      · simp [sheetsIn, hkind, hinline, hblank]
      · simp [sheetsIn, hkind, hinline, hblank]
    · simp [sheetsIn, hkind, hinline]
  rw [hone, hone]
  have hhandle : s.handle .style e.node e.attributes =
      s.handleStyle e.node.content e.isInline := rfl
  rw [hhandle, handleStyle]
  cases e.isInline with
  | true | false => by_cases hblank : trim e.node.content = "" <;> simp [hblank]

/-- What is known is what elements of the head, in their order, have said last. -/
structure LastWord (elements : List Taken) (s : HeadState) : Prop where
  defaults : DefaultsOf (defaultsIn elements) s
  selectors : SelectorsOf (selectorsIn elements) s
  styles : s.styles = sheetsIn false elements
  inlineStyles : s.inlineStyles = sheetsIn true elements

/-- The second state is the first but for the entries that elements of a kind are about. -/
def SameBut : HeadKind → HeadState → HeadState → Prop
  | .title, s, t => ∃ title, t = { s with title }
  | .preview, s, t => ∃ preview, t = { s with preview }
  | .breakpoint, s, t => ∃ breakpoint, t = { s with breakpoint }
  | .font, s, t => ∃ fonts, t = { s with fonts }
  | .style, s, t => ∃ styles inlineStyles, t = { s with styles, inlineStyles }
  | .attributes, s, t => ∃ tagAttributes classes classTags,
    t = { s with tagAttributes, classes, classTags }
  | .htmlAttributes, s, t => ∃ htmlAttributes, t = { s with htmlAttributes }

/-- A child of an attributes element changes no other entries of the state. -/
theorem sameBut_handleDefaults (s : HeadState) (n : Node) :
    SameBut .attributes s (s.handleDefaults n) := by
  unfold handleDefaults
  split
  · unfold handleClass
    split
    · exact ⟨_, _, _, rfl⟩
    · obtain ⟨table, htable⟩ := foldl_addClassTag_eq (s.addClass _ (n.attributes.erase "name")) _
        n.children
      exact ⟨_, _, table, htable⟩
  · exact ⟨_, _, _, rfl⟩

/-- Nor do all of them together. -/
theorem sameBut_foldl_handleDefaults (s : HeadState) (nodes : List Node) :
    SameBut .attributes s (nodes.foldl HeadState.handleDefaults s) := by
  induction nodes generalizing s with
  | nil => exact ⟨_, _, _, rfl⟩
  | cons n nodes ih =>
    obtain ⟨_, _, _, hfirst⟩ := sameBut_handleDefaults s n
    obtain ⟨_, _, _, hrest⟩ := ih (s.handleDefaults n)
    rw [List.foldl_cons, hrest, hfirst]
    exact ⟨_, _, _, rfl⟩

/-- The selector elements change no other entries either. -/
theorem sameBut_foldl_handleSelector (s : HeadState) (nodes : List Node) :
    SameBut .htmlAttributes s (nodes.foldl HeadState.handleSelector s) := by
  induction nodes generalizing s with
  | nil => exact ⟨_, rfl⟩
  | cons n nodes ih =>
    obtain ⟨_, hrest⟩ := ih (s.handleSelector n)
    rw [List.foldl_cons, hrest, handleSelector_eq]
    split
    · exact ⟨_, rfl⟩
    · exact ⟨_, rfl⟩

/-- An element changes nothing but the entries that elements of its kind are about. -/
theorem sameBut_handle (s : HeadState) (kind : HeadKind) (n : Node) (attributes : Attributes) :
    SameBut kind s (s.handle kind n attributes) := by
  cases kind with
  | title | preview | breakpoint => exact ⟨_, rfl⟩
  | font =>
    unfold handle
    simp only
    split
    · exact ⟨_, rfl⟩
    · exact ⟨_, rfl⟩
  | style =>
    unfold handle handleStyle
    simp only
    split
    · exact ⟨_, _, rfl⟩
    · split
      · exact ⟨_, _, rfl⟩
      · exact ⟨_, _, rfl⟩
  | attributes => exact sameBut_foldl_handleDefaults s n.children
  | htmlAttributes => exact sameBut_foldl_handleSelector s (n.childrenNamed "mj-selector")

section
variable {kind : HeadKind} {s t : HeadState} {nodes : List Node}

/-- An element of another kind leaves the tables of attributes as they are. -/
theorem SameBut.defaultsOf (hsame : SameBut kind s t) (hkind : kind ≠ .attributes)
    (h : DefaultsOf nodes s) : DefaultsOf nodes t := by
  cases kind with
  | attributes => exact absurd rfl hkind
  | style =>
    obtain ⟨_, _, rfl⟩ := hsame
    exact ⟨h.tags, h.classes, h.classTags⟩
  | title | preview | breakpoint | font | htmlAttributes =>
    obtain ⟨_, rfl⟩ := hsame
    exact ⟨h.tags, h.classes, h.classTags⟩

/-- An element of another kind leaves what was asked for under paths as it is. -/
theorem SameBut.selectorsOf (hsame : SameBut kind s t) (hkind : kind ≠ .htmlAttributes)
    (h : SelectorsOf nodes s) : SelectorsOf nodes t := by
  cases kind with
  | htmlAttributes => exact absurd rfl hkind
  | style =>
    obtain ⟨_, _, rfl⟩ := hsame
    exact ⟨h.values, h.listed⟩
  | attributes =>
    obtain ⟨_, _, _, rfl⟩ := hsame
    exact ⟨h.values, h.listed⟩
  | title | preview | breakpoint | font =>
    obtain ⟨_, rfl⟩ := hsame
    exact ⟨h.values, h.listed⟩

/-- An element of another kind leaves the sheets as they are. -/
theorem SameBut.sheets (hsame : SameBut kind s t) (hkind : kind ≠ .style) :
    t.styles = s.styles ∧ t.inlineStyles = s.inlineStyles := by
  cases kind with
  | style => exact absurd rfl hkind
  | attributes =>
    obtain ⟨_, _, _, rfl⟩ := hsame
    exact ⟨rfl, rfl⟩
  | title | preview | breakpoint | font | htmlAttributes =>
    obtain ⟨_, rfl⟩ := hsame
    exact ⟨rfl, rfl⟩

end

/-- One more element of the head. The entries of its own kind are extended, and the others stay. -/
theorem LastWord.handle {elements : List Taken} {s : HeadState} (h : LastWord elements s)
    (e : Taken) : LastWord (elements ++ [e]) (s.handle e.kind e.node e.attributes) := by
  have hsame := sameBut_handle s e.kind e.node e.attributes
  refine ⟨?_, ?_, ?_, ?_⟩
  · rw [defaultsIn_append]
    by_cases hkind : e.kind = .attributes
    · have hone : defaultsIn [e] = e.node.children := by simp [defaultsIn, hkind]
      rw [hone, hkind]
      exact h.defaults.foldl e.node.children
    · have hone : defaultsIn [e] = [] := by simp [defaultsIn, hkind]
      rw [hone, List.append_nil]
      exact hsame.defaultsOf hkind h.defaults
  · rw [selectorsIn_append]
    by_cases hkind : e.kind = .htmlAttributes
    · have hone : selectorsIn [e] = e.node.childrenNamed "mj-selector" := by
        simp [selectorsIn, hkind]
      rw [hone, hkind]
      exact h.selectors.foldl (e.node.childrenNamed "mj-selector")
    · have hone : selectorsIn [e] = [] := by simp [selectorsIn, hkind]
      rw [hone, List.append_nil]
      exact hsame.selectorsOf hkind h.selectors
  · rw [sheetsIn_append, ← h.styles]
    by_cases hkind : e.kind = .style
    · rw [hkind]
      exact (sheets_handleStyle s hkind).1
    · rw [(hsame.sheets hkind).1]
      simp [sheetsIn, hkind]
  · rw [sheetsIn_append, ← h.inlineStyles]
    by_cases hkind : e.kind = .style
    · rw [hkind]
      exact (sheets_handleStyle s hkind).2
    · rw [(hsame.sheets hkind).2]
      simp [sheetsIn, hkind]

/-- Nothing has been said before the head is read. -/
theorem LastWord.initial (o : Options) : LastWord [] (HeadState.initial o) := by
  refine ⟨⟨fun _ _ => rfl, fun _ _ => rfl, fun _ _ _ => rfl⟩, ⟨fun _ _ => rfl, ?_⟩, rfl, rfl⟩
  intro path hlisted
  cases hlisted

/-- Elements of the head, one after the other. -/
def handleAll (s : HeadState) (elements : List Taken) : HeadState :=
  elements.foldl (fun s e => s.handle e.kind e.node e.attributes) s

/-- The law of this module for a whole run, from any state of which it holds already. -/
theorem LastWord.handleAll {elements : List Taken} {s : HeadState} (h : LastWord elements s)
    (more : List Taken) : LastWord (elements ++ more) (s.handleAll more) := by
  induction more generalizing elements s with
  | nil =>
    rw [List.append_nil]
    exact h
  | cons e more ih =>
    rw [List.append_cons]
    exact ih (h.handle e)

end HeadState

end EmailMarkup
