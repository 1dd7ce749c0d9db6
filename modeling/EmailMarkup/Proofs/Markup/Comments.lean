import EmailMarkup.Proofs.Markup.Position
import EmailMarkup.Proofs.Markup.Scan
import EmailMarkup.Proofs.Markup.Spelling

/-!
# What keeping comments changes

A text may be read with its comments kept or without them. `read_without_comments` says that nothing
else changes: the one reading fails where the other does, and its tree is the other one without the
elements that stand at a comment (`Node.uncommented`).

Both readings take in the same items, so one is the image of the other step by step
(`add_uncommented`). What an element is made from can be told from its position alone, since an
item stands where its text begins (`sits_of_mem_readItems`). While an element is open its position
is already known, and it is that of a tag (`Progress.AtTags`).
-/

set_option autoImplicit false

namespace EmailMarkup.Markup

open EmailMarkup.Text EmailMarkup.Component

variable {position : Position} {text : List Char}

section
variable (source : List Char)

/-- Whether a comment begins at a position. -/
def atComment (position : Position) : Bool :=
  (textAt? source position).any (beginsWith "<!--".toList)

/-- Whether an element is one that a comment becomes, and stands at a comment. -/
def Node.standsAtComment (n : Node) : Bool :=
  n.tag == "mj-raw" && atComment source n.position

mutual

/-- The tree without the elements in it that stand at a comment. -/
def Node.uncommented : Node → Node
  | .element tag attributes children content position =>
    .element tag attributes (uncommentedAmong children) content position

/-- Trees side by side without the elements that stand at a comment. -/
def uncommentedAmong : List Node → List Node
  | [] => []
  | n :: rest =>
    if n.standsAtComment source then uncommentedAmong rest
    else n.uncommented :: uncommentedAmong rest

end

/-- Where an item stands, as far as elements are made from it: a comment at a comment, and a tag at
none. -/
def Placed.Sits (i : Placed) : Prop :=
  match i.item with
  | .comment _ => atComment source i.position = true
  | .opening _ _ | .whole _ _ _ => atComment source i.position = false
  | .text _ | .closing _ => True

variable {source}

/-! ### Where items stand -/

theorem atComment_of_beginsComment {comment : List Char} (htext : text ∈ textAt? source position)
    (h : BeginsComment comment text) : atComment source position = true := by
  obtain ⟨body, rfl, hcomment, -⟩ := h
  rw [atComment, Option.mem_def.mp htext, Option.any_some, beginsWith_iff]
  exact (List.prefix_append _ _).trans hcomment

/-- A name does not begin with an exclamation mark, so a tag is no comment. -/
theorem atComment_of_beginsTag {name : List Char} (htext : text ∈ textAt? source position)
    (hname : IsName name) (h : BeginsTag name text) : atComment source position = false := by
  obtain ⟨rest, rfl, -⟩ := h
  obtain ⟨c, name, rfl, hc⟩ := hname.exists_cons
  rw [atComment, Option.mem_def.mp htext, Option.any_some, Bool.eq_false_iff, Ne, beginsWith_iff]
  rintro ⟨more, hmore⟩
  have hmark : '!' = c := (List.cons.inj (List.cons.inj hmore).2).1
  rw [← hmark] at hc
  exact absurd hc (by decide)

theorem Item.Spells.sits {registry : Registry} {item : Item}
    (htext : text ∈ textAt? source position) (h : item.Spells registry text) :
    Placed.Sits source { item, position } := by
  cases item with
  | text content => trivial
  | comment comment => exact atComment_of_beginsComment htext h
  | opening tag attributes | whole tag attributes content =>
    exact atComment_of_beginsTag htext h.1.name h.1.begins
  | closing tag => trivial

/-- Every item of a text stands where its text begins. -/
theorem sits_of_mem_readItems (registry : Registry) {cs : List Char} (hcs : cs <:+ source) :
    ∀ i ∈ (readItems registry (.ofRest source) cs).1, i.Sits source := by
  induction hlength : cs.length using Nat.strong_induction_on generalizing cs with
  | _ length ih =>
  subst hlength
  intro i hi
  cases cs with
  | nil =>
    rw [readItems] at hi
    cases hi
  | cons c cs =>
    rw [readItems] at hi
    split at hi
    · rename_i hc
      subst hc
      simp only at hi
      split at hi
      · cases hi
      · rename_i front hread
        obtain ⟨hrest, hspells⟩ := of_readMarked registry (.ofRest source)
          (.ofRest source ('<' :: cs)) (congrArg (Except.map Front.pair) hread)
        rcases List.mem_append.mp hi with hi | hi
        · obtain ⟨item, hitem, rfl⟩ := Option.map_eq_some_iff.mp (Option.mem_toList.mp hi)
          exact (hspells item hitem).sits (textAt?_ofRest hcs)
        · exact ih _ (Nat.lt_succ_of_lt front.shorter)
            (hrest.trans ((List.suffix_cons _ _).trans hcs)) rfl i hi
    · rename_i hc
      simp only at hi
      have hsuffix : (readText (.ofRest source) c cs hc).rest <:+ c :: cs := List.dropWhile_suffix _
      rcases List.mem_append.mp hi with hi | hi
      · have htext := Option.mem_toList.mp hi
        unfold readText at htext
        simp only at htext
        split at htext
        · cases htext
        · cases htext
          trivial
      · exact ih _ (readText (.ofRest source) c cs hc).shorter (hsuffix.trans hcs) rfl i hi

/-! ### Taking in an item -/

variable (source)

/-- An open element without the children that stand at a comment. -/
def Open.uncommented (o : Open) : Open :=
  { o with children := uncommentedAmong source o.children }

namespace Progress

/-- What was read, without the elements that stand at a comment. -/
def uncommented : Progress → Progress
  | .before => .before
  | .inside o outer => .inside (o.uncommented source) (outer.map (Open.uncommented source))
  | .after root => .after (root.uncommented source)

/-- No open element stands at a comment. -/
def AtTags (p : Progress) : Prop :=
  ∀ o ∈ p.stack, atComment source o.position = false

end Progress

variable {source}

/-- Leaving out and changing the elements are two passes. -/
theorem uncommentedAmong_eq (nodes : List Node) :
    uncommentedAmong source nodes =
      (nodes.filter fun n => !n.standsAtComment source).map (Node.uncommented source) := by
  induction nodes with
  | nil => rw [uncommentedAmong, List.filter_nil, List.map_nil]
  | cons n rest ih =>
    rw [uncommentedAmong, ih, List.filter_cons]
    cases n.standsAtComment source with
    | true => rfl
    | false => rfl

theorem Open.close_uncommented (o : Open) :
    (o.uncommented source).close = o.close.uncommented source := by
  rw [Open.close, Open.close, Node.uncommented, Open.uncommented]
  simp only [uncommentedAmong_eq, List.filter_reverse, List.map_reverse]

/-- A child that does not stand at a comment stays. -/
theorem Open.uncommented_addChild {o : Open} {n : Node}
    (h : n.standsAtComment source = false) :
    (o.addChild n).uncommented source = (o.uncommented source).addChild (n.uncommented source) := by
  rw [Open.addChild, Open.uncommented, Open.addChild, Open.uncommented]
  simp only [uncommentedAmong, h, Bool.false_eq_true, if_false]

/-- A child that stands at a comment is as if it were not there. -/
theorem Open.uncommented_addChild_comment {o : Open} {n : Node}
    (h : n.standsAtComment source = true) :
    (o.addChild n).uncommented source = o.uncommented source := by
  rw [Open.addChild, Open.uncommented, Open.uncommented]
  simp only [uncommentedAmong, h, if_true]

theorem Node.standsAtComment_of_position {n : Node} (h : atComment source n.position = false) :
    n.standsAtComment source = false := by
  rw [Node.standsAtComment, h, Bool.and_false]

namespace Progress

theorem attach_uncommented {n : Node} (h : atComment source n.position = false)
    (stack : List Open) :
    attach (n.uncommented source) (stack.map (Open.uncommented source)) =
      (attach n stack).uncommented source := by
  cases stack with
  | nil => rfl
  | cons o outer =>
    rw [List.map_cons, attach, attach, uncommented,
      Open.uncommented_addChild (Node.standsAtComment_of_position h)]

/-- A comment is dropped, or becomes a child that is left out. -/
theorem uncommented_addComment (keep : Bool) (p : Progress) {comment : String}
    (h : atComment source position = true) :
    (p.addComment keep comment position).uncommented source = p.uncommented source := by
  cases p with
  | before => rfl
  | inside o outer =>
    have hstands : (Node.element "mj-raw" ∅ [] comment position).standsAtComment source = true := by
      rw [Node.standsAtComment, Node.position, h]
      rfl
    rw [addComment]
    split
    · rw [uncommented, uncommented, Open.uncommented_addChild_comment hstands]
    · rfl
  | after root => rfl

/-- Without keeping comments they leave no trace. -/
theorem addComment_false (p : Progress) (comment : String) (position : Position) :
    p.addComment false comment position = p := by
  cases p with
  | before | inside o outer | after root => rfl

/-- Taking in an item without keeping comments is taking it in, and leaving the comments out. -/
theorem add_uncommented (keep : Bool) {p : Progress} (hp : p.AtTags source) {i : Placed}
    (hi : i.Sits source) :
    (p.uncommented source).add false i = (p.add keep i).map (uncommented source) := by
  obtain ⟨item, position⟩ := i
  cases item with
  | text content =>
    cases p with
    | before => rfl
    | inside o outer => rfl
    | after root => rfl
  | comment comment =>
    show Except.ok ((p.uncommented source).addComment false comment position) =
      Except.ok ((p.addComment keep comment position).uncommented source)
    rw [addComment_false, uncommented_addComment keep p hi]
  | opening tag attributes =>
    cases p with
    | before =>
      simp only [add, uncommented, openElement, Except.map, Open.uncommented, uncommentedAmong,
        List.map_nil]
    | inside o outer =>
      simp only [add, uncommented, openElement, Except.map, Open.uncommented, uncommentedAmong,
        List.map_cons]
    | after root => rfl
  | whole tag attributes content =>
    have hplain : (Node.element tag attributes [] content position).uncommented source =
        .element tag attributes [] content position := by
      rw [Node.uncommented, uncommentedAmong]
    cases p with
    | before => simp only [add, uncommented, addWhole, Except.map, hplain]
    | inside o outer =>
      have hattach := attach_uncommented (n := .element tag attributes [] content position) hi
        (o :: outer)
      rw [hplain] at hattach
      exact congrArg Except.ok hattach
    | after root => rfl
  | closing tag =>
    cases p with
    | before => rfl
    | inside o outer =>
      show (if o.tag = tag then _ else _) = Except.map _ (if o.tag = tag then _ else _)
      split
      · have ho := hp o List.mem_cons_self
        rw [Open.close_uncommented, attach_uncommented ho]
        rfl
      · rfl
    | after root => rfl

theorem atTags_attach {n : Node} {stack : List Open}
    (h : ∀ o ∈ stack, atComment source o.position = false) : (attach n stack).AtTags source := by
  cases stack with
  | nil => exact fun _ ho => nomatch ho
  | cons o outer =>
    intro other hother
    rcases List.mem_cons.mp hother with rfl | hother
    · exact h o List.mem_cons_self
    · exact h other (List.mem_cons_of_mem o hother)

/-- Elements are opened at tags only. -/
theorem atTags_add {keep : Bool} {p next : Progress} (hp : p.AtTags source) {i : Placed}
    (hi : i.Sits source) (h : p.add keep i = .ok next) : next.AtTags source := by
  obtain ⟨item, position⟩ := i
  cases item with
  | text content =>
    cases p with
    | before => cases h
    | inside o outer =>
      cases h
      exact List.forall_mem_cons.mpr (List.forall_mem_cons.mp hp)
    | after root => cases h
  | comment comment =>
    cases h
    cases p with
    | before => exact hp
    | inside o outer =>
      rw [addComment]
      split
      · exact atTags_attach hp
      · exact hp
    | after root => exact hp
  | opening tag attributes =>
    cases p with
    | before =>
      cases h
      exact List.forall_mem_cons.mpr ⟨hi, hp⟩
    | inside o outer =>
      cases h
      exact List.forall_mem_cons.mpr ⟨hi, hp⟩
    | after root => cases h
  | whole tag attributes content =>
    cases p with
    | before =>
      cases h
      exact hp
    | inside o outer =>
      cases h
      exact atTags_attach hp
    | after root => cases h
  | closing tag =>
    cases p with
    | before => cases h
    | inside o outer =>
      replace h : (if o.tag = tag then Except.ok (attach o.close outer) else _) =
        Except.ok next := h
      split at h
      · cases h
        exact atTags_attach (List.forall_mem_cons.mp hp).2
      · cases h
    | after root => cases h

theorem finish_uncommented (p : Progress) :
    (p.uncommented source).finish = p.finish.map (Node.uncommented source) := by
  cases p with
  | before | inside o outer | after root => rfl

end Progress

/-- The tree of items without keeping comments is their tree, without the comments. -/
theorem ofItems_uncommented (keep : Bool) {items : List Placed × Option Failure}
    (hsits : ∀ i ∈ items.1, i.Sits source) :
    Node.ofItems false items = (Node.ofItems keep items).map (Node.uncommented source) := by
  have hstart : Progress.before.AtTags source := fun _ ho => nomatch ho
  have hrun : items.1.foldlM (Progress.add false) .before =
      (items.1.foldlM (Progress.add keep) .before).map (Progress.uncommented source) :=
    foldlM_map_of_steps (h := Progress.uncommented source)
      (fun p hp i hi => Progress.add_uncommented keep hp (hsits i hi))
      (fun p hp i hi next hnext => Progress.atTags_add hp (hsits i hi) hnext) hstart
  rw [Node.ofItems, Node.ofItems, hrun]
  cases items.1.foldlM (Progress.add keep) .before with
  | error failure => rfl
  | ok progress =>
    cases items.2 with
    | some failure => rfl
    | none => exact progress.finish_uncommented

end

/-- Reading without comments fails where reading with them fails, with the same failure, and
otherwise gives the same tree without the elements that stand at a comment. -/
theorem read_without_comments (registry : Registry) (markup : String) :
    Node.read registry false markup =
      (Node.read registry true markup).map (Node.uncommented markup.toList) :=
  ofItems_uncommented (registry.has "mj-raw") (sits_of_mem_readItems registry List.suffix_rfl)

end EmailMarkup.Markup
