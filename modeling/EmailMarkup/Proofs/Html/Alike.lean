import EmailMarkup.Proofs.Html.Shape

/-!
# Documents of one structure

Two documents are `Alike` if they have the same elements, nested in the same way, the same comments
and the same declarations. What may differ is what their texts say, and the attributes of an element
as far as a relation `V` allows it for the element's name.

`alike_ofPieces` is the law of this module: texts whose pieces are alike one by one are read as
documents that are alike. The two readings go in step. `Builder.Alike` relates the states they are
in, with the same elements open in both, and `Builder.Alike.step` says that alike pieces keep them so.
-/

set_option autoImplicit false

namespace EmailMarkup.Html

open EmailMarkup.Text

section
variable (V : String → List Attribute → List Attribute → Prop)

/-- Nodes of one structure: they differ in what texts say, and in attributes as far as `V` has it. -/
inductive Alike : List Node → List Node → Prop
  | nil : Alike [] []
  | text {content content' : String} {xs ys : List Node} (hrest : Alike xs ys) :
      Alike (.text content :: xs) (.text content' :: ys)
  | comment {content : String} {xs ys : List Node} (hrest : Alike xs ys) :
      Alike (.comment content :: xs) (.comment content :: ys)
  | declaration {content : String} {xs ys : List Node} (hrest : Alike xs ys) :
      Alike (.declaration content :: xs) (.declaration content :: ys)
  | element {name : String} {attributes attributes' : List Attribute} {selfClosing closed : Bool}
      {children children' xs ys : List Node} (htag : V name attributes attributes')
      (hchildren : Alike children children') (hrest : Alike xs ys) :
      Alike (.element { name, attributes, selfClosing, closed } children :: xs)
        (.element { name, attributes := attributes', selfClosing, closed } children' :: ys)
  /-- Raw text may be empty in one of the elements, which has no node then. -/
  | rawText {name content content' : String} {attributes attributes' : List Attribute}
      {closed : Bool} {xs ys : List Node} (hraw : isRawText name = true)
      (htag : V name attributes attributes') (hrest : Alike xs ys) :
      Alike (.element { name, attributes, selfClosing := false, closed } (rawChildren content) :: xs)
        (.element { name, attributes := attributes', selfClosing := false, closed }
          (rawChildren content') :: ys)

/-- Pieces of one kind: they differ in what texts say, and in attributes as far as `V` has it. -/
inductive Piece.Alike : Piece → Piece → Prop
  | text (content content' : String) : Piece.Alike (.text content) (.text content')
  | comment (content : String) : Piece.Alike (.comment content) (.comment content)
  | declaration (content : String) : Piece.Alike (.declaration content) (.declaration content)
  | endTag (name : String) : Piece.Alike (.endTag name) (.endTag name)
  | startTag {name : String} {attributes attributes' : List Attribute}
      (htag : V name attributes attributes') (selfClosing : Bool) :
      Piece.Alike (.startTag name attributes selfClosing) (.startTag name attributes' selfClosing)
  | rawText {name : String} {attributes attributes' : List Attribute}
      (htag : V name attributes attributes') (content content' : String) (closed : Bool)
      (hraw : isRawText name = true ∨ content' = content) :
      Piece.Alike (.rawText name attributes content closed)
        (.rawText name attributes' content' closed)

/-- The same element is open, with children that are alike. -/
structure OpenElement.Alike (e e' : OpenElement) : Prop where
  name : e'.name = e.name
  attributes : V e.name e.attributes e'.attributes
  children : Html.Alike V e.children e'.children

/-- The same elements are open, and what has been read is alike on every level. -/
structure Builder.Alike (b b' : Builder) : Prop where
  top : Html.Alike V b.top b'.top
  stack : List.Forall₂ (OpenElement.Alike V) b.stack b'.stack

end

variable {V : String → List Attribute → List Attribute → Prop}

/-- A piece is like itself, if every tag is. -/
theorem Piece.Alike.refl (hrefl : ∀ name attributes, V name attributes attributes) (p : Piece) :
    Piece.Alike V p p := by
  cases p with
  | text content => exact .text content content
  | comment content => exact .comment content
  | declaration content => exact .declaration content
  | endTag name => exact .endTag name
  | startTag name attributes selfClosing => exact .startTag (hrefl name attributes) selfClosing
  | rawText name attributes content closed =>
    exact .rawText (hrefl name attributes) content content closed (.inr rfl)

/-! ### Nodes -/

theorem Alike.append {xs ys xs' ys' : List Node} (h : Alike V xs ys) (h' : Alike V xs' ys') :
    Alike V (xs ++ xs') (ys ++ ys') := by
  induction h with
  | nil => exact h'
  | text _ ih => exact .text ih
  | comment _ ih => exact .comment ih
  | declaration _ ih => exact .declaration ih
  | element htag hchildren _ _ ih => exact .element htag hchildren ih
  | rawText hraw htag _ ih => exact .rawText hraw htag ih

theorem Alike.reverse {xs ys : List Node} (h : Alike V xs ys) : Alike V xs.reverse ys.reverse := by
  induction h with
  | nil => exact .nil
  | text _ ih => simpa using ih.append (.text .nil)
  | comment _ ih => simpa using ih.append (.comment .nil)
  | declaration _ ih => simpa using ih.append (.declaration .nil)
  | element htag hchildren _ _ ih => simpa using ih.append (.element htag hchildren .nil)
  | rawText hraw htag _ ih => simpa using ih.append (.rawText hraw htag .nil)

/-- Text joins what stands before it in both or in none. -/
theorem Alike.joinText {xs ys : List Node} (h : Alike V xs ys) (content content' : String) :
    Alike V (Html.joinText content xs) (Html.joinText content' ys) := by
  cases h with
  | nil => exact .text .nil
  | text hrest => exact .text hrest
  | comment hrest => exact .text (.comment hrest)
  | declaration hrest => exact .text (.declaration hrest)
  | element htag hchildren hrest => exact .text (.element htag hchildren hrest)
  | rawText hraw htag hrest => exact .text (.rawText hraw htag hrest)

/-! ### States of the two readings -/

theorem OpenElement.Alike.finish {e e' : OpenElement} (h : OpenElement.Alike V e e')
    (closed : Bool) : Html.Alike V [e.finish closed] [e'.finish closed] := by
  unfold OpenElement.finish
  rw [h.name]
  exact .element h.attributes h.children.reverse .nil

/-- Nodes put behind the children of an open element keep it alike. -/
theorem OpenElement.Alike.behind {e e' : OpenElement} (h : OpenElement.Alike V e e')
    {inner inner' : List Node} (hinner : Html.Alike V inner inner') :
    OpenElement.Alike V { e with children := inner ++ e.children }
      { e' with children := inner' ++ e'.children } :=
  ⟨h.name, h.attributes, hinner.append h.children⟩

/-- Children may be changed in ways that keep them alike. -/
theorem Builder.Alike.onChildren {b b' : Builder} (h : Builder.Alike V b b')
    {f f' : List Node → List Node}
    (hf : ∀ {xs ys : List Node}, Html.Alike V xs ys → Html.Alike V (f xs) (f' ys)) :
    Builder.Alike V (b.onChildren f) (b'.onChildren f') := by
  obtain ⟨top, stack⟩ := b
  obtain ⟨top', stack'⟩ := b'
  obtain ⟨htop, hstack⟩ := h
  cases hstack with
  | nil => exact ⟨hf htop, .nil⟩
  | cons he hstack => exact ⟨htop, .cons ⟨he.name, he.attributes, hf he.children⟩ hstack⟩

/-- An element of a name is open in both or in none. -/
theorem Builder.Alike.isOpen_eq {b b' : Builder} (h : Builder.Alike V b b') (name : String) :
    b'.isOpen name = b.isOpen name := by
  obtain ⟨top, stack⟩ := b
  obtain ⟨top', stack'⟩ := b'
  have hstack : List.Forall₂ (OpenElement.Alike V) stack stack' := h.stack
  show (stack'.any fun e => sameName e.name name) = stack.any fun e => sameName e.name name
  clear h
  induction hstack with
  | nil => rfl
  | cons he _ ih => rw [List.any_cons, List.any_cons, he.name, ih]

theorem alike_closeThrough (name : String) {top top' : List Node} (htop : Alike V top top')
    {stack stack' : List OpenElement} (hstack : List.Forall₂ (OpenElement.Alike V) stack stack')
    {inner inner' : List Node} (hinner : Alike V inner inner') :
    Builder.Alike V (closeThrough name inner top stack) (closeThrough name inner' top' stack') := by
  induction hstack generalizing inner inner' with
  | nil => exact ⟨hinner.append htop, .nil⟩
  | @cons e e' stack stack' he hstack ih =>
    have hmore := he.behind hinner
    have hsame : sameName e'.name name = sameName e.name name := by rw [he.name]
    simp only [closeThrough, hsame]
    split
    · exact Builder.Alike.onChildren ⟨htop, hstack⟩ (hmore.finish true).append
    · exact ih (hmore.finish false)

theorem alike_closeAll {top top' : List Node} (htop : Alike V top top')
    {stack stack' : List OpenElement} (hstack : List.Forall₂ (OpenElement.Alike V) stack stack')
    {inner inner' : List Node} (hinner : Alike V inner inner') :
    Alike V (closeAll inner top stack) (closeAll inner' top' stack') := by
  induction hstack generalizing inner inner' with
  | nil => exact hinner.append htop
  | cons he _ ih => exact ih ((he.behind hinner).finish false)

theorem alike_rawChildren (content : String) : Alike V (rawChildren content) (rawChildren content) := by
  unfold rawChildren
  split
  · exact .nil
  · exact .text .nil

/-- Alike pieces keep the two readings in step. -/
theorem Builder.Alike.step {b b' : Builder} (h : Builder.Alike V b b') {p p' : Piece}
    (hp : Piece.Alike V p p') : Builder.Alike V (b.step p) (b'.step p') := by
  cases hp with
  | text content content' => exact h.onChildren fun hxs => hxs.joinText content content'
  | comment => exact h.onChildren .comment
  | declaration => exact h.onChildren .declaration
  | endTag name =>
    rw [step_endTag, step_endTag, h.isOpen_eq]
    split
    · exact alike_closeThrough name h.top h.stack .nil
    · exact h
  | @startTag name attributes attributes' htag selfClosing =>
    cases hhollow : selfClosing || isVoid name with
    | true =>
      simp only [Builder.step, hhollow]
      exact h.onChildren (.element htag .nil)
    | false =>
      simp only [Builder.step, hhollow]
      exact ⟨h.top, .cons ⟨rfl, htag, .nil⟩ h.stack⟩
  | rawText htag content content' closed hraw =>
    rcases hraw with hraw | rfl
    · exact h.onChildren (.rawText hraw htag)
    · exact h.onChildren (.element htag (alike_rawChildren _))

/-- Alike pieces make up documents that are alike. -/
theorem alike_ofPieces {ps ps' : List Piece} (h : List.Forall₂ (Piece.Alike V) ps ps') :
    Alike V (Document.ofPieces ps).children (Document.ofPieces ps').children := by
  have hrun : ∀ {b b' : Builder}, Builder.Alike V b b' →
      Builder.Alike V (ps.foldl Builder.step b) (ps'.foldl Builder.step b') := by
    induction h with
    | nil => exact id
    | cons hp _ ih => exact fun hb => ih (hb.step hp)
  have hfinal := @hrun ⟨[], []⟩ ⟨[], []⟩ ⟨.nil, .nil⟩
  exact (alike_closeAll hfinal.top hfinal.stack .nil).reverse

end EmailMarkup.Html
