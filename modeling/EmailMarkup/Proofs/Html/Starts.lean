import EmailMarkup.Proofs.Html.Alike
import EmailMarkup.Proofs.Html.ReadShape
import EmailMarkup.Proofs.Html.Retag

/-!
# Elements in the order of their start tags

The elements of a document that was read are, in document order, the start tags of its text from left
to right (`starts_ofPieces`). No end tag changes that, wherever it stands: closing an element moves
nothing.
-/

set_option autoImplicit false

namespace EmailMarkup.Html

open EmailMarkup.Text

/-- The names and attributes of the elements among nodes and in them, in document order. -/
def starts (nodes : List Node) : List (String × List Attribute) :=
  (tagsAmong nodes).map fun t => (t.name, t.attributes)

/-- The name and the attributes of the element that a piece begins. -/
def Piece.start? : Piece → Option (String × List Attribute)
  | .startTag name attributes _ => some (name, attributes)
  | .rawText name attributes _ _ => some (name, attributes)
  | _ => none

@[simp]
theorem starts_nil : starts [] = [] := by
  simp [starts, tagsAmong]

/-- An element comes before those in it, and these before those behind it. -/
@[simp]
theorem starts_element (tag : Tag) (children rest : List Node) :
    starts (.element tag children :: rest) =
      (tag.name, tag.attributes) :: (starts children ++ starts rest) := by
  simp [starts, tagsAmong]

@[simp]
theorem starts_text (content : String) (rest : List Node) :
    starts (.text content :: rest) = starts rest := by
  simp [starts, tagsAmong]

@[simp]
theorem starts_comment (content : String) (rest : List Node) :
    starts (.comment content :: rest) = starts rest := by
  simp [starts, tagsAmong]

@[simp]
theorem starts_declaration (content : String) (rest : List Node) :
    starts (.declaration content :: rest) = starts rest := by
  simp [starts, tagsAmong]

@[simp]
theorem starts_append (xs ys : List Node) : starts (xs ++ ys) = starts xs ++ starts ys := by
  induction xs with
  | nil => simp
  | cons n xs ih => cases n <;> simp [ih]

@[simp]
theorem starts_rawChildren (content : String) : starts (rawChildren content) = [] := by
  unfold rawChildren
  split <;> simp

/-- Alike nodes have the same elements in the same order. -/
theorem Alike.starts {V : String → List Attribute → List Attribute → Prop} {xs ys : List Node}
    (h : Alike V xs ys) :
    List.Forall₂ (fun s s' => s'.1 = s.1 ∧ V s.1 s.2 s'.2) (Html.starts xs) (Html.starts ys) := by
  induction h with
  | nil => simp
  | text _ ih | comment _ ih | declaration _ ih => simpa using ih
  | element htag _ _ ihchildren ih =>
    rw [starts_element, starts_element]
    exact .cons ⟨rfl, htag⟩ (List.rel_append ihchildren ih)
  | rawText _ htag _ ih =>
    rw [starts_element, starts_element, starts_rawChildren, starts_rawChildren]
    exact .cons ⟨rfl, htag⟩ ih

/-! ### States of a reading -/

/-- The elements of an open element, itself first. -/
def OpenElement.starts (e : OpenElement) : List (String × List Attribute) :=
  (e.name, e.attributes) :: Html.starts e.children.reverse

/-- The elements of a document in the making, in document order. -/
def Builder.starts (b : Builder) : List (String × List Attribute) :=
  Html.starts b.top.reverse ++ b.stack.reverse.flatMap OpenElement.starts

theorem OpenElement.starts_finish (e : OpenElement) (closed : Bool) :
    Html.starts [e.finish closed] = e.starts := by
  simp [OpenElement.finish, OpenElement.starts]

theorem OpenElement.starts_append (e : OpenElement) (inner : List Node) :
    OpenElement.starts { e with children := inner ++ e.children } =
      e.starts ++ Html.starts inner.reverse := by
  simp [OpenElement.starts]

/-- What is added to the children comes behind what there is. -/
theorem Builder.starts_onChildren {b : Builder} {f : List Node → List Node}
    {more : List (String × List Attribute)}
    (h : Html.starts (f b.children).reverse = Html.starts b.children.reverse ++ more) :
    (b.onChildren f).starts = b.starts ++ more := by
  obtain ⟨top, stack⟩ := b
  cases stack with
  | nil => simpa [onChildren, starts, children] using h
  | cons e stack =>
    have he : OpenElement.starts { e with children := f e.children } = e.starts ++ more := by
      simpa [OpenElement.starts, children] using h
    simp [onChildren, starts, he]

theorem Builder.starts_onChildren_cons (b : Builder) (n : Node) :
    (b.onChildren (n :: ·)).starts = b.starts ++ Html.starts [n] :=
  starts_onChildren (by rw [List.reverse_cons, Html.starts_append])

/-- Closing elements moves none. -/
theorem starts_closeThrough (name : String) (inner top : List Node) (stack : List OpenElement) :
    (closeThrough name inner top stack).starts =
      Builder.starts ⟨top, stack⟩ ++ starts inner.reverse := by
  induction stack generalizing inner with
  | nil => simp [closeThrough, Builder.starts]
  | cons e stack ih =>
    simp only [closeThrough]
    split
    · rw [Builder.starts_onChildren_cons, OpenElement.starts_finish, OpenElement.starts_append]
      simp [Builder.starts]
    · rw [ih, List.reverse_singleton, OpenElement.starts_finish, OpenElement.starts_append]
      simp [Builder.starts]

theorem starts_closeAll (inner top : List Node) (stack : List OpenElement) :
    starts (closeAll inner top stack).reverse =
      Builder.starts ⟨top, stack⟩ ++ starts inner.reverse := by
  induction stack generalizing inner with
  | nil => simp [closeAll, Builder.starts]
  | cons e stack ih =>
    rw [closeAll, ih, List.reverse_singleton, OpenElement.starts_finish, OpenElement.starts_append]
    simp [Builder.starts]

/-- A piece adds the element that it begins. -/
theorem Builder.starts_step (b : Builder) (p : Piece) :
    (b.step p).starts = b.starts ++ p.start?.toList := by
  cases p with
  | text content =>
    refine starts_onChildren ?_
    cases htext : startsWithText b.children with
    | false => simp [joinText_eq_cons htext, Piece.start?]
    | true =>
      obtain ⟨before, rest, hchildren⟩ := exists_of_startsWithText htext
      simp [hchildren, joinText, Piece.start?]
  | comment content | declaration content =>
    exact (starts_onChildren_cons b _).trans (by simp [Piece.start?])
  | endTag name =>
    rw [step_endTag]
    split
    · rw [starts_closeThrough]
      simp [Piece.start?]
    · simp [Piece.start?]
  | startTag name attributes selfClosing =>
    cases hhollow : selfClosing || isVoid name with
    | true =>
      simp only [step, hhollow]
      exact (starts_onChildren_cons b _).trans (by simp [Piece.start?])
    | false =>
      simp only [step, hhollow]
      simp [starts, OpenElement.starts, Piece.start?]
  | rawText name attributes content closed =>
    refine (starts_onChildren_cons b _).trans (congrArg (b.starts ++ ·) ?_)
    exact (starts_element _ (rawChildren content) []).trans (by simp [Piece.start?])

/-- The elements of a document that was read are its start tags from left to right. -/
theorem starts_ofPieces (ps : List Piece) :
    starts (Document.ofPieces ps).children = ps.filterMap Piece.start? := by
  have hrun : ∀ b : Builder,
      (ps.foldl Builder.step b).starts = b.starts ++ ps.filterMap Piece.start? := by
    induction ps with
    | nil => simp
    | cons p ps ih =>
      intro b
      rw [List.foldl_cons, ih, Builder.starts_step]
      cases h : p.start? <;> simp [h]
  have hstart := hrun ⟨[], []⟩
  rw [Document.ofPieces]
  simp only [starts_closeAll]
  simpa [Builder.starts] using hstart

end EmailMarkup.Html
