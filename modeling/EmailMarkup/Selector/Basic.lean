/-!
# Selectors

A selector names elements of a document: a compound of simple conditions on the element itself, and,
going left, compounds on elements that it has to be related to. The compound on the element itself
is the subject; `context` lists the others from right to left, each with the combinator that leads
to it.

The counts of a `Specificity` have no upper bound. Words of 32 bits would count alike: every
condition takes at least one character of the selector, so only a selector of four billion
characters could make such a word run over.
-/

namespace EmailMarkup.Selector

/-- How an element is related to the one on its right. -/
inductive Combinator where
  /-- Somewhere around it. -/
  | descendant
  /-- Just around it. -/
  | child
  /-- Just before it among its siblings. -/
  | nextSibling
  /-- Somewhere before it among its siblings. -/
  | subsequentSibling
  deriving DecidableEq, Repr

/-- A condition on the value of an attribute. -/
inductive ValueTest where
  | present
  | equals (value : String)
  /-- One of its words is the value. -/
  | includes (value : String)
  /-- It is the value, or the value followed by a hyphen and more. -/
  | dashMatch (value : String)
  | startsWith (value : String)
  | endsWith (value : String)
  | contains (value : String)
  deriving DecidableEq, Repr

/-- A condition on the place of an element. -/
inductive Structural where
  | firstChild
  | lastChild
  | onlyChild
  | firstOfType
  | lastOfType
  | onlyOfType
  | root
  | empty
  /-- The position is `a * n + b` for some natural `n`. -/
  | nthChild (a b : Int)
  deriving DecidableEq, Repr

/-- A single condition on an element. -/
inductive Simple where
  | universal
  | type (name : String)
  | id (name : String)
  | className (name : String)
  | attribute (name : String) (test : ValueTest)
  | structural (s : Structural)
  /-- The conditions do not all hold. -/
  | negation (compound : List Simple)
  deriving Repr

/-- Conditions that all have to hold of one element. -/
abbrev Compound := List Simple

end EmailMarkup.Selector

namespace EmailMarkup

/-- A selector, from right to left. -/
structure Selector where
  subject : Selector.Compound
  context : List (Selector.Combinator × Selector.Compound)
  deriving Repr

namespace Selector

/-- How much a selector weighs: identifiers, then classes and other conditions, then types. -/
structure Specificity where
  ids : Nat
  classes : Nat
  types : Nat
  deriving DecidableEq, Repr

/-- The weight of no condition. -/
def Specificity.zero : Specificity :=
  { ids := 0, classes := 0, types := 0 }

/-- The weight of two conditions together. -/
def Specificity.add (s t : Specificity) : Specificity :=
  { ids := s.ids + t.ids, classes := s.classes + t.classes, types := s.types + t.types }

/-- Weights are compared from the identifiers down. -/
def Specificity.le (s t : Specificity) : Bool :=
  s.ids < t.ids || (s.ids == t.ids &&
    (s.classes < t.classes || (s.classes == t.classes && s.types ≤ t.types)))

mutual

/-- The weight of a condition. A negation weighs as much as what it negates. -/
def Simple.specificity : Simple → Specificity
  | .universal => .zero
  | .type _ => { ids := 0, classes := 0, types := 1 }
  | .id _ => { ids := 1, classes := 0, types := 0 }
  | .className _ => { ids := 0, classes := 1, types := 0 }
  | .attribute _ _ => { ids := 0, classes := 1, types := 0 }
  | .structural _ => { ids := 0, classes := 1, types := 0 }
  | .negation compound => specificityOf compound

/-- The weight of a compound. -/
def specificityOf : List Simple → Specificity
  | [] => .zero
  | s :: rest => s.specificity.add (specificityOf rest)

end

/-- The weight of a selector. -/
def specificity (s : Selector) : Specificity :=
  s.context.foldl (fun w (_, compound) => w.add (specificityOf compound)) (specificityOf s.subject)

end Selector

end EmailMarkup
