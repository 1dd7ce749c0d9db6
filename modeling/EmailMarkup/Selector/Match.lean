import EmailMarkup.Html.Place
import EmailMarkup.Selector.Basic
import EmailMarkup.Text.Blank
import EmailMarkup.Text.Search

/-!
# Matching

Whether a selector names the element at a place. Going from right to left, each compound is looked
for among the elements that its combinator leads to, and the nearest one that fits is taken. There
is no way back from that choice.
-/

namespace EmailMarkup.Selector

open EmailMarkup.Text EmailMarkup.Html

/-- Whether a value passes a test. The empty value is nowhere inside a text. -/
def ValueTest.holds (test : ValueTest) (actual : String) : Bool :=
  match test with
  | .present => true
  | .equals v => actual == v
  | .includes v => (words actual).contains v
  | .dashMatch v => actual == v || beginsWith (v.toList ++ ['-']) actual.toList
  | .startsWith v => !v.isEmpty && beginsWith v.toList actual.toList
  | .endsWith v => !v.isEmpty && beginsWith v.toList.reverse actual.toList.reverse
  | .contains v => !v.isEmpty && occursIn v.toList actual.toList

/-- Whether `n` is `a * k + b` for a natural number `k`. -/
def isNth (a b n : Int) : Bool :=
  if a = 0 then n = b
  -- With `a ≠ 0` the factor is determined, and must not be negative.
  else (n - b).tmod a = 0 && 0 ≤ (n - b).tdiv a

/-- Whether an element has the same name as the one at a place. -/
def sameType (p : Place) (e : Element) : Bool :=
  sameName e.tag.name p.tag.name

/-- Whether a condition holds of a place. -/
def Structural.holds (s : Structural) (p : Place) : Bool :=
  match s with
  | .firstChild => p.row.before.isEmpty
  | .lastChild => p.row.after.isEmpty
  | .onlyChild => p.row.elements.length == 1
  | .firstOfType => !p.row.before.any (sameType p)
  | .lastOfType => !p.row.after.any (sameType p)
  | .onlyOfType => (p.row.elements.filter (sameType p)).length == 1
  | .root => p.above.isEmpty
  | .empty => p.row.here.isEmpty
  | .nthChild a b => isNth a b (p.row.before.length + 1)

mutual

/-- Whether a condition holds of the element at a place. -/
def Simple.holds (p : Place) : Simple → Bool
  | .universal => true
  | .type name => sameName p.tag.name name
  | .id name => p.tag.attribute? "id" == some name
  | .className name => match p.tag.attribute? "class" with
    | some classes => (words classes).contains name
    | none => false
  | .attribute name test => match p.tag.attribute? name with
    | some value => test.holds value
    | none => false
  | .structural s => s.holds p
  | .negation compound => !allHold p compound

/-- Whether all conditions hold of the element at a place. -/
def allHold (p : Place) : List Simple → Bool
  | [] => true
  | s :: rest => s.holds p && allHold p rest

end

/-- The places that a combinator leads to, nearest first. -/
def Combinator.reach (k : Combinator) (p : Place) : List Place :=
  match k with
  | .descendant => p.ancestors
  | .child => p.parent?.toList
  | .nextSibling => p.previous?.toList
  | .subsequentSibling => p.preceding

/-- Whether the compounds to the left are found, each at the nearest place that fits. -/
def contextMatches : List (Combinator × Compound) → Place → Bool
  | [], _ => true
  | (k, compound) :: rest, p =>
    -- A place farther off might let the rest match where the nearest one does not; it is not tried.
    match (k.reach p).find? fun q => allHold q compound with
    | some q => contextMatches rest q
    | none => false

/-- Whether a selector names the element at a place. -/
def selects (s : Selector) (p : Place) : Bool :=
  allHold p s.subject && contextMatches s.context p

end EmailMarkup.Selector
