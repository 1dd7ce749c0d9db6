import EmailMarkup.Css.Declaration
import EmailMarkup.OrderedMap

/-!
# Merging declarations

For each property of an element one declaration wins. Among the rules that select it the last one
wins, except against an important one. A declaration in the element's own style wins over all of
them, except against an important one if it is not important itself; it is then written where it
stands in the style, after what came from the rules.
-/

namespace EmailMarkup.Cascade

open EmailMarkup.Css

/-- The declaration that is winning for a property, and whether it is the element's own. -/
structure Winner where
  declaration : Declaration
  own : Bool
  deriving DecidableEq, Repr

/-- The winning declarations by property. -/
abbrev Winners := OrderedMap Winner

/-- Lets a declaration of a rule compete. -/
def Winners.addRuled (w : Winners) (d : Declaration) : Winners :=
  match w.get? d.property with
  | some old =>
    if old.declaration.important && !d.important then w
    -- The property keeps the place at which it was first declared.
    else w.insert d.property { declaration := d, own := false }
  | none => w.insert d.property { declaration := d, own := false }

/-- Lets a declaration of the element's own style compete. -/
def Winners.addOwn (w : Winners) (d : Declaration) : Winners :=
  match w.get? d.property with
  | some old =>
    if !old.own && old.declaration.important && !d.important then w
    -- Erasing first moves the property to the end, where it stands in the style.
    else (w.erase d.property).insert d.property { declaration := d, own := true }
  | none => w.insert d.property { declaration := d, own := true }

/-- The winners among the declarations of rules, weakest first. -/
def Winners.ofRules (ds : List Declaration) : Winners :=
  ds.foldl addRuled ∅

/-- Adds the declarations of the element's own style. -/
def Winners.addStyle (w : Winners) (style : List Declaration) : Winners :=
  style.foldl addOwn w

/-- A winner as it is written in a style. What an important rule said needs no mark there. -/
def Winner.written (w : Winner) : Declaration :=
  { w.declaration with important := w.declaration.important && w.own }

/-- The style that winners make. -/
def Winners.style (w : Winners) : String :=
  printDeclarations (w.values.map Winner.written)

end EmailMarkup.Cascade
