import EmailMarkup.Cascade.Inline
import EmailMarkup.Markup.Node

/-!
# Attributes for selected elements

Attributes that the head asks for on the elements of the finished body that a selector names. Each
selector list looks at the document as the lists before it have left it.
-/

namespace EmailMarkup.Cascade

open EmailMarkup.Html EmailMarkup.Markup

/-- The selectors of a list, and a report on each text that is none. -/
def readSelectors (list : String) : List Selector × List Diagnostic :=
  (Selector.splitList list).foldr
    (fun text (selectors, reports) => match Selector.read text with
      | .ok s => (s :: selectors, reports)
      | .error fault => (selectors, .attributeSelector fault :: reports))
    ([], [])

/-- Sets attributes, written so that they read as the given values. -/
def setAll (attributes : Attributes) (t : Tag) : Tag :=
  attributes.entries.foldl (fun t (name, value) => t.setAttribute name (escapeAttribute value)) t

/-- Sets attributes on the elements that one of the selectors names. -/
def attachTo (d : Document) (selectors : List Selector) (attributes : Attributes) : Document :=
  d.mapTags fun p => if selectors.any fun s => s.selects p then setAll attributes p.tag else p.tag

/-- Sets attributes on the elements that selector lists name. Without any list the text is left as
it is. -/
def attach (html : String) (targets : OrderedMap Attributes) : Outcome :=
  if targets.isEmpty then { html, reports := [] }
  else
    let document := targets.entries.foldl
      (fun d (list, attributes) => attachTo d (readSelectors list).1 attributes)
      (Document.read html)
    { html := document.print
      reports := targets.entries.flatMap fun (list, _) => (readSelectors list).2 }

end EmailMarkup.Cascade
