import EmailMarkup.Cascade.Attach
import EmailMarkup.Head.Handle
import EmailMarkup.Markup.Reader
import EmailMarkup.Page.Skeleton

/-!
# Compiling markup

Markup is read into a tree, its head is taken in, its body is drawn, and the document around it is
made. In the end attributes and style sheets are worked into the HTML. The outcome is a document
together with everything there is to report, in the order in which it was found.
-/

namespace EmailMarkup.Page

open EmailMarkup.Body EmailMarkup.Component EmailMarkup.Markup

/-- A compiled document and what there is to report. -/
structure Compiled where
  html : String
  reports : List Diagnostic
  deriving Repr

/-- What is known before the body, and what there is to report. -/
structure HeadPass where
  head : HeadState
  reports : List Diagnostic
  deriving Repr

/-- Takes in one element of the head. Markup that is passed through goes into the head of the
document. -/
def takeHeadElement (r : Registry) (o : Options) (pass : HeadPass) (n : Node) :
    Except Failure HeadPass :=
  match r.get? n.tag with
  | none => .ok { pass with reports := pass.reports ++ [.unknownHeadElement n.tag] }
  | some spec =>
    match spec.kind with
    | .head kind =>
      (spec.schema.resolve o.level none n).result.map fun (attributes, reports) =>
        { head := pass.head.handle kind n attributes, reports := pass.reports ++ reports }
    | _ =>
      -- Only what is passed through may stand in both head and body.
      if spec.raw then
        .ok { pass with head := { pass.head with raw := pass.head.raw ++ [n.content] } }
      else .ok { pass with reports := pass.reports ++ [.notInHead n.tag n.line] }

/-- Takes in the first head of a document, if it has one. -/
def takeHead (r : Registry) (o : Options) (root : Node) (pass : HeadPass) :
    Except Failure HeadPass :=
  match root.child? "mj-head" with
  | some head => head.children.foldlM (takeHeadElement r o) pass
  | none => .ok pass

/-- What is known from the options and from the outermost element. -/
def initialHead (o : Options) (root : Node) : HeadState :=
  let head := HeadState.initial o
  { head with
    lang := (root.attribute? "lang").getD head.lang
    dir := (root.attribute? "dir").getD head.dir }

/-- Reports on children of the outermost element that are neither head nor body. -/
def misplaced (root : Node) : List Diagnostic :=
  (root.children.filter fun c => c.tag != "mj-head" && c.tag != "mj-body").map fun c =>
    .notInDocument c.tag c.line

/-- The width of a body before it sets its own. -/
def defaultWidth : Float := 600

/-- What comes after drawing: the drawn HTML of the body becomes a document. -/
def finish (o : Options) (head : HeadState) (notes : Notes) (content : String) : Compiled :=
  let content := if o.minifyOutlook then Outlook.minify content else content
  -- Attributes are set on the body alone; style sheets are worked into the whole document.
  let attached := Cascade.attach content head.htmlAttributes
  let html := document o head notes attached.html
  let reports := notes.reports ++ attached.reports ++ fontReports o head.fonts
  if head.inlineStyles.isEmpty then { html := Outlook.merge html, reports }
  else
    let inlined := Cascade.inlineSheets html head.inlineStyles
    { html := Outlook.merge inlined.html, reports := reports ++ inlined.reports }

/-- Compiles the tree of a document. -/
def compileNode (r : Registry) (o : Options) (root : Node) : Except Failure Compiled :=
  if root.tag ≠ "mjml" then .error (.malformed root.position (.wrongRoot root.tag))
  else do
    let pass ← takeHead r o root { head := initialHead o root, reports := misplaced root }
    let body? := root.child? "mj-body"
    -- A document without a body is compiled with an empty one.
    let missing := if body?.isNone then [Diagnostic.missingBody] else []
    let drawing ← Body.draw { registry := r, options := o, head := pass.head } defaultWidth .single
      (body?.getD (.bare "mj-body"))
    let notes : Notes := { reports := pass.reports ++ missing }
    return finish o pass.head (notes ++ drawing.notes) ((drawing.drawn?.map Prod.snd).getD "")

/-- Compiles a document. -/
def compile (r : Registry) (o : Options) (markup : String) : Except Failure Compiled := do
  compileNode r o (← Node.read r o.keepComments markup)

end EmailMarkup.Page
