import EmailMarkup.Component.Spec

/-!
# The core components

The components that every document may use.
-/

namespace EmailMarkup.Component.Core

open EmailMarkup.Schema

/-- A length in pixels. -/
def pixels : ValueType :=
  .unit ["px"] false 1 1

/-- A length in pixels or as a share. -/
def length : ValueType :=
  .unit ["px", "%"] false 1 1

/-- Up to four lengths, for the edges of a box. -/
def edges : ValueType :=
  .unit ["px", "%"] false 1 4

/-- The title of the document. -/
def title : Spec where
  tag := "mj-title"
  kind := .head .title
  ending := true

/-- The text shown beside the subject in a list of messages. -/
def preview : Spec where
  tag := "mj-preview"
  kind := .head .preview
  ending := true

/-- The width below which columns are stacked. -/
def breakpoint : Spec where
  tag := "mj-breakpoint"
  kind := .head .breakpoint
  types := .ofList [
    ("width", pixels)]

/-- A web font. -/
def font : Spec where
  tag := "mj-font"
  kind := .head .font
  types := .ofList [
    ("name", .string), ("href", .string)]

/-- A style sheet, either for the head or to be inlined. -/
def style : Spec where
  tag := "mj-style"
  kind := .head .style
  types := .ofList [
    ("inline", .choice ["inline"])]
  ending := true

/-- Attributes for all elements of a tag or of a class. -/
def attributes : Spec where
  tag := "mj-attributes"
  kind := .head .attributes

/-- Attributes for elements of the compiled document. -/
def htmlAttributes : Spec where
  tag := "mj-html-attributes"
  kind := .head .htmlAttributes

/-- The body: it sets the width that the rows are laid out in. -/
def body : Spec where
  tag := "mj-body"
  kind := .body .body
  types := .ofList [
    ("width", pixels), ("background-color", .color)]
  defaults := .ofList [
    ("width", "600px")]

/-- A row of columns. -/
def row : Spec where
  tag := "mj-section"
  kind := .body .row
  types := .ofList [
    ("background-color", .color), ("background-url", .string),
    ("background-repeat", .choice ["repeat", "no-repeat"]), ("background-size", .string),
    ("background-position", .string), ("border", .string), ("border-bottom", .string),
    ("border-left", .string), ("border-radius", .string), ("border-right", .string),
    ("border-top", .string), ("direction", .choice ["ltr", "rtl"]),
    ("full-width", .choice ["full-width", "false", ""]), ("padding", edges),
    ("padding-top", length), ("padding-bottom", length), ("padding-left", length),
    ("padding-right", length), ("text-align", .choice ["left", "center", "right"])]
  defaults := .ofList [
    ("background-repeat", "repeat"), ("background-size", "auto"),
    ("background-position", "top center"), ("direction", "ltr"), ("padding", "20px 0"),
    ("text-align", "center")]

/-- A stack of elements beside others in a row. -/
def column : Spec where
  tag := "mj-column"
  kind := .body .column
  types := .ofList [
    ("background-color", .color), ("border", .string), ("border-bottom", .string),
    ("border-left", .string), ("border-radius", edges), ("border-right", .string),
    ("border-top", .string), ("direction", .choice ["ltr", "rtl"]),
    ("inner-background-color", .color), ("inner-border", .string),
    ("inner-border-bottom", .string), ("inner-border-left", .string),
    ("inner-border-radius", edges), ("inner-border-right", .string),
    ("inner-border-top", .string), ("padding", edges), ("padding-bottom", length),
    ("padding-left", length), ("padding-right", length), ("padding-top", length),
    ("vertical-align", .choice ["top", "bottom", "middle"]), ("width", length)]
  defaults := .ofList [
    ("direction", "ltr"), ("vertical-align", "top")]

/-- A block of rich text. -/
def text : Spec where
  tag := "mj-text"
  kind := .body .text
  types := .ofList [
    ("align", .choice ["left", "right", "center", "justify"]), ("background-color", .color),
    ("color", .color), ("container-background-color", .color), ("font-family", .string),
    ("font-size", pixels), ("font-style", .string), ("font-weight", .string), ("height", length),
    ("letter-spacing", .unit ["px", "em"] true 1 1),
    ("line-height", .unit ["px", "%", ""] false 1 1), ("padding-bottom", length),
    ("padding-left", length), ("padding-right", length), ("padding-top", length),
    ("padding", edges), ("text-decoration", .string), ("text-transform", .string),
    ("vertical-align", .choice ["top", "bottom", "middle"])]
  defaults := .ofList [
    ("align", "left"), ("color", "#000000"),
    ("font-family", "Ubuntu, Helvetica, Arial, sans-serif"), ("font-size", "13px"),
    ("line-height", "1"), ("padding", "10px 25px")]
  ending := true

/-- An image, perhaps with a link. -/
def image : Spec where
  tag := "mj-image"
  kind := .body .image
  types := .ofList [
    ("alt", .string), ("href", .string), ("name", .string), ("src", .string), ("srcset", .string),
    ("sizes", .string), ("title", .string), ("rel", .string),
    ("align", .choice ["left", "center", "right"]), ("border", .string),
    ("border-bottom", .string), ("border-left", .string), ("border-right", .string),
    ("border-top", .string), ("border-radius", edges), ("container-background-color", .color),
    ("fluid-on-mobile", .boolean), ("full-width", .choice ["full-width", "false", ""]),
    ("padding", edges), ("padding-bottom", length), ("padding-left", length),
    ("padding-right", length), ("padding-top", length), ("target", .string), ("width", pixels),
    ("height", .unit ["px", "auto"] false 1 1), ("max-height", length), ("font-size", pixels),
    ("usemap", .string)]
  defaults := .ofList [
    ("alt", ""), ("align", "center"), ("border", "0"), ("height", "auto"),
    ("padding", "10px 25px"), ("target", "_blank"), ("font-size", "13px")]

/-- A link drawn as a padded box. -/
def button : Spec where
  tag := "mj-button"
  kind := .body .button
  types := .ofList [
    ("align", .choice ["left", "center", "right"]), ("background-color", .color),
    ("border-bottom", .string), ("border-left", .string), ("border-radius", .string),
    ("border-right", .string), ("border-top", .string), ("border", .string), ("color", .color),
    ("container-background-color", .color), ("font-family", .string), ("font-size", pixels),
    ("font-style", .string), ("font-weight", .string), ("height", length), ("href", .string),
    ("name", .string), ("title", .string), ("inner-padding", edges),
    ("letter-spacing", .unit ["px", "em"] true 1 1),
    ("line-height", .unit ["px", "%", ""] false 1 1), ("padding-bottom", length),
    ("padding-left", length), ("padding-right", length), ("padding-top", length),
    ("padding", edges), ("rel", .string), ("target", .string), ("text-decoration", .string),
    ("text-transform", .string), ("vertical-align", .choice ["top", "bottom", "middle"]),
    ("text-align", .choice ["left", "right", "center"]), ("width", length)]
  defaults := .ofList [
    ("align", "center"), ("background-color", "#414141"), ("border", "none"),
    ("border-radius", "3px"), ("color", "#ffffff"),
    ("font-family", "Ubuntu, Helvetica, Arial, sans-serif"), ("font-size", "13px"),
    ("font-weight", "normal"), ("inner-padding", "10px 25px"), ("line-height", "120%"),
    ("padding", "10px 25px"), ("target", "_blank"), ("text-decoration", "none"),
    ("text-transform", "none"), ("vertical-align", "middle")]
  ending := true

/-- Markup that is passed through. -/
def raw : Spec where
  tag := "mj-raw"
  kind := .body .raw
  ending := true
  raw := true

/-- All core components. -/
def specs : List Spec :=
  [{ tag := "mjml" }, { tag := "mj-head" }, { tag := "mj-all" }, { tag := "mj-class" },
    { tag := "mj-selector" }, { tag := "mj-html-attribute", ending := true }, title, preview,
    breakpoint, font, style, attributes, htmlAttributes, body, row, column, text, image, button,
    raw]

end EmailMarkup.Component.Core
