import EmailMarkup.Body.Draw
import EmailMarkup.Text.LowerCase

/-!
# The document around a body

A compiled document: a head with what mail programs need to know, and the body that was drawn. Web
fonts are named only as far as the body uses them, and only to programs other than Outlook.
-/

namespace EmailMarkup.Page

open EmailMarkup.Text EmailMarkup.Html

/-! ### Fonts -/

/-- From the quotation mark that ends a font family on, there is less than from its mark on. -/
theorem length_afterFamily_lt (c : Char) (rest : List Char) :
    (((c :: rest).drop 12).dropWhile (· != '"')).length < (c :: rest).length := by
  have h₁ := (List.dropWhile_sublist (l := (c :: rest).drop 12) (· != '"')).length_le
  rw [List.length_drop] at h₁
  simp only [List.length_cons] at *
  omega

/-- The font families that a text asks for: each stands between a mark and the next quotation mark,
and is given in lower case. -/
def familiesIn (cs : List Char) : List (List Char) :=
  match cs with
  | [] => []
  | c :: rest =>
    if beginsWithFolded "font-family:".toList (c :: rest) then
      have := length_afterFamily_lt c rest
      (lowerCase (String.ofList (((c :: rest).drop 12).takeWhile (· != '"')))).toList ::
        familiesIn (((c :: rest).drop 12).dropWhile (· != '"'))
    else familiesIn rest
termination_by cs.length
decreasing_by all_goals (simp only [List.length_cons] at *; omega)

/-- Whether a font is asked for. -/
def isUsed (families : List (List Char)) (name : String) : Bool :=
  -- A name counts anywhere in a family list, even as a part of a longer name.
  families.any fun family => occursIn (lowerCase name).toList family

/-- The addresses of the fonts that a text uses. -/
def usedFonts (content : String) (fonts : OrderedMap String) : List String :=
  let families := familiesIn content.toList
  (fonts.entries.filter fun (name, _) => isUsed families name).map Prod.snd

/-- An address as it stands in a style sheet: characters that would end it there are given by their
codes. -/
def cssUrl (url : String) : String :=
  replaceEach (fun
    | '<' => "%3C".toList
    | '>' => "%3E".toList
    | '(' => "%28".toList
    | ')' => "%29".toList
    | '"' => "%22".toList
    | '\'' => "%27".toList
    | c => [c]) url

/-- The tags that load fonts. -/
def fontTags (content : String) (fonts : OrderedMap String) : String :=
  let urls := usedFonts content fonts
  if urls.isEmpty then ""
  else
    let links := urls.map fun url =>
      "<link href=\"" ++ escapeAttribute url ++ "\" rel=\"stylesheet\" type=\"text/css\">"
    let imports := urls.map fun url => "@import url(" ++ cssUrl url ++ ");"
    Outlook.negatedOfficeBlock
      (String.join links ++ "<style type=\"text/css\">" ++ String.join imports ++ "</style>")

/-- The fonts whose addresses are allowed. -/
def allowedFonts (o : Options) (fonts : OrderedMap String) : OrderedMap String :=
  fonts.filter fun (_, url) => (Body.Element.policy o).accepts url

/-- Reports on the other fonts. -/
def fontReports (o : Options) (fonts : OrderedMap String) : List Diagnostic :=
  (fonts.entries.filter fun (_, url) => !(Body.Element.policy o).accepts url).map fun (name, url) =>
    .unsafeFont name url

/-! ### Style sheets -/

/-- A style sheet in its tag. -/
def styleTag (css : String) : String :=
  "<style type=\"text/css\">" ++ css ++ "</style>"

/-- A style sheet in its tag, unless it is blank. -/
def styleTagUnlessBlank (css : String) : String :=
  if allBlank css then "" else styleTag css

/-- The rules for columns, each for its class after some context. -/
def columnRules (context : String) (queries : OrderedMap String) : String :=
  String.join (queries.entries.map fun (name, query) => context ++ "." ++ name ++ " " ++ query)

/-- The widths of columns above the breakpoint, for most programs, for those that have their own
idea of media, and perhaps for the web client of Outlook. -/
def mediaTags (breakpoint : String) (queries : OrderedMap String) (forceOwa : Bool) : String :=
  if queries.isEmpty then ""
  else
    styleTag ("@media only screen and (min-width:" ++ breakpoint ++ ") \x7b " ++
      columnRules "" queries ++ " \x7d") ++
    "<style media=\"screen and (min-width:" ++ breakpoint ++ ")\">" ++
      columnRules ".moz-text-html " queries ++ "</style>" ++
    if forceOwa then styleTag (columnRules "[owa] " queries) else ""

/-! ### The document -/

/-- The text that is shown beside the subject, hidden in the body. -/
def previewTag (preview : String) : String :=
  if preview.isEmpty then ""
  else "<div style=\"display:none;font-size:1px;color:#ffffff;line-height:1px;max-height:0px;" ++
    "max-width:0px;opacity:0;overflow:hidden;\">" ++ escapeText preview ++ "</div>"

/-- Rules that even out the differences between mail programs. -/
def resetStyle : String :=
  styleTag ("#outlook a \x7b padding:0; \x7d" ++
    "body \x7b margin:0;padding:0;-webkit-text-size-adjust:100%;-ms-text-size-adjust:100%; \x7d" ++
    "table, td \x7b border-collapse:collapse;mso-table-lspace:0pt;mso-table-rspace:0pt; \x7d" ++
    "img \x7b border:0;height:auto;line-height:100%; outline:none;text-decoration:none;" ++
    "-ms-interpolation-mode:bicubic; \x7d" ++
    "p \x7b display:block;margin:13px 0; \x7d")

/-- Settings that keep Outlook from scaling images. -/
def officeSettings : String :=
  "<noscript><xml><o:OfficeDocumentSettings><o:AllowPNG/><o:PixelsPerInch>96</o:PixelsPerInch>" ++
    "</o:OfficeDocumentSettings></xml></noscript>"

/-- A rule for old versions of Outlook. -/
def groupFix : String :=
  "<!--[if lte mso 11]>" ++ styleTag ".mj-outlook-group-fix \x7b width:100% !important; \x7d" ++
    "<![endif]-->"

/-- The style of the body. -/
def bodyStyle (background? : Option String) : String :=
  "word-spacing:normal;" ++ match background? with
    | some color => "background-color:" ++ color ++ ";"
    | none => ""

/-- The head of the document. -/
def headTags (o : Options) (head : HeadState) (notes : Body.Notes) (content : String) : String :=
  let breakpoint := escapeAttribute head.breakpoint
  "<title>" ++ escapeText head.title ++ "</title>" ++
    Outlook.negatedOfficeBlock "<meta http-equiv=\"X-UA-Compatible\" content=\"IE=edge\">" ++
    "<meta http-equiv=\"Content-Type\" content=\"text/html; charset=UTF-8\">" ++
    "<meta name=\"viewport\" content=\"width=device-width, initial-scale=1\">" ++
    resetStyle ++ Outlook.officeBlock officeSettings ++ groupFix ++
    fontTags content (allowedFonts o head.fonts) ++
    mediaTags breakpoint notes.mediaQueries o.forceOwaDesktop ++
    styleTagUnlessBlank (String.join (notes.sheetTable breakpoint).values) ++
    styleTagUnlessBlank (String.join head.styles) ++ String.join head.raw

/-- The document around the HTML of a body. -/
def document (o : Options) (head : HeadState) (notes : Body.Notes) (content : String) : String :=
  "<!doctype html><html lang=\"" ++ escapeAttribute head.lang ++ "\" dir=\"" ++
    escapeAttribute head.dir ++ "\" xmlns=\"http://www.w3.org/1999/xhtml\" " ++
    "xmlns:v=\"urn:schemas-microsoft-com:vml\" " ++
    "xmlns:o=\"urn:schemas-microsoft-com:office:office\">" ++
    "<head>" ++ headTags o head notes content ++ "</head>" ++
    "<body style=\"" ++ escapeAttribute (bodyStyle notes.background?) ++ "\">" ++
    previewTag head.preview ++ content ++ "</body></html>"

end EmailMarkup.Page
