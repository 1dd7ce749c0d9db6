import EmailMarkup.Proofs.OrderedMap
import EmailMarkup.Proofs.Page.Head

/-!
# A document as a template

A document is filled with a title, a preview, a language, a direction, a breakpoint and a background
(`Values`). Each value has a `ValuePlace`: it stands in an attribute of a tag, or in the text behind
one. The rest is text of the document itself, which is the same for all values, and text of an
author.

`exists_readPieces_documentWith` takes a document apart. What stands before the first text of an
author is read as pieces of its own, and from there on the document is a list of parts
(`authorParts`).
-/

set_option autoImplicit false

namespace EmailMarkup.Page

open EmailMarkup.Text EmailMarkup.Html EmailMarkup.Number EmailMarkup.Component

/-! ### Values -/

/-- The values that a document is filled with. -/
structure Values where
  title : String
  preview : String
  lang : String
  dir : String
  breakpoint : String
  background : String
  /-- Without a preview there is no element for it. -/
  preview_ne : preview ≠ ""

/-- The document with these values. What an author wrote is taken from `head` and `notes`. -/
def documentWith (o : Options) (head : HeadState) (notes : Body.Notes) (content : String)
    (v : Values) : String :=
  document o
    { head with
      title := v.title, preview := v.preview, lang := v.lang, dir := v.dir,
      breakpoint := v.breakpoint }
    { notes with backgrounds := [some v.background] } content

/-- The attributes of the element around a document, with values as they are written. -/
def htmlPairs (lang dir : String) : List (String × String) :=
  [("lang", lang), ("dir", dir), ("xmlns", "http://www.w3.org/1999/xhtml"),
    ("xmlns:v", "urn:schemas-microsoft-com:vml"),
    ("xmlns:o", "urn:schemas-microsoft-com:office:office")]

/-- The attribute of the style sheet for programs that have their own idea of media. -/
def mediaPairs (breakpoint : String) : List (String × String) :=
  [("media", "screen and (min-width:" ++ breakpoint ++ ")")]

/-- The attribute of the body. -/
def bodyPairs (style : String) : List (String × String) :=
  [("style", style)]

/-- The attribute of the text that is shown beside the subject. -/
def previewPairs : List (String × String) :=
  [("style", "display:none;font-size:1px;color:#ffffff;line-height:1px;max-height:0px;" ++
    "max-width:0px;opacity:0;overflow:hidden;")]

/-- The attributes of an element in two documents: they are the same, or the element is one of the
three that have a value in an attribute, and it has the value of its document. -/
inductive SameButValues (v v' : Values) : String → List Attribute → List Attribute → Prop
  | same (name : String) (attributes : List Attribute) :
      SameButValues v v' name attributes attributes
  | html :
      SameButValues v v' "html" (quoted (htmlPairs (escapeAttribute v.lang) (escapeAttribute v.dir)))
        (quoted (htmlPairs (escapeAttribute v'.lang) (escapeAttribute v'.dir)))
  | media :
      SameButValues v v' "style" (quoted (mediaPairs (escapeAttribute v.breakpoint)))
        (quoted (mediaPairs (escapeAttribute v'.breakpoint)))
  | body :
      SameButValues v v' "body"
        (quoted (bodyPairs (escapeAttribute (bodyStyle (some v.background)))))
        (quoted (bodyPairs (escapeAttribute (bodyStyle (some v'.background)))))

/-- The names of attributes are never a matter of values. -/
theorem SameButValues.names {v v' : Values} {name : String}
    {attributes attributes' : List Attribute}
    (h : SameButValues v v' name attributes attributes') :
    attributes'.map Attribute.name = attributes.map Attribute.name := by
  cases h with
  | same => rfl
  | html => simp [quoted, htmlPairs]
  | media => simp [quoted, mediaPairs]
  | body => simp [quoted, bodyPairs]

/-- Escaped values are plain whatever the head says, so the tag of the page can be read back. -/
theorem plainPairs_html (lang dir : String) :
    PlainPairs (htmlPairs (escapeAttribute lang) (escapeAttribute dir)) :=
  .cons (by decide) (notMem_escaped lang) (.cons (by decide) (notMem_escaped dir)
    (.cons (by decide) (by decide) (.cons (by decide) (by decide)
      (.cons (by decide) (by decide) .nil))))

theorem plainPairs_media (breakpoint : String) :
    PlainPairs (mediaPairs (escapeAttribute breakpoint)) := by
  obtain ⟨hquote, hbracket⟩ := notMem_escaped breakpoint
  exact .cons (by decide) (by simp [hquote, hbracket]) .nil

theorem plainPairs_body (style : String) : PlainPairs (bodyPairs (escapeAttribute style)) :=
  .cons (by decide) (notMem_escaped style) .nil

/-! ### Sheets of components -/

theorem bracket_notMem_digitsOf (n : Nat) : '<' ∉ digitsOf n := fun h =>
  absurd (Nat.isDigit_of_mem_toDigits (by decide) (by decide) h) (by decide)

theorem bracket_notMem_integerText (n : Int) : '<' ∉ (integerText n).toList := by
  cases n with
  | ofNat k | negSucc k => simp [integerText, bracket_notMem_digitsOf]

/-- The sheet of a component has no bracket in it for any breakpoint, so nothing in it ends the
element that it stands in. -/
theorem bracket_notMem_sheetOf (breakpoint : String) (kind : BodyKind) :
    '<' ∉ (Body.sheetOf breakpoint kind).toList := by
  cases kind
  case image =>
    unfold Body.sheetOf Body.Image.sheet
    simp only [String.toList_append, List.mem_append, not_or]
    exact ⟨⟨⟨⟨by decide, bracket_notMem_integerText _⟩, by decide⟩, by decide +kernel⟩,
      by decide +kernel⟩
  all_goals exact List.not_mem_nil

/-- The sheets in the order of their tags. -/
theorem values_sheetTable (notes : Body.Notes) (breakpoint : String) :
    (notes.sheetTable breakpoint).values =
      (OrderedMap.ofList notes.sheets).values.map (Body.sheetOf breakpoint) :=
  OrderedMap.values_ofList_map (Body.sheetOf breakpoint) notes.sheets

/-- Nor do the sheets of all components together. -/
theorem bracket_notMem_sheets (notes : Body.Notes) (breakpoint : String) :
    '<' ∉ (String.join (notes.sheetTable breakpoint).values).toList := by
  rw [values_sheetTable, String.toList_join, List.flatMap_map, List.mem_flatMap]
  rintro ⟨kind, -, hmem⟩
  exact bracket_notMem_sheetOf breakpoint kind hmem

/-- Whether a kind has a sheet is not a matter of the breakpoint. -/
theorem allBlank_sheetOf (breakpoint breakpoint' : String) (kind : BodyKind) :
    allBlank (Body.sheetOf breakpoint kind) = allBlank (Body.sheetOf breakpoint' kind) := by
  have himage : ∀ bp, allBlank (Body.sheetOf bp .image) = false := fun bp => by
    unfold Body.sheetOf Body.Image.sheet allBlank
    simp only [String.toList_append, List.all_append]
    rw [show "@media only screen and (max-width:".toList.all isBlank = false by decide]
    rfl
  cases kind
  case image => rw [himage, himage]
  all_goals rfl

/-- Whether there is a sheet at all does not depend on the breakpoint. -/
theorem allBlank_sheets (notes : Body.Notes) (breakpoint breakpoint' : String) :
    allBlank (String.join (notes.sheetTable breakpoint).values) =
      allBlank (String.join (notes.sheetTable breakpoint').values) := by
  have hall : ∀ bp, allBlank (String.join (notes.sheetTable bp).values) =
      (OrderedMap.ofList notes.sheets).values.all fun kind => allBlank (Body.sheetOf bp kind) := by
    intro bp
    rw [values_sheetTable, allBlank, String.toList_join, List.flatMap_map, List.all_flatMap]
    rfl
  rw [hall, hall]
  exact congrArg _ (funext (allBlank_sheetOf breakpoint breakpoint'))

/-! ### Places for values -/

theorem isRawText_style : isRawText "style" = true := by
  decide

/-- A place for a value: a tag with attributes, and text behind it. -/
structure ValuePlace where
  name : String
  pairs : Values → List (String × String)
  inner : Values → String
  isTagName_name : isTagName name = true
  plainPairs : ∀ v, PlainPairs (pairs v)
  bracket_notMem : ∀ v, '<' ∉ (inner v).toList

namespace ValuePlace

/-- The place as a part of a document. -/
def part (p : ValuePlace) : TemplatePart Values :=
  .value fun v => ⟨p.name, quoted (p.pairs v), (p.inner v).toList⟩

/-- The part of a place is printed as its start tag and what is inside. -/
theorem print_part (p : ValuePlace) {v : Values} {start inner : String}
    (hstart : startText p.name (p.pairs v) = start) (hinner : p.inner v = inner) :
    p.part.print v = (start ++ inner).toList := by
  rw [← hstart, ← hinner, String.toList_append]
  exact print_opening (p.plainPairs v)

/-- The part of a place takes other values, if the attributes may differ and the content does not
appear or vanish. Content of a raw element is free, as no tag is read in it. -/
theorem takes_part (p : ValuePlace) {V : String → List Attribute → List Attribute → Prop}
    {v v' : Values}
    (hvalues : V p.name (quoted (p.pairs v)) (quoted (p.pairs v')))
    (hempty : isRawText p.name = true ∨
      (p.inner v').toList.isEmpty = (p.inner v).toList.isEmpty) : p.part.Takes V v v' :=
  ⟨⟨rfl, hvalues, hempty⟩, plain_quoted p.isTagName_name (p.plainPairs v) (p.bracket_notMem v),
    plain_quoted p.isTagName_name (p.plainPairs v') (p.bracket_notMem v')⟩

/-- The style sheet for columns. -/
def columns : ValuePlace where
  name := "style"
  pairs _ := cssPairs
  inner v := "@media only screen and (min-width:" ++ escapeAttribute v.breakpoint ++ ") \x7b "
  isTagName_name := by decide
  plainPairs _ := plainPairs_css
  bracket_notMem v := by simp [(notMem_escaped v.breakpoint).2]

/-- The same for programs that have their own idea of media. -/
def media : ValuePlace where
  name := "style"
  pairs v := mediaPairs (escapeAttribute v.breakpoint)
  inner _ := ""
  isTagName_name := by decide
  plainPairs v := plainPairs_media v.breakpoint
  bracket_notMem _ := List.not_mem_nil

/-- The style sheets of components. -/
def sheets (notes : Body.Notes) : ValuePlace where
  name := "style"
  pairs _ := cssPairs
  inner v := String.join (notes.sheetTable (escapeAttribute v.breakpoint)).values
  isTagName_name := by decide
  plainPairs _ := plainPairs_css
  bracket_notMem v := bracket_notMem_sheets notes (escapeAttribute v.breakpoint)

/-- The body. -/
def body : ValuePlace where
  name := "body"
  pairs v := bodyPairs (escapeAttribute (bodyStyle (some v.background)))
  inner _ := ""
  isTagName_name := by decide
  plainPairs v := plainPairs_body (bodyStyle (some v.background))
  bracket_notMem _ := List.not_mem_nil

/-- The text that is shown beside the subject. -/
def preview : ValuePlace where
  name := "div"
  pairs _ := previewPairs
  inner v := escapeText v.preview
  isTagName_name := by decide
  plainPairs _ := .cons (by decide) (by decide +kernel) .nil
  bracket_notMem v := bracket_notMem_escapeText v.preview

end ValuePlace

/-! ### The parts of a document -/

/-- The style sheets for columns. -/
def mediaParts (queries : OrderedMap String) (forceOwa : Bool) : List (TemplatePart Values) :=
  if queries.isEmpty then []
  else
    [ValuePlace.columns.part, .given (columnRules "" queries ++ " \x7d" ++ "</style>").toList,
      ValuePlace.media.part, .given (columnRules ".moz-text-html " queries ++ "</style>" ++
        if forceOwa then styleTag (columnRules "[owa] " queries) else "").toList]

/-- The style sheets of components. -/
def sheetParts (notes : Body.Notes) : List (TemplatePart Values) :=
  if allBlank (String.join (notes.sheetTable "").values) then []
  else [(ValuePlace.sheets notes).part, .given "</style>".toList]

/-- The rest of the head, and the body. -/
def bodyParts (head : HeadState) (content : String) : List (TemplatePart Values) :=
  [.given (styleTagUnlessBlank (String.join head.styles) ++ String.join head.raw ++
      "</head>").toList,
    ValuePlace.body.part, ValuePlace.preview.part,
    .given ("</div>" ++ content ++ "</body></html>").toList]

/-- The parts of a document from the first text of an author on. -/
def authorParts (o : Options) (head : HeadState) (notes : Body.Notes) (content : String) :
    List (TemplatePart Values) :=
  mediaParts notes.mediaQueries o.forceOwaDesktop ++ (sheetParts notes ++ bodyParts head content)

theorem startText_css : startText "style" cssPairs = "<style type=\"text/css\">" := by
  decide

theorem startText_head : startText "head" [] = "<head>" := by
  decide

theorem startText_html (lang dir : String) :
    "<!doctype html>" ++ startText "html" (htmlPairs lang dir) =
      "<!doctype html><html lang=\"" ++ lang ++ "\" dir=\"" ++
        dir ++ "\" xmlns=\"http://www.w3.org/1999/xhtml\" " ++
        "xmlns:v=\"urn:schemas-microsoft-com:vml\" " ++
        "xmlns:o=\"urn:schemas-microsoft-com:office:office\">" := by
  rw [← String.toList_inj]
  simp [startText, htmlPairs]

theorem startText_media (breakpoint : String) : startText "style" (mediaPairs breakpoint) =
    "<style media=\"screen and (min-width:" ++ breakpoint ++ ")\">" := by
  rw [← String.toList_inj]
  simp [startText, mediaPairs]

theorem startText_body (style : String) : startText "body" (bodyPairs style) =
    "<body style=\"" ++ style ++ "\">" := by
  rw [← String.toList_inj]
  simp [startText, bodyPairs]

theorem startText_preview : startText "div" previewPairs =
    "<div style=\"display:none;font-size:1px;color:#ffffff;line-height:1px;max-height:0px;" ++
      "max-width:0px;opacity:0;overflow:hidden;\">" := by
  decide +kernel

/-- The parts for media queries are printed as the page writes them. -/
theorem printParts_mediaParts (v : Values) (queries : OrderedMap String) (forceOwa : Bool) :
    printParts v (mediaParts queries forceOwa) =
      (mediaTags (escapeAttribute v.breakpoint) queries forceOwa).toList := by
  have hcolumns : ValuePlace.columns.part.print v = ("<style type=\"text/css\">" ++
      ("@media only screen and (min-width:" ++ escapeAttribute v.breakpoint ++ ") \x7b ")).toList :=
    ValuePlace.print_part _ startText_css rfl
  have hmedia : ValuePlace.media.part.print v = ("<style media=\"screen and (min-width:" ++
      escapeAttribute v.breakpoint ++ ")\">" ++ "").toList :=
    ValuePlace.print_part _ (startText_media _) rfl
  unfold mediaParts mediaTags
  split
  · rfl
  · unfold styleTag
    simp only [printParts_cons, printParts_nil, hcolumns, hmedia, TemplatePart.print_given]
    simp only [String.toList_append, String.toList_empty, List.append_assoc, List.append_nil]

/-- So are the parts for the sheets of components. -/
theorem printParts_sheetParts (v : Values) (notes : Body.Notes) :
    printParts v (sheetParts notes) = (styleTagUnlessBlank
      (String.join (notes.sheetTable (escapeAttribute v.breakpoint)).values)).toList := by
  have hsheets : (ValuePlace.sheets notes).part.print v = ("<style type=\"text/css\">" ++
      String.join (notes.sheetTable (escapeAttribute v.breakpoint)).values).toList :=
    ValuePlace.print_part _ startText_css rfl
  unfold sheetParts styleTagUnlessBlank
  rw [allBlank_sheets notes (escapeAttribute v.breakpoint) ""]
  split
  · rfl
  · unfold styleTag
    simp only [printParts_cons, printParts_nil, hsheets, TemplatePart.print_given]
    simp only [String.toList_append, List.append_assoc, List.append_nil]

/-- The text of the body and of what stands in the head right before it. -/
theorem printParts_bodyParts (v : Values) (head : HeadState) (content : String) :
    printParts v (bodyParts head content) =
      (styleTagUnlessBlank (String.join head.styles) ++ String.join head.raw ++ "</head>" ++
        "<body style=\"" ++ escapeAttribute (bodyStyle (some v.background)) ++ "\">" ++
        previewTag v.preview ++ content ++ "</body></html>").toList := by
  have hbody : ValuePlace.body.part.print v = ("<body style=\"" ++
      escapeAttribute (bodyStyle (some v.background)) ++ "\">" ++ "").toList :=
    ValuePlace.print_part _ (startText_body _) rfl
  have hpreview : ValuePlace.preview.part.print v =
      ("<div style=\"display:none;font-size:1px;color:#ffffff;line-height:1px;max-height:0px;" ++
        "max-width:0px;opacity:0;overflow:hidden;\">" ++ escapeText v.preview).toList :=
    ValuePlace.print_part _ startText_preview rfl
  unfold bodyParts previewTag
  rw [if_neg (by simpa using v.preview_ne)]
  simp only [printParts_cons, printParts_nil, hbody, hpreview, TemplatePart.print_given]
  simp only [String.toList_append, String.toList_empty, List.append_assoc, List.append_nil]

/-- The text in front of the fixed part of the head. -/
def front (v : Values) : String :=
  "<!doctype html><html lang=\"" ++ escapeAttribute v.lang ++ "\" dir=\"" ++
    escapeAttribute v.dir ++ "\" xmlns=\"http://www.w3.org/1999/xhtml\" " ++
    "xmlns:v=\"urn:schemas-microsoft-com:vml\" " ++
    "xmlns:o=\"urn:schemas-microsoft-com:office:office\">" ++
    "<head>" ++ ("<title>" ++ escapeText v.title ++ "</title>")

/-- A document is read as its parts one after the other. -/
theorem toList_documentWith (o : Options) (head : HeadState) (notes : Body.Notes) (content : String)
    (v : Values) :
    (documentWith o head notes content v).toList = (front v).toList ++ (fixedHead.toList ++
      ((fontTags content (allowedFonts o head.fonts)).toList ++
        printParts v (authorParts o head notes content))) := by
  have hqueries : ∀ b, Body.Notes.mediaQueries { notes with backgrounds := b } =
      notes.mediaQueries := fun _ => rfl
  have hsheets : ∀ b, Body.Notes.sheetTable { notes with backgrounds := b } = notes.sheetTable :=
    fun _ => rfl
  have hbackground : Body.Notes.background? { notes with backgrounds := [some v.background] } =
      some v.background := rfl
  rw [authorParts, printParts_append, printParts_append, printParts_mediaParts,
    printParts_sheetParts, printParts_bodyParts]
  unfold documentWith document headTags front fixedHead
  simp only [String.toList_append, List.append_assoc, hqueries, hsheets, hbackground]

/-- The pieces in front of the fixed part of the head. -/
def frontPieces (v : Values) : List Piece :=
  [.declaration "<!doctype html>",
    .startTag "html" (quoted (htmlPairs (escapeAttribute v.lang) (escapeAttribute v.dir))) false,
    .startTag "head" [] false, .rawText "title" [] (escapeText v.title) true]

/-- The front of the page is complete: reading it ends between two pieces. -/
theorem complete_front (v : Values) : Complete (front v).toList (frontPieces v) := by
  have hdoctype : IsDeclaration "<!doctype html>" :=
    ⟨'!', "doctype html".toList, by decide, by decide, .inr ⟨rfl, by decide⟩⟩
  have hhtml := @complete_startText "html" _ (by decide) (by decide) (plainPairs_html v.lang v.dir)
  have hhead := @complete_startText "head" [] (by decide) (by decide) .nil
  have htitle : Complete ("<title>" ++ escapeText v.title ++ "</title>").toList
      [.rawText "title" [] (escapeText v.title) true] :=
    @complete_rawElement "title" "<title>" _ "</title>" [] rfl rfl (by decide) (by decide) .nil
      (bracket_notMem_escapeText v.title)
  have hfront : front v = "<!doctype html>" ++
      startText "html" (htmlPairs (escapeAttribute v.lang) (escapeAttribute v.dir)) ++
      startText "head" [] ++ ("<title>" ++ escapeText v.title ++ "</title>") := by
    rw [startText_html, startText_head]
    rfl
  rw [hfront, String.toList_append, String.toList_append, String.toList_append, List.append_assoc,
    List.append_assoc]
  exact (Complete.declaration hdoctype).append (hhtml.append (hhead.append htitle))

/-- The pieces of a document. Between those of its front and those of an author are some that are the
same for all values. -/
theorem exists_readPieces_documentWith (o : Options) (head : HeadState) (notes : Body.Notes)
    (content : String) : ∃ fixed, ∀ v,
      readPieces (documentWith o head notes content v).toList =
        frontPieces v ++ (fixed ++ readPieces (printParts v (authorParts o head notes content))) := by
  obtain ⟨rules, settings, fix, hfixed⟩ := exists_complete_fixedHead
  obtain ⟨fonts, hfonts⟩ := exists_complete_fontTags content (allowedFonts o head.fonts)
  refine ⟨fixedPieces rules settings fix ++ fonts, fun v => ?_⟩
  have hread := ((complete_front v).append (hfixed.append hfonts))
    (printParts v (authorParts o head notes content)) trivial
  rw [toList_documentWith]
  simp only [List.append_assoc] at hread ⊢
  exact hread

end EmailMarkup.Page
