import EmailMarkup.Proofs.Html.Starts
import EmailMarkup.Proofs.Page.Values

/-!
# The structure of a document is not a matter of its values

Two documents that differ in their values are read as trees of one structure: the same elements in
the same places with the same attributes, the same comments, and other values only where a value of
the document stands (`SameButValues`). This is `alike_documentWith`.

The texts of an author are put into the head as they are. One that ends in the middle of a comment, a
declaration or a tag takes in what follows it, and if that is the place of a value, the value is read
as markup (`openHead_changes_structure`). So the theorem asks that no place begins inside markup that
an author left open (`KeptApart`). `keptApart_authorParts` says that ordinary texts are like that:
style sheets without brackets, and complete markup in the head.
-/

set_option autoImplicit false

namespace EmailMarkup.Page

open EmailMarkup.Text EmailMarkup.Html

/-! ### Two documents -/

theorem isEmpty_preview (v : Values) : (escapeText v.preview).toList.isEmpty = false := by
  rw [escapeText, String.toList_ofList, List.isEmpty_eq_false_iff]
  exact escapeTextChars_ne_nil (mt String.toList_eq_nil_iff.mp v.preview_ne)

/-- Each place takes the values of both documents. -/
theorem takes_authorParts (o : Options) (head : HeadState) (notes : Body.Notes) (content : String)
    (v v' : Values) :
    ∀ part ∈ authorParts o head notes content, part.Takes (SameButValues v v') v v' := by
  have hmedia : ∀ part ∈ mediaParts notes.mediaQueries o.forceOwaDesktop,
      part.Takes (SameButValues v v') v v' := by
    unfold mediaParts
    split
    · exact nofun
    · simp only [List.forall_mem_cons]
      exact ⟨ValuePlace.columns.takes_part (.same _ _) (.inl isRawText_style), trivial,
        ValuePlace.media.takes_part .media (.inl isRawText_style), trivial, nofun⟩
  have hsheets : ∀ part ∈ sheetParts notes, part.Takes (SameButValues v v') v v' := by
    unfold sheetParts
    split
    · exact nofun
    · simp only [List.forall_mem_cons]
      exact ⟨(ValuePlace.sheets notes).takes_part (.same _ _) (.inl isRawText_style), trivial,
        nofun⟩
  have hbody : ∀ part ∈ bodyParts head content, part.Takes (SameButValues v v') v v' := by
    have hpreview := (isEmpty_preview v').trans (isEmpty_preview v).symm
    simp only [bodyParts, List.forall_mem_cons]
    exact ⟨trivial, ValuePlace.body.takes_part .body (.inr rfl),
      ValuePlace.preview.takes_part (.same _ _) (.inr hpreview), trivial, nofun⟩
  exact List.forall_mem_append.mpr ⟨hmedia, List.forall_mem_append.mpr ⟨hsheets, hbody⟩⟩

theorem alike_frontPieces (v v' : Values) :
    List.Forall₂ (Piece.Alike (SameButValues v v')) (frontPieces v) (frontPieces v') :=
  .cons (.declaration _) (.cons (.startTag .html false) (.cons (.startTag (.same _ _) false)
    (.cons (.rawText (.same _ _) _ _ true (.inl (by decide))) .nil)))

/-! ### Author texts that keep to themselves -/

/-- Classes and widths without brackets. -/
def PlainQueries (queries : OrderedMap String) : Prop :=
  ∀ entry ∈ queries.entries, '<' ∉ entry.1.toList ∧ '<' ∉ entry.2.toList

instance (queries : OrderedMap String) : Decidable (PlainQueries queries) :=
  inferInstanceAs (Decidable (∀ entry ∈ queries.entries, _ ∧ _))

theorem bracket_notMem_columnRules (context : String) {queries : OrderedMap String}
    (hcontext : '<' ∉ context.toList) (hqueries : PlainQueries queries) :
    '<' ∉ (columnRules context queries).toList := by
  rw [columnRules, String.toList_join, List.flatMap_map, List.mem_flatMap]
  rintro ⟨entry, hentry, hmem⟩
  simp [hcontext, hqueries entry hentry] at hmem

/-- Parts that are complete behind any complete text, so that what follows them is read anew. -/
def Settled (v : Values) (parts : List (TemplatePart Values)) : Prop :=
  ∀ done ps, Complete done ps →
    KeptApart v done parts ∧ ∃ ps', Complete (done ++ printParts v parts) ps'

theorem Settled.nil (v : Values) : Settled v [] := by
  intro done ps hdone
  exact ⟨trivial, ps, by rwa [printParts_nil, List.append_nil]⟩

theorem Settled.append {v : Values} {parts parts' : List (TemplatePart Values)} (h : Settled v parts)
    (h' : Settled v parts') : Settled v (parts ++ parts') := by
  intro done ps hdone
  obtain ⟨hapart, ps', hmid⟩ := h done ps hdone
  obtain ⟨hapart', ps'', hend⟩ := h' _ ps' hmid
  refine ⟨keptApart_append.mpr ⟨hapart, hapart'⟩, ps'', ?_⟩
  rwa [printParts_append, ← List.append_assoc]

/-- A place for a value and the text behind it, complete together. -/
theorem settled_pair {v : Values} {p : ValuePlace} {text : List Char} {ps : List Piece}
    (h : Complete (p.part.print v ++ text) ps) : Settled v [p.part, .given text] := by
  intro done qs hdone
  refine ⟨⟨hdone.leavesOpen_eq, trivial⟩, qs ++ ps, ?_⟩
  simpa [printParts, TemplatePart.print_given] using hdone.append h

/-- A style sheet that begins with a value is complete with its end tag. -/
theorem ValuePlace.complete_rawText (p : ValuePlace) (v : Values) (rest : String) {ending : String}
    (hraw : isRawText p.name = true) (hrest : '<' ∉ rest.toList)
    (hending : ending = "</" ++ p.name ++ ">") :
    Complete (p.part.print v ++ (rest ++ ending).toList)
      [.rawText p.name (quoted (p.pairs v)) (p.inner v ++ rest) true] := by
  have hcontent : '<' ∉ (p.inner v ++ rest).toList := by simp [p.bracket_notMem v, hrest]
  have hcomplete := complete_rawElement rfl hending p.isTagName_name hraw (p.plainPairs v) hcontent
  rw [p.print_part rfl rfl]
  simpa only [String.toList_append, List.append_assoc] using hcomplete

theorem settled_mediaParts (v : Values) {queries : OrderedMap String} (forceOwa : Bool)
    (hqueries : PlainQueries queries) : Settled v (mediaParts queries forceOwa) := by
  unfold mediaParts
  split
  · exact .nil v
  · have hrules := fun context hcontext => bracket_notMem_columnRules context hcontext hqueries
    have hcolumns := ValuePlace.columns.complete_rawText v (columnRules "" queries ++ " \x7d")
      isRawText_style (by simp [hrules ""]) rfl
    have hmedia := ValuePlace.media.complete_rawText v (columnRules ".moz-text-html " queries)
      isRawText_style (hrules _ (by decide)) rfl
    obtain ⟨ps, howa⟩ : ∃ ps, Complete
        (if forceOwa then styleTag (columnRules "[owa] " queries) else "").toList ps := by
      split
      · exact ⟨_, complete_styleTag (hrules _ (by decide))⟩
      · exact ⟨[], .nil⟩
    have hall := hmedia.append howa
    rw [List.append_assoc, ← String.toList_append] at hall
    exact (settled_pair hcolumns).append (settled_pair hall)

theorem settled_sheetParts (v : Values) (notes : Body.Notes) : Settled v (sheetParts notes) := by
  unfold sheetParts
  split
  · exact .nil v
  · have hsheets := (ValuePlace.sheets notes).complete_rawText v "" isRawText_style
      List.not_mem_nil rfl
    rw [String.empty_append] at hsheets
    exact settled_pair hsheets

/-- The texts of an author keep to themselves, if there are no brackets in style sheets and what is
put into the head ends between two pieces. -/
theorem keptApart_authorParts (o : Options) {head : HeadState} {notes : Body.Notes}
    (content : String) (v : Values) (hqueries : PlainQueries notes.mediaQueries)
    (hstyles : '<' ∉ (String.join head.styles).toList)
    {ps : List Piece} (hraw : Complete (String.join head.raw).toList ps) :
    KeptApart v [] (authorParts o head notes content) := by
  have hsettled := (settled_mediaParts v o.forceOwaDesktop hqueries).append
    (settled_sheetParts v notes)
  obtain ⟨hapart, qs, hdone⟩ := hsettled [] [] .nil
  obtain ⟨ps', hsheet⟩ : ∃ ps,
      Complete (styleTagUnlessBlank (String.join head.styles)).toList ps := by
    unfold styleTagUnlessBlank
    split
    · exact ⟨[], .nil⟩
    · exact ⟨_, complete_styleTag hstyles⟩
  -- The head is complete up to its end, and then the body's own tag is.
  have hending : Complete "</head>".toList [.endTag "head"] := @Complete.endTag "head" (by decide)
  have hhead := hdone.append (hsheet.append (hraw.append hending))
  rw [← String.toList_append, ← String.toList_append, ← String.append_assoc] at hhead
  have hbody := (plain_quoted ValuePlace.body.isTagName_name (ValuePlace.body.plainPairs v)
    (ValuePlace.body.bracket_notMem v)).complete (show isRawText "body" = false by decide) rfl
  rw [authorParts, ← List.append_assoc]
  refine keptApart_append.mpr ⟨hapart, ?_⟩
  exact ⟨hhead.leavesOpen_eq, (hhead.append hbody).leavesOpen_eq, trivial⟩

/-! ### Values and structure -/

/-- Documents that differ in their values are of one structure, if the texts of an author leave no
markup open where a value has its place. In any case the element around the document is the first
one, and its language and direction are read back from it. -/
theorem alike_documentWith (o : Options) (head : HeadState) (notes : Body.Notes) (content : String)
    (v v' : Values) :
    (KeptApart v [] (authorParts o head notes content) →
      Alike (SameButValues v v') (Document.read (documentWith o head notes content v)).children
        (Document.read (documentWith o head notes content v')).children) ∧
      ∀ w, ∃ lang dir,
        (starts (Document.read (documentWith o head notes content w)).children).head? =
          some ("html", quoted (htmlPairs lang dir)) ∧ unescape lang = w.lang ∧
            unescape dir = w.dir := by
  obtain ⟨fixed, hread⟩ := exists_readPieces_documentWith o head notes content
  constructor
  · intro hapart
    -- The readings go through the front, the fixed part and the texts of the author in step.
    refine alike_ofPieces ?_
    rw [hread v, hread v']
    have hauthor := alike_printParts SameButValues.same
      (takes_authorParts o head notes content v v') hapart
    have hfixed := alike_pieces_self (@SameButValues.same v v') fixed
    exact List.rel_append (alike_frontPieces v v') (List.rel_append hfixed hauthor)
  · intro w
    refine ⟨escapeAttribute w.lang, escapeAttribute w.dir, ?_, unescape_escapeAttribute w.lang,
      unescape_escapeAttribute w.dir⟩
    rw [Document.read, starts_ofPieces, hread w]
    rfl

/-- Values as an author would have them. -/
def plainValues : Values :=
  { title := "News", preview := "What is new", lang := "en", dir := "ltr", breakpoint := "480px",
    background := "#ffffff", preview_ne := by decide }

/-- Values that would end the tags and texts that they stand in. -/
def hostileValues : Values :=
  { title := "</title><script>", preview := "</div><!--", lang := "\" onload=\"", dir := "\"><b>",
    breakpoint := "0)\"></style><b>", background := "red\" id=\"<", preview_ne := by decide }

/-- A style sheet and a tag in the head. -/
def ordinaryHead : HeadState :=
  { fonts := ∅, lang := "", dir := "", styles := ["p \x7b margin:0 \x7d"], raw := ["<link>"] }

/-- A column, and an image with its sheet. -/
def ordinaryNotes : Body.Notes :=
  { columns := [("half", "50%")], sheets := [("mj-image", .image)] }

theorem hostileValues_keep_structure :
    KeptApart plainValues [] (authorParts {} ordinaryHead ordinaryNotes "<p>") ∧
      Alike (SameButValues plainValues hostileValues)
        (Document.read (documentWith {} ordinaryHead ordinaryNotes "<p>" plainValues)).children
        (Document.read (documentWith {} ordinaryHead ordinaryNotes "<p>" hostileValues)).children ∧
      ∃ lang dir,
        (starts (Document.read
          (documentWith {} ordinaryHead ordinaryNotes "<p>" hostileValues)).children).head? =
            some ("html", quoted (htmlPairs lang dir)) ∧
          unescape lang = "\" onload=\"" ∧ unescape dir = "\"><b>" := by
  have hapart : KeptApart plainValues [] (authorParts {} ordinaryHead ordinaryNotes "<p>") :=
    keptApart_authorParts _ _ _ (by decide) (by decide)
      (@complete_startText "link" [] (by decide) (by decide) .nil)
  have hstructure := alike_documentWith {} ordinaryHead ordinaryNotes "<p>" plainValues hostileValues
  exact ⟨hapart, hstructure.1 hapart, hstructure.2 hostileValues⟩

/-! ### A tag that is left open -/

/-- The names of attributes in alike documents are the same. -/
theorem names_of_alike {v v' : Values} {xs ys : List Node} (h : Alike (SameButValues v v') xs ys) :
    (starts xs).map (fun s => s.2.map Attribute.name) =
      (starts ys).map (fun s => s.2.map Attribute.name) := by
  have hnames := h.starts.imp fun _ _ hs => hs.2.names.symm
  rwa [← List.forall₂_map_right_iff, ← List.forall₂_map_left_iff, List.forall₂_eq_eq_eq] at hnames

/-- A head that ends in the middle of a tag. -/
def openHead : HeadState :=
  { fonts := ∅, lang := "", dir := "", raw := ["<a b=\""] }

/-- Values with a background. -/
def valuesOn (background : String) : Values :=
  { plainValues with background }

theorem readPieces_anchor {tail rest : List Char} {attributes : List Attribute}
    (hread : readAttributes tail = (attributes, false, rest)) :
    readPieces ("<a ".toList ++ tail) = .startTag "a" attributes false :: readPieces rest := by
  have hblank := (readAttributes_blank tail).trans hread
  have hpiece := @readPiece_name "a" (by decide) _ (by rintro c ⟨⟩; decide) _ _ _ hblank
  rw [if_neg (by decide)] at hpiece
  show readPieces ('<' :: ("a".toList ++ ' ' :: tail)) = _
  rw [readPieces, hpiece]

/-- The style of the body is read as attributes of the tag that was left open. -/
theorem readPieces_openHead {background text : String} {attributes : List Attribute}
    (htext : "<a b=\"" ++ "</head>" ++ "<body style=\"" ++
      escapeAttribute (bodyStyle (some background)) ++ "\">" = "<a " ++ text)
    (hread : ∀ rest, readAttributes (text.toList ++ rest) = (attributes, false, rest)) :
    readPieces (printParts (valuesOn background) (authorParts {} openHead {} "")) =
      .startTag "a" attributes false ::
        readPieces (previewTag plainValues.preview ++ "</body></html>").toList := by
  have hhead : styleTagUnlessBlank (String.join openHead.styles) ++ String.join openHead.raw =
      "<a b=\"" := by decide
  have hparts : authorParts {} openHead {} "" = bodyParts openHead "" := rfl
  have hvalues : (valuesOn background).background = background := rfl
  have hpreview : (valuesOn background).preview = plainValues.preview := rfl
  rw [hparts, printParts_bodyParts, hhead, hvalues, hpreview, htext, String.append_empty,
    String.append_assoc, String.append_assoc, String.toList_append, String.toList_append]
  exact readPieces_anchor (hread _)

/-- A blank in the background begins a new attribute of the tag that was left open. -/
theorem openHead_changes_structure :
    ¬ Alike (SameButValues (valuesOn "red") (valuesOn "red x"))
      (Document.read (documentWith {} openHead {} "" (valuesOn "red"))).children
      (Document.read (documentWith {} openHead {} "" (valuesOn "red x"))).children := by
  intro halike
  have hnames := names_of_alike halike
  obtain ⟨fixed, hread⟩ := exists_readPieces_documentWith {} openHead {} ""
  have hfront : frontPieces (valuesOn "red x") = frontPieces (valuesOn "red") := rfl
  have hred := @readPieces_openHead "red"
    "b=\"</head><body style=\"word-spacing:normal;background-color:red;\">"
    [⟨"b", some "</head><body style="⟩, ⟨"word-spacing:normal;background-color:red;\"", none⟩]
    (by decide) fun rest => by
      simp [readAttributes, readValue?, readValue, isAttributeNameChar, isAsciiBlank, List.takeWhile,
        List.dropWhile]
  have hblank := @readPieces_openHead "red x"
    "b=\"</head><body style=\"word-spacing:normal;background-color:red x;\">"
    [⟨"b", some "</head><body style="⟩, ⟨"word-spacing:normal;background-color:red", none⟩,
      ⟨"x;\"", none⟩]
    (by decide) fun rest => by
      simp [readAttributes, readValue?, readValue, isAttributeNameChar, isAsciiBlank, List.takeWhile,
        List.dropWhile]
  rw [Document.read, Document.read, starts_ofPieces, starts_ofPieces, hread, hread, hred, hblank,
    hfront] at hnames
  simp only [List.filterMap_append, List.map_append, List.append_cancel_left_eq, List.filterMap_cons,
    Piece.start?, List.map_cons, List.cons.injEq] at hnames
  simp at hnames

end EmailMarkup.Page
