import EmailMarkup.Page.Skeleton
import EmailMarkup.Proofs.Html.Entity
import EmailMarkup.Proofs.Html.Template

/-!
# The head of a document up to the first text of an author

Tags that the document is made of are read back as they are written, whatever follows them
(`complete_startText`, `complete_rawElement`, `complete_comment`). From these the head is put
together up to the style sheets: its fixed part (`exists_complete_fixedHead`) and the tags for the
fonts, whose addresses are escaped (`exists_complete_fontTags`).
-/

set_option autoImplicit false

namespace EmailMarkup.Page

open EmailMarkup.Text EmailMarkup.Html

/-! ### Tags with quoted values -/

/-- Attributes from their names and values. -/
def quoted (pairs : List (String × String)) : List Attribute :=
  pairs.map fun (name, value) => { name, value := some value }

/-- A name that can stand in a tag, and has no bracket in it. -/
def isPlainKey (key : String) : Bool :=
  !key.isEmpty && key.toList.all fun c => isAttributeNameChar c && c != '<'

/-- Names that can stand in a tag, with values that can stand in double quotes and have no bracket
in them. -/
def PlainPairs (pairs : List (String × String)) : Prop :=
  ∀ pair ∈ pairs, isPlainKey pair.1 = true ∧ '"' ∉ pair.2.toList ∧ '<' ∉ pair.2.toList

theorem PlainPairs.nil : PlainPairs [] :=
  nofun

/-- One more pair. A value without quotes and brackets ends where it is meant to. -/
theorem PlainPairs.cons {key value : String} {pairs : List (String × String)}
    (hkey : isPlainKey key = true) (hvalue : '"' ∉ value.toList ∧ '<' ∉ value.toList)
    (hpairs : PlainPairs pairs) : PlainPairs ((key, value) :: pairs) :=
  List.forall_mem_cons.mpr ⟨⟨hkey, hvalue⟩, hpairs⟩

/-- How a start tag is written. -/
def startText (name : String) (pairs : List (String × String)) : String :=
  "<" ++ name ++ String.join (pairs.map fun (key, value) => " " ++ key ++ "=\"" ++ value ++ "\"") ++
    ">"

theorem print_quoted {pair : String × String} (h : '"' ∉ pair.2.toList) :
    Attribute.print ⟨pair.1, some pair.2⟩ =
      (" " ++ pair.1 ++ "=\"" ++ pair.2 ++ "\"").toList := by
  rw [Attribute.print_of_quote_notMem pair.1 h]
  simp

/-- A start tag of plain pairs is plain, with any inner text that has no bracket. -/
theorem plain_quoted {name : String} {pairs : List (String × String)} {inner : List Char}
    (hname : isTagName name = true) (hpairs : PlainPairs pairs) (hinner : '<' ∉ inner) :
    Opening.Plain ⟨name, quoted pairs, inner⟩ := by
  refine ⟨hname, ?_, hinner⟩
  intro a ha
  obtain ⟨⟨key, value⟩, hpair, rfl⟩ := List.mem_map.mp ha
  obtain ⟨hkey, hquote, hbracket⟩ := hpairs _ hpair
  simp only [isPlainKey, Bool.and_eq_true, Bool.not_eq_true', List.all_eq_true, bne_iff_ne] at hkey
  obtain ⟨hne, hchars⟩ := hkey
  refine ⟨⟨?_, fun c hc => (hchars c hc).1, ?_⟩, ?_⟩
  · intro (hnil : key.toList = [])
    rw [String.toList_eq_nil_iff.mp hnil] at hne
    cases hne
  · rintro v ⟨⟩
    exact .inl hquote
  · rw [Attribute.print_of_quote_notMem key hquote]
    have hmem : '<' ∉ key.toList := fun hc => (hchars '<' hc).2 rfl
    simp [hmem, hbracket]

theorem print_opening {name : String} {pairs : List (String × String)} {inner : List Char}
    (hpairs : PlainPairs pairs) :
    Opening.print ⟨name, quoted pairs, inner⟩ = (startText name pairs).toList ++ inner := by
  have hattrs : (quoted pairs).flatMap Attribute.print =
      (String.join (pairs.map fun (key, value) => " " ++ key ++ "=\"" ++ value ++ "\"")).toList := by
    rw [quoted, String.toList_join, List.flatMap_map, List.flatMap_map]
    exact List.flatMap_congr fun pair hpair => print_quoted (hpairs pair hpair).2.1
  unfold Opening.print printTail startText
  rw [hattrs]
  simp

/-- A tag that nothing but its start tag belongs to, as far as the reader is concerned. -/
theorem complete_startText {name : String} {pairs : List (String × String)}
    (hname : isTagName name = true) (hraw : isRawText name = false) (hpairs : PlainPairs pairs) :
    Complete (startText name pairs).toList [.startTag name (quoted pairs) false] := by
  have hcomplete := (plain_quoted hname hpairs List.not_mem_nil).complete hraw rfl
  rwa [print_opening hpairs, List.append_nil] at hcomplete

/-- An element with raw text is complete, if no bracket is in its text. -/
theorem complete_rawElement {name start content ending : String} {pairs : List (String × String)}
    (hstart : start = startText name pairs) (hending : ending = "</" ++ name ++ ">")
    (hname : isTagName name = true) (hraw : isRawText name = true) (hpairs : PlainPairs pairs)
    (hcontent : '<' ∉ content.toList) :
    Complete (start ++ content ++ ending).toList [.rawText name (quoted pairs) content true] := by
  have hcomplete := (plain_quoted hname hpairs hcontent).complete_rawText hraw
  rw [print_opening hpairs, String.ofList_toList, ← hstart] at hcomplete
  subst hending
  simpa using hcomplete

theorem complete_comment {text content : String} (htext : text = "<!--" ++ content ++ "-->")
    (h : occursIn "-->".toList content.toList = false) :
    Complete text.toList [.comment content] := by
  have hopen : ¬ "-->".toList <:+: content.toList := by
    rw [← occursIn_iff, h]
    exact Bool.false_ne_true
  subst htext
  simpa using Complete.comment hopen

/-- A conditional block that only some programs look into is a comment to the others. -/
theorem complete_block {opening closing condition ending content : String}
    (hopening : opening = "<!--" ++ condition) (hclosing : closing = ending ++ "-->")
    (h : occursIn "-->".toList (condition ++ content ++ ending).toList = false) :
    Complete (opening ++ content ++ closing).toList [.comment (condition ++ content ++ ending)] := by
  refine complete_comment ?_ h
  rw [hopening, hclosing]
  simp only [String.append_assoc]

/-! ### The head -/

/-- The pairs of a style sheet's tag. -/
def cssPairs : List (String × String) :=
  [("type", "text/css")]

theorem plainPairs_css : PlainPairs cssPairs :=
  .cons (by decide) (by decide) .nil

/-- A style element without a bracket in its sheet is complete. -/
theorem complete_styleTag {css : String} (h : '<' ∉ css.toList) :
    Complete (styleTag css).toList [.rawText "style" (quoted cssPairs) css true] :=
  complete_rawElement rfl rfl (by decide) (by decide) plainPairs_css h

/-- The fixed part of the head. -/
def fixedHead : String :=
  Outlook.negatedOfficeBlock "<meta http-equiv=\"X-UA-Compatible\" content=\"IE=edge\">" ++
    "<meta http-equiv=\"Content-Type\" content=\"text/html; charset=UTF-8\">" ++
    "<meta name=\"viewport\" content=\"width=device-width, initial-scale=1\">" ++
    resetStyle ++ Outlook.officeBlock officeSettings ++ groupFix

/-- A note on the document. -/
def metaTag (name value content : String) : Piece :=
  .startTag "meta" (quoted [(name, value), ("content", content)]) false

/-- The pieces of the fixed part. What the rules and the settings say is of no matter here. -/
def fixedPieces (rules settings fix : String) : List Piece :=
  [.comment "[if !mso]><!", metaTag "http-equiv" "X-UA-Compatible" "IE=edge", .comment "<![endif]",
    metaTag "http-equiv" "Content-Type" "text/html; charset=UTF-8",
    metaTag "name" "viewport" "width=device-width, initial-scale=1",
    .rawText "style" (quoted cssPairs) rules true, .comment settings, .comment fix]

theorem complete_meta {text name value content : String}
    (htext : text = startText "meta" [(name, value), ("content", content)])
    (hname : isPlainKey name = true) (hvalue : '"' ∉ value.toList ∧ '<' ∉ value.toList)
    (hcontent : '"' ∉ content.toList ∧ '<' ∉ content.toList) :
    Complete text.toList [metaTag name value content] := by
  rw [htext]
  exact complete_startText (by decide) (by decide)
    (.cons hname hvalue (.cons (by decide) hcontent .nil))

/-- The part of the head that is the same for all documents is complete. -/
theorem exists_complete_fixedHead :
    ∃ rules settings fix, Complete fixedHead.toList (fixedPieces rules settings fix) := by
  obtain ⟨rules, hrules, hplain⟩ : ∃ rules, resetStyle = styleTag rules ∧ '<' ∉ rules.toList := by
    refine ⟨_, rfl, ?_⟩
    simp only [String.toList_append, List.mem_append, not_or]
    decide +kernel
  obtain ⟨settings, hsettings⟩ : ∃ settings,
      Complete (Outlook.officeBlock officeSettings).toList [.comment settings] :=
    ⟨"[if mso]>" ++ officeSettings ++ "<![endif]", complete_block rfl rfl (by decide +kernel)⟩
  obtain ⟨fix, hfix⟩ : ∃ fix, Complete groupFix.toList [.comment fix] :=
    ⟨"[if lte mso 11]>" ++ styleTag ".mj-outlook-group-fix \x7b width:100% !important; \x7d" ++
      "<![endif]", complete_block rfl rfl (by decide +kernel)⟩
  have hopening := @complete_comment Outlook.negatedOfficeOpening "[if !mso]><!" rfl (by decide)
  have hclosing := @complete_comment Outlook.negatedClosing "<![endif]" rfl (by decide)
  have hedge : Complete "<meta http-equiv=\"X-UA-Compatible\" content=\"IE=edge\">".toList
      [metaTag "http-equiv" "X-UA-Compatible" "IE=edge"] :=
    complete_meta rfl (by decide) (by decide) (by decide)
  have htype : Complete
      "<meta http-equiv=\"Content-Type\" content=\"text/html; charset=UTF-8\">".toList
      [metaTag "http-equiv" "Content-Type" "text/html; charset=UTF-8"] :=
    complete_meta rfl (by decide) (by decide) (by decide)
  have hview : Complete
      "<meta name=\"viewport\" content=\"width=device-width, initial-scale=1\">".toList
      [metaTag "name" "viewport" "width=device-width, initial-scale=1"] :=
    complete_meta rfl (by decide) (by decide) (by decide)
  refine ⟨rules, settings, fix, ?_⟩
  unfold fixedHead Outlook.negatedOfficeBlock
  simp only [String.toList_append, List.append_assoc, hrules]
  exact hopening.append (hedge.append (hclosing.append (htype.append (hview.append
    ((complete_styleTag hplain).append (hsettings.append hfix))))))

/-! ### Fonts -/

/-- No escaped value has a quote or a bracket in it. -/
theorem notMem_escaped (s : String) :
    '"' ∉ (escapeAttribute s).toList ∧ '<' ∉ (escapeAttribute s).toList :=
  ⟨notMem_escapeAttribute (by decide) s, notMem_escapeAttribute (by decide) s⟩

/-- An address in a style sheet has no bracket. -/
theorem bracket_notMem_cssUrl (url : String) : '<' ∉ (cssUrl url).toList := by
  rw [cssUrl, replaceEach, String.toList_ofList, List.mem_flatMap]
  rintro ⟨c, -, hc⟩
  split at hc
  · exact absurd hc (by decide)
  · exact absurd hc (by decide)
  · exact absurd hc (by decide)
  · exact absurd hc (by decide)
  · exact absurd hc (by decide)
  · exact absurd hc (by decide)
  · rename_i hlt _ _ _ _ _
    exact hlt (List.mem_singleton.mp hc).symm

theorem exists_complete_flatMap {α : Type} {f : α → List Char} {xs : List α}
    (h : ∀ x ∈ xs, ∃ ps, Complete (f x) ps) : ∃ ps, Complete (xs.flatMap f) ps := by
  induction xs with
  | nil => exact ⟨[], .nil⟩
  | cons x xs ih =>
    obtain ⟨hx, hxs⟩ := List.forall_mem_cons.mp h
    obtain ⟨ps, hps⟩ := hx
    obtain ⟨qs, hqs⟩ := ih hxs
    exact ⟨ps ++ qs, hps.append hqs⟩

theorem complete_link (url : String) :
    Complete ("<link href=\"" ++ escapeAttribute url ++
        "\" rel=\"stylesheet\" type=\"text/css\">").toList
      [.startTag "link" (quoted [("href", escapeAttribute url), ("rel", "stylesheet"),
        ("type", "text/css")]) false] := by
  have hcomplete := @complete_startText "link"
    [("href", escapeAttribute url), ("rel", "stylesheet"), ("type", "text/css")] (by decide)
    (by decide) (.cons (by decide) (notMem_escaped url)
      (.cons (by decide) (by decide) (.cons (by decide) (by decide) .nil)))
  simpa [startText, String.toList_join] using hcomplete

theorem exists_complete_fontTags (content : String) (fonts : OrderedMap String) :
    ∃ ps, Complete (fontTags content fonts).toList ps := by
  unfold fontTags
  simp only
  split
  · exact ⟨[], .nil⟩
  · obtain ⟨ps, hlinks⟩ : ∃ ps, Complete (String.join ((usedFonts content fonts).map fun url =>
        "<link href=\"" ++ escapeAttribute url ++
          "\" rel=\"stylesheet\" type=\"text/css\">")).toList ps := by
      rw [String.toList_join, List.flatMap_map]
      exact exists_complete_flatMap fun url _ => ⟨_, complete_link url⟩
    have himports : '<' ∉ (String.join ((usedFonts content fonts).map fun url =>
        "@import url(" ++ cssUrl url ++ ");")).toList := by
      rw [String.toList_join, List.flatMap_map, List.mem_flatMap]
      rintro ⟨url, -, hmem⟩
      simp [bracket_notMem_cssUrl] at hmem
    have hopening := @complete_comment Outlook.negatedOfficeOpening "[if !mso]><!" rfl (by decide)
    have hclosing := @complete_comment Outlook.negatedClosing "<![endif]" rfl (by decide)
    have hall := hopening.append (hlinks.append ((complete_styleTag himports).append hclosing))
    unfold styleTag at hall
    unfold Outlook.negatedOfficeBlock
    simp only [String.toList_append, List.append_assoc] at hall ⊢
    exact ⟨_, hall⟩

end EmailMarkup.Page
