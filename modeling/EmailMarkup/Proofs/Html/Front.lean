import EmailMarkup.Proofs.Html.Shape

/-!
# The piece at the front of a text

`Begins` lists what a text can begin with: one case for each kind of piece, and for those that can
be left unfinished one for the end of the text. Each case says what the text is made of, where the
piece ends, and what cannot be in it. `begins_readPiece` says that the reader always finds one of
these cases, so that what follows about reading is a case analysis of `Begins` and does not look at
the reader again.
-/

set_option autoImplicit false

namespace EmailMarkup.Html

open EmailMarkup.Text

variable {c : Char} {cs : List Char}

/-- A text begins with a piece, and the rest follows it. -/
inductive Begins : List Char → Piece → List Char → Prop
  | text {c : Char} {cs rest : List Char} (hplain : '<' ∉ cs)
      (hopens : c = '<' → opensMarkup (cs ++ rest) = false)
      (hrest : ∀ d ∈ rest.head?, d = '<') :
      Begins (c :: (cs ++ rest)) (.text (String.ofList (c :: cs))) rest
  | comment {content : String} {rest : List Char} (hopen : ¬ "-->".toList <:+: content.toList) :
      Begins ("<!--".toList ++ (content.toList ++ ("-->".toList ++ rest))) (.comment content) rest
  | openComment {content : String} (hopen : ¬ "-->".toList <:+: content.toList) :
      Begins ("<!--".toList ++ content.toList) (.comment content) []
  | declaration {content : String} {rest : List Char} (hform : IsDeclaration content) :
      Begins (content.toList ++ rest) (.declaration content) rest
  | openDeclaration {content : String} (hform : IsOpenDeclaration content) :
      Begins content.toList (.declaration content) []
  | endTag {c : Char} {body rest : List Char} (hc : c.isAlpha = true) (hbody : '>' ∉ c :: body) :
      Begins ('<' :: '/' :: (c :: body ++ '>' :: rest))
        (.endTag (String.ofList (trimChars (c :: body)))) rest
  | openEndTag {c : Char} {body : List Char} (hc : c.isAlpha = true) (hbody : '>' ∉ c :: body) :
      Begins ('<' :: '/' :: (c :: body)) (.endTag (String.ofList (trimChars (c :: body)))) []
  | startTag {name : String} {attributes : List Attribute} {selfClosing : Bool}
      {tail rest : List Char} (hname : isElementName name = true)
      (hread : readAttributes tail = (attributes, selfClosing, rest))
      (hraw : isRawText name = false ∨ selfClosing = true)
      (hstop : ∀ c ∈ tail.head?, isTagNameChar c = false) :
      Begins ('<' :: (name.toList ++ tail)) (.startTag name attributes selfClosing) rest
  | rawText {name : String} {attributes : List Attribute} {content : String}
      {tail close : List Char} (hname : isElementName name = true) (hraw : isRawText name = true)
      (hread : readAttributes tail = (attributes, false, content.toList ++ '<' :: close))
      (hcontent : ¬ endMark name <:+: lowerChars content.toList)
      (hmark : beginsWithFolded (endMark name) ('<' :: close) = true)
      (hstop : ∀ c ∈ tail.head?, isTagNameChar c = false) :
      Begins ('<' :: (name.toList ++ tail)) (.rawText name attributes content true)
        (upToBracket ('<' :: close)).2
  | openRawText {name : String} {attributes : List Attribute} {content : String}
      {tail : List Char} (hname : isElementName name = true) (hraw : isRawText name = true)
      (hread : readAttributes tail = (attributes, false, content.toList))
      (hcontent : ¬ endMark name <:+: lowerChars content.toList)
      (hstop : ∀ c ∈ tail.head?, isTagNameChar c = false) :
      Begins ('<' :: (name.toList ++ tail)) (.rawText name attributes content false) []

/-! ### The reader finds them -/

/-- The attributes of a tag that was read have names. -/
theorem hasName_of_readAttributes {attributes : List Attribute} {selfClosing : Bool}
    {rest : List Char} (h : readAttributes cs = (attributes, selfClosing, rest)) :
    ∀ a ∈ attributes, a.HasName := by
  have hall : ∀ a ∈ (readAttributes cs).1, a.HasName := by
    clear h
    fun_induction readAttributes cs with
    | case1 | case2 | case3 => simp
    | case4 c rest _ _ hc name value _ more ih =>
      refine List.forall_mem_cons.mpr ⟨?_, ih⟩
      have hname : name.toList = c :: rest.takeWhile isAttributeNameChar := String.toList_ofList
      refine ⟨by simp [hname], ?_⟩
      rw [hname, List.forall_mem_cons]
      exact ⟨hc, fun d hd => List.mem_takeWhile_imp hd⟩
    | case5 c rest _ _ _ ih => exact ih
  rwa [h] at hall

/-- What stands before a mark does not hold it, and what is left is nothing or begins with it. -/
theorem spanFolded_cases {m : Char} {mark : List Char} (cs : List Char) :
    ¬ m :: mark <:+: lowerChars (spanFolded (m :: mark) cs).1 ∧
      ((spanFolded (m :: mark) cs).2 = [] ∨
        beginsWithFolded (m :: mark) (spanFolded (m :: mark) cs).2 = true) := by
  induction cs with
  | nil => simp [spanFolded, lowerChars]
  | cons c cs ih =>
    rw [spanFolded]
    split
    · rename_i hhere
      exact ⟨by simp [lowerChars], .inr hhere⟩
    · rename_i hnot
      refine ⟨?_, ih.2⟩
      have hfolded : lowerChars (c :: (spanFolded (m :: mark) cs).1) =
          c.toLower :: lowerChars (spanFolded (m :: mark) cs).1 := rfl
      rw [hfolded, List.infix_cons_iff, not_or]
      refine ⟨?_, ih.1⟩
      -- An occurrence at the front would be one in the whole text.
      intro hfront
      refine hnot (beginsWithFolded_iff.mpr (hfront.trans ?_))
      rw [← hfolded]
      have happ := congrArg lowerChars (spanFolded_append (m :: mark) cs)
      exact ⟨lowerChars (spanFolded (m :: mark) cs).2, by simpa [lowerChars] using happ⟩

/-- Reading up to a bracket finds one, or takes all of a text that has none. -/
theorem upToBracket_cases (cs : List Char) :
    '>' ∉ (upToBracket cs).1 ∧
      (cs = (upToBracket cs).1 ++ '>' :: (upToBracket cs).2 ∨
        cs = (upToBracket cs).1 ∧ (upToBracket cs).2 = []) := by
  refine ⟨fun hmem => by simpa using List.mem_takeWhile_imp hmem, ?_⟩
  unfold upToBracket
  cases hdrop : cs.dropWhile (· != '>') with
  | nil =>
    exact .inr ⟨(List.takeWhile_eq_self_iff.mpr (List.dropWhile_eq_nil_iff.mp hdrop)).symm, rfl⟩
  | cons c rest => exact .inl (eq_append_of_dropWhile_bne hdrop).1

theorem begins_readText (h : c = '<' → opensMarkup cs = false) :
    Begins (c :: cs) (readText c cs).1 (readText c cs).2 := by
  have happ := List.takeWhile_append_dropWhile (p := (· != '<')) (l := cs)
  have hbegins := @Begins.text c (cs.takeWhile (· != '<')) (cs.dropWhile (· != '<'))
    (fun hmem => by simpa using List.mem_takeWhile_imp hmem) (by rwa [happ])
    (fun d hd => by simpa using of_mem_head?_dropWhile hd)
  rwa [happ] at hbegins

theorem begins_readComment (cs : List Char) :
    Begins ('<' :: '!' :: '-' :: '-' :: cs) (readMarkup ('!' :: '-' :: '-' :: cs)).1
      (readMarkup ('!' :: '-' :: '-' :: cs)).2 := by
  rw [readMarkup, upToMark]
  cases hsplit : splitAtMark? "-->".toList cs with
  | none =>
    have hopen : ¬ "-->".toList <:+: cs := by
      rw [← occursIn_iff, occursIn, hsplit]
      decide
    obtain ⟨content, rfl⟩ : ∃ content : String, cs = content.toList :=
      ⟨String.ofList cs, String.toList_ofList.symm⟩
    rw [Option.getD_none, String.ofList_toList]
    exact .openComment hopen
  | some parts =>
    obtain ⟨before, rest⟩ := parts
    obtain ⟨rfl, hfirst⟩ := splitAtMark?_eq_some hsplit
    have hopen : ¬ "-->".toList <:+: before := by
      rintro ⟨pre, post, rfl⟩
      exact hfirst pre ("-->".toList ++ post) (List.append_assoc ..) (by simp)
        ⟨post ++ ("-->".toList ++ rest), by simp⟩
    obtain ⟨content, rfl⟩ : ∃ content : String, before = content.toList :=
      ⟨String.ofList before, String.toList_ofList.symm⟩
    rw [Option.getD_some, String.ofList_toList]
    exact .comment hopen

theorem begins_readDeclaration (hkind : c = '?' ∨ c = '!' ∧ ¬ ['-', '-'] <+: cs) :
    Begins ('<' :: c :: cs) (readMarkup (c :: cs)).1 (readMarkup (c :: cs)).2 := by
  show Begins ('<' :: c :: cs) (readPiece '<' (c :: cs)).1 (readPiece '<' (c :: cs)).2
  obtain ⟨hbody, hsplit | ⟨hsplit, -⟩⟩ := upToBracket_cases cs
  · generalize (upToBracket cs).1 = body, (upToBracket cs).2 = rest at hbody hsplit
    subst hsplit
    have hform : IsDeclaration (String.ofList ('<' :: c :: (body ++ ['>']))) :=
      ⟨c, body, String.toList_ofList, hbody,
        hkind.imp_right (And.imp_right fun hnot hpre => hnot (hpre.trans (List.prefix_append ..)))⟩
    obtain ⟨inner, hinner, hread⟩ := readPiece_declaration hform rest
    rw [String.toList_ofList, List.cons.injEq] at hinner
    have hsource : inner ++ rest = c :: (body ++ '>' :: rest) := by simp [← hinner.2]
    rw [hsource] at hread
    have hbegins := @Begins.declaration _ rest hform
    rw [hread]
    simpa using hbegins
  · rw [← hsplit] at hbody
    have hform : IsOpenDeclaration (String.ofList ('<' :: c :: cs)) :=
      ⟨c, cs, String.toList_ofList, hbody, hkind⟩
    obtain ⟨inner, hinner, hread⟩ := readPiece_openDeclaration hform
    rw [String.toList_ofList, List.cons.injEq] at hinner
    rw [← hinner.2] at hread
    have hbegins := Begins.openDeclaration hform
    rw [String.toList_ofList] at hbegins
    rwa [hread]

theorem begins_readEndTag (hc : c.isAlpha = true) (cs : List Char) :
    Begins ('<' :: '/' :: c :: cs) (readMarkup ('/' :: c :: cs)).1
      (readMarkup ('/' :: c :: cs)).2 := by
  have hne : c ≠ '>' := by
    rintro rfl
    exact absurd hc (by decide)
  have hup : upToBracket (c :: cs) = (c :: (upToBracket cs).1, (upToBracket cs).2) := by
    simp [upToBracket, hne]
  have hmore : ∀ {body : List Char}, '>' ∉ body → '>' ∉ c :: body := fun hbody =>
    mt List.mem_cons.mp (not_or.mpr ⟨hne.symm, hbody⟩)
  rw [readMarkup, if_pos hc, hup]
  obtain ⟨hbody, hsplit | ⟨hsplit, hrest⟩⟩ := upToBracket_cases cs
  · generalize (upToBracket cs).1 = body, (upToBracket cs).2 = rest at hbody hsplit ⊢
    subst hsplit
    exact .endTag hc (hmore hbody)
  · rw [← hsplit, hrest]
    rw [← hsplit] at hbody
    exact .openEndTag hc (hmore hbody)

theorem begins_rawText {name : String} {attributes : List Attribute} {tail after : List Char}
    (hname : isElementName name = true) (hraw : isRawText name = true)
    (hread : readAttributes tail = (attributes, false, after))
    (hstop : ∀ c ∈ tail.head?, isTagNameChar c = false) :
    Begins ('<' :: (name.toList ++ tail))
      (.rawText name attributes (String.ofList (spanFolded (endMark name) after).1)
        (!(spanFolded (endMark name) after).2.isEmpty))
      (upToBracket (spanFolded (endMark name) after).2).2 := by
  have happ := spanFolded_append (endMark name) after
  obtain ⟨hcontent, hend⟩ := @spanFolded_cases '<' ('/' :: lowerChars name.toList) after
  rw [show '<' :: '/' :: lowerChars name.toList = endMark name from rfl] at hcontent hend
  generalize (spanFolded (endMark name) after).1 = before at happ hcontent ⊢
  generalize (spanFolded (endMark name) after).2 = close at happ hend ⊢
  obtain ⟨content, rfl⟩ : ∃ content : String, before = content.toList :=
    ⟨String.ofList before, String.toList_ofList.symm⟩
  subst happ
  rw [String.ofList_toList]
  cases close with
  | nil =>
    rw [List.append_nil] at hread
    exact .openRawText hname hraw hread hcontent hstop
  | cons d close =>
    have hmark := hend.resolve_left (List.cons_ne_nil d close)
    -- The mark begins with a bracket, and nothing else folds to one.
    have hd : d = '<' := by
      rw [beginsWithFolded_iff] at hmark
      exact eq_bracket_of_toLower (List.cons_prefix_cons.mp hmark).1.symm
    subst hd
    exact .rawText hname hraw hread hcontent hmark hstop

theorem begins_readStartTag (hc : c.isAlpha = true) (cs : List Char) :
    Begins ('<' :: c :: cs) (readMarkup (c :: cs)).1 (readMarkup (c :: cs)).2 := by
  show Begins ('<' :: c :: cs) (readPiece '<' (c :: cs)).1 (readPiece '<' (c :: cs)).2
  have happ := List.takeWhile_append_dropWhile (p := isTagNameChar) (l := c :: cs)
  have hname : isElementName (String.ofList ((c :: cs).takeWhile isTagNameChar)) = true := by
    have hc' : isTagNameChar c = true :=
      isTagNameChar_of_isNameChar (by simp [isNameChar, Char.isAlphanum, hc])
    rw [isElementName, String.toList_ofList, List.takeWhile_cons_of_pos hc']
    simp only [hc, Bool.true_and, List.all_eq_true]
    exact fun d hd => List.mem_takeWhile_imp hd
  have hstop : ∀ d ∈ ((c :: cs).dropWhile isTagNameChar).head?, isTagNameChar d = false :=
    fun _ hd => of_mem_head?_dropWhile hd
  generalize (c :: cs).dropWhile isTagNameChar = tail at happ hstop
  generalize (c :: cs).takeWhile isTagNameChar = span at happ hname
  obtain ⟨name, rfl⟩ : ∃ name : String, span = name.toList :=
    ⟨String.ofList span, String.toList_ofList.symm⟩
  obtain ⟨⟨attributes, selfClosing, after⟩, hread⟩ : ∃ x, readAttributes tail = x := ⟨_, rfl⟩
  rw [String.ofList_toList] at hname
  rw [← happ, readPiece_name hname hstop hread]
  cases hkind : isRawText name && !selfClosing with
  | false =>
    rw [if_neg Bool.false_ne_true]
    rw [Bool.and_eq_false_iff, Bool.not_eq_false'] at hkind
    exact .startTag hname hread hkind hstop
  | true =>
    rw [if_pos rfl]
    rw [Bool.and_eq_true, Bool.not_eq_true'] at hkind
    obtain ⟨hraw, rfl⟩ := hkind
    exact begins_rawText hname hraw hread hstop

theorem begins_readMarkup (cs : List Char) :
    Begins ('<' :: cs) (readMarkup cs).1 (readMarkup cs).2 := by
  have htext : opensMarkup cs = false → Begins ('<' :: cs) (readMarkup cs).1 (readMarkup cs).2 := by
    intro hopens
    rw [readMarkup_of_not_opens hopens]
    exact begins_readText fun _ => hopens
  cases cs with
  | nil => exact htext rfl
  | cons c cs =>
    by_cases hbang : c = '!'
    · subst hbang
      by_cases hcomment : ['-', '-'] <+: cs
      · obtain ⟨rest, rfl⟩ := hcomment
        exact begins_readComment rest
      · exact begins_readDeclaration (.inr ⟨rfl, hcomment⟩)
    by_cases hquery : c = '?'
    · exact begins_readDeclaration (.inl hquery)
    by_cases hslash : c = '/'
    · subst hslash
      cases cs with
      | nil => exact htext rfl
      | cons d cs =>
        cases hd : d.isAlpha with
        | true => exact begins_readEndTag hd cs
        | false => exact htext (by simpa [opensMarkup] using hd)
    cases hc : c.isAlpha with
    | true => exact begins_readStartTag hc cs
    | false => exact htext (by simp [opensMarkup, hbang, hquery, hslash, hc])

/-- The reader finds what a text begins with. -/
theorem begins_readPiece (c : Char) (cs : List Char) :
    Begins (c :: cs) (readPiece c cs).1 (readPiece c cs).2 := by
  unfold readPiece
  split
  · rename_i hc
    rw [beq_iff_eq] at hc
    subst hc
    exact begins_readMarkup cs
  · rename_i hc
    exact begins_readText fun heq => absurd (beq_iff_eq.mpr heq) hc

end EmailMarkup.Html
