import EmailMarkup.Proofs.Html.Front

/-!
# Pieces that are finished

A piece that ends before the text does is the same whatever the text goes on with. To see whether a
text ends inside a piece, a `<` is put behind it. Nothing unfinished ends at a `<`: a comment, a
declaration or a tag takes it in, while running text stops before it.

`readPiece_append` is the law: a piece that leaves something of the `<` is there with the same extent
when any other text that begins with a `<`, or nothing, follows in its place. It rests on
`readAttributes_append`, which says so of the part of a start tag after its name.
`readPiece_append_openRawText` is the case of an element with raw text that is still open, which takes
the `<` in and still has a front that is settled.
-/

set_option autoImplicit false

namespace EmailMarkup.Html

open EmailMarkup.Text

variable {cs rest : List Char} {name content : String} {c : Char} {attributes : List Attribute}

/-! ### Values and attributes -/

/-- A span that ends before the text is the same whatever follows. -/
theorem span_of_ne_nil {p : Char → Bool} (h : cs.dropWhile p ≠ []) (rest : List Char) :
    (cs ++ rest).takeWhile p = cs.takeWhile p ∧ (cs ++ rest).dropWhile p = cs.dropWhile p ++ rest :=
  span_append fun hnil => absurd hnil h

/-- A span that does not stop at a bracket ends before it, or takes all there is. -/
theorem dropWhile_ne_nil {p : Char → Bool} (hp : p '<' = true)
    (h : (cs ++ ['<']).dropWhile p ≠ []) : cs.dropWhile p ≠ [] := by
  intro hnil
  rw [List.dropWhile_append, hnil, List.isEmpty_nil, if_pos rfl, List.dropWhile_cons_of_pos hp] at h
  exact h rfl

/-- A value that ends before the text is read without regard to what follows. -/
theorem readValue_append (h : (readValue (cs ++ ['<'])).2 ≠ []) (rest : List Char) :
    readValue (cs ++ rest) = ((readValue cs).1, (readValue cs).2 ++ rest) := by
  cases cs with
  | nil => exact absurd rfl h
  | cons c cs =>
    rw [List.cons_append] at h ⊢
    unfold readValue at h ⊢
    simp only at h ⊢
    split
    · rename_i hquote
      rw [if_pos hquote] at h
      have hp : ('<' != c) = true := by
        rcases Bool.or_eq_true_iff.mp hquote with hc | hc
        · rw [beq_iff_eq.mp hc]; decide
        · rw [beq_iff_eq.mp hc]; decide
      -- Without its closing quote the value would run over the bracket.
      have hclosed : cs.dropWhile (· != c) ≠ [] :=
        dropWhile_ne_nil (p := (· != c)) hp fun hnil => h (by simp only [hnil, List.drop_nil])
      obtain ⟨htake, hdrop⟩ := span_of_ne_nil hclosed rest
      rw [htake, hdrop, List.drop_append_of_le_length (List.length_pos_iff.mpr hclosed)]
    · rename_i hquote
      rw [if_neg hquote] at h
      have hends : (c :: cs).dropWhile isUnquotedChar ≠ [] := dropWhile_ne_nil (by decide) h
      obtain ⟨htake, hdrop⟩ := span_of_ne_nil hends rest
      rw [← List.cons_append, htake, hdrop]

/-- A name that no equals sign follows has no value. -/
theorem readValue?_of_not_sign (h : ∀ rest, cs.dropWhile isAsciiBlank ≠ '=' :: rest) :
    readValue? cs = (none, cs) := by
  unfold readValue?
  split
  · rename_i rest heq
    exact absurd heq (h rest)
  · rfl

/-- The same for what follows a name, which may be no value. -/
theorem readValue?_append (h : (readValue? (cs ++ ['<'])).2 ≠ [])
    (hrest : ∀ c ∈ rest.head?, c = '<') :
    readValue? (cs ++ rest) = ((readValue? cs).1, (readValue? cs).2 ++ rest) := by
  cases hblank : cs.dropWhile isAsciiBlank with
  | nil =>
    -- Only blanks are left, and what follows them is no equals sign.
    have hsign : ∀ more, (cs ++ rest).dropWhile isAsciiBlank ≠ '=' :: more := by
      intro more
      rw [List.dropWhile_append, hblank, List.isEmpty_nil, if_pos rfl]
      cases rest with
      | nil => exact nofun
      | cons c rest =>
        rw [hrest c rfl, List.dropWhile_cons_of_neg (by decide), Ne, List.cons.injEq]
        exact fun heq => absurd heq.1 (by decide)
    rw [readValue?_of_not_sign hsign, readValue?_of_not_sign (by rw [hblank]; exact nofun)]
  | cons d ds =>
    have hends : cs.dropWhile isAsciiBlank ≠ [] := by rw [hblank]; exact List.cons_ne_nil d ds
    by_cases hsign : d = '='
    · subst hsign
      unfold readValue? at h ⊢
      rw [(span_of_ne_nil hends ['<']).2, hblank, List.cons_append] at h
      rw [(span_of_ne_nil hends rest).2, hblank, List.cons_append]
      simp only at h ⊢
      have hvalue : ds.dropWhile isAsciiBlank ≠ [] := by
        intro hnil
        rw [List.dropWhile_append, hnil] at h
        exact h rfl
      rw [(span_of_ne_nil hvalue ['<']).2] at h
      rw [(span_of_ne_nil hvalue rest).2, readValue_append h]
    · have hnone : ∀ more, d :: ds ≠ '=' :: more := fun more heq => hsign (List.cons.inj heq).1
      have hnone' : ∀ more, (cs ++ rest).dropWhile isAsciiBlank ≠ '=' :: more := by
        intro more
        rw [(span_of_ne_nil hends rest).2, hblank, List.cons_append]
        exact fun heq => hsign (List.cons.inj heq).1
      rw [readValue?_of_not_sign hnone', readValue?_of_not_sign (by rw [hblank]; exact hnone)]

/-- An attribute is its name, what follows the name, and the attributes after that. -/
theorem readAttributes_name (hc : isAttributeNameChar c = true) (cs : List Char) :
    readAttributes (c :: cs) =
      let value := readValue? (cs.dropWhile isAttributeNameChar)
      ({ name := String.ofList (c :: cs.takeWhile isAttributeNameChar), value := value.1 } ::
        (readAttributes value.2).1, (readAttributes value.2).2) := by
  rw [readAttributes]
  · rw [if_pos hc]
  · rintro rfl
    exact absurd hc (by decide)
  · rintro more rfl
    exact absurd hc (by decide)

/-- The attributes of a tag that ends before the text are read without regard to what follows. -/
theorem readAttributes_append (h : (readAttributes (cs ++ ['<'])).2.2 ≠ [])
    (hrest : ∀ c ∈ rest.head?, c = '<') :
    readAttributes (cs ++ rest) =
      ((readAttributes cs).1, (readAttributes cs).2.1, (readAttributes cs).2.2 ++ rest) := by
  fun_induction readAttributes cs with
  | case1 => exact absurd (by simp [readAttributes, isAttributeNameChar, isAsciiBlank, readValue?]) h
  | case2 more => rw [List.cons_append, readAttributes]
  | case3 more => rw [List.cons_append, List.cons_append, readAttributes]
  | case4 c cs _ _ hc name value _ more ih =>
    rw [List.cons_append, readAttributes_name hc] at h ⊢
    -- The name ends before the text, and so does its value; or the tag would have no end.
    have hname : cs.dropWhile isAttributeNameChar ≠ [] := by
      refine dropWhile_ne_nil (by decide) fun hnil => h ?_
      simp [hnil, readValue?, readAttributes]
    rw [(span_of_ne_nil hname ['<']).2] at h
    rw [(span_of_ne_nil hname rest).1, (span_of_ne_nil hname rest).2]
    have hvalue : (readValue? (cs.dropWhile isAttributeNameChar ++ ['<'])).2 ≠ [] := by
      intro hnil
      simp only [hnil] at h
      exact h (by rw [readAttributes])
    rw [readValue?_append hvalue hrest]
    rw [readValue?_append hvalue (by simp)] at h
    simp only [value, more] at ih ⊢
    rw [ih h]
  | case5 c cs hbracket hslash hc ih =>
    have hskip : ∀ more, (∀ d ∈ more.head?, d = '<') →
        readAttributes (c :: (cs ++ more)) = readAttributes (cs ++ more) := by
      intro more hmore
      rw [readAttributes]
      · rw [if_neg hc]
      · exact hbracket
      · rintro after rfl heq
        cases cs with
        | nil =>
          rw [List.nil_append] at heq
          exact absurd (hmore '>' (by rw [heq]; rfl)) (by decide)
        | cons d cs => exact hslash cs rfl (by rw [(List.cons.inj heq).1])
    rw [List.cons_append, hskip _ (by simp)] at h
    rw [List.cons_append, hskip _ hrest, ih h]

/-! ### Raw text -/

/-- Reading up to a closing bracket that stands before the end of the text. -/
theorem upToBracket_append_more (h : (upToBracket (cs ++ ['<'])).2 ≠ []) (more : List Char) :
    upToBracket (cs ++ more) = ((upToBracket cs).1, (upToBracket cs).2 ++ more) := by
  have hends : cs.dropWhile (· != '>') ≠ [] :=
    dropWhile_ne_nil (by decide) fun hnil => h (by rw [upToBracket, hnil]; rfl)
  obtain ⟨htake, hdrop⟩ := span_of_ne_nil hends more
  rw [upToBracket, htake, hdrop, List.drop_append_of_le_length (List.length_pos_iff.mpr hends)]
  rfl

/-- The end tag of raw text is found in a text, or it is looked for in what follows. It does not
begin in the one and go on in the other, since what follows begins with a bracket. -/
theorem spanFolded_append_more {mark : List Char} (hmark : '<' ∉ mark) (cs : List Char)
    {more : List Char} (hmore : ∀ c ∈ more.head?, c = '<') :
    spanFolded ('<' :: mark) (cs ++ more) =
      if (spanFolded ('<' :: mark) cs).2 = [] then
        (cs ++ (spanFolded ('<' :: mark) more).1, (spanFolded ('<' :: mark) more).2)
      else ((spanFolded ('<' :: mark) cs).1, (spanFolded ('<' :: mark) cs).2 ++ more) := by
  induction cs with
  | nil => simp [spanFolded]
  | cons c cs ih =>
    have hhere : beginsWithFolded ('<' :: mark) (c :: (cs ++ more)) =
        beginsWithFolded ('<' :: mark) (c :: cs) := by
      rw [Bool.eq_iff_iff, beginsWithFolded_iff, beginsWithFolded_iff, ← List.cons_append,
        show lowerChars (c :: cs ++ more) = lowerChars (c :: cs) ++ lowerChars more from
          List.map_append]
      refine ⟨fun hfront => ?_, fun hfront => hfront.trans (List.prefix_append ..)⟩
      cases more with
      | nil => exact List.append_nil (lowerChars (c :: cs)) ▸ hfront
      | cons d more =>
        obtain rfl : d = '<' := hmore d rfl
        exact prefix_of_prefix_append_bracket hmark (List.cons_ne_nil _ _) hfront
    rw [List.cons_append, spanFolded, spanFolded, hhere]
    split
    · simp
    · rw [ih]
      simp only
      split
      · rfl
      · rfl

/-- Reads on in raw text of which `content` has been read: the rest of it and its end tag. -/
def readRaw (name : String) (attributes : List Attribute) (content : String) (cs : List Char) :
    Piece × List Char :=
  let body := spanFolded (endMark name) cs
  (.rawText name attributes (content ++ String.ofList body.1) (!body.2.isEmpty),
    (upToBracket body.2).2)

/-- The start tag of an element with raw text is followed by this text. -/
theorem readPiece_raw (hname : isElementName name = true) (hraw : isRawText name = true)
    {tail after : List Char} (hread : readAttributes tail = (attributes, false, after))
    (hstop : ∀ c ∈ tail.head?, isTagNameChar c = false) :
    readPiece '<' (name.toList ++ tail) = readRaw name attributes "" after := by
  rw [readPiece_name hname hstop hread, hraw, if_pos (by decide), readRaw, String.empty_append]

/-- Raw text whose end tag is not in a text goes on behind it. -/
theorem readRaw_open (hraw : isRawText name = true)
    (hopen : (spanFolded (endMark name) cs).2 = []) (attributes : List Attribute)
    (content : String) {more : List Char} (hmore : ∀ c ∈ more.head?, c = '<') :
    readRaw name attributes content (cs ++ more) =
      readRaw name attributes (content ++ String.ofList cs) more := by
  rw [readRaw, endMark, spanFolded_append_more (bracket_notMem_endMark hraw) cs hmore]
  rw [endMark] at hopen
  rw [if_pos hopen]
  simp only [readRaw, endMark, String.ofList_append, String.append_assoc]

/-- Raw text does not end at a bracket by itself. -/
theorem readRaw_bracket (name : String) (attributes : List Attribute) (content : String) :
    readRaw name attributes content ['<'] =
      (.rawText name attributes (content ++ "<") false, []) := by
  have hspan : spanFolded (endMark name) ['<'] = (['<'], []) := rfl
  rw [readRaw, hspan]
  rfl

/-- Raw text whose end tag stands before the end of a text is the same whatever follows. -/
theorem readRaw_append (hraw : isRawText name = true)
    (h : (readRaw name attributes content (cs ++ ['<'])).2 ≠ []) :
    ∃ inner left, ∀ (attributes : List Attribute) (content : String) {more : List Char},
      (∀ c ∈ more.head?, c = '<') → readRaw name attributes content (cs ++ more) =
        (.rawText name attributes (content ++ inner) true, left ++ more) := by
  have hfound : (spanFolded (endMark name) cs).2 ≠ [] := by
    intro hnil
    rw [readRaw_open hraw hnil attributes content (by simp), readRaw_bracket] at h
    exact h rfl
  have hspan : ∀ {more : List Char}, (∀ c ∈ more.head?, c = '<') →
      spanFolded (endMark name) (cs ++ more) =
        ((spanFolded (endMark name) cs).1, (spanFolded (endMark name) cs).2 ++ more) :=
    fun hmore => (spanFolded_append_more (bracket_notMem_endMark hraw) cs hmore).trans
      (if_neg hfound)
  rw [readRaw, hspan (by simp)] at h
  refine ⟨String.ofList (spanFolded (endMark name) cs).1,
    (upToBracket (spanFolded (endMark name) cs).2).2, fun attributes content {more} hmore => ?_⟩
  rw [readRaw, hspan hmore, upToBracket_append_more h]
  simp [hfound]

/-! ### Pieces -/

/-- What is left of a text with a bracket put behind it ends in this bracket. -/
theorem exists_of_append_bracket {front : List Char} (h : cs ++ ['<'] = front ++ rest)
    (hne : rest ≠ []) : ∃ left, rest = left ++ ['<'] ∧ cs = front ++ left := by
  have hlast := List.dropLast_append_getLast hne
  rw [← hlast, ← List.append_assoc] at h
  obtain ⟨hfront, hbracket⟩ := List.append_inj' h rfl
  exact ⟨rest.dropLast, by rw [hbracket, hlast], hfront⟩

/-- The tail of a start tag of which something is left, when another text follows. -/
theorem readAttributes_extend {tail after : List Char} {selfClosing : Bool}
    (hsource : cs ++ ['<'] = '<' :: (name.toList ++ tail))
    (hread : readAttributes tail = (attributes, selfClosing, after)) (hne : after ≠ [])
    (hstop : ∀ c ∈ tail.head?, isTagNameChar c = false) :
    ∃ tail' left, cs = '<' :: (name.toList ++ tail') ∧ after = left ++ ['<'] ∧
      ∀ {more : List Char}, (∀ d ∈ more.head?, d = '<') →
        readAttributes (tail' ++ more) = (attributes, selfClosing, left ++ more) ∧
          ∀ c ∈ (tail' ++ more).head?, isTagNameChar c = false := by
  have htail : tail ≠ [] := by
    rintro rfl
    rw [readAttributes] at hread
    cases hread
    exact hne rfl
  rw [← List.cons_append] at hsource
  obtain ⟨tail', rfl, hsplit⟩ := exists_of_append_bracket hsource htail
  have hends : (readAttributes (tail' ++ ['<'])).2.2 ≠ [] := by rwa [hread]
  have hbracket := readAttributes_append hends (by simp : ∀ d ∈ ['<'].head?, d = '<')
  rw [hread, Prod.mk.injEq, Prod.mk.injEq] at hbracket
  obtain ⟨rfl, rfl, rfl⟩ := hbracket
  refine ⟨tail', _, hsplit, rfl, fun {more} hmore => ⟨readAttributes_append hends hmore, ?_⟩⟩
  cases tail' with
  | nil => exact absurd (hstop '<' rfl) (by decide)
  | cons d tail' => exact hstop

/-- A piece that leaves something of a bracket put behind the text is the same when another text
follows. -/
theorem readPiece_append {piece : Piece} (h : readPiece c (cs ++ ['<']) = (piece, rest))
    (hne : rest ≠ []) :
    ∃ left, rest = left ++ ['<'] ∧ ∀ {more : List Char}, (∀ d ∈ more.head?, d = '<') →
      readPiece c (cs ++ more) = (piece, left ++ more) := by
  have hbegins := begins_readPiece c (cs ++ ['<'])
  rw [h] at hbegins
  generalize hsource : c :: (cs ++ ['<']) = source at hbegins
  rw [← List.cons_append] at hsource
  -- In each case the text without its bracket is the front that the piece takes, and what is left.
  cases hbegins with
  | @text c' inner _ hplain hopens hrest =>
    obtain ⟨left, rfl, hsplit⟩ := exists_of_append_bracket
      (hsource.trans (List.cons_append).symm) hne
    rw [List.cons_append, List.cons.injEq] at hsplit
    obtain ⟨rfl, rfl⟩ := hsplit
    refine ⟨left, rfl, fun {more} hmore => ?_⟩
    rw [← List.append_assoc, opensMarkup_append (by simp)] at hopens
    rw [readPiece_of_not_opens, List.append_assoc, readText_append c hplain]
    · cases left with
      | nil => exact hmore
      | cons d left => exact hrest
    · intro hc
      rw [opensMarkup_append hmore, hopens hc]
  | @comment content _ hopen =>
    have hfront : "<!--".toList ++ (content.toList ++ ("-->".toList ++ rest)) =
        '<' :: '!' :: '-' :: '-' :: (content.toList ++ "-->".toList) ++ rest := by simp
    obtain ⟨left, rfl, hsplit⟩ := exists_of_append_bracket (hsource.trans hfront) hne
    rw [List.cons_append, List.cons.injEq] at hsplit
    obtain ⟨rfl, rfl⟩ := hsplit
    refine ⟨left, rfl, fun {more} _ => ?_⟩
    have hread := readPiece_comment hopen (left ++ more)
    simpa using hread
  | openComment => exact absurd rfl hne
  | declaration hform =>
    obtain ⟨left, rfl, hsplit⟩ := exists_of_append_bracket hsource hne
    refine ⟨left, rfl, fun {more} _ => ?_⟩
    obtain ⟨body, hbody, hread⟩ := readPiece_declaration hform (left ++ more)
    rw [hbody, List.cons_append, List.cons.injEq] at hsplit
    obtain ⟨rfl, rfl⟩ := hsplit
    rw [List.append_assoc, hread]
  | openDeclaration => exact absurd rfl hne
  | @endTag d body _ hd hbody =>
    have hfront : '<' :: '/' :: (d :: body ++ '>' :: rest) =
        '<' :: '/' :: (d :: body ++ ['>']) ++ rest := by simp
    obtain ⟨left, rfl, hsplit⟩ := exists_of_append_bracket (hsource.trans hfront) hne
    rw [List.cons_append, List.cons.injEq] at hsplit
    obtain ⟨rfl, rfl⟩ := hsplit
    refine ⟨left, rfl, fun {more} _ => ?_⟩
    have hread := readPiece_slash hd hbody (left ++ more)
    simpa using hread
  | openEndTag => exact absurd rfl hne
  | @startTag name attributes selfClosing tail _ hname hread hraw hstop =>
    obtain ⟨tail', left, hsplit, rfl, hmoreRead⟩ := readAttributes_extend hsource hread hne hstop
    obtain ⟨rfl, rfl⟩ := List.cons.inj hsplit
    refine ⟨left, rfl, fun {more} hmore => ?_⟩
    obtain ⟨hattrs, hends⟩ := hmoreRead hmore
    have hnotRaw : ¬ (isRawText name && !selfClosing) = true := by
      rcases hraw with h | h <;> simp [h]
    rw [List.append_assoc, readPiece_name hname hends hattrs, if_neg hnotRaw]
  | @rawText name attributes content tail close hname hraw hread hcontent hmark hstop =>
    obtain ⟨tail', after, hsplit, hafter, hmoreRead⟩ := readAttributes_extend hsource hread
      (by simp) hstop
    obtain ⟨rfl, rfl⟩ := List.cons.inj hsplit
    obtain ⟨hattrs, hends⟩ := hmoreRead (by simp : ∀ d ∈ ['<'].head?, d = '<')
    rw [List.append_assoc, readPiece_raw hname hraw hattrs hends] at h
    obtain ⟨inner, left, hclosed⟩ := readRaw_append hraw (by rw [h]; exact hne)
    rw [hclosed attributes "" (by simp), Prod.mk.injEq] at h
    refine ⟨left, h.2.symm, fun {more} hmore => ?_⟩
    obtain ⟨hattrs, hends⟩ := hmoreRead hmore
    rw [List.append_assoc, readPiece_raw hname hraw hattrs hends, hclosed attributes "" hmore, h.1]
  | openRawText => exact absurd rfl hne

/-- Running text stops at a bracket put behind the text. -/
theorem readPiece_append_text (h : readPiece c (cs ++ ['<']) = (.text content, rest)) :
    rest ≠ [] := by
  rintro rfl
  have hbegins := begins_readPiece c (cs ++ ['<'])
  rw [h] at hbegins
  generalize hsource : c :: (cs ++ ['<']) = source at hbegins
  cases hbegins with
  | text hplain =>
    rw [List.append_nil] at hsource
    obtain ⟨-, rfl⟩ := List.cons.inj hsource
    exact hplain (by simp)

/-- An element whose raw text takes in a bracket put behind the text is read on from there. -/
theorem readPiece_append_openRawText
    (h : readPiece c (cs ++ ['<']) = (.rawText name attributes content false, []))
    (hcontent : content ≠ "") :
    isRawText name = true ∧ ∃ inner, ∀ {more : List Char}, (∀ d ∈ more.head?, d = '<') →
      readPiece c (cs ++ more) = readRaw name attributes inner more := by
  have hbegins := begins_readPiece c (cs ++ ['<'])
  rw [h] at hbegins
  generalize hsource : c :: (cs ++ ['<']) = source at hbegins
  rw [← List.cons_append] at hsource
  cases hbegins with
  | openRawText hname hraw hread habsent hstop =>
    obtain ⟨tail, left, hsplit, hleft, hmoreRead⟩ := readAttributes_extend hsource hread
      (mt String.toList_eq_nil_iff.mp hcontent) hstop
    obtain ⟨rfl, rfl⟩ := List.cons.inj hsplit
    have hopen : (spanFolded (endMark name) left).2 = [] := by
      rw [hleft] at habsent
      have hfront : lowerChars left <:+: lowerChars (left ++ ['<']) :=
        ⟨[], ['<'], by simp [lowerChars]⟩
      rw [spanFolded_of_absent fun hmark => habsent (hmark.trans hfront)]
    refine ⟨hraw, "" ++ String.ofList left, fun {more} hmore => ?_⟩
    obtain ⟨hattrs, hends⟩ := hmoreRead hmore
    rw [List.append_assoc, readPiece_raw hname hraw hattrs hends, readRaw_open hraw hopen _ _ hmore]

end EmailMarkup.Html
