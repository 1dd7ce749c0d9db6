import EmailMarkup.Proofs.Html.Local
import EmailMarkup.Proofs.Html.Offset

/-!
# Reading HTML always ends

The reader that moves a byte offset along the text does what the readers of pieces do with the rest
of the text that begins there (`piece_offsetOf`). So no cut that it asks for is off, and it ends
with the document of the text (`read_total`).

Why it ends: a pass of either loop that is not the last leaves a shorter rest. `Passes` says this of
the offsets at which the passes begin, and `TagPasses.Advance` adds the offset at which the last
pass over a tag ends. Only that pass may find nothing to take, if the text ends there.
-/

set_option autoImplicit false

namespace EmailMarkup.Html

open EmailMarkup.Text
open String (utf8Len)

/-! ### What is left -/

/-- Reading a value leaves an end of the text. -/
theorem readValue_suffix (cs : List Char) : (readValue cs).2 <:+ cs := by
  unfold readValue
  split
  · split
    · exact ((List.drop_suffix _ _).trans (List.dropWhile_suffix _)).trans (List.suffix_cons _ _)
    · exact List.dropWhile_suffix _
  · exact List.suffix_rfl

/-- So does reading a value that may be missing. -/
theorem readValue?_suffix (cs : List Char) : (readValue? cs).2 <:+ cs := by
  unfold readValue?
  split
  · rename_i rest heq
    have hsign : '=' :: rest <:+ cs := heq ▸ List.dropWhile_suffix _
    exact (readValue_suffix _).trans
      ((List.dropWhile_suffix _).trans ((List.suffix_cons _ _).trans hsign))
  · exact List.suffix_rfl

/-- So does reading the attributes of a tag. -/
theorem readAttributes_suffix (cs : List Char) : (readAttributes cs).2.2 <:+ cs := by
  fun_induction readAttributes cs with
  | case1 => exact List.suffix_rfl
  | case2 rest => exact List.suffix_cons _ _
  | case3 rest => exact (List.suffix_cons _ _).trans (List.suffix_cons _ _)
  | case4 c rest _ _ _ _ _ _ _ ih =>
    exact ih.trans ((readValue?_suffix _).trans
      ((List.dropWhile_suffix _).trans (List.suffix_cons _ _)))
  | case5 c rest _ _ _ ih => exact ih.trans (List.suffix_cons _ _)

/-- So does reading up to a bracket. -/
theorem upToBracket_suffix (cs : List Char) : (upToBracket cs).2 <:+ cs :=
  (List.drop_suffix _ _).trans (List.dropWhile_suffix _)

/-- What follows a piece is an end of the text. -/
theorem Begins.suffix {text : List Char} {piece : Piece} {rest : List Char}
    (h : Begins text piece rest) : rest <:+ text := by
  have hread {tail next : List Char} {name : String} {attributes : List Attribute}
      {selfClosing : Bool} (hread : readAttributes tail = (attributes, selfClosing, next)) :
      next <:+ '<' :: (name.toList ++ tail) := by
    have hnext : next <:+ tail := by simpa [hread] using readAttributes_suffix tail
    exact hnext.trans ((List.suffix_append _ _).trans (List.suffix_cons _ _))
  cases h with
  | text => exact (List.suffix_append _ _).trans (List.suffix_cons _ _)
  | comment =>
    exact (List.suffix_append _ _).trans ((List.suffix_append _ _).trans (List.suffix_append _ _))
  | openComment => exact List.nil_suffix
  | declaration => exact List.suffix_append _ _
  | openDeclaration => exact List.nil_suffix
  | endTag =>
    exact (List.suffix_cons _ _).trans ((List.suffix_append _ _).trans
      ((List.suffix_cons _ _).trans (List.suffix_cons _ _)))
  | openEndTag => exact List.nil_suffix
  | startTag _ htag => exact hread htag
  | rawText _ _ htag =>
    exact (upToBracket_suffix _).trans ((List.suffix_append _ _).trans (hread htag))
  | openRawText => exact List.nil_suffix

end EmailMarkup.Html

namespace EmailMarkup.Html.Offset

open EmailMarkup.Text
open EmailMarkup.Markup.Offset (Run unfinished ended cut find? pure_eq ended_ok_bind cut_some)
open String (utf8Len)

variable {rest cs : List Char} {c : Char} {steps : Nat}

section
variable {input : List Char}

/-! ### Attributes -/

/-- From the offset of a quote the value is read to the next one, or to the end of the text. The
quote has to be ASCII, since the reader goes on by one byte behind it. -/
theorem quoted_offsetOf {quote : Char} (hquote : quote.toNat < 128) (h : quote :: rest <:+ input) :
    quoted input quote (offsetOf input (quote :: rest)) =
      ended (.ok (rest.takeWhile (· != quote),
        offsetOf input ((rest.dropWhile (· != quote)).drop 1))) := by
  have hrest : rest <:+ input := (List.suffix_cons _ _).trans h
  have hbytes : bytesFrom? input (offsetOf input rest) = some (bytesOf rest) := by
    rw [bytesFrom?, drop_bytesOf hrest, if_pos (by rw [length_bytesOf]; exact Nat.sub_le _ _)]
  have hkind : ByAscii (· != quote) := (byAscii_beq hquote).not
  -- Behind the value stands the quote, or the text ends.
  have hnext : min (offsetOf input (rest.dropWhile (· != quote)) + 1) (utf8Len input) =
      offsetOf input ((rest.dropWhile (· != quote)).drop 1) := by
    have hdropped : rest.dropWhile (· != quote) <:+ input := (List.dropWhile_suffix _).trans hrest
    have hstop := List.head?_dropWhile_not (· != quote) rest
    generalize rest.dropWhile (· != quote) = dropped at hdropped hstop ⊢
    cases dropped with
    | nil => exact Nat.min_eq_right (Nat.le_succ _)
    | cons c next =>
      have hc : c = quote := by simpa using hstop
      subst hc
      rw [offsetOf_succ hquote hdropped]
      exact Nat.min_eq_left (Nat.sub_le _ _)
  rw [quoted, offsetOf_succ hquote h, hbytes, skipBytes_offsetOf hkind hrest]
  simp only [cut_some, ended_ok_bind, between?_takeWhile _ hrest, hnext, pure_eq]

/-- From the offset of an end of the text, a value is read as from that end itself. -/
theorem value_offsetOf (h : rest <:+ input) :
    value input (offsetOf input rest) =
      ended (.ok ((readValue rest).1, offsetOf input (readValue rest).2)) := by
  have hat {x : Char} (hx : x.toNat < 128) := byteAt?_offsetOf hx h
  have hunquoted : (do
      let value ← cut (between? input (offsetOf input rest)
        (skipBytes input isUnquotedChar (offsetOf input rest)))
      return (value, skipBytes input isUnquotedChar (offsetOf input rest)) : Run _) =
      ended (.ok (rest.takeWhile isUnquotedChar,
        offsetOf input (rest.dropWhile isUnquotedChar))) := by
    rw [skipBytes_offsetOf byAscii_unquoted h, between?_takeWhile _ h]
    rfl
  simp only [value, hat (x := '"') (by decide), hat (x := '\'') (by decide), hunquoted]
  cases rest with
  | nil => rfl
  | cons c rest =>
    simp only [List.head?_cons, Option.some.injEq, readValue]
    by_cases hdouble : c = '"'
    · subst hdouble
      exact quoted_offsetOf (by decide) h
    by_cases hsingle : c = '\''
    · subst hsingle
      exact quoted_offsetOf (by decide) h
    rw [if_neg hdouble, if_neg hsingle, if_neg (by simp [hdouble, hsingle])]

/-- So is a value behind an equals sign, or none. -/
theorem assigned_offsetOf (h : rest <:+ input) :
    assigned input (offsetOf input rest) =
      ended (.ok ((readValue? rest).1, offsetOf input (readValue? rest).2)) := by
  have hblank : rest.dropWhile isAsciiBlank <:+ input := (List.dropWhile_suffix _).trans h
  simp only [assigned, skipBytes_offsetOf byAscii_blank h,
    byteAt?_offsetOf (x := '=') (by decide) hblank, readValue?]
  split
  · rename_i hsign
    obtain ⟨next, hnext⟩ := List.head?_eq_some_iff.mp hsign
    rw [hnext] at hblank ⊢
    have hvalue : next <:+ input := (List.suffix_cons _ _).trans hblank
    rw [offsetOf_succ (by decide) hblank, skipBytes_offsetOf byAscii_blank hvalue,
      value_offsetOf ((List.dropWhile_suffix _).trans hvalue)]
    rfl
  · rename_i hsign
    split
    · rename_i next hnext
      exact absurd (by rw [hnext, List.head?_cons]) hsign
    · rfl

/-! ### Passes -/

/-- A shorter end of the text lies at a larger offset. This is why every pass advances. -/
theorem offsetOf_lt {next : List Char} (h : rest <:+ input) (hnext : next <:+ rest)
    (hlt : next.length < rest.length) : offsetOf input rest < offsetOf input next := by
  obtain ⟨piece, rfl⟩ := hnext
  have hmove := offsetOf_append h
  have hpiece : utf8Len piece ≠ 0 := by
    rw [Ne, String.utf8Len_eq_zero]
    rintro rfl
    exact Nat.lt_irrefl _ hlt
  omega

/-- The offset of an end of the text is never inside a character, so the text can be cut there. -/
theorem isSome_cutAt?_offsetOf (h : rest <:+ input) :
    (cutAt? input (offsetOf input rest)).isSome = true := by
  obtain ⟨front, rfl⟩ := h
  rw [cutAt?_offsetOf]
  rfl

/-- Offsets at which the passes of a loop begin: the first is given, each is behind the one before,
and the text can be cut at all of them. -/
structure Passes (input : List Char) (first : Nat) (passes : List Nat) : Prop where
  head : passes.head? = some first
  increasing : passes.Pairwise (· < ·)
  isPlace : ∀ i ∈ passes, (cutAt? input i).isSome = true

/-- A loop whose only pass begins at the offset of an end of the text. -/
theorem Passes.single {rest : List Char} (h : rest <:+ input) :
    Passes input (offsetOf input rest) [offsetOf input rest] where
  head := rfl
  increasing := List.pairwise_singleton _ _
  isPlace i hi := by
    rw [List.mem_singleton.mp hi]
    exact isSome_cutAt?_offsetOf h

/-- A pass that takes something is put before the others. -/
theorem Passes.cons {rest next : List Char} {passes : List Nat} (h : rest <:+ input)
    (hnext : next <:+ rest) (hlt : next.length < rest.length)
    (hpasses : Passes input (offsetOf input next) passes) :
    Passes input (offsetOf input rest) (offsetOf input rest :: passes) where
  head := rfl
  increasing := by
    have hfirst := offsetOf_lt h hnext hlt
    obtain ⟨more, rfl⟩ := List.head?_eq_some_iff.mp hpasses.head
    refine List.pairwise_cons.mpr ⟨?_, hpasses.increasing⟩
    intro i hi
    rcases List.mem_cons.mp hi with rfl | hi
    · exact hfirst
    · exact hfirst.trans (List.rel_of_pairwise_cons hpasses.increasing hi)
  isPlace i hi := by
    rcases List.mem_cons.mp hi with rfl | hi
    · exact isSome_cutAt?_offsetOf h
    · exact hpasses.isPlace i hi

/-- The passes over a start tag. Each ends behind the place where it began, unless the text ends at
that place. -/
structure TagPasses.Advance (input : List Char) (first : Nat) (p : TagPasses) : Prop
    extends Passes input first p.starts where
  behind : ∀ i ∈ p.starts, i < p.stop ∨ i = p.stop ∧ p.stop = utf8Len input
  isStop : (cutAt? input p.stop).isSome = true

/-- The last pass takes something, or nothing is left to take. -/
theorem TagPasses.Advance.single {rest next : List Char} (h : rest <:+ input) (hnext : next <:+ rest)
    (hlast : next.length < rest.length ∨ rest = []) :
    TagPasses.Advance input (offsetOf input rest)
      { starts := [offsetOf input rest], stop := offsetOf input next } where
  toPasses := .single h
  behind i hi := by
    rw [List.mem_singleton.mp hi]
    rcases hlast with hlt | rfl
    · exact .inl (offsetOf_lt h hnext hlt)
    · rw [List.suffix_nil.mp hnext]
      exact .inr ⟨rfl, offsetOf_nil input⟩
  isStop := isSome_cutAt?_offsetOf (hnext.trans h)

/-- A pass that takes something is put before the others. -/
theorem TagPasses.Advance.cons {rest next : List Char} {p : TagPasses} (h : rest <:+ input)
    (hnext : next <:+ rest) (hlt : next.length < rest.length)
    (hp : p.Advance input (offsetOf input next)) :
    TagPasses.Advance input (offsetOf input rest)
      { starts := offsetOf input rest :: p.starts, stop := p.stop } where
  toPasses := hp.toPasses.cons h hnext hlt
  behind i hi := by
    rcases List.mem_cons.mp hi with rfl | hi
    · have hfirst := offsetOf_lt h hnext hlt
      rcases hp.behind _ (List.mem_of_mem_head? hp.head) with hbehind | ⟨heq, -⟩
      · exact .inl (hfirst.trans hbehind)
      · exact .inl (heq ▸ hfirst)
    · exact hp.behind i hi
  isStop := hp.isStop

/-! ### The loop over the attributes -/

/-- A character that begins no name and does not end the tag is passed over. -/
theorem readAttributes_pass (hname : isAttributeNameChar c = false) (hclose : c ≠ '>')
    (hself : c = '/' → rest.head? ≠ some '>') :
    readAttributes (c :: rest) = readAttributes rest := by
  rw [readAttributes]
  · rw [if_neg (by simp [hname])]
  · exact hclose
  · rintro more rfl rfl
    exact hself rfl rfl

/-- Attributes are the same with blanks before them, which the offset reader skips first. -/
theorem readAttributes_dropWhile (cs : List Char) :
    readAttributes (cs.dropWhile isAsciiBlank) = readAttributes cs := by
  induction cs with
  | nil => rfl
  | cons c cs ih =>
    cases hc : isAsciiBlank c with
    | false => rw [List.dropWhile_cons_of_neg (by simp [hc])]
    | true =>
      have hne (x : Char) (hx : isAsciiBlank x = false) : c ≠ x := by
        rintro rfl
        rw [hc] at hx
        cases hx
      rw [List.dropWhile_cons_of_pos hc, ih, readAttributes_pass (by simp [isAttributeNameChar, hc])
        (hne _ (by decide)) fun heq => absurd heq (hne _ (by decide))]

/-- The offset of an end of the text is that of the whole exactly if nothing is left. -/
theorem le_offsetOf_iff (h : rest <:+ input) : utf8Len input ≤ offsetOf input rest ↔ rest = [] := by
  have hle := String.utf8Len_le_of_suffix h
  rw [offsetOf, ← String.utf8Len_eq_zero]
  omega

/-- What the loop over the attributes gives. -/
def tagReading (input rest : List Char) (passes : List Nat) : TagReading where
  attributes := (readAttributes rest).1
  selfClosing := (readAttributes rest).2.1
  next := offsetOf input (readAttributes rest).2.2
  passes := passes

/-- A run of the loop over the attributes that does what it should from an end of the text: it reads
what the recursion reads there, and its passes advance. -/
def ReadsTag (input rest : List Char) (run : Run TagReading) : Prop :=
  ∃ passes, (tagReading input rest passes).tagPasses.Advance input (offsetOf input rest) ∧
    run = ended (.ok (tagReading input rest passes))

/-- The last pass leaves what follows the tag. It takes the bracket, or there is nothing to take: a
pass that took nothing elsewhere would be repeated for ever. -/
theorem ReadsTag.last {next : List Char} {found : List Attribute} {closing : Bool}
    (h : rest <:+ input) (hread : readAttributes rest = (found, closing, next))
    (hlast : next.length < rest.length ∨ rest = []) :
    ReadsTag input rest (ended (.ok
      ⟨found, closing, offsetOf input next, [offsetOf input rest]⟩)) := by
  have hnext := readAttributes_suffix rest
  rw [hread] at hnext
  refine ⟨[offsetOf input rest], ?_, ?_⟩
  · simpa only [tagReading, TagReading.tagPasses, hread] using
      TagPasses.Advance.single h hnext hlast
  · simp only [tagReading, hread]

/-- A pass that goes on leaves a shorter end of the text to the passes after it. -/
theorem ReadsTag.after {next : List Char} {run : Run TagReading} (hrun : ReadsTag input next run)
    (found : List Attribute) (h : rest <:+ input) (hnext : next <:+ rest)
    (hlt : next.length < rest.length)
    (hread : readAttributes rest = (found ++ (readAttributes next).1, (readAttributes next).2)) :
    ReadsTag input rest (do
      let more ← run
      return more.after (offsetOf input rest) found) := by
  obtain ⟨passes, hpasses, rfl⟩ := hrun
  refine ⟨offsetOf input rest :: passes, ?_, ?_⟩
  · have hcons := hpasses.cons h hnext hlt
    simpa only [tagReading, TagReading.tagPasses, hread] using hcons
  · rw [ended_ok_bind]
    simp only [tagReading, TagReading.after, hread, pure_eq]

/-- A character that is in no name is one of ASCII. -/
theorem lt_of_not_attributeName (h : isAttributeNameChar c = false) : c.toNat < 128 := by
  simp only [isAttributeNameChar, isAsciiBlank, Bool.not_eq_false', Bool.or_eq_true,
    beq_iff_eq] at h
  rcases h with (((((((h | h) | h) | h) | h) | h) | h) | h)
  all_goals
    rw [h]
    decide

/-- The loop over attributes, from the offset of an end of the text: with a step for each character
it reads what the recursion reads, and its passes advance. -/
theorem attributes_offsetOf (h : rest <:+ input) (hsteps : rest.length < steps) :
    ReadsTag input rest (attributes input steps (offsetOf input rest)) := by
  induction steps generalizing rest with
  | zero => exact absurd hsteps (Nat.not_lt_zero _)
  | succ steps ih =>
    -- The steps left are enough for every shorter end.
    have hgo {next : List Char} {found : List Attribute} (hnext : next <:+ rest)
        (hlt : next.length < rest.length) :=
      (ih (hnext.trans h) (by omega)).after found h hnext hlt
    have htail := List.dropWhile_suffix (l := rest) isAsciiBlank
    have hread := readAttributes_dropWhile rest
    rw [attributes]
    simp only [skipBytes_offsetOf byAscii_blank h]
    generalize rest.dropWhile isAsciiBlank = tail at htail hread ⊢
    have hinput : tail <:+ input := htail.trans h
    simp only [le_offsetOf_iff hinput, byteAt?_offsetOf (x := '>') (by decide) hinput,
      byteAt?_offsetOf (x := '/') (by decide) hinput]
    cases tail with
    | nil =>
      have hlast : ([] : List Char).length < rest.length ∨ rest = [] :=
        (Nat.eq_zero_or_pos rest.length).symm.imp_right List.length_eq_zero_iff.mp
      rw [if_pos rfl]
      exact .last h (hread.symm.trans (by rw [readAttributes])) hlast
    | cons c tail =>
      have hlt : tail.length < rest.length := htail.length_le
      have hbehind : tail <:+ rest := (List.suffix_cons _ _).trans htail
      rw [if_neg (List.cons_ne_nil _ _)]
      simp only [List.head?_cons, Option.some.injEq]
      by_cases hclose : c = '>'
      · subst hclose
        rw [if_pos rfl, offsetOf_succ (by decide) hinput]
        exact .last h (hread.symm.trans (by rw [readAttributes])) (.inl hlt)
      rw [if_neg hclose]
      by_cases hslash : c = '/'
      · subst hslash
        rw [if_pos rfl, offsetOf_succ (by decide) hinput]
        simp only [byteAt?_offsetOf (x := '>') (by decide) (hbehind.trans h)]
        by_cases hself : tail.head? = some '>'
        · obtain ⟨next, rfl⟩ := List.head?_eq_some_iff.mp hself
          have htwo : offsetOf input ('/' :: '>' :: next) + 2 = offsetOf input next := by
            rw [← offsetOf_succ (by decide) (hbehind.trans h), ← offsetOf_succ (by decide) hinput]
          rw [if_pos hself, htwo]
          exact .last h (hread.symm.trans (by rw [readAttributes]))
            (.inl ((Nat.lt_succ_self _).trans hlt))
        · rw [if_neg hself]
          refine hgo hbehind hlt ?_
          rw [← hread, readAttributes_pass (by decide) (by decide) fun _ => hself]
          rfl
      rw [if_neg hslash, skipBytes_offsetOf byAscii_attributeName hinput,
        between?_takeWhile _ hinput, cut_some, ended_ok_bind]
      cases hname : isAttributeNameChar c with
      | false =>
        -- A character that is in no name is passed over, by one byte.
        rw [List.takeWhile_cons_of_neg (by simp [hname]),
          List.dropWhile_cons_of_neg (by simp [hname]), if_pos List.isEmpty_nil,
          offsetOf_succ (lt_of_not_attributeName hname) hinput]
        refine hgo hbehind hlt ?_
        rw [← hread, readAttributes_pass hname hclose fun heq => absurd heq hslash]
        rfl
      | true =>
        have hafter := List.dropWhile_suffix (l := tail) isAttributeNameChar
        have hvalue := readValue?_suffix (tail.dropWhile isAttributeNameChar)
        rw [List.takeWhile_cons_of_pos hname, List.dropWhile_cons_of_pos hname,
          if_neg (by simp), assigned_offsetOf (hafter.trans (hbehind.trans h)), ended_ok_bind]
        refine hgo (hvalue.trans (hafter.trans hbehind)) ?_ ?_
        · exact Nat.lt_of_le_of_lt (hvalue.trans hafter).length_le hlt
        · rw [← hread, readAttributes_name hname]
          rfl

/-! ### Raw text -/

/-- Folding a character to lower case keeps its length, so offsets into a folded text are offsets
into the text. -/
theorem utf8Size_toLower (c : Char) : c.toLower.utf8Size = c.utf8Size := by
  rcases toLower_cases c with h | ⟨-, hhigh, h⟩
  · rw [h]
  · rw [utf8Size_of_lt (c := c.toLower) (by omega), utf8Size_of_lt (c := c) (by omega)]

/-- The mark is found in the small letters where it is found in the text up to their case. -/
theorem find?_lowerChars {m : Char} {mark : List Char} (cs : List Char) :
    (find? (m :: mark) (lowerChars cs)).getD (utf8Len cs) =
      utf8Len (spanFolded (m :: mark) cs).1 := by
  induction cs with
  | nil => rfl
  | cons c cs ih =>
    have hlower : lowerChars (c :: cs) = c.toLower :: lowerChars cs := rfl
    have hhere : (after? (m :: mark) (c.toLower :: lowerChars cs)).isSome =
        beginsWithFolded (m :: mark) (c :: cs) := by
      rw [Bool.eq_iff_iff, beginsWithFolded_iff]
      exact beginsWith_iff
    rw [spanFolded, ← hhere, hlower, find?, splitAtMark?]
    cases after? (m :: mark) (c.toLower :: lowerChars cs) with
    | some rest => rfl
    | none =>
      simp only [Option.isSome_none, Bool.false_eq_true, if_false, String.utf8Len_cons, ← ih]
      simp only [find?]
      cases splitAtMark? (m :: mark) (lowerChars cs) with
      | none => simp
      | some parts => simp [utf8Size_toLower]

/-- A character is found behind what stands before it. -/
theorem find?_char (x : Char) (cs : List Char) (skip : Nat) :
    ((find? [x] cs).map (· + skip)).getD (utf8Len cs + skip) =
      utf8Len (cs.takeWhile (· != x)) + skip := by
  rw [find?]
  cases hsplit : splitAtMark? [x] cs with
  | none =>
    have hmem := splitAtMark?_char_eq_none_iff.mp hsplit
    rw [List.takeWhile_eq_self_iff.mpr (bne_of_notMem hmem)]
    rfl
  | some parts =>
    obtain ⟨hcs, hmem⟩ := splitAtMark?_char_eq_some hsplit
    rw [hcs, takeWhile_bne_append hmem]
    rfl

/-- What stands up to and including the next bracket. -/
def throughText (cs : List Char) : List Char :=
  cs.takeWhile (· != '>') ++ (cs.dropWhile (· != '>')).take 1

/-- The text through a bracket and what is behind it are the whole text. -/
theorem throughText_append (cs : List Char) : throughText cs ++ (upToBracket cs).2 = cs := by
  rw [throughText, upToBracket, List.append_assoc, List.take_append_drop,
    List.takeWhile_append_dropWhile]

/-- How far the bracket is, counted in bytes. -/
theorem throughBracket_eq (cs : List Char) : throughBracket cs = utf8Len (throughText cs) := by
  rw [throughBracket, find?]
  cases hsplit : splitAtMark? ['>'] cs with
  | none =>
    have hmem := splitAtMark?_char_eq_none_iff.mp hsplit
    have htake : cs.takeWhile (· != '>') = cs := List.takeWhile_eq_self_iff.mpr (bne_of_notMem hmem)
    have hdrop : cs.dropWhile (· != '>') = [] := List.dropWhile_eq_nil_iff.mpr (bne_of_notMem hmem)
    rw [throughText, htake, hdrop, List.take_nil, List.append_nil]
    rfl
  | some parts =>
    obtain ⟨hcs, hmem⟩ := splitAtMark?_char_eq_some hsplit
    rw [throughText, hcs, takeWhile_bne_append hmem, dropWhile_bne_append hmem]
    simp [String.utf8Len_append]
    decide

/-- Going on by that many bytes leads behind the bracket. -/
theorem offsetOf_throughBracket (h : rest <:+ input) :
    offsetOf input rest + throughBracket rest = offsetOf input (upToBracket rest).2 := by
  have happ := throughText_append rest
  rw [throughBracket_eq]
  nth_rewrite 1 [← happ]
  exact offsetOf_append (by rwa [happ])

/-- The content of an element that holds plain text is found at its closing tag, by offsets as by
characters. -/
theorem rawContent_offsetOf (name : List Char) (h : rest <:+ input) :
    rawContent input name (offsetOf input rest) =
      let body := spanFolded ("</".toList ++ lowerChars name) rest
      ended (.ok (body.1, !body.2.isEmpty, offsetOf input (upToBracket body.2).2)) := by
  have hmark : "</".toList ++ lowerChars name = '<' :: '/' :: lowerChars name := rfl
  have happ := spanFolded_append ('<' :: '/' :: lowerChars name) rest
  rw [rawContent, from?_offsetOf h]
  simp only [cut_some, ended_ok_bind, hmark, find?_lowerChars]
  generalize spanFolded ('<' :: '/' :: lowerChars name) rest = body at happ ⊢
  obtain ⟨content, close⟩ := body
  simp only at happ ⊢
  subst happ
  have hclose : close <:+ input := (List.suffix_append _ _).trans h
  rw [upTo?_append, cut_some, ended_ok_bind, offsetOf_append h, from?_offsetOf hclose, cut_some,
    ended_ok_bind]
  simp only [← Nat.not_le, le_offsetOf_iff hclose]
  cases close with
  | nil => rfl
  | cons c close =>
    rw [if_pos (List.cons_ne_nil _ _), offsetOf_throughBracket hclose]
    rfl

/-- A start tag is read by offsets as by characters. It makes one loop over attributes, and the
passes of that loop advance. -/
theorem startTag_offsetOf (h : '<' :: cs <:+ input) (hsteps : cs.length < steps) :
    ∃ passes : TagPasses, passes.Advance input (offsetOf input (cs.dropWhile isTagNameChar)) ∧
      startTag input steps (offsetOf input ('<' :: cs)) =
        ended (.ok ((readStartTag cs).1, offsetOf input (readStartTag cs).2, [passes])) := by
  have hcs : cs <:+ input := (List.suffix_cons _ _).trans h
  have hname : cs.dropWhile isTagNameChar <:+ cs := List.dropWhile_suffix _
  obtain ⟨passes, hpasses, hrun⟩ := attributes_offsetOf (hname.trans hcs)
    (Nat.lt_of_le_of_lt hname.length_le hsteps)
  refine ⟨_, hpasses, ?_⟩
  have hnext := readAttributes_suffix (cs.dropWhile isTagNameChar)
  have hraw := rawContent_offsetOf (cs.takeWhile isTagNameChar) (hnext.trans (hname.trans hcs))
  rw [startTag, offsetOf_succ (by decide) h, skipBytes_offsetOf byAscii_tagName hcs,
    between?_takeWhile _ hcs, cut_some, ended_ok_bind, hrun, ended_ok_bind]
  simp only [tagReading, TagReading.tagPasses, readStartTag, String.toList_ofList] at hraw ⊢
  rw [hraw]
  rcases Bool.eq_false_or_eq_true (readAttributes (cs.dropWhile isTagNameChar)).2.1 with
    hself | hself
  · simp [hself]
  · cases hvoid : isVoid (String.ofList (cs.takeWhile isTagNameChar)) with
    | true => simp [hself, isRawText_of_isVoid hvoid]
    | false =>
      cases hkind : isRawText (String.ofList (cs.takeWhile isTagNameChar)) <;> simp [hself]

/-! ### Pieces -/

/-- A comment is read to its mark, or to the end of the text. -/
theorem comment_offsetOf {body : List Char} (h : '<' :: '!' :: '-' :: '-' :: body <:+ input) :
    comment input (offsetOf input ('<' :: '!' :: '-' :: '-' :: body)) =
      ended (.ok (.comment (String.ofList (upToMark "-->".toList body).1),
        offsetOf input (upToMark "-->".toList body).2, [])) := by
  have happ : ['<', '!', '-', '-'] ++ body <:+ input := h
  have hbody : body <:+ input := (List.suffix_append _ _).trans happ
  have hopen : offsetOf input ('<' :: '!' :: '-' :: '-' :: body) + 4 = offsetOf input body :=
    offsetOf_append happ
  have hmark : "-->".toList = ['-', '-', '>'] := rfl
  rw [comment, hopen, from?_offsetOf hbody, cut_some, ended_ok_bind, upToMark, hmark, find?]
  cases hsplit : splitAtMark? ['-', '-', '>'] body with
  | none => rfl
  | some parts =>
    obtain ⟨content, next⟩ := parts
    obtain ⟨hcut, -⟩ := splitAtMark?_eq_some hsplit
    subst hcut
    have hclose : ['-', '-', '>'] ++ next <:+ input := (List.suffix_append _ _).trans hbody
    have hend : offsetOf input (['-', '-', '>'] ++ next) + 3 = offsetOf input next :=
      offsetOf_append hclose
    simp only [Option.map_some, offsetOf_append hbody, between?_offsetOf hbody, cut_some,
      ended_ok_bind, hend, Option.getD_some, pure_eq]

/-- A declaration is read by offsets as by characters. There is no loop over attributes in it. -/
theorem declaration_offsetOf (h : '<' :: cs <:+ input) :
    declaration input (offsetOf input ('<' :: cs)) =
      ended (.ok ((readDeclaration cs).1, offsetOf input (readDeclaration cs).2, [])) := by
  have hcut := upTo?_append (throughText ('<' :: cs)) (upToBracket ('<' :: cs)).2
  rw [throughText_append] at hcut
  rw [declaration, from?_offsetOf h, cut_some, ended_ok_bind, offsetOf_throughBracket h,
    throughBracket_eq, hcut]
  rfl

/-- A character that does not occur is not dropped. -/
theorem dropWhile_beq {x : Char} (h : x ∉ cs) : cs.dropWhile (· == x) = cs := by
  cases cs with
  | nil => rfl
  | cons c cs =>
    rw [List.dropWhile_cons_of_neg]
    rw [beq_iff_eq]
    rintro rfl
    exact h List.mem_cons_self

/-- An end tag is read up to its bracket. -/
theorem endTag_offsetOf (h : '<' :: '/' :: cs <:+ input) :
    endTag input (offsetOf input ('<' :: '/' :: cs)) =
      ended (.ok (.endTag (String.ofList (trimChars (upToBracket cs).1)),
        offsetOf input (upToBracket cs).2, [])) := by
  have hthrough : throughText ('<' :: '/' :: cs) = ['<', '/'] ++ throughText cs := rfl
  have hbody : between? ('<' :: '/' :: cs) 2 (throughBracket ('<' :: '/' :: cs)) =
      some (throughText cs) := by
    have hcut := upTo?_append (throughText ('<' :: '/' :: cs)) (upToBracket ('<' :: '/' :: cs)).2
    rw [throughText_append] at hcut
    rw [between?, throughBracket_eq, hcut, hthrough]
    exact from?_append ['<', '/'] (throughText cs)
  have hname : ((throughText cs).reverse.dropWhile (· == '>')).reverse = (upToBracket cs).1 := by
    have hmem : '>' ∉ (cs.takeWhile (· != '>')).reverse := by
      rw [List.mem_reverse]
      exact (upToBracket_cases cs).1
    have hstop := List.head?_dropWhile_not (· != '>') cs
    rw [throughText, upToBracket, List.reverse_append]
    generalize cs.dropWhile (· != '>') = dropped at hstop ⊢
    cases dropped with
    | nil => rw [List.take_nil, List.reverse_nil, List.nil_append, dropWhile_beq hmem,
        List.reverse_reverse]
    | cons c next =>
      have hc : c = '>' := by simpa using hstop
      rw [hc, List.take_one, List.head?_cons, Option.toList_some, List.reverse_singleton,
        List.singleton_append, List.dropWhile_cons_of_pos (by decide), dropWhile_beq hmem,
        List.reverse_reverse]
  rw [endTag, from?_offsetOf h, cut_some, ended_ok_bind, offsetOf_throughBracket h, hbody,
    cut_some, ended_ok_bind, hname]
  rfl

/-- A text is read up to the next bracket. -/
theorem text_offsetOf (h : c :: cs <:+ input) :
    text input (offsetOf input (c :: cs)) =
      ended (.ok ((readText c cs).1, offsetOf input (readText c cs).2, [])) := by
  have happ : (c :: cs.takeWhile (· != '<')) ++ cs.dropWhile (· != '<') = c :: cs := by
    rw [List.cons_append, List.takeWhile_append_dropWhile]
  have hcut := upTo?_append (c :: cs.takeWhile (· != '<')) (cs.dropWhile (· != '<'))
  have hmove := offsetOf_append (happ.symm ▸ h)
  rw [happ] at hcut hmove
  -- The first character is taken, be it a bracket or not.
  suffices hlength : ∃ skip tail, (if beginsWith ['<'] (c :: cs) then 1 else 0) = skip ∧
      from? (c :: cs) skip = some tail ∧
      ((find? ['<'] tail).map (· + skip)).getD (utf8Len (c :: cs)) =
        utf8Len (c :: cs.takeWhile (· != '<')) by
    obtain ⟨skip, tail, hskip, htail, hlength⟩ := hlength
    simp only [text, from?_offsetOf h, cut_some, ended_ok_bind, hskip, htail, hlength, hcut, hmove]
    rfl
  by_cases hc : c = '<'
  · subst hc
    refine ⟨1, cs, rfl, from?_append ['<'] cs, ?_⟩
    exact find?_char '<' cs 1
  · refine ⟨0, c :: cs, if_neg (by simp [beginsWith_iff, Ne.symm hc]), rfl, ?_⟩
    have hfind := find?_char '<' (c :: cs) 0
    rwa [List.takeWhile_cons_of_pos (by simp [hc])] at hfind

/-- A mark at the front is seen, and so is a letter behind it. -/
theorem letterAfter_append (mark cs : List Char) :
    letterAfter mark (mark ++ cs) = ended (.ok (cs.head?.any Char.isAlpha)) := by
  rw [letterAfter, if_pos (beginsWith_iff.mpr (List.prefix_append _ _)), from?_append]
  rfl

/-- Without the mark at the front there is no letter behind it. -/
theorem letterAfter_of_not {mark : List Char} (h : ¬ mark <+: cs) :
    letterAfter mark cs = ended (.ok false) := by
  rw [letterAfter, if_neg (by rwa [beginsWith_iff])]
  rfl

/-- What stands at an offset is told by the first characters there. -/
theorem piece_bracket (h : '<' :: c :: cs <:+ input) :
    piece input steps (offsetOf input ('<' :: c :: cs)) =
      let pos := offsetOf input ('<' :: c :: cs)
      if c = '!' ∧ ['-', '-'] <+: cs then comment input pos
      else if c = '/' ∧ cs.head?.any Char.isAlpha then endTag input pos
      else if c = '!' ∨ c = '?' then declaration input pos
      else if c.isAlpha then startTag input steps pos
      else text input pos := by
  have hend : letterAfter ['<', '/'] ('<' :: c :: cs) =
      ended (.ok (decide (c = '/') && cs.head?.any Char.isAlpha)) := by
    by_cases hc : c = '/'
    · subst hc
      exact letterAfter_append ['<', '/'] cs
    · rw [letterAfter_of_not (by simp [Ne.symm hc]), decide_eq_false hc, Bool.false_and]
  have hstart : letterAfter ['<'] ('<' :: c :: cs) = ended (.ok c.isAlpha) :=
    letterAfter_append ['<'] (c :: cs)
  rw [piece, from?_offsetOf h, cut_some, ended_ok_bind, hend, ended_ok_bind, hstart, ended_ok_bind]
  simp only [beginsWith_iff, Bool.or_eq_true, Bool.and_eq_true, decide_eq_true_eq,
    List.cons_prefix_cons, List.nil_prefix, true_and, and_true, eq_comm (b := c)]

/-- A letter behind a bracket begins a start tag. -/
theorem readMarkup_of_isAlpha (hc : c.isAlpha = true) :
    readMarkup (c :: cs) = readStartTag (c :: cs) := by
  have hne (x : Char) (hx : x.isAlpha = false) : c ≠ x := by
    rintro rfl
    rw [hc] at hx
    cases hx
  rw [readMarkup, if_pos hc]
  · exact fun _ heq => absurd heq (hne '!' (by decide))
  · exact hne '!' (by decide)
  · exact hne '?' (by decide)
  · exact fun _ _ heq => absurd heq (hne '/' (by decide))

/-- One pass over a piece, from the offset of an end of the text: it reads what `readPiece` reads,
cuts no character, and all its loops over attributes advance. -/
theorem piece_offsetOf (h : c :: cs <:+ input) (hsteps : cs.length < steps) :
    ∃ tags : List TagPasses, (∀ passes ∈ tags, ∃ first, passes.Advance input first) ∧
      piece input steps (offsetOf input (c :: cs)) =
        ended (.ok ((readPiece c cs).1, offsetOf input (readPiece c cs).2, tags)) := by
  have hnone : ∀ passes ∈ ([] : List TagPasses), ∃ first, passes.Advance input first := by simp
  by_cases hc : c = '<'
  · subst hc
    show ∃ tags : List TagPasses, _ ∧ _ = ended (.ok ((readMarkup cs).1, offsetOf input (readMarkup cs).2, tags))
    cases cs with
    | nil =>
      refine ⟨[], hnone, ?_⟩
      rw [piece, from?_offsetOf h]
      exact text_offsetOf h
    | cons c cs =>
      rw [piece_bracket h]
      simp only
      split
      · rename_i hcomment
        obtain ⟨rfl, body, rfl⟩ := hcomment
        exact ⟨[], hnone, comment_offsetOf h⟩
      rename_i hcomment
      split
      · rename_i hend
        obtain ⟨rfl, hletter⟩ := hend
        cases cs with
        | nil => cases hletter
        | cons d cs =>
          have hd : d.isAlpha = true := hletter
          rw [readMarkup, if_pos hd]
          exact ⟨[], hnone, endTag_offsetOf h⟩
      rename_i hend
      split
      · rename_i hmark
        rw [readMarkup_declaration (hmark.symm.imp_right fun hc => ⟨hc, fun h => hcomment ⟨hc, h⟩⟩)]
        exact ⟨[], hnone, declaration_offsetOf h⟩
      rename_i hmark
      rw [not_or] at hmark
      split
      · rename_i hletter
        obtain ⟨passes, hpasses, hrun⟩ := startTag_offsetOf h hsteps
        rw [readMarkup_of_isAlpha hletter]
        exact ⟨[passes], by simpa using ⟨_, hpasses⟩, hrun⟩
      · rename_i hletter
        rw [readMarkup_of_not_opens (by simpa [opensMarkup, hmark, hletter] using hend)]
        exact ⟨[], hnone, text_offsetOf h⟩
  · have hmark (mark : List Char) : ¬ '<' :: mark <+: c :: cs := by
      rw [List.cons_prefix_cons]
      exact fun hprefix => hc hprefix.1.symm
    refine ⟨[], hnone, ?_⟩
    rw [piece, from?_offsetOf h, cut_some, ended_ok_bind]
    simp only [beginsWith_iff, hmark, letterAfter_of_not, ended_ok_bind, if_false,
      not_false_eq_true, Bool.or_eq_true, or_false, Bool.false_eq_true]
    rw [text_offsetOf h, readPiece, if_neg (by simp [hc])]

/-! ### The loop over the pieces -/

/-- The whole loop, with a step for each character left: it never cuts a character, passes once for
each piece, ends at the end of the text, and feeds the builder the same pieces. -/
theorem scan_offsetOf (b : Builder) (h : rest <:+ input) (hsteps : rest.length < steps) :
    ∃ r, scan input steps b (offsetOf input rest) = ended (.ok r) ∧
      r.builder = (readPieces rest).foldl Builder.step b ∧
      Passes input (offsetOf input rest) r.passes ∧ r.passes.getLast? = some (utf8Len input) ∧
      r.passes.length = (readPieces rest).length + 1 ∧
      ∀ passes ∈ r.tagPasses, ∃ first, passes.Advance input first := by
  induction steps generalizing b rest with
  | zero => exact absurd hsteps (Nat.not_lt_zero _)
  | succ steps ih =>
    rw [scan]
    simp only [← Nat.not_le, le_offsetOf_iff h]
    cases rest with
    | nil =>
      refine ⟨_, if_neg (not_not.mpr rfl), ?_, .single h, rfl, ?_, by simp⟩
      · rw [readPieces]
        rfl
      · rw [readPieces]
        rfl
    | cons c cs =>
      have hnext := (begins_readPiece c cs).suffix
      have hlt := length_readPiece_lt c cs
      have hcs : cs.length < steps := Nat.lt_of_succ_lt_succ hsteps
      obtain ⟨tags, htags, hpiece⟩ := piece_offsetOf h hcs
      obtain ⟨r, hrun, hbuilder, hpasses, hlast, hlength, hmore⟩ :=
        ih (b.step (readPiece c cs).1) (hnext.trans h) (by omega)
      refine ⟨{ r with
        passes := offsetOf input (c :: cs) :: r.passes, tagPasses := tags ++ r.tagPasses },
        ?_, ?_, hpasses.cons h hnext hlt, ?_, ?_, ?_⟩
      · rw [if_pos (List.cons_ne_nil _ _), hpiece, ended_ok_bind, hrun, ended_ok_bind, pure_eq]
      · rw [readPieces, List.foldl_cons]
        exact hbuilder
      · rw [List.getLast?_cons, hlast, Option.getD_some]
      · rw [readPieces, List.length_cons, List.length_cons, hlength]
      · intro passes hmem
        exact (List.mem_append.mp hmem).elim (htags passes) (hmore passes)

end

/-- Reading by byte offsets ends for every text without ever breaking off, and what it reads is the
document. Each pass of the loop over the pieces begins behind the one before, from the start of the
text to its end, and so does each pass of the loops over attributes. The last pass over a tag ends
behind the place where it began too, unless the text ends at that place. All of these offsets are
valid positions in the text. -/
theorem read_total (html : String) :
    ∃ r, read (html.length + 1) html = ended (.ok r) ∧ r.document = Document.read html ∧
      r.passes.head? = some 0 ∧ r.passes.getLast? = some html.utf8ByteSize ∧
      r.passes.Pairwise (· < ·) ∧ r.passes.length = (readPieces html.toList).length + 1 ∧
      (∀ tag ∈ r.tagPasses, tag.starts.Pairwise (· < ·) ∧
        ∀ i ∈ tag.starts, i < tag.stop ∨ i = tag.stop ∧ tag.stop = html.utf8ByteSize) ∧
      (∀ i ∈ r.passes, String.Pos.Raw.IsValid html ⟨i⟩) ∧
      ∀ tag ∈ r.tagPasses, ∀ i ∈ tag.stop :: tag.starts, String.Pos.Raw.IsValid html ⟨i⟩ := by
  obtain ⟨r, hrun, hbuilder, hpasses, hlast, hlength, htags⟩ :=
    scan_offsetOf { top := [], stack := [] } (List.suffix_refl html.toList)
      (Nat.lt_succ_of_le (Nat.le_of_eq String.length_toList))
  have hsize : utf8Len html.toList = html.utf8ByteSize := by
    rw [← String.utf8ByteSize_ofList, String.ofList_toList]
  rw [offsetOf_self] at hrun hpasses
  rw [hsize] at hlast
  refine ⟨r, hrun, ?_, hpasses.head, hlast, hpasses.increasing, hlength, ?_, ?_, ?_⟩
  · rw [Reading.document, hbuilder]
    rfl
  · intro tag htag
    obtain ⟨first, hadvance⟩ := htags tag htag
    exact ⟨hadvance.increasing, hsize ▸ hadvance.behind⟩
  · intro i hi
    exact (isSome_cutAt?_iff _ _).mp (hpasses.isPlace i hi)
  · intro tag htag i hi
    obtain ⟨first, hadvance⟩ := htags tag htag
    refine (isSome_cutAt?_iff _ _).mp ?_
    rcases List.mem_cons.mp hi with rfl | hi
    · exact hadvance.isStop
    · exact hadvance.isPlace i hi

end EmailMarkup.Html.Offset
