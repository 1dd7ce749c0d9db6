import EmailMarkup.Html.Piece
import EmailMarkup.Proofs.Text

/-!
# Reading back one piece

What the writer puts down for a tag, a comment, a declaration or a text is read back as the piece it
was written for, and the reader stops where the writer stopped. Each law has the shape
`read (write x ++ rest) = (x, rest)`, for every `rest` that cannot be taken for more of `x`.

The conditions under which this holds are stated here as well:

* `isElementName`: a letter, and then nothing that ends a name;
* `Attribute.Canonical`: a name that no blank, slash, bracket or equals sign cuts short, and a value
  that leaves one kind of quote for the writer to use;
* `IsDeclaration`: a doctype or processing instruction that ends at its only closing bracket and
  does not begin like a comment.

`readAttributes_printTail` is the main step: an induction over the attributes in which the next one
begins with the blank that ends the one before.
-/

set_option autoImplicit false

namespace EmailMarkup.Html

open EmailMarkup.Text

variable {name content : String} {cs tail : List Char} {c : Char}

/-! ### Names -/

/-- Whether a name can be that of an element: letters, digits and hyphens, the first a letter. -/
def isTagName (name : String) : Bool :=
  match name.toList with
  | [] => false
  | c :: cs => c.isAlpha && cs.all isNameChar

/-- The characters of a name: a letter, then letters, digits and hyphens. -/
theorem exists_of_isTagName (h : isTagName name = true) :
    ∃ c cs, name.toList = c :: cs ∧ c.isAlpha = true ∧ ∀ d ∈ c :: cs, isNameChar d = true := by
  unfold isTagName at h
  split at h
  · cases h
  · rename_i c cs heq
    rw [Bool.and_eq_true, List.all_eq_true] at h
    refine ⟨c, cs, heq, h.1, ?_⟩
    intro d hd
    rcases List.mem_cons.mp hd with rfl | hd
    · simp [isNameChar, Char.isAlphanum, h.1]
    · exact h.2 d hd

/-- No character of a name ends it. -/
theorem isTagNameChar_of_isNameChar (h : isNameChar c = true) : isTagNameChar c = true := by
  unfold isTagNameChar isAsciiBlank
  simp only [Bool.not_eq_true', Bool.or_eq_false_iff, beq_eq_false_iff_ne]
  refine ⟨⟨⟨⟨⟨⟨?_, ?_⟩, ?_⟩, ?_⟩, ?_⟩, ?_⟩, ?_⟩
  all_goals
    rintro rfl
    exact absurd h (by decide)

/-- Whether a start tag can have this name: a letter, and then nothing that ends a name. -/
def isElementName (name : String) : Bool :=
  match name.toList with
  | [] => false
  | c :: cs => c.isAlpha && cs.all isTagNameChar

/-- The characters of an element's name: a letter, and then none that ends the name. -/
theorem exists_of_isElementName (h : isElementName name = true) :
    ∃ c cs, name.toList = c :: cs ∧ c.isAlpha = true ∧ ∀ d ∈ c :: cs, isTagNameChar d = true := by
  unfold isElementName at h
  split at h
  · cases h
  · rename_i c cs heq
    rw [Bool.and_eq_true, List.all_eq_true] at h
    have hc : isNameChar c = true := by simp [isNameChar, Char.isAlphanum, h.1]
    exact ⟨c, cs, heq, h.1, List.forall_mem_cons.mpr ⟨isTagNameChar_of_isNameChar hc, h.2⟩⟩

/-- Letters, digits and hyphens make the name of an element. -/
theorem isElementName_of_isTagName (h : isTagName name = true) : isElementName name = true := by
  obtain ⟨c, cs, hchars, hc, hall⟩ := exists_of_isTagName h
  unfold isElementName
  rw [hchars]
  simp only [Bool.and_eq_true, List.all_eq_true]
  exact ⟨hc, fun d hd => isTagNameChar_of_isNameChar (hall d (List.mem_cons_of_mem c hd))⟩

/-! ### Attributes -/

/-- An attribute that is read back as it is written. -/
structure Attribute.Canonical (a : Attribute) : Prop where
  name_ne_nil : a.name.toList ≠ []
  name_chars : ∀ c ∈ a.name.toList, isAttributeNameChar c = true
  value_quotes : ∀ v ∈ a.value, '"' ∉ v.toList ∨ '\'' ∉ v.toList

/-- An attribute with a name that can stand in a tag. -/
structure Attribute.HasName (a : Attribute) : Prop where
  name_ne_nil : a.name.toList ≠ []
  name_chars : ∀ c ∈ a.name.toList, isAttributeNameChar c = true

/-- Whether some kind of quote is not in the value of an attribute. -/
def Attribute.leavesQuote (a : Attribute) : Bool :=
  a.value.all fun v => !(v.toList.contains '"' && v.toList.contains '\'')

theorem Attribute.canonical_iff {a : Attribute} :
    a.Canonical ↔ a.HasName ∧ a.leavesQuote = true := by
  have hquotes : a.leavesQuote = true ↔ ∀ v ∈ a.value, '"' ∉ v.toList ∨ '\'' ∉ v.toList := by
    unfold leavesQuote
    rw [Option.all_eq_true]
    refine forall_congr' fun v => imp_congr_right fun _ => ?_
    simp [List.contains_eq_mem]
  rw [hquotes]
  exact ⟨fun h => ⟨⟨h.name_ne_nil, h.name_chars⟩, h.value_quotes⟩,
    fun h => ⟨h.1.name_ne_nil, h.1.name_chars, h.2⟩⟩

/-- The quote that the writer puts around a value. -/
def quoteFor (v : String) : Char :=
  if v.toList.contains '"' && !v.toList.contains '\'' then '\'' else '"'

/-- The writer knows two quotes. -/
theorem quoteFor_cases (v : String) : quoteFor v = '"' ∨ quoteFor v = '\'' := by
  unfold quoteFor
  split
  · exact Or.inr rfl
  · exact Or.inl rfl

/-- A value without one kind of quote does not hold the quote that is put around it. -/
theorem quoteFor_notMem {v : String} (h : '"' ∉ v.toList ∨ '\'' ∉ v.toList) :
    quoteFor v ∉ v.toList := by
  unfold quoteFor
  split
  · rename_i hsingle
    simp only [Bool.and_eq_true, Bool.not_eq_true', List.contains_eq_mem, decide_eq_true_eq,
      decide_eq_false_iff_not] at hsingle
    exact hsingle.2
  · rename_i hdouble
    simp only [Bool.and_eq_true, Bool.not_eq_true', List.contains_eq_mem, decide_eq_true_eq,
      decide_eq_false_iff_not] at hdouble
    tauto

/-- The value of an attribute as it is written, with its equals sign and quotes. -/
def printValue : Option String → List Char
  | none => []
  | some v => '=' :: quoteFor v :: (v.toList ++ [quoteFor v])

/-- An attribute is written as a blank, its name and its value. -/
theorem Attribute.print_eq (a : Attribute) :
    a.print = ' ' :: (a.name.toList ++ printValue a.value) := by
  unfold Attribute.print printValue quoteFor
  cases a.value <;> simp

/-- A value without double quotes is written in double quotes. -/
theorem Attribute.print_of_quote_notMem (name : String) {v : String} (h : '"' ∉ v.toList) :
    Attribute.print ⟨name, some v⟩ = ' ' :: (name.toList ++ '=' :: '"' :: (v.toList ++ ['"'])) := by
  simp [Attribute.print, h]

/-- The part of a start tag after the name. -/
def printTail (attributes : List Attribute) (selfClosing : Bool) : List Char :=
  attributes.flatMap Attribute.print ++ (if selfClosing then " />".toList else ['>'])

/-- What follows a name in a start tag begins with a blank or closes the tag. -/
theorem exists_printTail_append (attributes : List Attribute) (selfClosing : Bool)
    (rest : List Char) :
    ∃ c cs, printTail attributes selfClosing ++ rest = c :: cs ∧ (c = ' ' ∨ c = '>') := by
  unfold printTail
  cases attributes with
  | nil =>
    cases selfClosing with
    | false => exact ⟨'>', rest, rfl, Or.inr rfl⟩
    | true => exact ⟨' ', '/' :: '>' :: rest, rfl, Or.inl rfl⟩
  | cons a attributes =>
    rw [List.flatMap_cons, Attribute.print_eq]
    exact ⟨' ', _, rfl, Or.inl rfl⟩

/-- After the blanks that follow a name, no value is announced: the next thing is a name or the end
of the tag. -/
theorem dropBlanks_printTail_ne (attributes : List Attribute) (selfClosing : Bool)
    (rest : List Char) (hattrs : ∀ a ∈ attributes, a.HasName) (cs : List Char) :
    (printTail attributes selfClosing ++ rest).dropWhile isAsciiBlank ≠ '=' :: cs := by
  unfold printTail
  cases attributes with
  | nil =>
    cases selfClosing with
    | false => simp [isAsciiBlank]
    | true => simp [isAsciiBlank]
  | cons a attributes =>
    have ha := hattrs a List.mem_cons_self
    obtain ⟨c, name, hname⟩ := List.exists_cons_of_ne_nil ha.name_ne_nil
    have hc : isAttributeNameChar c = true := ha.name_chars c (by rw [hname]; simp)
    have hblank : isAsciiBlank c = false := by
      unfold isAttributeNameChar at hc
      simp only [Bool.not_eq_true', Bool.or_eq_false_iff] at hc
      exact hc.1.1.1
    rw [List.flatMap_cons, Attribute.print_eq, hname]
    simp only [List.cons_append, List.append_assoc]
    rw [List.dropWhile_cons_of_pos (by decide), List.dropWhile_cons_of_neg (by simp [hblank])]
    intro heq
    rw [List.cons.injEq] at heq
    rw [heq.1] at hc
    exact absurd hc (by decide)

/-- The value of an attribute is read back, and reading stops behind it. -/
theorem readValue?_printValue {value : Option String}
    (hquotes : ∀ v ∈ value, '"' ∉ v.toList ∨ '\'' ∉ v.toList) (rest : List Char)
    (hrest : ∀ cs, rest.dropWhile isAsciiBlank ≠ '=' :: cs) :
    readValue? (printValue value ++ rest) = (value, rest) := by
  cases value with
  | none =>
    show readValue? rest = (none, rest)
    unfold readValue?
    split
    · rename_i cs heq
      exact absurd heq (hrest cs)
    · rfl
  | some v =>
    have hquote := quoteFor_notMem (hquotes v rfl)
    have hnotBlank : isAsciiBlank (quoteFor v) = false := by
      rcases quoteFor_cases v with h | h <;> rw [h] <;> rfl
    have hisQuote : (quoteFor v == '"' || quoteFor v == '\'') = true := by
      rcases quoteFor_cases v with h | h <;> rw [h] <;> rfl
    show readValue? ('=' :: quoteFor v :: (v.toList ++ [quoteFor v]) ++ rest) = (some v, rest)
    simp only [List.cons_append, List.append_assoc]
    unfold readValue?
    rw [List.dropWhile_cons_of_neg (by decide)]
    simp only
    rw [List.dropWhile_cons_of_neg (by simp [hnotBlank])]
    unfold readValue
    simp only
    rw [List.nil_append, if_pos hisQuote, takeWhile_bne_append hquote,
      dropWhile_bne_append hquote]
    simp

/-- Blanks between attributes are passed over. -/
theorem readAttributes_blank (cs : List Char) : readAttributes (' ' :: cs) = readAttributes cs := by
  rw [readAttributes]
  · rw [if_neg (by decide)]
  · decide
  · intro _ h
    exact absurd h (by decide)

/-- The name of an attribute is read back, and reading goes on with its value. -/
theorem readAttributes_print {a : Attribute} (ha : a.HasName)
    (hhead : ∃ c cs, tail = c :: cs ∧ (c = ' ' ∨ c = '>')) :
    readAttributes (a.print ++ tail) =
      let value := readValue? (printValue a.value ++ tail)
      ({ a with value := value.1 } :: (readAttributes value.2).1, (readAttributes value.2).2) := by
  obtain ⟨c, name, hname⟩ := List.exists_cons_of_ne_nil ha.name_ne_nil
  have hc : isAttributeNameChar c = true := ha.name_chars c (by rw [hname]; simp)
  have hchars : ∀ d ∈ name, isAttributeNameChar d = true :=
    fun d hd => ha.name_chars d (by rw [hname]; exact List.mem_cons_of_mem c hd)
  -- The name ends at the equals sign of its value or, without one, where the tail begins.
  obtain ⟨stop, after, hstop, hstopChar⟩ : ∃ d ds, printValue a.value ++ tail = d :: ds ∧
      isAttributeNameChar d = false := by
    cases hcase : a.value with
    | none =>
      obtain ⟨d, ds, rfl, hd⟩ := hhead
      exact ⟨d, ds, rfl, by rcases hd with rfl | rfl <;> rfl⟩
    | some v => exact ⟨'=', _, rfl, rfl⟩
  obtain ⟨htake, hdrop⟩ := @span_of_forall _ _ name (printValue a.value ++ tail) hchars
    (by simpa [hstop] using hstopChar)
  rw [Attribute.print_eq, hname]
  simp only [List.cons_append, List.append_assoc]
  rw [readAttributes_blank, readAttributes]
  · rw [if_pos hc]
    simp only [htake, hdrop]
    rw [← hname, String.ofList_toList]
  · rintro rfl
    exact absurd hc (by decide)
  · rintro _ rfl
    exact absurd hc (by decide)

/-- One attribute is read back, and reading goes on behind it. -/
theorem readAttributes_print_append {a : Attribute} (ha : a.Canonical)
    (hhead : ∃ c cs, tail = c :: cs ∧ (c = ' ' ∨ c = '>'))
    (hvalue : ∀ cs, tail.dropWhile isAsciiBlank ≠ '=' :: cs) :
    readAttributes (a.print ++ tail) = (a :: (readAttributes tail).1, (readAttributes tail).2) := by
  rw [readAttributes_print (Attribute.canonical_iff.mp ha).1 hhead,
    readValue?_printValue ha.value_quotes tail hvalue]

/-- The rest of a start tag is read back, and reading stops behind the tag. -/
theorem readAttributes_printTail (attributes : List Attribute) (selfClosing : Bool)
    (rest : List Char) (hattrs : ∀ a ∈ attributes, a.Canonical) :
    readAttributes (printTail attributes selfClosing ++ rest) =
      (attributes, selfClosing, rest) := by
  induction attributes with
  | nil =>
    cases selfClosing with
    | false =>
      show readAttributes ('>' :: rest) = _
      rw [readAttributes]
    | true =>
      show readAttributes (' ' :: '/' :: '>' :: rest) = _
      rw [readAttributes_blank, readAttributes]
  | cons a attributes ih =>
    have htail : ∀ b ∈ attributes, b.Canonical := fun b hb => hattrs b (List.mem_cons_of_mem a hb)
    have hsplit : printTail (a :: attributes) selfClosing ++ rest =
        a.print ++ (printTail attributes selfClosing ++ rest) := by
      simp [printTail]
    rw [hsplit, readAttributes_print_append (hattrs a List.mem_cons_self)
      (exists_printTail_append attributes selfClosing rest)
      (dropBlanks_printTail_ne attributes selfClosing rest
        fun b hb => (Attribute.canonical_iff.mp (htail b hb)).1), ih htail]

/-! ### Tags -/

/-- A start tag is its bracket, its name and the rest. -/
theorem Tag.printStart_eq (t : Tag) :
    t.printStart = '<' :: (t.name.toList ++ printTail t.attributes t.selfClosing) := by
  simp [Tag.printStart, printTail]

/-- The name of a tag is cut off where it ends. -/
theorem span_name_append (hname : isElementName name = true)
    (hstop : ∀ c ∈ tail.head?, isTagNameChar c = false) :
    (name.toList ++ tail).takeWhile isTagNameChar = name.toList ∧
      (name.toList ++ tail).dropWhile isTagNameChar = tail := by
  obtain ⟨c, cs, hchars, -, hall⟩ := exists_of_isElementName hname
  have hpass : ∀ x ∈ name.toList, isTagNameChar x = true := hchars ▸ hall
  exact span_of_forall hpass hstop

/-- What follows a name in a start tag ends the name. -/
theorem not_isTagNameChar_printTail (attributes : List Attribute) (selfClosing : Bool)
    (rest : List Char) :
    ∀ c ∈ (printTail attributes selfClosing ++ rest).head?, isTagNameChar c = false := by
  obtain ⟨d, ds, htail, hd⟩ := exists_printTail_append attributes selfClosing rest
  rw [htail]
  rintro c ⟨⟩
  rcases hd with rfl | rfl <;> rfl

/-- A name after a bracket begins a start tag. -/
theorem readMarkup_name_append (hname : isElementName name = true) (tail : List Char) :
    readMarkup (name.toList ++ tail) = readStartTag (name.toList ++ tail) := by
  obtain ⟨c, cs, hchars, hc, -⟩ := exists_of_isElementName hname
  -- A letter is none of the characters that begin another kind of markup.
  have hne : ∀ d : Char, d.isAlpha = false → c ≠ d := by
    rintro d hd rfl
    rw [hc] at hd
    cases hd
  rw [hchars, List.cons_append, readMarkup]
  · exact if_pos hc
  · intro _ h
    exact absurd h (hne '!' rfl)
  · exact hne '!' rfl
  · exact hne '?' rfl
  · intro _ _ h
    exact absurd h (hne '/' rfl)

/-- How the end tag of an element with raw text begins, in lower case. -/
def endMark (name : String) : List Char :=
  '<' :: '/' :: lowerChars name.toList

/-- A start tag is read as its name, its attributes and what follows; an element with raw text is
read with its content, up to its end tag. -/
theorem readPiece_name {name : String} (hname : isElementName name = true) {tail : List Char}
    (hstop : ∀ c ∈ tail.head?, isTagNameChar c = false) {attributes : List Attribute}
    {selfClosing : Bool} {after : List Char}
    (hread : readAttributes tail = (attributes, selfClosing, after)) :
    readPiece '<' (name.toList ++ tail) =
      if isRawText name && !selfClosing then
        let body := spanFolded (endMark name) after
        (.rawText name attributes (String.ofList body.1) (!body.2.isEmpty), (upToBracket body.2).2)
      else (.startTag name attributes selfClosing, after) := by
  obtain ⟨htake, hdrop⟩ := span_name_append hname hstop
  rw [readPiece, if_pos (by decide), readMarkup_name_append hname, readStartTag]
  simp only [htake, hdrop, hread, String.ofList_toList]
  -- The reader spells the mark out; `endMark` is the same list.
  rfl

/-- A start tag is read as its name, its attributes and what follows. -/
theorem readPiece_printStart {t : Tag} (hname : isElementName t.name = true)
    (hattrs : ∀ a ∈ t.attributes, a.Canonical)
    (hraw : isRawText t.name = false ∨ t.selfClosing = true) (rest : List Char) :
    readPiece '<' (t.name.toList ++ (printTail t.attributes t.selfClosing ++ rest)) =
      (.startTag t.name t.attributes t.selfClosing, rest) := by
  have hnotRaw : ¬ (isRawText t.name && !t.selfClosing) = true := by
    rcases hraw with h | h <;> simp [h]
  rw [readPiece_name hname (not_isTagNameChar_printTail _ _ _)
    (readAttributes_printTail t.attributes t.selfClosing rest hattrs), if_neg hnotRaw]

/-- What follows the next closing bracket, for a text without one in front of it. -/
theorem upToBracket_append (hcs : '>' ∉ cs) (rest : List Char) :
    upToBracket (cs ++ '>' :: rest) = (cs, rest) := by
  unfold upToBracket
  rw [takeWhile_bne_append hcs, dropWhile_bne_append hcs]
  rfl

/-- The name of an element holds no closing bracket. -/
theorem bracket_notMem_of_isElementName (hname : isElementName name = true) :
    '>' ∉ name.toList := by
  obtain ⟨c, cs, hchars, -, hall⟩ := exists_of_isElementName hname
  rw [hchars]
  intro hmem
  exact absurd (hall '>' hmem) (by decide)

/-- The name of a tag has no blanks that an end tag would lose. -/
theorem unpadded_of_isTagName (hname : isTagName name = true) : Unpadded name.toList := by
  obtain ⟨c, cs, hchars, -, hall⟩ := exists_of_isTagName hname
  rw [hchars]
  exact unpadded_of_forall fun d hd => isBlank_of_isNameChar (hall d hd)

/-- An end tag goes to the next closing bracket, and the blanks around its name do not count. -/
theorem readPiece_slash {body : List Char} (hc : c.isAlpha = true) (hbody : '>' ∉ c :: body)
    (rest : List Char) :
    readPiece '<' ('/' :: (c :: body ++ '>' :: rest)) =
      (.endTag (String.ofList (trimChars (c :: body))), rest) := by
  have hup := upToBracket_append hbody rest
  rw [readPiece, if_pos (by decide)]
  rw [List.cons_append] at hup ⊢
  rw [readMarkup, if_pos hc]
  simp only [hup]

/-- An end tag is read as its name. -/
theorem readPiece_endTag (hname : isElementName name = true) (hpad : Unpadded name.toList)
    (rest : List Char) :
    readPiece '<' ('/' :: (name.toList ++ '>' :: rest)) = (.endTag name, rest) := by
  obtain ⟨c, cs, hchars, hc, -⟩ := exists_of_isElementName hname
  have hbody := bracket_notMem_of_isElementName hname
  have htrim : trimChars name.toList = name.toList := hpad.trimChars_eq
  rw [hchars] at hbody htrim ⊢
  rw [readPiece_slash hc hbody, htrim, ← hchars, String.ofList_toList]

/-- The end mark of raw text has one bracket, with which it begins. -/
theorem bracket_notMem_endMark (hraw : isRawText name = true) :
    '<' ∉ '/' :: lowerChars name.toList := by
  have hlist : ∀ r ∈ rawTextElements, '<' ∉ '/' :: lowerChars r.toList := by decide
  obtain ⟨r, hr, hsame⟩ := List.any_eq_true.mp hraw
  rw [sameName, beq_iff_eq] at hsame
  rw [hsame]
  exact hlist r hr

/-- Raw text ends where its end tag begins, if it does not hold the beginning of an end tag in
either case. -/
theorem spanFolded_endMark (hraw : isRawText name = true)
    (hcontent : ¬ endMark name <:+: lowerChars content.toList) (rest : List Char) :
    spanFolded (endMark name) (content.toList ++ '<' :: '/' :: (name.toList ++ rest)) =
      (content.toList, '<' :: '/' :: (name.toList ++ rest)) := by
  have hhere : beginsWithFolded (endMark name) ('<' :: '/' :: (name.toList ++ rest)) = true := by
    rw [beginsWithFolded_iff]
    exact ⟨lowerChars rest, by simp [endMark, lowerChars]⟩
  exact spanFolded_append_bracket (bracket_notMem_endMark hraw) content.toList _ hcontent hhere

/-- An element with raw text is read as a whole, end tag included. -/
theorem readPiece_rawText {attributes : List Attribute} (hname : isElementName name = true)
    (hattrs : ∀ a ∈ attributes, a.Canonical) (hraw : isRawText name = true)
    (hcontent : ¬ endMark name <:+: lowerChars content.toList) (rest : List Char) :
    readPiece '<' (name.toList ++ (printTail attributes false ++
        (content.toList ++ '<' :: '/' :: (name.toList ++ '>' :: rest)))) =
      (.rawText name attributes content true, rest) := by
  have hspan := spanFolded_endMark hraw hcontent ('>' :: rest)
  have hclose : upToBracket ('<' :: '/' :: (name.toList ++ '>' :: rest)) =
      ('<' :: '/' :: name.toList, rest) := by
    rw [← List.cons_append, ← List.cons_append]
    exact upToBracket_append (by simpa using bracket_notMem_of_isElementName hname) rest
  rw [readPiece_name hname (not_isTagNameChar_printTail _ _ _)
    (readAttributes_printTail attributes false _ hattrs), hraw, if_pos (by decide)]
  simp only [hspan, hclose, String.ofList_toList, List.isEmpty_cons, Bool.not_false]

/-- A text without the mark is all before it. -/
theorem spanFolded_of_absent {mark : List Char} (h : ¬ mark <:+: lowerChars cs) :
    spanFolded mark cs = (cs, []) := by
  induction cs with
  | nil => rfl
  | cons c cs ih =>
    have hfolded : lowerChars (c :: cs) = c.toLower :: lowerChars cs := rfl
    rw [hfolded, List.infix_cons_iff, not_or] at h
    rw [spanFolded, if_neg (by rw [beginsWithFolded_iff]; exact h.1), ih h.2]

/-- An element with raw text that nothing closes is read to the end of the text. -/
theorem readPiece_openRawText {attributes : List Attribute} (hname : isElementName name = true)
    (hattrs : ∀ a ∈ attributes, a.Canonical) (hraw : isRawText name = true)
    (hcontent : ¬ endMark name <:+: lowerChars content.toList) :
    readPiece '<' (name.toList ++ (printTail attributes false ++ content.toList)) =
      (.rawText name attributes content false, []) := by
  rw [readPiece_name hname (not_isTagNameChar_printTail _ _ _)
    (readAttributes_printTail attributes false _ hattrs), hraw, if_pos (by decide),
    spanFolded_of_absent hcontent]
  simp [upToBracket]

/-! ### Comments, declarations and text -/

/-- A closing mark put behind a text that does not hold one begins nowhere in the text. -/
theorem not_closeMark_prefix {content : List Char} (hcontent : ¬ "-->".toList <:+: content)
    {pre post : List Char} (hsplit : content = pre ++ post) (hpost : post ≠ [])
    (rest : List Char) : ¬ "-->".toList <+: post ++ ("-->".toList ++ rest) := by
  intro hprefix
  rcases List.prefix_or_prefix_of_prefix hprefix (List.prefix_append _ _) with hshort | hlong
  · exact hcontent (hsplit ▸ hshort.isInfix.trans (List.suffix_append pre post).isInfix)
  · -- The text would have to end in one or two hyphens, and the mark to go on from there.
    match post, hpost with
    | [a], _ => simp at hprefix
    | [a, b], _ => simp at hprefix
    | a :: b :: c :: more, _ =>
      have hlen : (a :: b :: c :: more).length ≤ 3 := hlong.length_le
      have hmore : more = [] := by
        rw [List.length_cons, List.length_cons, List.length_cons] at hlen
        exact List.eq_nil_of_length_eq_zero (by omega)
      subst hmore
      have heq := hlong.eq_of_length (by simp)
      exact hcontent (hsplit ▸ heq ▸ (List.suffix_append pre _).isInfix)

/-- A comment whose content does not close it is read back. -/
theorem readPiece_comment (hcontent : ¬ "-->".toList <:+: content.toList) (rest : List Char) :
    readPiece '<' ('!' :: '-' :: '-' :: (content.toList ++ ("-->".toList ++ rest))) =
      (.comment content, rest) := by
  have hsplit := splitAtMark?_append (by simp) content.toList rest
    fun _ _ hparts hpost => not_closeMark_prefix hcontent hparts hpost rest
  rw [readPiece, if_pos (by decide), readMarkup]
  simp only [upToMark, hsplit, Option.getD_some, String.ofList_toList]

/-- A declaration that is read back: it begins with `<!` or `<?`, but not like a comment, and its
only closing bracket ends it. -/
structure IsDeclaration (content : String) : Prop where
  form : ∃ c body, content.toList = '<' :: c :: (body ++ ['>']) ∧ '>' ∉ body ∧
    (c = '?' ∨ c = '!' ∧ ¬ ['-', '-'] <+: body)

/-- What follows a bracket and is a question mark, or an exclamation mark but no comment, is read as
a declaration. -/
theorem readMarkup_declaration (hkind : c = '?' ∨ c = '!' ∧ ¬ ['-', '-'] <+: cs) :
    readMarkup (c :: cs) = readDeclaration (c :: cs) := by
  rcases hkind with rfl | ⟨rfl, hnot⟩
  · rw [readMarkup]
  · rw [readMarkup]
    rintro rest rfl
    exact hnot (by simp)

/-- A declaration is read back. -/
theorem readPiece_declaration (h : IsDeclaration content) (rest : List Char) :
    ∃ body, content.toList = '<' :: body ∧
      readPiece '<' (body ++ rest) = (.declaration content, rest) := by
  obtain ⟨c, body, hcontent, hbody, hkind⟩ := h.form
  refine ⟨c :: (body ++ ['>']), hcontent, ?_⟩
  have hc : c ≠ '>' := by
    rcases hkind with rfl | ⟨rfl, -⟩ <;> decide
  have hopen : '>' ∉ c :: body := by
    rw [List.mem_cons, not_or]
    exact ⟨hc.symm, hbody⟩
  have hread : readDeclaration (c :: (body ++ '>' :: rest)) = (.declaration content, rest) := by
    unfold readDeclaration
    rw [← List.cons_append, takeWhile_bne_append hopen, dropWhile_bne_append hopen,
      upToBracket_append hopen]
    simp only [List.take_succ_cons, List.take_zero]
    rw [show '<' :: (c :: body) ++ ['>'] = content.toList by simp [hcontent], String.ofList_toList]
  have hkind' : c = '?' ∨ c = '!' ∧ ¬ ['-', '-'] <+: body ++ '>' :: rest := by
    refine hkind.imp_right (And.imp_right fun hnot hprefix => hnot ?_)
    -- The two hyphens cannot reach into the bracket that ends the declaration.
    match body with
    | [] => simp at hprefix
    | [b] => simp at hprefix
    | b :: b' :: body => simpa using hprefix
  rw [readPiece, if_pos (by decide)]
  simp only [List.cons_append, List.append_assoc, List.nil_append]
  rw [readMarkup_declaration hkind', hread]

/-- A declaration that nothing closes: it has no closing bracket, and all the text is part of it. -/
structure IsOpenDeclaration (content : String) : Prop where
  form : ∃ c body, content.toList = '<' :: c :: body ∧ '>' ∉ body ∧
    (c = '?' ∨ c = '!' ∧ ¬ ['-', '-'] <+: body)

/-- A declaration that nothing closes is read back at the end of a text. -/
theorem readPiece_openDeclaration (h : IsOpenDeclaration content) :
    ∃ body, content.toList = '<' :: body ∧ readPiece '<' body = (.declaration content, []) := by
  obtain ⟨c, body, hcontent, hbody, hkind⟩ := h.form
  refine ⟨c :: body, hcontent, ?_⟩
  have hc : c ≠ '>' := by
    rcases hkind with rfl | ⟨rfl, -⟩ <;> decide
  have hopen : ∀ d ∈ c :: body, (d != '>') = true := by
    refine bne_of_notMem ?_
    rw [List.mem_cons, not_or]
    exact ⟨hc.symm, hbody⟩
  rw [readPiece, if_pos (by decide), readMarkup_declaration hkind, readDeclaration, upToBracket,
    List.takeWhile_eq_self_iff.mpr hopen, List.dropWhile_eq_nil_iff.mpr hopen]
  simp only [List.take_nil, List.drop_nil, List.append_nil]
  rw [← hcontent, String.ofList_toList]

/-- Running text goes on to the next opening bracket. -/
theorem readText_append (c : Char) {rest : List Char} (hcs : '<' ∉ cs)
    (hrest : ∀ d ∈ rest.head?, d = '<') :
    readText c (cs ++ rest) = (.text (String.ofList (c :: cs)), rest) := by
  obtain ⟨htake, hdrop⟩ := span_of_forall (bne_of_notMem hcs)
    fun d hd => bne_eq_false_iff_eq.mpr (hrest d hd)
  rw [readText, htake, hdrop]

end EmailMarkup.Html
