import EmailMarkup.Proofs.Html.Piece

/-!
# Well-nested texts

A text is well nested if every start tag in it is closed by an end tag of its own name, the last one
opened first. `nests` says so of the pieces of a text, given the names of the elements that are open
before it.

A part of a text need not be well nested by itself: it may open elements that a later part closes.
`Moves cs s t` says what a part does to the open elements, whatever follows it: it takes the stack
`s` to the stack `t`. Parts are put together by `Moves.append`, and a text that takes the empty
stack to itself is well nested (`Moves.wellNested`). A part that moves has no comment and no
declaration in it, which is what lets it stand inside a comment.
-/

set_option autoImplicit false

namespace EmailMarkup.Html

open EmailMarkup.Text

/-- Whether every start tag is closed by an end tag of its own name, last in first out. The names of
the elements that are open come innermost first. A tag that closes itself opens nothing. -/
def nests : List String → List Piece → Bool
  | stack, [] => stack.isEmpty
  | stack, .startTag name _ selfClosing :: rest =>
    nests (if selfClosing then stack else name :: stack) rest
  | [], .endTag _ :: _ => false
  | top :: stack, .endTag name :: rest => top == name && nests stack rest
  | stack, .rawText _ _ _ closed :: rest => closed && nests stack rest
  | stack, .text _ :: rest => nests stack rest
  | stack, .comment _ :: rest => nests stack rest
  | stack, .declaration _ :: rest => nests stack rest

/-- Whether the rest of a text closes the open elements, and every element of its own. -/
def nestsIn (stack : List String) (cs : List Char) : Bool :=
  nests stack (readPieces cs)

/-- Whether a text closes every element that it opens, and no other. -/
def wellNested (cs : List Char) : Bool :=
  nestsIn [] cs

/-! ### One piece -/

theorem nestsIn_cons (stack : List String) (c : Char) (cs : List Char) :
    nestsIn stack (c :: cs) =
      nests stack ((readPiece c cs).1 :: readPieces (readPiece c cs).2) := by
  rw [nestsIn, readPieces]

/-- A character of running text changes nothing. -/
theorem nestsIn_cons_text (stack : List String) {c : Char} (hc : c ≠ '<') (cs : List Char) :
    nestsIn stack (c :: cs) = nestsIn stack cs := by
  have hpiece : ∀ {d : Char} (ds : List Char), d ≠ '<' → readPiece d ds = readText d ds := by
    intro d ds hd
    rw [readPiece, if_neg (by rwa [beq_iff_eq])]
  have hskip : nestsIn stack (c :: cs) = nestsIn stack (cs.dropWhile (· != '<')) := by
    rw [nestsIn_cons, hpiece cs hc]
    rfl
  rw [hskip]
  cases cs with
  | nil => rfl
  | cons d ds =>
    by_cases hd : d = '<'
    · rw [hd, List.dropWhile_cons_of_neg (by decide)]
    · -- The running text goes on, and what is read from its next character ends where it does.
      rw [List.dropWhile_cons_of_pos (by simpa using hd), nestsIn_cons, hpiece ds hd]
      rfl

/-! ### Parts of a text -/

/-- What a part of a text does to the stack of open elements, whatever follows. -/
structure Moves (cs : List Char) (s t : List String) : Prop where
  /-- No comment and no declaration begins in it. -/
  quiet : Apart ['<', '!'] cs
  nestsIn_eq : ∀ rest, nestsIn s (cs ++ rest) = nestsIn t rest

theorem Moves.nil (s : List String) : Moves [] s s where
  quiet := by decide
  nestsIn_eq _ := rfl

theorem Moves.append {a b : List Char} {s t u : List String} (ha : Moves a s t)
    (hb : Moves b t u) : Moves (a ++ b) s u where
  quiet := ha.quiet.append hb.quiet
  nestsIn_eq rest := by rw [List.append_assoc, ha.nestsIn_eq, hb.nestsIn_eq]

/-- A part that leaves no element open is well nested. -/
theorem Moves.wellNested {cs : List Char} (h : Moves cs [] []) : wellNested cs = true := by
  have hend := h.nestsIn_eq []
  rw [List.append_nil] at hend
  rw [Html.wellNested, hend, nestsIn, readPieces]
  rfl

/-- The element that was opened last has to be closed first. -/
example : wellNested "<p>a<b>c</b><br /></p>".toList = true ∧
    wellNested "<p>a<b>c</p></b>".toList = false := by decide +kernel

theorem Moves.text {cs : List Char} (h : '<' ∉ cs) (s : List String) : Moves cs s s where
  quiet := apart_of_bracket_notMem h
  nestsIn_eq rest := by
    induction cs with
    | nil => rfl
    | cons c cs ih =>
      rw [List.mem_cons, not_or] at h
      rw [List.cons_append, nestsIn_cons_text s (Ne.symm h.1), ih h.2]

/-! ### Tags -/

/-- No character of a name is a bracket or an exclamation mark. -/
theorem mark_notMem_of_isTagName {name : String} (hname : isTagName name = true) :
    '<' ∉ name.toList ∧ '!' ∉ name.toList := by
  obtain ⟨c, cs, hchars, -, hall⟩ := exists_of_isTagName hname
  rw [hchars]
  constructor
  · intro hmem
    exact absurd (hall '<' hmem) (by decide)
  · intro hmem
    exact absurd (hall '!' hmem) (by decide)

/-- An attribute with an ordinary name and a value that ends nothing early. -/
structure Attribute.Tame (a : Attribute) : Prop where
  name : isTagName a.name = true
  value : ∀ v ∈ a.value, '"' ∉ v.toList ∧ '<' ∉ v.toList

theorem Attribute.Tame.canonical {a : Attribute} (h : a.Tame) : a.Canonical := by
  obtain ⟨c, cs, hchars, -, hall⟩ := exists_of_isTagName h.name
  refine ⟨by rw [hchars]; exact List.cons_ne_nil c cs, ?_, ?_⟩
  · intro d hd
    have hd' : isNameChar d = true := hall d (hchars ▸ hd)
    unfold isAttributeNameChar isAsciiBlank
    simp only [Bool.not_eq_true', Bool.or_eq_false_iff, beq_eq_false_iff_ne]
    refine ⟨⟨⟨⟨⟨⟨⟨?_, ?_⟩, ?_⟩, ?_⟩, ?_⟩, ?_⟩, ?_⟩, ?_⟩
    all_goals
      rintro rfl
      exact absurd hd' (by decide)
  · intro v hv
    exact .inl (h.value v hv).1

theorem Attribute.Tame.bracket_notMem {a : Attribute} (h : a.Tame) : '<' ∉ a.print := by
  have hname := (mark_notMem_of_isTagName h.name).1
  rw [Attribute.print_eq]
  cases hvalue : a.value with
  | none => simp [printValue, hname]
  | some v =>
    have hv := (h.value v hvalue).2
    rcases quoteFor_cases v with hquote | hquote
    · simp [printValue, hquote, hname, hv]
    · simp [printValue, hquote, hname, hv]

/-- A tag that is read back as it is written, and that has no other bracket than its own. -/
structure Tag.Tame (t : Tag) : Prop where
  name : isTagName t.name = true
  content : isRawText t.name = false
  attributes : ∀ a ∈ t.attributes, a.Tame

/-- A bracket that no exclamation mark follows begins no comment. -/
theorem apart_bracket_cons {c : Char} {cs : List Char} (hc : c ≠ '!') (hcs : '<' ∉ c :: cs) :
    Apart ['<', '!'] ('<' :: c :: cs) := by
  rw [apart_cons_iff]
  refine ⟨?_, apart_of_bracket_notMem hcs⟩
  rw [List.cons_prefix_cons, List.cons_prefix_cons, List.cons_prefix_cons, List.cons_prefix_cons]
  rintro (⟨-, hc', -⟩ | ⟨-, hc', -⟩)
  · exact hc hc'
  · exact hc hc'.symm

theorem Tag.Tame.quiet {t : Tag} (h : t.Tame) : Apart ['<', '!'] t.printStart := by
  obtain ⟨c, cs, hchars, -, -⟩ := exists_of_isTagName h.name
  obtain ⟨hopen, hmark⟩ := mark_notMem_of_isTagName h.name
  have htail : '<' ∉ printTail t.attributes t.selfClosing := by
    unfold printTail
    rw [List.mem_append, List.mem_flatMap, not_or]
    refine ⟨?_, ?_⟩
    · rintro ⟨a, ha, hmem⟩
      exact (h.attributes a ha).bracket_notMem hmem
    · split
      · decide
      · decide
  rw [hchars] at hopen hmark
  rw [Tag.printStart_eq, hchars, List.cons_append]
  refine apart_bracket_cons (fun hc => hmark (hc ▸ List.mem_cons_self)) ?_
  rw [← List.cons_append, List.mem_append, not_or]
  exact ⟨hopen, htail⟩

/-- A start tag opens its element, unless it closes itself. -/
theorem Tag.Tame.moves {t : Tag} (h : t.Tame) (s : List String) :
    Moves t.printStart s (if t.selfClosing then s else t.name :: s) where
  quiet := h.quiet
  nestsIn_eq rest := by
    have hread := readPiece_printStart (isElementName_of_isTagName h.name)
      (fun a ha => (h.attributes a ha).canonical) (.inl h.content) rest
    rw [Tag.printStart_eq, List.cons_append, List.append_assoc, nestsIn_cons, hread]
    rfl

/-- An end tag closes the innermost element, if that has its name. -/
theorem Moves.endTag {name : String} (hname : isTagName name = true) (s : List String) :
    Moves ('<' :: '/' :: (name.toList ++ ['>'])) (name :: s) s where
  quiet := by
    refine apart_bracket_cons (by decide) ?_
    have hopen := (mark_notMem_of_isTagName hname).1
    simp [hopen]
  nestsIn_eq rest := by
    have hread := readPiece_endTag (isElementName_of_isTagName hname) (unpadded_of_isTagName hname)
      rest
    have htext : '<' :: '/' :: (name.toList ++ ['>']) ++ rest =
        '<' :: '/' :: (name.toList ++ '>' :: rest) := by simp
    rw [htext, nestsIn_cons, hread]
    show (name == name && nests s (readPieces rest)) = nestsIn s rest
    rw [beq_self_eq_true, Bool.true_and, nestsIn]

end EmailMarkup.Html
