import EmailMarkup.Proofs.Html.ReadShape

/-!
# What reading writes

`Builder.print` is what a document in the making would be written as if it ended here. Elements that
are open are written without an end tag, so taking in a piece only adds to the end: `print_step` says
that a piece adds `Builder.writes`, and `print_read` that nothing else is written.

What is written for a piece can be longer than what was read, since values get quotes, and shorter,
since blanks go and so do end tags for which nothing is open. The number of opening brackets never
grows, and this is what the last section is about (`brackets_writes_le` for a piece,
`exists_print_feed` for the rest of a text).
-/

set_option autoImplicit false

namespace EmailMarkup.Html

open EmailMarkup.Text

/-! ### What a state is written as -/

/-- An open element as it is written so far. -/
def OpenElement.print (e : OpenElement) : List Char :=
  '<' :: (e.name.toList ++ (printTail e.attributes false ++ printNodes e.children.reverse))

/-- A document in the making as it is written so far. -/
def Builder.print (b : Builder) : List Char :=
  printNodes b.top.reverse ++ b.stack.reverse.flatMap OpenElement.print

/-- Closing an element adds its end tag to what is written, if it had one. -/
theorem OpenElement.print_finish (e : OpenElement) (closed : Bool) :
    (e.finish closed).print =
      e.print ++ (if closed then '<' :: '/' :: (e.name.toList ++ ['>']) else []) := by
  cases closed <;>
    simp [OpenElement.print, OpenElement.finish, Node.print, Tag.printStart_eq, Tag.printEnd]

theorem OpenElement.print_append (e : OpenElement) (inner : List Node) :
    OpenElement.print { e with children := inner ++ e.children } =
      e.print ++ printNodes inner.reverse := by
  simp [OpenElement.print]

/-- Closing all elements writes nothing. -/
theorem printNodes_closeAll (inner top : List Node) (stack : List OpenElement) :
    printNodes (closeAll inner top stack).reverse =
      Builder.print ⟨top, stack⟩ ++ printNodes inner.reverse := by
  induction stack generalizing inner with
  | nil => simp [closeAll, Builder.print]
  | cons e stack ih =>
    simp [closeAll, ih, printNodes, OpenElement.print_finish, OpenElement.print_append,
      Builder.print]

/-- A document is written as the builder would write itself at the end. -/
theorem print_read (html : String) :
    (Document.read html).print = String.ofList (Builder.feed ⟨[], []⟩ html.toList).print := by
  rw [Document.print, read_eq, printNodes_closeAll]
  simp [printNodes]

namespace Builder

/-- What is added to the children is written behind what there is. -/
theorem print_onChildren {b : Builder} {f : List Node → List Node} {w : List Char}
    (h : printNodes (f b.children).reverse = printNodes b.children.reverse ++ w) :
    (b.onChildren f).print = b.print ++ w := by
  obtain ⟨top, stack⟩ := b
  cases stack with
  | nil => simpa [onChildren, print, children] using h
  | cons e stack =>
    have he : OpenElement.print { e with children := f e.children } = e.print ++ w := by
      simpa [OpenElement.print, children] using h
    simp [onChildren, print, he]

theorem print_onChildren_cons (b : Builder) (n : Node) :
    (b.onChildren (n :: ·)).print = b.print ++ n.print :=
  print_onChildren (by simp [printNodes])

/-- Texts that are joined are written as before. -/
theorem printNodes_joinText (content : String) (children : List Node) :
    printNodes (joinText content children).reverse =
      printNodes children.reverse ++ content.toList := by
  cases htext : startsWithText children with
  | false => simp [joinText_eq_cons htext, printNodes, Node.print]
  | true =>
    obtain ⟨before, rest, rfl⟩ := exists_of_startsWithText htext
    simp [joinText, printNodes, Node.print]

/-- The end tag that an end tag of a name is written as: that of the element it closes. -/
def printEnd? (b : Builder) (name : String) : List Char :=
  match b.stack.find? fun e => sameName e.name name with
  | some e => '<' :: '/' :: (e.name.toList ++ ['>'])
  | none => []

/-- What taking in a piece adds to what is written. -/
def writes (b : Builder) : Piece → List Char
  | .text content => content.toList
  | .comment content => "<!--".toList ++ (content.toList ++ "-->".toList)
  | .declaration content => content.toList
  | .endTag name => b.printEnd? name
  | .startTag name attributes selfClosing => '<' :: (name.toList ++ printTail attributes selfClosing)
  | .rawText name attributes content closed =>
    '<' :: (name.toList ++ (printTail attributes false ++ (content.toList ++
      if closed then '<' :: '/' :: (name.toList ++ ['>']) else [])))

/-- Closing the innermost element of a name writes its end tag, and nothing for the elements in it. -/
theorem print_closeThrough {name : String} {inner top : List Node} {stack : List OpenElement}
    {e : OpenElement} (h : (stack.find? fun e => sameName e.name name) = some e) :
    (closeThrough name inner top stack).print =
      print ⟨top, stack⟩ ++ (printNodes inner.reverse ++ '<' :: '/' :: (e.name.toList ++ ['>'])) := by
  induction stack generalizing inner with
  | nil => cases h
  | cons e' stack ih =>
    rw [List.find?_cons] at h
    rw [closeThrough]
    cases hsame : sameName e'.name name with
    | true =>
      rw [hsame] at h
      cases h
      simp only [if_true, print_onChildren_cons, OpenElement.print_finish,
        OpenElement.print_append]
      simp [print]
    | false =>
      rw [hsame] at h
      simp only [Bool.false_eq_true, if_false]
      rw [ih h]
      simp [print, printNodes, OpenElement.print_finish, OpenElement.print_append]

/-- Taking in a piece writes what belongs to it behind what there is. -/
theorem print_step (b : Builder) (p : Piece) : (b.step p).print = b.print ++ b.writes p := by
  cases p with
  | text content => exact print_onChildren (printNodes_joinText content b.children)
  | comment content =>
    show (b.onChildren (.comment content :: ·)).print = _
    rw [print_onChildren_cons, Node.print, writes, List.append_assoc]
  | declaration content => exact print_onChildren_cons b _
  | endTag name =>
    rw [step_endTag, writes, printEnd?, isOpen, ← List.isSome_find?]
    cases hfind : b.stack.find? fun e => sameName e.name name with
    | none => simp
    | some e => simp [print_closeThrough hfind, printNodes]
  | startTag name attributes selfClosing =>
    rw [step]
    split
    · rw [print_onChildren_cons]
      simp [writes, Node.print, Tag.printStart_eq, Tag.printEnd, printNodes]
    · rename_i hcontent
      simp only [Bool.or_eq_true, not_or, Bool.not_eq_true] at hcontent
      simp [print, writes, OpenElement.print, printNodes, hcontent.1]
  | rawText name attributes content closed =>
    show (b.onChildren (.element { name, attributes, selfClosing := false, closed }
      (rawChildren content) :: ·)).print = _
    rw [print_onChildren_cons]
    simp [writes, Node.print, Tag.printStart_eq, Tag.printEnd, printNodes_rawChildren]

end Builder

/-! ### Brackets -/

/-- How many opening brackets a text has. -/
def brackets (cs : List Char) : Nat :=
  cs.count '<'

@[simp]
theorem brackets_nil : brackets [] = 0 := rfl

@[simp]
theorem brackets_append (a b : List Char) : brackets (a ++ b) = brackets a + brackets b :=
  List.count_append

theorem brackets_le_of_sublist {a b : List Char} (h : a.Sublist b) : brackets a ≤ brackets b :=
  h.count_le '<'

@[simp]
theorem brackets_cons (c : Char) (cs : List Char) :
    brackets (c :: cs) = brackets cs + if c = '<' then 1 else 0 := by
  simp [brackets, List.count_cons]

theorem brackets_span (p : Char → Bool) (cs : List Char) :
    brackets (cs.takeWhile p) + brackets (cs.dropWhile p) = brackets cs := by
  rw [← brackets_append, List.takeWhile_append_dropWhile]

theorem brackets_drop_le (n : Nat) (cs : List Char) : brackets (cs.drop n) ≤ brackets cs :=
  (List.drop_sublist n cs).count_le '<'

/-- Reading a value makes no bracket: what it holds and what is left have no more than the text. -/
theorem brackets_readValue_le (cs : List Char) :
    brackets (readValue cs).1 + brackets (readValue cs).2 ≤ brackets cs := by
  unfold readValue
  split
  · rename_i c rest
    split
    · have hspan := brackets_span (· != c) rest
      have hdrop := brackets_drop_le 1 (rest.dropWhile (· != c))
      simp only [brackets_cons]
      omega
    · exact (brackets_span isUnquotedChar (c :: rest)).le
  · simp

/-- A value is written with no more brackets than it was read with. -/
theorem brackets_readValue?_le (cs : List Char) :
    brackets (printValue (readValue? cs).1) + brackets (readValue? cs).2 ≤ brackets cs := by
  have hprint : ∀ v, brackets (printValue (some v)) = brackets v.toList := by
    intro v
    rcases quoteFor_cases v with h | h <;> simp [printValue, h]
  have hblank := brackets_span isAsciiBlank cs
  unfold readValue?
  split
  · rename_i rest heq
    have hvalue := brackets_readValue_le (rest.dropWhile isAsciiBlank)
    have hafter := brackets_span isAsciiBlank rest
    rw [heq, brackets_cons] at hblank
    simp only [hprint, String.toList_ofList]
    omega
  · simp [printValue]

/-- Nor does reading attributes, when they are written again. -/
theorem brackets_readAttributes_le (cs : List Char) :
    brackets (printTail (readAttributes cs).1 (readAttributes cs).2.1) +
      brackets (readAttributes cs).2.2 ≤ brackets cs := by
  fun_induction readAttributes cs with
  | case1 | case2 rest | case3 rest => simp [printTail]
  | case4 c rest _ _ hc name value _ more ih =>
    have hspan := brackets_span isAttributeNameChar (c :: rest)
    rw [List.takeWhile_cons_of_pos hc, List.dropWhile_cons_of_pos hc] at hspan
    have hvalue := brackets_readValue?_le (rest.dropWhile isAttributeNameChar)
    have hname : name.toList = c :: rest.takeWhile isAttributeNameChar := String.toList_ofList
    have hprint : printTail ({ name, value := value.1 } :: more.1) more.2.1 =
        ' ' :: (name.toList ++ printValue value.1) ++ printTail more.1 more.2.1 := by
      simp [printTail, Attribute.print_eq]
    rw [hprint, hname]
    simp only [brackets_append, brackets_cons] at hspan ih ⊢
    simp only [more, value] at ih hvalue ⊢
    simp
    omega
  | case5 c rest _ _ _ ih =>
    rw [brackets_cons]
    omega

/-- The rest of a tag is written with no more brackets than it was read with. -/
theorem brackets_of_readAttributes {cs rest : List Char} {attributes : List Attribute}
    {selfClosing : Bool} (h : readAttributes cs = (attributes, selfClosing, rest)) :
    brackets (printTail attributes selfClosing) + brackets rest ≤ brackets cs := by
  have hread := brackets_readAttributes_le cs
  rwa [h] at hread

theorem brackets_lowerChars (cs : List Char) : brackets (lowerChars cs) = brackets cs := by
  induction cs with
  | nil => rfl
  | cons c cs ih =>
    have hfold : c.toLower = '<' ↔ c = '<' := ⟨eq_bracket_of_toLower, fun h => by rw [h]; rfl⟩
    show brackets (c.toLower :: lowerChars cs) = brackets (c :: cs)
    rw [brackets_cons, brackets_cons, ih]
    simp only [hfold]

theorem brackets_trimChars_le (cs : List Char) : brackets (trimChars cs) ≤ brackets cs := by
  refine brackets_le_of_sublist ?_
  have hleft : (trimLeft cs).Sublist cs := List.dropWhile_sublist _
  refine List.Sublist.trans ?_ hleft
  rw [trimChars, trimRight, ← List.reverse_sublist, List.reverse_reverse]
  exact List.dropWhile_sublist _

/-- An end tag is written with no more brackets than it was read with. -/
theorem Builder.brackets_printEnd?_le (b : Builder) (body : List Char) :
    brackets (b.printEnd? (String.ofList (trimChars body))) ≤ brackets body + 1 := by
  unfold printEnd?
  split
  · rename_i e hfind
    have hsame := List.find?_some hfind
    rw [sameName, beq_iff_eq, String.toList_ofList] at hsame
    have hname := congrArg brackets hsame
    rw [brackets_lowerChars, brackets_lowerChars] at hname
    have htrim := brackets_trimChars_le body
    simp
    omega
  · simp

/-- A piece is written with no more brackets than it was read with. -/
theorem Builder.brackets_writes_le (b : Builder) {cs rest : List Char} {p : Piece}
    (h : Begins cs p rest) : brackets (b.writes p) + brackets rest ≤ brackets cs := by
  cases h with
  | text => rw [writes, String.toList_ofList, ← List.cons_append, brackets_append]
  | comment =>
    simp only [writes, brackets_append]
    omega
  | openComment | declaration | openDeclaration => simp [writes]
  | @endTag c body rest =>
    have hend := b.brackets_printEnd?_le (c :: body)
    simp only [writes, brackets_append, brackets_cons, reduceIte, Char.reduceEq] at hend ⊢
    omega
  | @openEndTag c body =>
    have hend := b.brackets_printEnd?_le (c :: body)
    simp only [writes, brackets_cons, brackets_nil, reduceIte, Char.reduceEq] at hend ⊢
    omega
  | startTag hname hread hraw =>
    have htail := brackets_of_readAttributes hread
    simp only [writes, brackets_append, brackets_cons, reduceIte]
    omega
  | @rawText name _ content tail close hname hraw hread =>
    have htail := brackets_of_readAttributes hread
    have hname : brackets name.toList = 0 := by
      rw [← brackets_lowerChars]
      exact List.count_eq_zero_of_not_mem
        fun hmem => bracket_notMem_endMark hraw (List.mem_cons_of_mem _ hmem)
    have hup : brackets (upToBracket ('<' :: close)).2 ≤ brackets close := by
      rw [upToBracket, List.dropWhile_cons_of_pos (by decide)]
      exact brackets_le_of_sublist ((List.drop_sublist 1 _).trans (List.dropWhile_sublist _))
    simp only [writes, brackets_append, brackets_cons, brackets_nil, reduceIte, Char.reduceEq, hname]
      at htail ⊢
    omega
  | openRawText hname hraw hread =>
    have htail := brackets_of_readAttributes hread
    simp only [writes, brackets_append, brackets_cons, brackets_nil, reduceIte, Bool.false_eq_true]
    omega

/-- Reading on writes more behind what there is, with no more brackets than are read. -/
theorem Builder.exists_print_feed (b : Builder) (cs : List Char) :
    ∃ w, (b.feed cs).print = b.print ++ w ∧ brackets w ≤ brackets cs := by
  induction cs using readPieces.induct generalizing b with
  | case1 => exact ⟨[], by simp, le_refl _⟩
  | case2 c cs _ ih =>
    obtain ⟨w, hw, hle⟩ := ih (b.step (readPiece c cs).1)
    have hpiece := b.brackets_writes_le (begins_readPiece c cs)
    refine ⟨b.writes (readPiece c cs).1 ++ w, ?_, ?_⟩
    · rw [feed_cons, hw, print_step, List.append_assoc]
    · rw [brackets_append]
      omega

end EmailMarkup.Html
