import EmailMarkup.Proofs.Html.Written

/-!
# Reading what was written, once more

A document that was read may be written as something that is read differently. It happens in two
ways. An unquoted value can hold both kinds of quotes, and whichever the writer puts around it, the
value ends too early. An end tag for which nothing is open is dropped, and the texts around it join:
a `<` at the end of the first may open a tag with the second. `rereading_changes_markup` shows both.

These are the only ways. `settled` rules them out, and `rereading_iff_settled` says that reading what
was written gives the same document exactly if the document is settled.

One half is `read_print_of_shaped`, since every document that was read is in shape. For the other,
`settled_of_print_read`, a text is followed that is written as it was read. `Builder.Settled.step`
shows that each of its pieces is written where it was read. A tag that is read as it was written
has only values that leave a quote (`leavesQuote_of_readAttributes`). No end tag can have been
dropped, because the rest of the text would have to be written with more brackets than it has. So
texts are joined only where they stand side by side, and then the reader has seen that they open
nothing.
-/

set_option autoImplicit false

namespace EmailMarkup.Html

open EmailMarkup.Text

/-! ### Tags that are read as they were written -/

/-- A value in which both kinds of quotes stand is not read back. -/
theorem leavesQuote_of_readValue? {a : Attribute} {tail : List Char}
    (h : (readValue? (printValue a.value ++ tail)).1 = a.value) : a.leavesQuote = true := by
  unfold Attribute.leavesQuote
  cases hvalue : a.value with
  | none => rfl
  | some v =>
    rw [Option.all_some, Bool.not_eq_true', Bool.and_eq_false_iff, or_iff_not_imp_left,
      Bool.not_eq_false]
    intro hdouble
    by_contra hsingle
    rw [Bool.not_eq_false] at hsingle
    -- The writer takes double quotes, and the reader stops at the first one in the value.
    have hquote : quoteFor v = '"' := by rw [quoteFor, hsingle, Bool.not_true, Bool.and_false]; rfl
    have hread : (readValue? (printValue a.value ++ tail)).1 =
        some (String.ofList ((v.toList ++ '"' :: tail).takeWhile (· != '"'))) := by
      simp [hvalue, printValue, hquote, readValue?, readValue, isAsciiBlank]
    rw [hread, hvalue, Option.some.injEq] at h
    have hstop : '"' ∉ v.toList := by
      rw [← h, String.toList_ofList]
      exact fun hmem => by simpa using List.mem_takeWhile_imp hmem
    exact hstop (by simpa using hdouble)

/-- A tag that is read as it was written has only values that leave a quote, and ends where it
ended. -/
theorem leavesQuote_of_readAttributes {attributes : List Attribute}
    (hnames : ∀ a ∈ attributes, a.HasName) {selfClosing selfClosing' : Bool}
    {w rest : List Char}
    (h : readAttributes (printTail attributes selfClosing ++ w) =
      (attributes, selfClosing', rest)) :
    attributes.all Attribute.leavesQuote = true ∧ rest = w := by
  induction attributes with
  | nil =>
    rw [readAttributes_printTail [] selfClosing w (by simp)] at h
    cases h
    exact ⟨rfl, rfl⟩
  | cons a attributes ih =>
    obtain ⟨ha, hnames⟩ := List.forall_mem_cons.mp hnames
    have hsplit : printTail (a :: attributes) selfClosing ++ w =
        a.print ++ (printTail attributes selfClosing ++ w) := by
      simp [printTail]
    rw [hsplit] at h
    have hhead := exists_printTail_append attributes selfClosing w
    have hread := h
    rw [readAttributes_print ha hhead] at hread
    simp only [Prod.mk.injEq, List.cons.injEq] at hread
    have hquote : a.leavesQuote = true :=
      leavesQuote_of_readValue? (congrArg Attribute.value hread.1.1)
    rw [readAttributes_print_append (Attribute.canonical_iff.mpr ⟨ha, hquote⟩) hhead
      (dropBlanks_printTail_ne attributes selfClosing w hnames)] at h
    simp only [Prod.mk.injEq, List.cons.injEq, true_and] at h
    obtain ⟨hall, hrest⟩ := ih hnames (Prod.ext h.1 (h.2 ▸ rfl))
    exact ⟨by rw [List.all_cons, hquote, hall]; rfl, hrest⟩

/-! ### Settled states -/

theorem settled_append (a b : List Node) : settled (a ++ b) = (settled a && settled b) := by
  induction a using forest_induction with
  | nil => rw [List.nil_append, settled, Bool.true_and]
  | text content rest ih => rw [List.cons_append, settled, settled, ih, Bool.and_assoc]
  | comment content rest ih | declaration content rest ih => simp [settled, ih]
  | element tag children rest _ ih =>
    rw [List.cons_append, settled, settled, ih, Bool.and_assoc (_ && _)]

theorem settled_cons (n : Node) (rest : List Node) :
    settled (n :: rest) = (settled [n] && settled rest) :=
  settled_append [n] rest

/-- The order of nodes does not matter to what they say. -/
theorem settled_reverse (nodes : List Node) : settled nodes.reverse = settled nodes := by
  induction nodes with
  | nil => rfl
  | cons n rest ih => rw [List.reverse_cons, settled_append, ih, settled_cons n rest, Bool.and_comm]

/-- A text that opens nothing with more text behind it opens nothing alone. -/
theorem plainBefore_nil_of_plainBefore {rest cs : List Char} (h : plainBefore rest cs = true) :
    plainBefore [] cs = true := by
  have hmono : ∀ ds, opensMarkup (ds ++ rest) = false → opensMarkup ds = false := by
    intro ds hds
    cases ds with
    | nil => rfl
    | cons d ds =>
      cases ds with
      | nil => simp_all [opensMarkup]
      | cons d' ds => simpa [opensMarkup] using hds
  induction cs with
  | nil => rfl
  | cons c cs ih =>
    rw [plainBefore, Bool.and_eq_true, Bool.not_eq_true', Bool.and_eq_false_iff] at h ⊢
    rw [List.append_nil]
    exact ⟨h.1.imp_right (hmono cs), ih h.2⟩

/-- What is in an open element is settled. -/
structure OpenElement.Settled (e : OpenElement) : Prop where
  name : isElementName e.name = true
  quotes : e.attributes.all Attribute.leavesQuote = true
  children : settled e.children = true

theorem OpenElement.Settled.finish {e : OpenElement} (h : e.Settled) {inner : List Node}
    (hinner : settled inner = true) (closed : Bool) :
    settled [OpenElement.finish { e with children := inner ++ e.children } closed] = true := by
  rw [OpenElement.finish, settled, settled, settled_reverse, settled_append, hinner, h.quotes,
    h.children]
  simp

/-- A state in which everything is settled. -/
structure Builder.Settled (b : Builder) : Prop where
  top : settled b.top = true
  stack : ∀ e ∈ b.stack, e.Settled

/-- The last child, if it is a text, opens nothing where `rest` comes next. -/
def Builder.PlainBefore (b : Builder) (rest : List Char) : Prop :=
  ∀ content more, b.children = .text content :: more → plainBefore rest content.toList = true

namespace Builder

theorem Settled.children {b : Builder} (h : b.Settled) : settled b.children = true := by
  obtain ⟨top, stack⟩ := b
  cases stack with
  | nil => exact h.top
  | cons e stack => exact (h.stack e List.mem_cons_self).children

theorem Settled.onChildren {b : Builder} (h : b.Settled) {f : List Node → List Node}
    (hf : settled (f b.children) = true) : (b.onChildren f).Settled := by
  obtain ⟨top, stack⟩ := b
  cases stack with
  | nil => exact ⟨hf, h.stack⟩
  | cons e stack =>
    obtain ⟨he, hstack⟩ := List.forall_mem_cons.mp h.stack
    exact ⟨h.top, List.forall_mem_cons.mpr ⟨⟨he.name, he.quotes, hf⟩, hstack⟩⟩

/-- A settled node may be added. -/
theorem Settled.add {b : Builder} (h : b.Settled) {n : Node} (hn : settled [n] = true) :
    (b.onChildren (n :: ·)).Settled :=
  h.onChildren (by rw [settled_cons, hn, h.children]; rfl)

/-- Behind a node that is no text, no text is left that could open anything. -/
theorem plainBefore_of_not_text {b : Builder} (h : startsWithText b.children = false)
    (rest : List Char) : b.PlainBefore rest := by
  intro content more hchildren
  rw [hchildren] at h
  cases h

/-- Closing an element leaves a settled state settled. -/
theorem settled_closeThrough {name : String} {inner top : List Node} {stack : List OpenElement}
    (htop : settled top = true) (hstack : ∀ e ∈ stack, e.Settled) (hinner : settled inner = true)
    (hopen : (stack.any fun e => sameName e.name name) = true) :
    (closeThrough name inner top stack).Settled ∧
      startsWithText (closeThrough name inner top stack).children = false := by
  induction stack generalizing inner with
  | nil => cases hopen
  | cons e stack ih =>
    obtain ⟨he, hstack⟩ := List.forall_mem_cons.mp hstack
    rw [closeThrough]
    simp only
    split
    · exact ⟨Settled.add ⟨htop, hstack⟩ (he.finish hinner true),
        startsWithText_onChildren_cons _ rfl⟩
    · rename_i hsame
      rw [Bool.not_eq_true] at hsame
      rw [List.any_cons, hsame, Bool.false_or] at hopen
      exact ih hstack (he.finish hinner false) hopen

/-- Closing all elements leaves everything settled. -/
theorem settled_closeAll {inner top : List Node} {stack : List OpenElement}
    (htop : settled top = true) (hstack : ∀ e ∈ stack, e.Settled) (hinner : settled inner = true) :
    settled (closeAll inner top stack) = true := by
  induction stack generalizing inner with
  | nil => rw [closeAll, settled_append, hinner, htop]; rfl
  | cons e stack ih =>
    obtain ⟨he, hstack⟩ := List.forall_mem_cons.mp hstack
    exact ih hstack (he.finish hinner false)

/-- Text that opens nothing, with the text before it, may be added. -/
theorem Settled.step_text {b : Builder} (h : b.Settled) {content : String} {rest : List Char}
    (hlast : b.PlainBefore (content.toList ++ rest))
    (hplain : plainBefore rest content.toList = true) :
    (b.step (.text content)).Settled ∧ (b.step (.text content)).PlainBefore rest := by
  -- The text is the latest child, alone or joined to the one before.
  obtain ⟨whole, more, hjoin, hwhole, hmore⟩ : ∃ whole more,
      joinText content b.children = .text whole :: more ∧
        plainBefore rest whole.toList = true ∧ settled more = true := by
    cases htext : startsWithText b.children with
    | false => exact ⟨content, b.children, joinText_eq_cons htext content, hplain, h.children⟩
    | true =>
      obtain ⟨before, more, hchildren⟩ := exists_of_startsWithText htext
      have hmore := h.children
      rw [hchildren, settled, Bool.and_eq_true] at hmore
      refine ⟨before ++ content, more, by rw [hchildren, joinText], ?_, hmore.2⟩
      rw [String.toList_append, plainBefore_append, hplain, hlast before more hchildren]
      rfl
  constructor
  · refine h.onChildren ?_
    rw [hjoin, settled, plainBefore_nil_of_plainBefore hwhole, hmore]
    rfl
  · intro content' more' hchildren
    rw [step, children_onChildren, hjoin, List.cons.injEq, Node.text.injEq] at hchildren
    rw [← hchildren.1]
    exact hwhole

/-- An end tag that is not dropped is written as that of an open element. -/
theorem exists_of_writes_endTag {b : Builder} {name : String} {w cs : List Char}
    (hwritten : b.writes (.endTag name) ++ w = cs) (hlt : brackets w < brackets cs) :
    ∃ e ∈ b.stack, b.isOpen name = true ∧ '<' :: '/' :: (e.name.toList ++ '>' :: w) = cs := by
  rw [writes, printEnd?] at hwritten
  split at hwritten
  · rename_i e hfind
    refine ⟨e, List.mem_of_find?_eq_some hfind, ?_, by simpa using hwritten⟩
    rw [isOpen, ← List.isSome_find?, hfind]
    rfl
  · rw [← hwritten, List.nil_append] at hlt
    exact absurd hlt (lt_irrefl _)

/-- Taking in a piece that is written as it was read keeps a state settled. What is written behind it
cannot make up for a dropped end tag, since it has too few brackets. -/
theorem Settled.step {b : Builder} (h : b.Settled) {cs rest : List Char} (hlast : b.PlainBefore cs)
    {p : Piece} (hbegins : Begins cs p rest) {w : List Char} (hwritten : b.writes p ++ w = cs)
    (hle : brackets w ≤ brackets rest) :
    w = rest ∧ (b.step p).Settled ∧ (b.step p).PlainBefore rest := by
  have hadd : ∀ n : Node, settled [n] = true → startsWithText [n] = false →
      (b.onChildren (n :: ·)).Settled ∧ (b.onChildren (n :: ·)).PlainBefore rest := fun n hn htext =>
    ⟨h.add hn, plainBefore_of_not_text (startsWithText_onChildren_cons b htext) rest⟩
  cases hbegins with
  | @text c cs rest hplain hopens hrest =>
    have hw : w = rest := by simpa [writes] using hwritten
    refine ⟨hw, h.step_text (by simpa using hlast) ?_⟩
    rw [String.toList_ofList, plainBefore, plainBefore_of_bracket_notMem hplain, Bool.and_true,
      Bool.not_eq_true', Bool.and_eq_false_iff, beq_eq_false_iff_ne, ← imp_iff_not_or]
    exact hopens
  | comment => exact ⟨by simpa [writes] using hwritten, hadd _ (by simp [settled]) rfl⟩
  | openComment => simp [writes] at hwritten
  | declaration | openDeclaration =>
    exact ⟨by simpa [writes] using hwritten, hadd _ (by simp [settled]) rfl⟩
  | @endTag c body rest hc hbody =>
    obtain ⟨e, he, hopen, hsplit⟩ := exists_of_writes_endTag hwritten (by simp; omega)
    have hname := bracket_notMem_of_isElementName (h.stack e he).name
    simp only [List.cons.injEq, true_and] at hsplit
    -- Both end tags go to the first closing bracket.
    have hup := congrArg upToBracket hsplit
    rw [upToBracket_append hname, upToBracket_append hbody, Prod.mk.injEq] at hup
    obtain ⟨hsettled, htext⟩ := settled_closeThrough h.top h.stack (by rw [settled]) hopen
    rw [step_endTag, if_pos hopen]
    exact ⟨hup.2, hsettled, plainBefore_of_not_text htext rest⟩
  | @openEndTag c body hc hbody =>
    obtain ⟨e, -, -, hsplit⟩ := exists_of_writes_endTag hwritten (by simp at hle ⊢; omega)
    simp only [List.cons.injEq, true_and] at hsplit
    exact absurd (by rw [← hsplit]; simp) hbody
  | @startTag name attributes selfClosing tail rest hname hread hraw =>
    have htail : tail = printTail attributes selfClosing ++ w := by
      simpa [writes] using hwritten.symm
    rw [htail] at hread
    obtain ⟨hquotes, hw⟩ := leavesQuote_of_readAttributes (hasName_of_readAttributes hread) hread
    refine ⟨hw.symm, ?_⟩
    rw [Builder.step]
    split
    · exact hadd _ (by simp [settled, hquotes]) rfl
    · exact ⟨⟨h.top, List.forall_mem_cons.mpr ⟨⟨hname, hquotes, by rw [settled]⟩, h.stack⟩⟩,
        plainBefore_of_not_text rfl rest⟩
  | @rawText name attributes content tail close hname hraw hread hcontent hmark =>
    have htail : tail = printTail attributes false ++
        (content.toList ++ '<' :: '/' :: (name.toList ++ '>' :: w)) := by
      simpa [writes] using hwritten.symm
    rw [htail] at hread
    obtain ⟨hquotes, hafter⟩ := leavesQuote_of_readAttributes (hasName_of_readAttributes hread) hread
    rw [List.append_cancel_left_eq] at hafter
    have hup : upToBracket ('<' :: close) = ('<' :: '/' :: name.toList, w) := by
      rw [hafter, ← List.cons_append, ← List.cons_append]
      exact upToBracket_append (by simpa using bracket_notMem_of_isElementName hname) w
    refine ⟨by rw [hup], ?_⟩
    exact hadd (.element _ (rawChildren content)) (by simp [settled, hquotes, hraw]) rfl
  | @openRawText name attributes content tail hname hraw hread hcontent =>
    have htail : tail = printTail attributes false ++ (content.toList ++ w) := by
      simpa [writes] using hwritten.symm
    rw [htail] at hread
    obtain ⟨hquotes, hafter⟩ := leavesQuote_of_readAttributes (hasName_of_readAttributes hread) hread
    refine ⟨by simpa using hafter, ?_⟩
    exact hadd (.element _ (rawChildren content)) (by simp [settled, hquotes, hraw]) rfl

/-- A text that is written as it was read leaves a settled state settled. -/
theorem Settled.feed {b : Builder} (h : b.Settled) {cs : List Char} (hlast : b.PlainBefore cs)
    (hwritten : (b.feed cs).print = b.print ++ cs) : (b.feed cs).Settled := by
  induction cs using readPieces.induct generalizing b with
  | case1 =>
    rw [feed_nil]
    exact h
  | case2 c cs _ ih =>
    rw [feed_cons] at hwritten ⊢
    obtain ⟨w, hw, hle⟩ := (b.step (readPiece c cs).1).exists_print_feed (readPiece c cs).2
    have hcs : b.writes (readPiece c cs).1 ++ w = c :: cs := by
      rw [hw, print_step, List.append_assoc, List.append_cancel_left_eq] at hwritten
      exact hwritten
    obtain ⟨rfl, hstep, hplain⟩ := h.step hlast (begins_readPiece c cs) hcs hle
    exact ih hstep hplain hw

end Builder

/-- A text that is written as it was read has only texts that open nothing and values that leave a
quote. -/
theorem settled_of_print_read {html : String} (h : (Document.read html).print = html) :
    settled (Document.read html).children = true := by
  have hprint : (Builder.feed ⟨[], []⟩ html.toList).print = html.toList := by
    rw [← String.toList_ofList (l := Builder.print _), ← print_read, h]
  have hsettled := Builder.Settled.feed ⟨by rw [settled], by simp⟩
    (Builder.plainBefore_of_not_text (b := ⟨[], []⟩) rfl html.toList) hprint
  rw [read_eq, settled_reverse]
  exact Builder.settled_closeAll hsettled.top hsettled.stack (by rw [settled])

/-- A settled document that was read is read back from what it is written as. -/
theorem read_print_read {html : String} (h : settled (Document.read html).children = true) :
    Document.read (Document.read html).print = Document.read html := by
  obtain ⟨left, hshaped⟩ := shaped_read html
  exact read_print_of_shaped hshaped h

/-- Reading once more what was read and written gives the same document exactly if no text of it
opens markup and no value holds both kinds of quotes. It is then written the same. -/
theorem rereading_iff_settled (html : String) :
    (Document.read (Document.read html).print = Document.read html ↔
      settled (Document.read html).children = true) ∧
    (settled (Document.read html).children = true →
      (Document.read (Document.read html).print).print = (Document.read html).print) := by
  refine ⟨⟨fun h => ?_, read_print_read⟩, fun h => congrArg Document.print (read_print_read h)⟩
  rw [← h]
  exact settled_of_print_read (by rw [h])

/-- A bracket that stands alone stays text. -/
theorem loneBracket_reread :
    settled (Document.read "<p>1 < 2</x>").children = true ∧
      (Document.read (Document.read "<p>1 < 2</x>").print).print =
        (Document.read "<p>1 < 2</x>").print := by
  have hread : readPieces "<p>1 < 2</x>".toList =
      [.startTag "p" [] false, .text "1 ", .text "< 2", .endTag "x"] := by
    have hraw : isRawText "p" = false := by decide
    have htrim : trimChars ['x'] = ['x'] := by decide
    simp [readPieces, readPiece, readMarkup, readText, readStartTag, readAttributes, upToBracket,
      isTagNameChar, isAsciiBlank, hraw, htrim, List.takeWhile, List.dropWhile]
  have hdocument : Document.read "<p>1 < 2</x>" =
      { children := [.element ⟨"p", [], false, false⟩ [.text "1 < 2"]] } := by
    rw [Document.read, hread]
    rfl
  have hsettled : settled (Document.read "<p>1 < 2</x>").children = true := by
    simp [hdocument, settled, plainBefore, opensMarkup]
  exact ⟨hsettled, (rereading_iff_settled _).2 hsettled⟩

/-- A value with both kinds of quotes comes apart, and so does a text whose parts only a dropped end
tag kept from opening a tag. -/
theorem rereading_changes_markup :
    ((Document.read "<a b=x\"y'z>").print = "<a b=\"x\"y'z\">" ∧
      (Document.read "<a b=\"x\"y'z\">").print = "<a b=\"x\" y'z\">") ∧
    (Document.read "<</x>b a=1>").print = "<b a=1>" ∧
      (Document.read "<b a=1>").print = "<b a=\"1\">" := by
  have hquotes : readPieces "<a b=x\"y'z>".toList = [.startTag "a" [⟨"b", some "x\"y'z"⟩] false] ∧
      readPieces "<a b=\"x\"y'z\">".toList =
        [.startTag "a" [⟨"b", some "x"⟩, ⟨"y'z\"", none⟩] false] := by
    have hraw : isRawText "a" = false := by decide
    constructor <;>
      simp [readPieces, readPiece, readMarkup, readStartTag, readAttributes, readValue?, readValue,
        isTagNameChar, isAttributeNameChar, isUnquotedChar, isAsciiBlank, hraw, List.takeWhile,
        List.dropWhile]
  have htexts : readPieces "<</x>b a=1>".toList = [.text "<", .endTag "x", .text "b a=1>"] ∧
      readPieces "<b a=1>".toList = [.startTag "b" [⟨"a", some "1"⟩] false] := by
    have hraw : isRawText "b" = false := by decide
    have htrim : trimChars ['x'] = ['x'] := by decide
    constructor <;>
      simp [readPieces, readPiece, readMarkup, readText, readStartTag, readAttributes, readValue?,
        readValue, isTagNameChar, isAttributeNameChar, isUnquotedChar, isAsciiBlank, upToBracket,
        hraw, htrim, List.takeWhile, List.dropWhile]
  simp only [Document.read, hquotes, htexts]
  exact ⟨⟨rfl, rfl⟩, rfl, rfl⟩

end EmailMarkup.Html
