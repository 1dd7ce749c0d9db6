import EmailMarkup.Proofs.Html.Nesting
import EmailMarkup.Proofs.Html.Resume

/-!
# Texts with values filled in

A `TemplatePart` is text that is given, or a place for a value: the start tag of an element, with the
value in an attribute or in the text behind the tag. The value itself has no `<` left in it.

`alike_printParts` says when values cannot be told from the structure of what is read. Whatever the
given texts are, two ways of filling the template are read as alike pieces, if no place for a value
begins inside a comment, a declaration or a tag that a given text left open. It is an induction over
the parts with both readings in step: `Mode.Alike.advance` takes them through given text, and
`Mode.Alike.opening` through a value. Inside raw text that has been left open a value is more of that
text.
-/

set_option autoImplicit false

namespace EmailMarkup.Html

open EmailMarkup.Text

/-! ### The place of a value -/

/-- A start tag and the text behind it. -/
structure Opening where
  name : String
  attributes : List Attribute
  inner : List Char

/-- How an opening is written. -/
def Opening.print (o : Opening) : List Char :=
  '<' :: (o.name.toList ++ (printTail o.attributes false ++ o.inner))

/-- An opening that is read back and has no other bracket than its own. -/
structure Opening.Plain (o : Opening) : Prop where
  name : isTagName o.name = true
  attributes : ∀ a ∈ o.attributes, a.Canonical ∧ '<' ∉ a.print
  inner : '<' ∉ o.inner

/-- An opening may follow given text. -/
theorem Opening.atBracket_print (o : Opening) (more : List Char) : AtBracket (o.print ++ more) := by
  rintro c ⟨⟩
  rfl

/-- The pieces an opening is read as, as far as they are finished. -/
def Opening.pieces (o : Opening) : List Piece :=
  if isRawText o.name then [] else [.startTag o.name o.attributes false]

/-- The mode behind an opening. -/
def Opening.mode (o : Opening) : Mode :=
  if isRawText o.name then .raw o.name o.attributes (String.ofList o.inner)
  else if o.inner.isEmpty then .between
  else .text (String.ofList o.inner)

/-- Raw text goes on through text in which no end tag begins. -/
theorem spanFolded_plain_append {mark cs : List Char} (hcs : '<' ∉ cs) (more : List Char) :
    spanFolded ('<' :: mark) (cs ++ more) =
      (cs ++ (spanFolded ('<' :: mark) more).1, (spanFolded ('<' :: mark) more).2) := by
  induction cs with
  | nil => rfl
  | cons c cs ih =>
    rw [List.mem_cons, not_or] at hcs
    have hnot : ¬ beginsWithFolded ('<' :: mark) (c :: (cs ++ more)) = true := by
      rw [beginsWithFolded_iff]
      exact fun hfront =>
        hcs.1 (eq_bracket_of_toLower (List.cons_prefix_cons.mp hfront).1.symm).symm
    rw [List.cons_append, spanFolded, if_neg hnot, ih hcs.2, List.cons_append]

/-- Raw content without a bracket is taken over unread, since no closing tag begins in it. -/
theorem readRaw_plain_append (name : String) (attributes : List Attribute) (content : String)
    {cs : List Char} (hcs : '<' ∉ cs) (more : List Char) :
    readRaw name attributes content (cs ++ more) =
      readRaw name attributes (content ++ String.ofList cs) more := by
  simp only [readRaw, endMark, spanFolded_plain_append hcs, String.ofList_append,
    String.append_assoc]

/-- Running text goes on to the next bracket. -/
theorem readPieces_text {c : Char} {cs : List Char} (hcs : '<' ∉ c :: cs) (more : List Char) :
    readPieces (c :: cs ++ more) = (Mode.text (String.ofList (c :: cs))).resume more := by
  have hc : ¬ (c == '<') = true := by
    rw [beq_iff_eq]
    rintro rfl
    exact hcs List.mem_cons_self
  have hrest : '<' ∉ cs := fun h => hcs (List.mem_cons_of_mem c h)
  rw [List.cons_append, readPieces, readPiece, if_neg hc, readText,
    List.takeWhile_append_of_pos (bne_of_notMem hrest),
    List.dropWhile_append_of_pos (bne_of_notMem hrest), ← List.cons_append, String.ofList_append]
  rfl

theorem Opening.Plain.tail_notMem {o : Opening} (h : o.Plain) :
    '<' ∉ o.name.toList ++ (printTail o.attributes false ++ o.inner) := by
  have htail : '<' ∉ printTail o.attributes false := by
    unfold printTail
    rw [List.mem_append, List.mem_flatMap, not_or]
    refine ⟨?_, by decide⟩
    rintro ⟨a, ha, hmem⟩
    exact (h.attributes a ha).2 hmem
  rw [List.mem_append, List.mem_append, not_or, not_or]
  exact ⟨(mark_notMem_of_isTagName h.name).1, htail, h.inner⟩

/-- An opening between pieces is read as its start tag, and the text behind it goes on. -/
theorem Opening.Plain.reaches {o : Opening} (h : o.Plain) :
    Mode.between.Reaches (fun _ => True) o.print o.pieces o.mode := by
  intro more _
  have hname := isElementName_of_isTagName h.name
  have hattrs : ∀ a ∈ o.attributes, a.Canonical := fun a ha => (h.attributes a ha).1
  have hprint : o.print ++ more =
      '<' :: (o.name.toList ++ (printTail o.attributes false ++ (o.inner ++ more))) := by
    simp [Opening.print]
  rw [hprint, Opening.pieces, Opening.mode]
  show readPieces _ = _
  rw [readPieces]
  cases hraw : isRawText o.name with
  | true =>
    rw [readPiece_raw hname hraw (readAttributes_printTail o.attributes false _ hattrs)
      (not_isTagNameChar_printTail _ _ _), readRaw_plain_append _ _ _ h.inner]
    simp [Mode.resume]
  | false =>
    have hread := @readPiece_printStart ⟨o.name, o.attributes, false, false⟩ hname hattrs
      (.inl hraw) (o.inner ++ more)
    rw [hread]
    cases hinner : o.inner with
    | nil => rfl
    | cons c cs =>
      rw [readPieces_text (hinner ▸ h.inner) more]
      rfl

/-- An opening inside raw text is more of the text, since no end tag begins in it. -/
theorem Opening.Plain.reaches_raw {o : Opening} (h : o.Plain) (name : String)
    (attributes : List Attribute) (content : String) :
    (Mode.raw name attributes content).Reaches (fun _ => True) o.print []
      (.raw name attributes (content ++ String.ofList o.print)) := by
  intro more _
  obtain ⟨c, cs, hchars, hc, -⟩ := exists_of_isTagName h.name
  have htail := h.tail_notMem
  rw [Opening.print, List.cons_append]
  have hnot : ¬ beginsWithFolded (endMark name)
      ('<' :: (o.name.toList ++ (printTail o.attributes false ++ o.inner) ++ more)) = true := by
    rw [hchars, beginsWithFolded_iff, endMark]
    intro hfront
    -- A letter follows the bracket, and not the slash of an end tag.
    have hslash : c.toLower = '/' :=
      (List.cons_prefix_cons.mp (List.cons_prefix_cons.mp hfront).2).1.symm
    rw [eq_of_toLower (by decide) hslash] at hc
    exact absurd hc (by decide)
  generalize o.name.toList ++ (printTail o.attributes false ++ o.inner) = rest at htail hnot ⊢
  have hread : readRaw name attributes content ('<' :: (rest ++ more)) =
      readRaw name attributes (content ++ String.ofList ('<' :: rest)) more := by
    have hspan : spanFolded (endMark name) ('<' :: (rest ++ more)) =
        ('<' :: rest ++ (spanFolded (endMark name) more).1, (spanFolded (endMark name) more).2) := by
      rw [spanFolded, if_neg hnot, endMark, spanFolded_plain_append htail]
      rfl
    simp only [readRaw, hspan, String.ofList_append, String.append_assoc]
  simp only [Mode.resume, hread, List.nil_append]

/-! ### Complete texts -/

/-- A text that is read as the pieces `ps`, whatever follows. -/
def Complete (cs : List Char) (ps : List Piece) : Prop :=
  Mode.between.Reaches (fun _ => True) cs ps .between

theorem Complete.nil : Complete [] [] :=
  fun _ _ => rfl

/-- Complete texts side by side are complete: the first ends between two pieces. -/
theorem Complete.append {cs cs' : List Char} {ps ps' : List Piece} (h : Complete cs ps)
    (h' : Complete cs' ps') : Complete (cs ++ cs') (ps ++ ps') :=
  h.trans h' fun _ _ => trivial

/-- A complete text leaves nothing open: the bracket behind it is read as text. -/
theorem Complete.leavesOpen_eq {cs : List Char} {ps : List Piece} (h : Complete cs ps) :
    leavesOpen cs = false := by
  have hread := @Mode.leavesOpen_eq .between .between cs [] ps (h ['<'] trivial)
  refine hread.trans ?_
  simp [Mode.leavesOpen, Mode.resume, readPieces, readPiece, readMarkup, readText,
    Piece.takesBracket]

/-- A comment is complete, if the mark that ends it does not occur before its end. -/
theorem Complete.comment {content : String} (h : ¬ "-->".toList <:+: content.toList) :
    Complete ("<!--".toList ++ (content.toList ++ "-->".toList)) [.comment content] := by
  intro more _
  have hread := readPiece_comment h more
  have htext : "<!--".toList ++ (content.toList ++ "-->".toList) ++ more =
      '<' :: '!' :: '-' :: '-' :: (content.toList ++ ("-->".toList ++ more)) := by simp
  rw [htext]
  show readPieces _ = _
  rw [readPieces, hread]
  rfl

theorem Complete.declaration {content : String} (h : IsDeclaration content) :
    Complete content.toList [.declaration content] := by
  intro more _
  obtain ⟨body, hbody, hread⟩ := readPiece_declaration h more
  rw [hbody]
  show readPieces ('<' :: (body ++ more)) = _
  rw [readPieces, hread]
  rfl

theorem Complete.endTag {name : String} (hname : isTagName name = true) :
    Complete ('<' :: '/' :: (name.toList ++ ['>'])) [.endTag name] := by
  intro more _
  have hread := readPiece_endTag (isElementName_of_isTagName hname) (unpadded_of_isTagName hname) more
  have htext : '<' :: '/' :: (name.toList ++ ['>']) ++ more =
      '<' :: '/' :: (name.toList ++ '>' :: more) := by simp
  rw [htext]
  show readPieces _ = _
  rw [readPieces, hread]
  rfl

/-- A start tag is complete, unless raw text is to follow. -/
theorem Opening.Plain.complete {o : Opening} (h : o.Plain) (hraw : isRawText o.name = false)
    (hinner : o.inner = []) : Complete o.print [.startTag o.name o.attributes false] := by
  have hreach := h.reaches
  simp only [Opening.pieces, Opening.mode, hraw, hinner] at hreach
  exact hreach

/-- An element with raw text is complete with its end tag. -/
theorem Opening.Plain.complete_rawText {o : Opening} (h : o.Plain) (hraw : isRawText o.name = true) :
    Complete (o.print ++ '<' :: '/' :: (o.name.toList ++ ['>']))
      [.rawText o.name o.attributes (String.ofList o.inner) true] := by
  intro more _
  have hmark : ¬ endMark o.name <:+: lowerChars (String.ofList o.inner).toList := by
    rw [String.toList_ofList]
    intro hoccurs
    obtain ⟨c, hc, hfold⟩ := List.mem_map.mp (hoccurs.subset (List.mem_cons_self : '<' ∈ endMark _))
    exact h.inner (eq_bracket_of_toLower hfold ▸ hc)
  have hread := readPiece_rawText (isElementName_of_isTagName h.name)
    (fun a ha => (h.attributes a ha).1) hraw hmark more
  rw [String.toList_ofList] at hread
  have htext : o.print ++ '<' :: '/' :: (o.name.toList ++ ['>']) ++ more =
      '<' :: (o.name.toList ++ (printTail o.attributes false ++
        (o.inner ++ '<' :: '/' :: (o.name.toList ++ '>' :: more)))) := by simp [Opening.print]
  rw [htext]
  show readPieces _ = _
  rw [readPieces, hread]
  rfl

/-! ### Two values -/

/-- The same place filled with two values. Where text is a piece of its own, there is some in both
or in none. -/
structure Opening.Alike (V : String → List Attribute → List Attribute → Prop) (o o' : Opening) :
    Prop where
  name : o'.name = o.name
  attributes : V o.name o.attributes o'.attributes
  inner : isRawText o.name = true ∨ o'.inner.isEmpty = o.inner.isEmpty

variable {V : String → List Attribute → List Attribute → Prop}

theorem Opening.Alike.pieces {o o' : Opening} (h : Opening.Alike V o o') :
    List.Forall₂ (Piece.Alike V) o.pieces o'.pieces := by
  unfold Opening.pieces
  rw [h.name]
  split
  · exact .nil
  · exact .cons (.startTag h.attributes false) .nil

/-- Openings that are alike leave the reader in modes that are alike. -/
theorem Opening.Alike.mode {o o' : Opening} (h : Opening.Alike V o o') :
    Mode.Alike V o.mode o'.mode := by
  unfold Opening.mode
  rw [h.name]
  split
  · rename_i hraw
    exact .raw hraw h.attributes _ _
  · rename_i hraw
    rw [h.inner.resolve_left hraw]
    split
    · exact .between
    · exact .text _ _

/-- The place of a value keeps two readings in step. -/
theorem Mode.Alike.opening {m m' : Mode} (hm : Mode.Alike V m m') {o o' : Opening}
    (h : Opening.Alike V o o') (ho : o.Plain) (ho' : o'.Plain) :
    ∃ n n', Mode.Alike V n n' ∧ Mode.Steps V (fun _ => True) m m' o.print o'.print n n' := by
  cases hm with
  | between => exact ⟨_, _, h.mode, _, _, h.pieces, ho.reaches, ho'.reaches⟩
  | text content content' =>
    -- The running text ends, and the opening is read between pieces.
    have hends : ∀ {o : Opening}, o.Plain → ∀ content, (Mode.text content).Reaches (fun _ => True)
        o.print (.text content :: o.pieces) o.mode := fun hplain content more _ =>
      (Mode.resume_text_bracket content _).trans
        (congrArg (.text content :: ·) (hplain.reaches more trivial))
    exact ⟨_, _, h.mode, _, _, .cons (.text _ _) h.pieces, hends ho content, hends ho' content'⟩
  | raw hraw htag content content' =>
    exact ⟨_, _, .raw hraw htag _ _, [], [], .nil, ho.reaches_raw _ _ content,
      ho'.reaches_raw _ _ content'⟩

/-! ### Templates -/

/-- A part of a template whose places are filled from values of a type `ι`. -/
inductive TemplatePart (ι : Type) where
  | given (text : List Char)
  | value (opening : ι → Opening)

section Parts
variable {ι : Type}

/-- A part as it is written for a value. -/
def TemplatePart.print (v : ι) : TemplatePart ι → List Char
  | .given text => text
  | .value opening => (opening v).print

/-- Parts as they are written for a value. -/
def printParts (v : ι) (parts : List (TemplatePart ι)) : List Char :=
  parts.flatMap (TemplatePart.print v)

theorem TemplatePart.print_given (v : ι) (text : List Char) :
    (TemplatePart.given text).print v = text :=
  rfl

theorem printParts_nil (v : ι) : printParts v [] = [] :=
  rfl

theorem printParts_cons (v : ι) (part : TemplatePart ι) (parts : List (TemplatePart ι)) :
    printParts v (part :: parts) = part.print v ++ printParts v parts :=
  rfl

theorem printParts_append (v : ι) (parts parts' : List (TemplatePart ι)) :
    printParts v (parts ++ parts') = printParts v parts ++ printParts v parts' :=
  List.flatMap_append

/-- A part whose place takes both of two values. -/
def TemplatePart.Takes (V : String → List Attribute → List Attribute → Prop) (v v' : ι) :
    TemplatePart ι → Prop
  | .given _ => True
  | .value opening =>
    Opening.Alike V (opening v) (opening v') ∧ (opening v).Plain ∧ (opening v').Plain

/-- Behind the text `done`, the places of values among parts are apart from the given texts: none of
them begins where a comment, a declaration or a tag is open. -/
def KeptApart (v : ι) (done : List Char) : List (TemplatePart ι) → Prop
  | [] => True
  | .given text :: parts => KeptApart v (done ++ text) parts
  | .value opening :: parts =>
    leavesOpen done = false ∧ KeptApart v (done ++ (opening v).print) parts

/-- Parts are kept apart if the first ones are, and the others behind what those print. -/
theorem keptApart_append {v : ι} {done : List Char} {parts parts' : List (TemplatePart ι)} :
    KeptApart v done (parts ++ parts') ↔
      KeptApart v done parts ∧ KeptApart v (done ++ printParts v parts) parts' := by
  induction parts generalizing done with
  | nil => simp [KeptApart, printParts]
  | cons part parts ih =>
    cases part with
    | given text => simp [KeptApart, ih, printParts_cons, TemplatePart.print]
    | value opening => simp [KeptApart, ih, printParts_cons, TemplatePart.print, and_assoc]

/-- The run from any state. So far the text `done` was read, and the given text `pending` stands
before the next place. -/
theorem alike_resume_printParts (hrefl : ∀ name attributes, V name attributes attributes)
    {v v' : ι} {parts : List (TemplatePart ι)} (hparts : ∀ part ∈ parts, part.Takes V v v')
    {done : List Char} {ps : List Piece} {m m' : Mode}
    (hdone : Mode.between.Reaches (fun _ => True) done ps m) (hm : Mode.Alike V m m')
    (pending : List Char) (hapart : KeptApart v (done ++ pending) parts) :
    List.Forall₂ (Piece.Alike V) (m.resume (pending ++ printParts v parts))
      (m'.resume (pending ++ printParts v' parts)) := by
  induction parts generalizing done ps m m' pending with
  | nil =>
    simp only [printParts, List.flatMap_nil, List.append_nil]
    exact hm.resume hrefl pending
  | cons part parts ih =>
    obtain ⟨hpart, hrest⟩ := List.forall_mem_cons.mp hparts
    cases part with
    | given text =>
      rw [KeptApart, List.append_assoc] at hapart
      have hmore := ih hrest hdone hm (pending ++ text) hapart
      simpa [printParts, TemplatePart.print] using hmore
    | value opening =>
      obtain ⟨halike, hplain, hplain'⟩ := hpart
      obtain ⟨hopen, hapart⟩ := hapart
      have hpending : m.leavesOpen pending = false := by
        have hread := hdone (pending ++ ['<']) trivial
        rw [← List.append_assoc] at hread
        exact (Mode.leavesOpen_eq hread).symm.trans hopen
      obtain ⟨n, n', hn, ps₁, ps₁', hps₁, hreach, hreach'⟩ := hm.advance hrefl hpending
      obtain ⟨k, k', hk, ps₂, ps₂', hps₂, hnext, hnext'⟩ := hn.opening halike hplain hplain'
      have hto := hreach.trans hnext fun more _ => (opening v).atBracket_print more
      have hto' := hreach'.trans hnext' fun more _ => (opening v').atBracket_print more
      -- Both readings are behind the place now, and no given text is pending.
      have hmore := ih hrest (hdone.trans hto fun _ _ => trivial) hk []
        (by rwa [List.append_nil, ← List.append_assoc])
      have hprint : ∀ w, pending ++ printParts w (.value opening :: parts) =
          (pending ++ (opening w).print) ++ printParts w parts := fun w => by
        simp [printParts, TemplatePart.print]
      rw [hprint v, hprint v', hto _ trivial, hto' _ trivial]
      exact List.rel_append (List.rel_append hps₁ hps₂) hmore

/-- Two ways of filling a template are read as alike pieces, if the places of values are apart from
the given texts. -/
theorem alike_printParts (hrefl : ∀ name attributes, V name attributes attributes) {v v' : ι}
    {parts : List (TemplatePart ι)} (hparts : ∀ part ∈ parts, part.Takes V v v')
    (hapart : KeptApart v [] parts) :
    List.Forall₂ (Piece.Alike V) (readPieces (printParts v parts))
      (readPieces (printParts v' parts)) := by
  have hstart : Mode.between.Reaches (fun _ => True) [] [] .between := fun _ _ => rfl
  exact alike_resume_printParts hrefl hparts hstart .between [] hapart

end Parts

end EmailMarkup.Html
