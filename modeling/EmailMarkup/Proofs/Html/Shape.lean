import EmailMarkup.Proofs.Html.Forest
import EmailMarkup.Proofs.Html.Hollow
import EmailMarkup.Proofs.Html.Piece

/-!
# Reading undoes writing

A tree can be written in ways that reading does not give back. Two things are asked of it.

* `Shaped` is about how its nodes stand: no text beside another, content only where there can be
  some, and an element without an end tag only as the last of its siblings, since whatever follows
  its start tag is read into it. Every document that was read is of this kind.
* `settled` is about what texts and values say: no `<` of a text opens markup, and no value holds
  both kinds of quotes.

`read_print_of_shaped` says that a document with both properties is read back as it was written.

The reader takes one piece at a time and puts it into a document in the making. `Builder.feed` is
that loop from any state, and `Shaped.readsBack` is the law behind `read_print_of_shaped`:
from every state, reading what nodes are written as, with more text behind, leads to a state that is
as good as the one with these nodes added. It need not be the same state. Elements that were left
without an end tag are still open in it, and `Builder.LeftOpen` says that this makes no difference
once they are closed from outside. The induction is over the derivation of `Shaped`, and the state is
general because the content of an element is read while the element is open.
-/

set_option autoImplicit false

namespace EmailMarkup.Html

open EmailMarkup.Text

variable {cs rest : List Char} {content : String} {ended : Bool} {left : List String} {c : Char}

/-! ### Texts that open nothing -/

/-- Whether what follows a `<` makes it the beginning of a tag, a comment or a declaration. -/
def opensMarkup : List Char → Bool
  | [] => false
  | c :: cs => c == '!' || c == '?' || c.isAlpha || c == '/' && cs.head?.any Char.isAlpha

/-- Whether no `<` of a text opens markup, where `rest` follows the text. -/
def plainBefore (rest : List Char) : List Char → Bool
  | [] => true
  | c :: cs => !(c == '<' && opensMarkup (cs ++ rest)) && plainBefore rest cs

/-- What does not open markup is read as text, together with its bracket. -/
theorem readMarkup_of_not_opens (h : opensMarkup cs = false) : readMarkup cs = readText '<' cs := by
  unfold readMarkup
  split
  · cases h
  · cases h
  · cases h
  · rename_i c rest
    have hc : c.isAlpha = false := by simpa [opensMarkup] using h
    rw [if_neg (by simp [hc])]
  · rename_i c rest _ _ _ _
    have hc : c.isAlpha = false := by
      simp only [opensMarkup, Bool.or_eq_false_iff] at h
      exact h.1.2
    rw [if_neg (by simp [hc])]
  · rfl

/-- A character that opens no markup is read as running text. -/
theorem readPiece_of_not_opens (h : c = '<' → opensMarkup cs = false) :
    readPiece c cs = readText c cs := by
  rw [readPiece]
  split
  · rename_i hbracket
    rw [beq_iff_eq] at hbracket
    subst hbracket
    exact readMarkup_of_not_opens (h rfl)
  · rfl

/-- Where a bracket or nothing follows a text, it makes no difference to what the text opens. -/
theorem opensMarkup_append (hrest : ∀ c ∈ rest.head?, c = '<') :
    opensMarkup (cs ++ rest) = opensMarkup cs := by
  have hhead : rest.head?.any Char.isAlpha = false := by
    rw [Option.any_eq_false]
    intro c hc
    rw [hrest c hc]
    decide
  cases cs with
  | nil =>
    cases rest with
    | nil => rfl
    | cons d rest =>
      rw [hrest d rfl]
      rfl
  | cons c cs =>
    cases cs with
    | nil => simp [opensMarkup, hhead]
    | cons d cs => simp [opensMarkup]

theorem plainBefore_append (rest a b : List Char) :
    plainBefore rest (a ++ b) = (plainBefore (b ++ rest) a && plainBefore rest b) := by
  induction a with
  | nil => rfl
  | cons c a ih =>
    rw [List.cons_append, plainBefore, plainBefore, ih, List.append_assoc, Bool.and_assoc]

/-- Where a bracket or nothing follows a text, the text opens markup on its own or not at all. -/
theorem plainBefore_of_head (hrest : ∀ c ∈ rest.head?, c = '<') (cs : List Char) :
    plainBefore rest cs = plainBefore [] cs := by
  induction cs with
  | nil => rfl
  | cons c cs ih => rw [plainBefore, plainBefore, opensMarkup_append hrest, List.append_nil, ih]

/-- A text without a bracket opens nothing. -/
theorem plainBefore_of_bracket_notMem (h : '<' ∉ cs) (rest : List Char) :
    plainBefore rest cs = true := by
  induction cs with
  | nil => rfl
  | cons c cs ih =>
    rw [List.mem_cons, not_or] at h
    rw [plainBefore, ih h.2]
    simp [Ne.symm h.1]

/-! ### Documents that can be read back -/

/-- Whether no text opens markup and no value holds both kinds of quotes, at every depth. The content
of an element with raw text may say anything. -/
def settled : List Node → Bool
  | [] => true
  | .text content :: rest => plainBefore [] content.toList && settled rest
  | .element tag children :: rest =>
    tag.attributes.all Attribute.leavesQuote && (isRawText tag.name || settled children) &&
      settled rest
  | _ :: rest => settled rest

/-- The children of an element with raw text: its content, if there is any. -/
def rawChildren (content : String) : List Node :=
  if content.isEmpty then [] else [.text content]

theorem printNodes_rawChildren (content : String) :
    printNodes (rawChildren content) = content.toList := by
  unfold rawChildren
  split
  · rename_i hempty
    rw [String.isEmpty_iff.mp hempty]
    rfl
  · simp [printNodes, Node.print]

/-- Nodes side by side as reading makes them. The names are those of the elements at their end that
have no end tag, outermost first. Only where the text ends (`ended`) may a declaration or an element
with raw text be unfinished. -/
inductive Shaped : Bool → List String → List Node → Prop
  | nil {ended : Bool} : Shaped ended [] []
  | text {ended : Bool} {left : List String} {content : String} {rest : List Node}
      (hne : content ≠ "") (hapart : startsWithText rest = false)
      (hrest : Shaped ended left rest) : Shaped ended left (.text content :: rest)
  | comment {ended : Bool} {left : List String} {content : String} {rest : List Node}
      (hopen : ¬ "-->".toList <:+: content.toList) (hrest : Shaped ended left rest) :
      Shaped ended left (.comment content :: rest)
  | declaration {ended : Bool} {left : List String} {content : String} {rest : List Node}
      (hform : IsDeclaration content) (hrest : Shaped ended left rest) :
      Shaped ended left (.declaration content :: rest)
  | openDeclaration {content : String} (hform : IsOpenDeclaration content) :
      Shaped true [] [.declaration content]
  /-- An element that cannot have content. -/
  | hollow {ended : Bool} {left : List String} {name : String} {attributes : List Attribute}
      {selfClosing : Bool} {rest : List Node} (hname : isElementName name = true)
      (hattrs : ∀ a ∈ attributes, a.HasName)
      (hhollow : selfClosing = true ∨ isVoid name = true) (hrest : Shaped ended left rest) :
      Shaped ended left (.element { name, attributes, selfClosing, closed := false } [] :: rest)
  | rawText {ended : Bool} {left : List String} {name : String} {attributes : List Attribute}
      {content : String} {rest : List Node} (hname : isElementName name = true)
      (hattrs : ∀ a ∈ attributes, a.HasName) (hraw : isRawText name = true)
      (hcontent : ¬ endMark name <:+: lowerChars content.toList) (hrest : Shaped ended left rest) :
      Shaped ended left (.element { name, attributes, selfClosing := false, closed := true }
        (rawChildren content) :: rest)
  | openRawText {name : String} {attributes : List Attribute} {content : String}
      (hname : isElementName name = true) (hattrs : ∀ a ∈ attributes, a.HasName)
      (hraw : isRawText name = true) (hcontent : ¬ endMark name <:+: lowerChars content.toList) :
      Shaped true [] [.element { name, attributes, selfClosing := false, closed := false }
        (rawChildren content)]
  /-- An element with an end tag, which closes none of the elements left open in it. -/
  | container {ended : Bool} {left inner : List String} {name : String}
      {attributes : List Attribute} {children rest : List Node} (hname : isElementName name = true)
      (hpad : Unpadded name.toList) (hattrs : ∀ a ∈ attributes, a.HasName)
      (hvoid : isVoid name = false) (hraw : isRawText name = false)
      (hchildren : Shaped false inner children) (hinner : ∀ n ∈ inner, sameName n name = false)
      (hrest : Shaped ended left rest) :
      Shaped ended left (.element { name, attributes, selfClosing := false, closed := true }
        children :: rest)
  /-- An element without an end tag: what follows its start tag is all in it. -/
  | openContainer {ended : Bool} {inner : List String} {name : String}
      {attributes : List Attribute} {children : List Node} (hname : isElementName name = true)
      (hattrs : ∀ a ∈ attributes, a.HasName) (hvoid : isVoid name = false)
      (hraw : isRawText name = false) (hchildren : Shaped ended inner children) :
      Shaped ended (name :: inner)
        [.element { name, attributes, selfClosing := false, closed := false } children]

/-- A declaration begins with a bracket, finished or not. -/
theorem Shaped.exists_of_declaration {rest : List Node}
    (h : Shaped ended left (.declaration content :: rest)) :
    ∃ body, content.toList = '<' :: body := by
  cases h with
  | declaration hform | openDeclaration hform =>
    obtain ⟨c, body, hcontent, -, -⟩ := hform.form
    exact ⟨_, hcontent⟩

/-- What nodes without a text in front are written as begins with a bracket. -/
theorem Shaped.head_printNodes {nodes : List Node} (h : Shaped ended left nodes)
    (hapart : startsWithText nodes = false) (hrest : ∀ c ∈ rest.head?, c = '<') :
    ∀ c ∈ (printNodes nodes ++ rest).head?, c = '<' := by
  cases nodes with
  | nil => exact hrest
  | cons n nodes =>
    rw [printNodes]
    cases n with
    | text => cases hapart
    | comment => simp [Node.print]
    | declaration content =>
      obtain ⟨body, hcontent⟩ := h.exists_of_declaration
      simp [Node.print, hcontent]
    | element tag children =>
      rw [Node.print, Tag.printStart_eq]
      split <;> simp

/-! ### Documents in the making -/

/-- Text that follows text joins it. -/
theorem joinText_joinText (a b : String) (children : List Node) :
    joinText b (joinText a children) = joinText (a ++ b) children := by
  unfold joinText
  cases children with
  | nil => rfl
  | cons n rest => cases n <;> simp [String.append_assoc]

/-- Text that follows no text is a node of its own. -/
theorem joinText_eq_cons {children : List Node} (hlast : startsWithText children = false)
    (content : String) : joinText content children = .text content :: children := by
  unfold joinText
  split
  · cases hlast
  · rfl

/-- Nodes that wait to join the innermost element may join it before elements are closed. -/
theorem closeThrough_inner (name : String) (inner : List Node) (b : Builder) :
    closeThrough name inner b.top b.stack =
      closeThrough name [] (b.onChildren (inner ++ ·)).top (b.onChildren (inner ++ ·)).stack := by
  obtain ⟨top, stack⟩ := b
  cases stack with
  | nil | cons e rest => rfl

/-- Nodes that wait to join the innermost element may join it before all elements are closed. -/
theorem closeAll_inner (inner : List Node) (b : Builder) :
    closeAll inner b.top b.stack =
      closeAll [] (b.onChildren (inner ++ ·)).top (b.onChildren (inner ++ ·)).stack := by
  obtain ⟨top, stack⟩ := b
  cases stack with
  | nil | cons e rest => rfl

namespace Builder

/-- The children that the next node joins, latest first. -/
def children (b : Builder) : List Node :=
  match b.stack with
  | [] => b.top
  | e :: _ => e.children

/-- What a change makes of the children depends on these children only. -/
theorem onChildren_congr {b : Builder} {f g : List Node → List Node}
    (h : f b.children = g b.children) : b.onChildren f = b.onChildren g := by
  obtain ⟨top, stack⟩ := b
  cases stack with
  | nil =>
    show Builder.mk (f top) [] = Builder.mk (g top) []
    rw [show f top = g top from h]
  | cons e rest =>
    show Builder.mk top ({ e with children := f e.children } :: rest) =
      Builder.mk top ({ e with children := g e.children } :: rest)
    rw [show f e.children = g e.children from h]

/-- Changing the children is seen in them. -/
@[simp]
theorem children_onChildren (b : Builder) (f : List Node → List Node) :
    (b.onChildren f).children = f b.children := by
  unfold onChildren children
  cases b.stack <;> rfl

/-- Two changes of the children are one. -/
theorem onChildren_onChildren (b : Builder) (f g : List Node → List Node) :
    (b.onChildren f).onChildren g = b.onChildren fun children => g (f children) := by
  unfold onChildren
  cases b.stack <;> rfl

/-- Whether an element of a name is open. -/
def isOpen (b : Builder) (name : String) : Bool :=
  b.stack.any fun e => sameName e.name name

/-- Changing the children opens and closes nothing. -/
theorem isOpen_onChildren (b : Builder) (f : List Node → List Node) (name : String) :
    (b.onChildren f).isOpen name = b.isOpen name := by
  unfold onChildren isOpen
  cases b.stack <;> rfl

/-- An end tag closes what is open under its name, and nothing else. -/
theorem step_endTag (b : Builder) (name : String) :
    b.step (.endTag name) = if b.isOpen name then closeThrough name [] b.top b.stack else b := rfl

/-- Adds nodes behind the children. -/
def add (b : Builder) (nodes : List Node) : Builder :=
  b.onChildren (nodes.reverse ++ ·)

@[simp]
theorem add_nil (b : Builder) : b.add [] = b := by
  unfold add onChildren
  obtain ⟨top, stack⟩ := b
  cases stack <;> rfl

/-- Nodes can be added one at a time. -/
theorem add_cons (b : Builder) (n : Node) (nodes : List Node) :
    b.add (n :: nodes) = (b.onChildren (n :: ·)).add nodes := by
  unfold add
  rw [onChildren_onChildren]
  simp

/-- Opens an element. -/
def push (b : Builder) (name : String) (attributes : List Attribute) : Builder :=
  { b with stack := { name, attributes, children := [] } :: b.stack }

/-- Takes in all pieces of a text. -/
def feed (b : Builder) (cs : List Char) : Builder :=
  (readPieces cs).foldl step b

@[simp]
theorem feed_nil (b : Builder) : b.feed [] = b := by
  rw [feed, readPieces]
  rfl

/-- The first piece of a text is taken in first. -/
theorem feed_cons (b : Builder) (c : Char) (cs : List Char) :
    b.feed (c :: cs) = (b.step (readPiece c cs).1).feed (readPiece c cs).2 := by
  rw [feed, readPieces, List.foldl_cons]
  rfl

theorem feed_of_readPiece {b : Builder} {piece : Piece} (h : readPiece c cs = (piece, rest)) :
    b.feed (c :: cs) = (b.step piece).feed rest := by
  rw [feed_cons, h]

/-- Behind a node that is no text, text begins a node of its own. -/
theorem startsWithText_onChildren_cons (b : Builder) {n : Node} (hn : startsWithText [n] = false) :
    startsWithText (b.onChildren (n :: ·)).children = false := by
  rw [children_onChildren]
  cases n with
  | text => cases hn
  | comment | declaration | element => rfl

/-! ### Elements left open -/

/-- A state that is as good as `b`, except that the elements `left` at the end of `b` are still open
in it. Closing an element around them gives the same, and so does closing all. -/
structure LeftOpen (left : List String) (b b' : Builder) : Prop where
  isOpen : ∀ name, b.isOpen name = true → b'.isOpen name = true
  close : ∀ name, (∀ n ∈ left, sameName n name = false) →
    closeThrough name [] b'.top b'.stack = closeThrough name [] b.top b.stack
  closeAll : closeAll [] b'.top b'.stack = Html.closeAll [] b.top b.stack

theorem LeftOpen.refl (b : Builder) : LeftOpen [] b b :=
  ⟨fun _ h => h, fun _ _ => rfl, rfl⟩

/-- An element whose children are all there may be left open. -/
theorem LeftOpen.push {b b' : Builder} {name : String} {attributes : List Attribute}
    {children : List Node} {inner : List String}
    (h : LeftOpen inner ((b.push name attributes).add children) b') :
    LeftOpen (name :: inner) (b.add
      [.element { name, attributes, selfClosing := false, closed := false } children]) b' := by
  let e : OpenElement := { name, attributes, children := children.reverse }
  have hpush : (b.push name attributes).add children = { b with stack := e :: b.stack } := by
    simp [add, Builder.push, onChildren, e]
  have hadd : b.add [.element { name, attributes, selfClosing := false, closed := false }
      children] = b.onChildren ([e.finish false] ++ ·) := by
    simp [add, OpenElement.finish, e]
  rw [hpush] at h
  rw [hadd]
  refine ⟨?_, ?_, ?_⟩
  · intro other hopen
    rw [isOpen_onChildren] at hopen
    refine h.isOpen other ?_
    rw [Builder.isOpen, List.any_cons, Bool.or_eq_true]
    exact .inr hopen
  · intro other hleft
    rw [h.close other fun n hn => hleft n (List.mem_cons_of_mem name hn), closeThrough,
      ← closeThrough_inner]
    simp [e, hleft name List.mem_cons_self]
  · rw [h.closeAll, Html.closeAll, ← closeAll_inner]
    simp [e]

/-- The end tag of an element closes it, together with the elements left open in it. -/
theorem LeftOpen.step_endTag {b b' : Builder} {name : String} {attributes : List Attribute}
    {children : List Node} {inner : List String}
    (h : LeftOpen inner ((b.push name attributes).add children) b')
    (hinner : ∀ n ∈ inner, sameName n name = false) :
    b'.step (.endTag name) = b.onChildren
      (.element { name, attributes, selfClosing := false, closed := true } children :: ·) := by
  have hopen : ((b.push name attributes).add children).isOpen name = true := by
    rw [add, isOpen_onChildren]
    simp [Builder.push, Builder.isOpen]
  rw [Builder.step_endTag, if_pos (h.isOpen name hopen), h.close name hinner]
  simp [add, Builder.push, onChildren, closeThrough, OpenElement.finish]

/-! ### Reading one node -/

/-- Text in two parts is taken in as one. -/
theorem step_text_step_text (b : Builder) (x y : String) :
    (b.step (.text x)).step (.text y) = b.step (.text (x ++ y)) := by
  show (b.onChildren (joinText x)).onChildren (joinText y) = b.onChildren (joinText (x ++ y))
  rw [onChildren_onChildren]
  exact onChildren_congr (joinText_joinText x y _)

/-- Text joins the children as a node of its own, unless it follows text. -/
theorem step_text {b : Builder} (hlast : startsWithText b.children = false) (content : String) :
    b.step (.text content) = b.onChildren (.text content :: ·) :=
  onChildren_congr (joinText_eq_cons hlast content)

/-- A character that opens nothing is read as text, and what follows it is read on its own. -/
theorem feed_cons_of_not_opens (b : Builder) (h : c = '<' → opensMarkup cs = false) :
    b.feed (c :: cs) = (b.step (.text (String.ofList [c]))).feed cs := by
  rw [feed_of_readPiece (readPiece_of_not_opens h)]
  cases cs with
  | nil => simp
  | cons d ds =>
    by_cases hd : d = '<'
    · subst hd
      simp
    · -- The reader goes on to the next bracket; here it stops in between and goes on as text.
      rw [feed_of_readPiece (readPiece_of_not_opens fun heq => absurd heq hd), step_text_step_text,
        List.takeWhile_cons_of_pos (by simpa using hd), List.dropWhile_cons_of_pos (by simpa using hd),
        ← String.ofList_append, List.singleton_append]

/-- A text that opens nothing is read as text. -/
theorem feed_append_of_plain (b : Builder) (hne : cs ≠ []) (hplain : plainBefore rest cs = true) :
    b.feed (cs ++ rest) = (b.step (.text (String.ofList cs))).feed rest := by
  induction cs generalizing b with
  | nil => exact absurd rfl hne
  | cons c cs ih =>
    rw [plainBefore, Bool.and_eq_true, Bool.not_eq_true', Bool.and_eq_false_iff] at hplain
    have hc : c = '<' → opensMarkup (cs ++ rest) = false := by
      intro heq
      rcases hplain.1 with h | h
      · rw [heq] at h
        cases h
      · exact h
    rw [List.cons_append, feed_cons_of_not_opens b hc]
    cases cs with
    | nil => rfl
    | cons d ds =>
      rw [ih _ (List.cons_ne_nil d ds) hplain.2, step_text_step_text, ← String.ofList_append,
        List.singleton_append]

section Node
variable (b : Builder) (after : List Char)

/-- Reading a text adds it, if no other text is next to it. -/
theorem feed_print_text (hne : content ≠ "") (hplain : plainBefore [] content.toList = true)
    (hlast : startsWithText b.children = false) (hafter : ∀ c ∈ after.head?, c = '<') :
    b.feed ((Node.text content).print ++ after) =
      (b.onChildren (.text content :: ·)).feed after := by
  rw [Node.print, feed_append_of_plain b (mt String.toList_eq_nil_iff.mp hne)
    (by rw [plainBefore_of_head hafter, hplain]), String.ofList_toList, step_text hlast]

/-- Reading a comment adds it. -/
theorem feed_print_comment (hopen : ¬ "-->".toList <:+: content.toList) :
    b.feed ((Node.comment content).print ++ after) =
      (b.onChildren (.comment content :: ·)).feed after := by
  have hread := readPiece_comment hopen after
  have hsplit : (Node.comment content).print ++ after =
      '<' :: '!' :: '-' :: '-' :: (content.toList ++ ("-->".toList ++ after)) := by
    simp [Node.print]
  rw [hsplit, feed_of_readPiece hread]
  rfl

/-- Reading a declaration adds it. -/
theorem feed_print_declaration (hform : IsDeclaration content) :
    b.feed ((Node.declaration content).print ++ after) =
      (b.onChildren (.declaration content :: ·)).feed after := by
  obtain ⟨body, hcontent, hread⟩ := readPiece_declaration hform after
  rw [Node.print, hcontent, List.cons_append, feed_of_readPiece hread]
  rfl

/-- Reading a declaration that nothing closes adds it. -/
theorem feed_print_openDeclaration (hform : IsOpenDeclaration content) :
    b.feed (Node.declaration content).print = b.onChildren (.declaration content :: ·) := by
  obtain ⟨body, hcontent, hread⟩ := readPiece_openDeclaration hform
  rw [Node.print, hcontent, feed_of_readPiece hread, feed_nil]
  rfl

variable {name : String} {attributes : List Attribute} (hname : isElementName name = true)
  (hattrs : ∀ a ∈ attributes, a.Canonical)

include hname hattrs

/-- Reading an element without content and without an end tag adds it. -/
theorem feed_print_hollow {selfClosing : Bool} (hhollow : selfClosing = true ∨ isVoid name = true) :
    b.feed ((Node.element { name, attributes, selfClosing, closed := false } []).print ++ after) =
      (b.onChildren (.element { name, attributes, selfClosing, closed := false } [] :: ·)).feed
        after := by
  have hraw : isRawText name = false ∨ selfClosing = true := by
    rcases hhollow with h | h
    · exact Or.inr h
    · exact Or.inl (isRawText_of_isVoid h)
  have hread := @readPiece_printStart { name, attributes, selfClosing, closed := false }
    hname hattrs hraw after
  have hprint : (Node.element { name, attributes, selfClosing, closed := false } []).print =
      '<' :: (name.toList ++ printTail attributes selfClosing) := by
    simp [Node.print, Tag.printStart_eq, Tag.printEnd, printNodes]
  have hstep : b.step (.startTag name attributes selfClosing) = b.onChildren
      (.element { name, attributes, selfClosing, closed := false } [] :: ·) := by
    rw [step, if_pos (by simpa using hhollow)]
  rw [hprint, List.cons_append, List.append_assoc, feed_of_readPiece hread, hstep]

/-- Reading an element with raw text adds it together with its content. -/
theorem feed_print_rawText (hraw : isRawText name = true)
    (hcontent : ¬ endMark name <:+: lowerChars content.toList) :
    b.feed ((Node.element { name, attributes, selfClosing := false, closed := true }
        (rawChildren content)).print ++ after) =
      (b.onChildren (.element { name, attributes, selfClosing := false, closed := true }
        (rawChildren content) :: ·)).feed after := by
  have hread := readPiece_rawText hname hattrs hraw hcontent after
  have hsplit : (Node.element { name, attributes, selfClosing := false, closed := true }
      (rawChildren content)).print ++ after =
      '<' :: (name.toList ++ (printTail attributes false ++ (content.toList ++
        '<' :: '/' :: (name.toList ++ '>' :: after)))) := by
    simp [Node.print, Tag.printStart_eq, Tag.printEnd, printNodes_rawChildren]
  rw [hsplit, feed_of_readPiece hread]
  rfl

/-- Reading an element with raw text that nothing closes adds it together with its content. -/
theorem feed_print_openRawText (hraw : isRawText name = true)
    (hcontent : ¬ endMark name <:+: lowerChars content.toList) :
    b.feed (Node.element { name, attributes, selfClosing := false, closed := false }
        (rawChildren content)).print =
      b.onChildren (.element { name, attributes, selfClosing := false, closed := false }
        (rawChildren content) :: ·) := by
  have hread := readPiece_openRawText hname hattrs hraw hcontent
  have hsplit : (Node.element { name, attributes, selfClosing := false, closed := false }
      (rawChildren content)).print =
      '<' :: (name.toList ++ (printTail attributes false ++ content.toList)) := by
    simp [Node.print, Tag.printStart_eq, Tag.printEnd, printNodes_rawChildren]
  rw [hsplit, feed_of_readPiece hread, feed_nil]
  rfl

/-- Reading the start tag of an element that may have content opens the element. -/
theorem feed_printStart (hvoid : isVoid name = false) (hraw : isRawText name = false)
    (closed : Bool) :
    b.feed (Tag.printStart { name, attributes, selfClosing := false, closed } ++ after) =
      (b.push name attributes).feed after := by
  have hread := @readPiece_printStart { name, attributes, selfClosing := false, closed }
    hname hattrs (Or.inl hraw) after
  have hstep : b.step (.startTag name attributes false) = b.push name attributes := by
    rw [step, hvoid, Bool.or_false, if_neg (by decide)]
    rfl
  rw [Tag.printStart_eq, List.cons_append, List.append_assoc, feed_of_readPiece hread, hstep]

end Node

/-! ### Reading what was written -/

/-- Reading what nodes are written as leads from the state `b` to a state with these nodes added, in
which the elements `left` are still open. -/
def ReadsBack (b : Builder) (ended : Bool) (left : List String) (nodes : List Node) : Prop :=
  ∃ b', LeftOpen left (b.add nodes) b' ∧ ∀ after : List Char, (ended = true → after = []) →
    (∀ c ∈ after.head?, c = '<') → b.feed (printNodes nodes ++ after) = b'.feed after

/-- Nodes are read one after the other: the first is added, then the others are read. -/
theorem ReadsBack.cons {b : Builder} {ended : Bool} {left : List String} {n : Node}
    {rest : List Node}
    (hnode : ∀ after : List Char, (∀ c ∈ after.head?, c = '<') →
      b.feed (n.print ++ (printNodes rest ++ after)) =
        (b.onChildren (n :: ·)).feed (printNodes rest ++ after))
    (hrest : (b.onChildren (n :: ·)).ReadsBack ended left rest) :
    b.ReadsBack ended left (n :: rest) := by
  obtain ⟨b', hopen, hfeed⟩ := hrest
  rw [← add_cons] at hopen
  refine ⟨b', hopen, ?_⟩
  intro after hended hafter
  rw [printNodes, List.append_assoc, hnode after hafter, hfeed after hended hafter]

/-- A node at the end of a text may be one that nothing closes. -/
theorem ReadsBack.last {b : Builder} {n : Node}
    (hnode : b.feed n.print = b.onChildren (n :: ·)) : b.ReadsBack true [] [n] := by
  refine ⟨b.add [n], .refl _, ?_⟩
  intro after hended _
  rw [hended rfl, printNodes, printNodes, List.append_nil, List.append_nil, hnode, feed_nil]
  rfl

section Container
variable {b : Builder} {name : String} {attributes : List Attribute} {inner : List String}
  {children : List Node} (hname : isElementName name = true)
  (hattrs : ∀ a ∈ attributes, a.Canonical) (hvoid : isVoid name = false)
  (hraw : isRawText name = false)

include hname hattrs hvoid hraw

/-- Reading an element with an end tag adds it, if its content is read while it is open. -/
theorem feed_print_container (hpad : Unpadded name.toList)
    (hchildren : (b.push name attributes).ReadsBack false inner children)
    (hinner : ∀ n ∈ inner, sameName n name = false) (after : List Char) :
    b.feed ((Node.element { name, attributes, selfClosing := false, closed := true }
        children).print ++ after) =
      (b.onChildren (.element { name, attributes, selfClosing := false, closed := true }
        children :: ·)).feed after := by
  obtain ⟨b', hopen, hfeed⟩ := hchildren
  have hprint : (Node.element { name, attributes, selfClosing := false, closed := true }
      children).print ++ after =
      Tag.printStart { name, attributes, selfClosing := false, closed := true } ++
        (printNodes children ++ '<' :: '/' :: (name.toList ++ '>' :: after)) := by
    simp [Node.print, Tag.printEnd]
  rw [hprint, feed_printStart b _ hname hattrs hvoid hraw, hfeed _ (by simp) (by simp),
    feed_of_readPiece (readPiece_endTag hname hpad after), hopen.step_endTag hinner]

/-- Reading an element without an end tag leaves it open. -/
theorem ReadsBack.openContainer
    (hchildren : (b.push name attributes).ReadsBack ended inner children) :
    b.ReadsBack ended (name :: inner)
      [.element { name, attributes, selfClosing := false, closed := false } children] := by
  obtain ⟨b', hopen, hfeed⟩ := hchildren
  refine ⟨b', hopen.push, ?_⟩
  intro after hended hafter
  have hprint : printNodes [.element { name, attributes, selfClosing := false, closed := false }
      children] ++ after =
      Tag.printStart { name, attributes, selfClosing := false, closed := false } ++
        (printNodes children ++ after) := by
    simp [printNodes, Node.print, Tag.printEnd]
  rw [hprint, feed_printStart b _ hname hattrs hvoid hraw, hfeed after hended hafter]

end Container

end Builder

/-- Attributes that have names and leave a quote are read back. -/
theorem canonical_of_hasName {attributes : List Attribute} (hattrs : ∀ a ∈ attributes, a.HasName)
    (hquotes : attributes.all Attribute.leavesQuote = true) : ∀ a ∈ attributes, a.Canonical :=
  fun a ha => Attribute.canonical_iff.mpr ⟨hattrs a ha, List.all_eq_true.mp hquotes a ha⟩

open Builder in
/-- From every state, nodes of the right shape that are settled are read back. -/
theorem Shaped.readsBack {nodes : List Node} (h : Shaped ended left nodes)
    (hsettled : settled nodes = true) (b : Builder)
    (hjoin : startsWithText nodes = true → startsWithText b.children = false) :
    b.ReadsBack ended left nodes := by
  -- The content of an element is read in a state in which the element is open, so the induction is
  -- over all states.
  induction h generalizing b with
  | nil => exact ⟨b, by rw [add_nil]; exact .refl b, fun _ _ _ => rfl⟩
  | text hne hapart hrest ih =>
    rw [settled, Bool.and_eq_true] at hsettled
    exact .cons (fun after hafter => feed_print_text b _ hne hsettled.1 (hjoin rfl)
        (hrest.head_printNodes hapart hafter))
      (ih hsettled.2 _ (by simp [hapart]))
  | comment hopen _ ih =>
    rw [settled] at hsettled
    · exact .cons (fun _ _ => feed_print_comment b _ hopen)
        (ih hsettled _ fun _ => startsWithText_onChildren_cons b rfl)
    · simp
    · simp
  | declaration hform _ ih =>
    rw [settled] at hsettled
    · exact .cons (fun _ _ => feed_print_declaration b _ hform)
        (ih hsettled _ fun _ => startsWithText_onChildren_cons b rfl)
    · simp
    · simp
  | openDeclaration hform => exact .last (feed_print_openDeclaration b hform)
  | hollow hname hattrs hhollow _ ih =>
    rw [settled, Bool.and_eq_true, Bool.and_eq_true] at hsettled
    exact .cons (fun _ _ => feed_print_hollow b _ hname
        (canonical_of_hasName hattrs hsettled.1.1) hhollow)
      (ih hsettled.2 _ fun _ => startsWithText_onChildren_cons b rfl)
  | rawText hname hattrs hraw hcontent _ ih =>
    rw [settled, Bool.and_eq_true, Bool.and_eq_true] at hsettled
    exact .cons (fun _ _ => feed_print_rawText b _ hname
        (canonical_of_hasName hattrs hsettled.1.1) hraw hcontent)
      (ih hsettled.2 _ fun _ => startsWithText_onChildren_cons b rfl)
  | openRawText hname hattrs hraw hcontent =>
    rw [settled, Bool.and_eq_true, Bool.and_eq_true] at hsettled
    exact .last (feed_print_openRawText b hname (canonical_of_hasName hattrs hsettled.1.1) hraw
      hcontent)
  | container hname hpad hattrs hvoid hraw _ hinner _ ihChildren ihRest =>
    rw [settled, Bool.and_eq_true, Bool.and_eq_true, Bool.or_eq_true] at hsettled
    have hcontent := hsettled.1.2.resolve_left (by simp [hraw])
    exact .cons (fun after _ => feed_print_container hname
        (canonical_of_hasName hattrs hsettled.1.1) hvoid hraw hpad
        (ihChildren hcontent _ fun _ => rfl) hinner _)
      (ihRest hsettled.2 _ fun _ => startsWithText_onChildren_cons b rfl)
  | openContainer hname hattrs hvoid hraw _ ih =>
    rw [settled, Bool.and_eq_true, Bool.and_eq_true, Bool.or_eq_true] at hsettled
    have hcontent := hsettled.1.2.resolve_left (by simp [hraw])
    exact .openContainer hname (canonical_of_hasName hattrs hsettled.1.1) hvoid hraw
      (ih hcontent _ fun _ => rfl)

/-- The document in the making that a text leads to, read from the start. -/
theorem read_eq (html : String) :
    Document.read html =
      { children := (closeAll [] (Builder.feed ⟨[], []⟩ html.toList).top
          (Builder.feed ⟨[], []⟩ html.toList).stack).reverse } := rfl

/-- A settled document of the right shape is read back as it was written. -/
theorem read_print_of_shaped {d : Document} (h : Shaped true left d.children)
    (hsettled : settled d.children = true) : Document.read d.print = d := by
  obtain ⟨b', hopen, hfeed⟩ := h.readsBack hsettled ⟨[], []⟩ fun _ => rfl
  have hread := hfeed [] (fun _ => rfl) (by simp)
  rw [List.append_nil, Builder.feed_nil] at hread
  rw [read_eq, Document.print, String.toList_ofList, hread, hopen.closeAll]
  simp [Builder.add, Builder.onChildren, closeAll]

end EmailMarkup.Html
