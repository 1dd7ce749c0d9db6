import EmailMarkup.Proofs.Html.Alike
import EmailMarkup.Proofs.Html.Local
import Mathlib.Data.List.Forall2

/-!
# Reading in parts

A text that is put together from parts is read part by part as long as no part ends inside a
comment, a declaration or a tag. `leavesOpen` says of a text that it does. Between two parts the
reader is then in one of three modes: before a new piece, inside running text, or inside the raw text
of an element, which may go on through any number of parts. `Mode.resume` reads on from a mode.

`Mode.Alike.advance` is the law: a part that leaves nothing open takes two readings that are in alike
modes to alike modes again, through pieces that are alike, whatever text follows it in each of them.
-/

set_option autoImplicit false

namespace EmailMarkup.Html

open EmailMarkup.Text

/-! ### Modes -/

/-- Where the reader is when a part of a text has been read. -/
inductive Mode where
  /-- Before a new piece. -/
  | between
  /-- In running text, of which some has been read. -/
  | text (content : String)
  /-- In the raw text of an element, of which some has been read. -/
  | raw (name : String) (attributes : List Attribute) (content : String)

/-- The pieces that are still to come. -/
def Mode.resume : Mode → List Char → List Piece
  | .between, cs => readPieces cs
  | .text content, cs =>
    .text (content ++ String.ofList (cs.takeWhile (· != '<'))) ::
      readPieces (cs.dropWhile (· != '<'))
  | .raw name attributes content, cs =>
    (readRaw name attributes content cs).1 :: readPieces (readRaw name attributes content cs).2

/-- Whether a piece at the end of a text took in the bracket there as a part of markup. -/
def Piece.takesBracket : Piece → Bool
  | .text _ => false
  -- Without content the bracket is in the start tag.
  | .rawText _ _ content closed => closed || content.isEmpty
  | _ => true

/-- Whether a text ends inside a comment, a declaration or a tag, so that a bracket put behind it
would open nothing. -/
def leavesOpen (cs : List Char) : Bool :=
  (readPieces (cs ++ ['<'])).getLast?.any Piece.takesBracket

/-- The same for a text that is read on from a mode. -/
def Mode.leavesOpen (m : Mode) (cs : List Char) : Bool :=
  (m.resume (cs ++ ['<'])).getLast?.any Piece.takesBracket

theorem Mode.resume_ne_nil (m : Mode) (cs : List Char) : m.resume (cs ++ ['<']) ≠ [] := by
  cases m with
  | between =>
    show readPieces (cs ++ ['<']) ≠ []
    cases cs with
    | nil => rw [List.nil_append, readPieces]; exact List.cons_ne_nil _ _
    | cons c cs => rw [List.cons_append, readPieces]; exact List.cons_ne_nil _ _
  | text | raw => exact List.cons_ne_nil _ _

/-- What a part leaves open depends on the mode that is reached, and not on the pieces before. -/
theorem Mode.leavesOpen_eq {m n : Mode} {cs cs' : List Char} {ps : List Piece}
    (h : m.resume (cs ++ ['<']) = ps ++ n.resume (cs' ++ ['<'])) :
    m.leavesOpen cs = n.leavesOpen cs' := by
  rw [Mode.leavesOpen, h, List.getLast?_append_of_ne_nil _ (n.resume_ne_nil cs')]
  rfl

/-- A text that is empty or begins with a bracket. -/
def AtBracket (cs : List Char) : Prop :=
  ∀ c ∈ cs.head?, c = '<'

/-- A part is read from mode `m` as the pieces `ps`, and leads to mode `n`, whatever text follows it
that is of the kind `Next`. -/
def Mode.Reaches (Next : List Char → Prop) (m : Mode) (cs : List Char) (ps : List Piece)
    (n : Mode) : Prop :=
  ∀ more, Next more → m.resume (cs ++ more) = ps ++ n.resume more

/-- Parts are read one after the other, if the second is one that may follow the first. -/
theorem Mode.Reaches.trans {Next Next' : List Char → Prop} {m n k : Mode} {cs cs' : List Char}
    {ps qs : List Piece} (h : m.Reaches Next cs ps n) (h' : n.Reaches Next' cs' qs k)
    (hnext : ∀ more, Next' more → Next (cs' ++ more)) : m.Reaches Next' (cs ++ cs') (ps ++ qs) k := by
  intro more hmore
  rw [List.append_assoc, h _ (hnext more hmore), h' more hmore, List.append_assoc]

/-! ### One part -/

section
variable (V : String → List Attribute → List Attribute → Prop)

/-- Modes that differ in the text that has been read, and in attributes as far as `V` has it. -/
inductive Mode.Alike : Mode → Mode → Prop
  | between : Mode.Alike .between .between
  | text (content content' : String) : Mode.Alike (.text content) (.text content')
  | raw {name : String} {attributes attributes' : List Attribute} (hraw : isRawText name = true)
      (htag : V name attributes attributes') (content content' : String) :
      Mode.Alike (.raw name attributes content) (.raw name attributes' content')

/-- Parts of two texts take readings of them from the modes `m` and `m'` to the modes `n` and `n'`,
through pieces that are alike. -/
def Mode.Steps (Next : List Char → Prop) (m m' : Mode) (cs cs' : List Char) (n n' : Mode) : Prop :=
  ∃ ps ps', List.Forall₂ (Piece.Alike V) ps ps' ∧ m.Reaches Next cs ps n ∧
    m'.Reaches Next cs' ps' n'

end

variable {V : String → List Attribute → List Attribute → Prop}

/-- A part that leaves nothing open is read up to its end. -/
theorem exists_reaches (hrefl : ∀ name attributes, V name attributes attributes) (cs : List Char)
    (hopen : leavesOpen cs = false) :
    ∃ ps n, Mode.Alike V n n ∧ Mode.between.Reaches AtBracket cs ps n := by
  match cs with
  | [] => exact ⟨[], .between, .between, fun more _ => rfl⟩
  | c :: cs =>
    obtain ⟨⟨p, rest⟩, hread⟩ : ∃ x, readPiece c (cs ++ ['<']) = x := ⟨_, rfl⟩
    have hpieces : readPieces (c :: cs ++ ['<']) = p :: readPieces rest := by
      rw [List.cons_append, readPieces, hread]
    cases hrest : rest with
    | cons d ds =>
      obtain ⟨left, hleft, hmoreRead⟩ := readPiece_append hread (by rw [hrest]; simp)
      have hshort : left.length < (c :: cs).length := by
        have := length_readPiece_lt c (cs ++ ['<'])
        rw [hread, hleft] at this
        simpa using this
      rw [hleft] at hpieces
      have hnext : leavesOpen left = false :=
        (@Mode.leavesOpen_eq .between .between (c :: cs) left [p] hpieces).symm.trans hopen
      obtain ⟨ps, n, hn, hreaches⟩ := exists_reaches hrefl left hnext
      refine ⟨p :: ps, n, hn, fun more hmore => ?_⟩
      show readPieces (c :: (cs ++ more)) = _
      rw [readPieces, hmoreRead hmore]
      exact congrArg (p :: ·) (hreaches more hmore)
    | nil =>
      -- The piece takes in the bracket: it can only be raw text that goes on.
      subst hrest
      rw [leavesOpen, hpieces, readPieces] at hopen
      have hlast : p.takesBracket = false := hopen
      cases p with
      | text content => exact absurd rfl (readPiece_append_text hread)
      | rawText name attributes content closed =>
        obtain ⟨rfl, hcontent⟩ : closed = false ∧ content.isEmpty = false := by
          simpa [Piece.takesBracket] using hlast
        obtain ⟨hraw, inner, hmoreRead⟩ := readPiece_append_openRawText hread
          fun hempty => by simp [hempty] at hcontent
        refine ⟨[], .raw name attributes inner, .raw hraw (hrefl name attributes) inner inner,
          fun more hmore => ?_⟩
        show readPieces (c :: (cs ++ more)) = _
        rw [readPieces, hmoreRead hmore]
        rfl
      | comment => cases hlast
      | declaration => cases hlast
      | endTag => cases hlast
      | startTag => cases hlast
termination_by cs.length
decreasing_by exact hshort

/-- Pieces are like themselves, if every tag is. -/
theorem alike_pieces_self (hrefl : ∀ name attributes, V name attributes attributes)
    (ps : List Piece) : List.Forall₂ (Piece.Alike V) ps ps :=
  List.forall₂_same.mpr fun p _ => .refl hrefl p

/-- A part that is read through as one piece, and from there on between pieces. -/
theorem steps_of_cons (hrefl : ∀ name attributes, V name attributes attributes) {m m' : Mode}
    {cs : List Char} (left : List Char) {p p' : Piece} (hp : Piece.Alike V p p')
    (hm : ∀ more, AtBracket more → m.resume (cs ++ more) = p :: readPieces (left ++ more))
    (hm' : ∀ more, AtBracket more → m'.resume (cs ++ more) = p' :: readPieces (left ++ more))
    (hopen : m.leavesOpen cs = false) :
    ∃ n n', Mode.Alike V n n' ∧ Mode.Steps V AtBracket m m' cs cs n n' := by
  have hnext : leavesOpen left = false :=
    (@Mode.leavesOpen_eq m .between cs left [p] (hm ['<'] (by simp [AtBracket]))).symm.trans hopen
  obtain ⟨ps, n, hn, hreaches⟩ := exists_reaches hrefl left hnext
  refine ⟨n, n, hn, p :: ps, p' :: ps, .cons hp (alike_pieces_self hrefl ps), fun more hmore => ?_,
    fun more hmore => ?_⟩
  · rw [hm more hmore]
    exact congrArg (p :: ·) (hreaches more hmore)
  · rw [hm' more hmore]
    exact congrArg (p' :: ·) (hreaches more hmore)

/-- Running text goes on through a part without brackets, and ends at the first bracket. -/
theorem Mode.resume_text (content : String) {cs : List Char} (hcs : '<' ∉ cs) (more : List Char) :
    (Mode.text content).resume (cs ++ more) =
      (Mode.text (content ++ String.ofList cs)).resume more := by
  simp only [Mode.resume, List.takeWhile_append_of_pos (bne_of_notMem hcs),
    List.dropWhile_append_of_pos (bne_of_notMem hcs), String.ofList_append, String.append_assoc]

theorem Mode.resume_text_bracket (content : String) (more : List Char) :
    (Mode.text content).resume ('<' :: more) = .text content :: readPieces ('<' :: more) := by
  simp [Mode.resume]

/-- Raw text of which nothing is left behind a bracket is still open. -/
theorem spanFolded_of_not_takesBracket {name : String} (hraw : isRawText name = true)
    {attributes : List Attribute} {content : String} {cs : List Char}
    (h : (readRaw name attributes content (cs ++ ['<'])).1.takesBracket = false) :
    (spanFolded (endMark name) cs).2 = [] := by
  by_contra hfound
  have hspan : (spanFolded (endMark name) (cs ++ ['<'])).2 =
      (spanFolded (endMark name) cs).2 ++ ['<'] := by
    rw [endMark, spanFolded_append_more (bracket_notMem_endMark hraw) cs (by simp)]
    exact congrArg Prod.snd (if_neg hfound)
  simp [readRaw, Piece.takesBracket, hspan] at h

/-- A part that leaves nothing open keeps two readings in step. -/
theorem Mode.Alike.advance (hrefl : ∀ name attributes, V name attributes attributes) {m m' : Mode}
    (h : Mode.Alike V m m') {cs : List Char} (hopen : m.leavesOpen cs = false) :
    ∃ n n', Mode.Alike V n n' ∧ Mode.Steps V AtBracket m m' cs cs n n' := by
  cases h with
  | between =>
    obtain ⟨ps, n, hn, hreaches⟩ := exists_reaches hrefl cs hopen
    exact ⟨n, n, hn, ps, ps, alike_pieces_self hrefl ps, hreaches, hreaches⟩
  | text content content' =>
    by_cases hcs : '<' ∈ cs
    · obtain ⟨pre, post, rfl, hpre⟩ := List.eq_append_cons_of_mem hcs
      refine steps_of_cons hrefl ('<' :: post)
        (.text (content ++ String.ofList pre) (content' ++ String.ofList pre))
        (fun more _ => ?_) (fun more _ => ?_) hopen
      · rw [List.append_assoc, Mode.resume_text content hpre]
        exact Mode.resume_text_bracket _ _
      · rw [List.append_assoc, Mode.resume_text content' hpre]
        exact Mode.resume_text_bracket _ _
    · exact ⟨_, _, .text _ _, [], [], .nil, fun more _ => Mode.resume_text content hcs more,
        fun more _ => Mode.resume_text content' hcs more⟩
  | @raw name attributes attributes' hraw htag content content' =>
    by_cases hnil : (readRaw name attributes content (cs ++ ['<'])).2 = []
    · rw [Mode.leavesOpen, Mode.resume, hnil, readPieces] at hopen
      have hlast : (readRaw name attributes content (cs ++ ['<'])).1.takesBracket = false := hopen
      have hspan := spanFolded_of_not_takesBracket hraw hlast
      refine ⟨.raw name attributes (content ++ String.ofList cs),
        .raw name attributes' (content' ++ String.ofList cs), .raw hraw htag _ _, [], [], .nil,
        fun more hmore => ?_, fun more hmore => ?_⟩
      · simp only [Mode.resume, readRaw_open hraw hspan _ _ hmore, List.nil_append]
      · simp only [Mode.resume, readRaw_open hraw hspan _ _ hmore, List.nil_append]
    · obtain ⟨inner, left, hclosed⟩ := readRaw_append hraw hnil
      refine steps_of_cons hrefl left
        (.rawText htag (content ++ inner) (content' ++ inner) true (.inl hraw))
        (fun more hmore => ?_) (fun more hmore => ?_) hopen
      · simp only [Mode.resume, hclosed attributes content hmore]
      · simp only [Mode.resume, hclosed attributes' content' hmore]

/-- The last part may leave open what it likes. -/
theorem Mode.Alike.resume (hrefl : ∀ name attributes, V name attributes attributes) {m m' : Mode}
    (h : Mode.Alike V m m') (cs : List Char) :
    List.Forall₂ (Piece.Alike V) (m.resume cs) (m'.resume cs) := by
  cases h with
  | between => exact alike_pieces_self hrefl _
  | text => exact .cons (.text _ _) (alike_pieces_self hrefl _)
  | raw hraw htag => exact .cons (.rawText htag _ _ _ (.inl hraw)) (alike_pieces_self hrefl _)

end EmailMarkup.Html
