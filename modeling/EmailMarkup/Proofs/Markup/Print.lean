import EmailMarkup.Proofs.Html.Entity
import EmailMarkup.Proofs.Markup.Capture
import EmailMarkup.Proofs.Markup.Scan
import EmailMarkup.Proofs.Markup.Tree
import EmailMarkup.Proofs.OrderedMap

/-!
# Reading what was written

A tree of elements is written with its attributes escaped and its content before its children.
`read_printed_markup` says that reading gives the tree back, up to positions, for every tree that
can come out of reading (`Node.Writable`).

The law behind it is `scan_print`: from every state in which an element may begin, reading what an
element is written as, with more text behind, attaches the element and goes on with the rest. The
induction is over the tree, and the state is general because children are read while their parent is
open.
-/

set_option autoImplicit false

namespace EmailMarkup.Markup

open EmailMarkup.Text EmailMarkup.Component

/-! ### Writing -/

/-- An attribute as it is written in a tag. -/
def printAttribute (a : String × String) : List Char :=
  ' ' :: (a.1.toList ++ '=' :: '"' :: ((Html.escapeAttribute a.2).toList ++ ['"']))

mutual

/-- An element as it is written. -/
def Node.printChars : Node → List Char
  | .element tag attributes children content _ =>
    '<' :: (tag.toList ++ (attributes.entries.flatMap printAttribute ++ '>' ::
      (content.toList ++ (printCharsAmong children ++ '<' :: '/' :: (tag.toList ++ ['>'])))))

/-- Elements side by side, as they are written. -/
def printCharsAmong : List Node → List Char
  | [] => []
  | n :: rest => n.printChars ++ printCharsAmong rest

end

/-- An element as it is written. -/
def Node.print (n : Node) : String :=
  String.ofList n.printChars

/-- An element that can be read back from what it is written as. Its tag is known and its names are
names, and its content has no blanks around it, since reading trims. Content that is kept as text is
balanced and leaves no room for children, or it would end too early; any other content has no
bracket in it, or a tag would begin there. -/
structure Node.Writable (registry : Registry) (n : Node) : Prop where
  tag : IsName n.tag.toList
  names : ∀ name ∈ n.attributes.keys, IsName name.toList
  trimmed : trim n.content = n.content
  known : registry.has n.tag = true
  captured : ∀ spec ∈ registry.get? n.tag, spec.captures = true →
    n.children = [] ∧ Balanced n.tag.toList n.content.toList
  plain : ∀ spec ∈ registry.get? n.tag, spec.captures = false → '<' ∉ n.content.toList

mutual

/-- The tree with all positions forgotten. -/
def Node.unplaced : Node → Node
  | .element tag attributes children content _ =>
    .element tag attributes (unplacedAmong children) content .start

/-- Trees side by side with all positions forgotten. -/
def unplacedAmong : List Node → List Node
  | [] => []
  | n :: rest => n.unplaced :: unplacedAmong rest

end

/-! ### Reading a tag -/

/-- No character of a name is a blank. -/
theorem isBlank_of_isNameChar {c : Char} (h : isNameChar c = true) : isBlank c = false := by
  simp only [isNameChar, Bool.or_eq_true, beq_iff_eq] at h
  rcases h with (((h | rfl) | rfl) | rfl) | rfl
  · exact Text.isBlank_of_isNameChar (by rw [Text.isNameChar, h, Bool.true_or])
  · rfl
  · rfl
  · rfl
  · rfl

/-- A name begins without a blank, so nothing is trimmed before it. -/
theorem trimLeft_name_append {name : List Char} (h : IsName name) (rest : List Char) :
    trimLeft (name ++ rest) = name ++ rest := by
  obtain ⟨c, name, rfl, hc⟩ := h.exists_cons
  exact trimLeft_cons (isBlank_of_isNameChar hc) _

/-- A written value is read back. -/
theorem readAssigned_print (name value : String) (rest : List Char) :
    readAssigned name ('=' :: '"' :: ((Html.escapeAttribute value).toList ++ '"' :: rest)) =
      .ok (value, rest) := by
  have hquote : '"' ∉ (Html.escapeAttribute value).toList :=
    Html.quote_notMem_escapeAttribute value
  have hsplit : splitAtMark? ['"'] ((Html.escapeAttribute value).toList ++ '"' :: rest) =
      some ((Html.escapeAttribute value).toList, rest) := splitAtMark?_char hquote rest
  have htrim : trimLeft ('"' :: ((Html.escapeAttribute value).toList ++ '"' :: rest)) =
      '"' :: ((Html.escapeAttribute value).toList ++ '"' :: rest) := trimLeft_cons (by decide) _
  simp only [readAssigned, htrim, readValue?, hsplit, String.ofList_toList,
    Html.unescape_escapeAttribute]

/-- The attribute at the start of the attributes of a tag is read by its name. -/
theorem pair_readAttributes_name (locate : List Char → Position) (start : Position) (tag : String)
    (attributes : Attributes) {cs name rest : List Char} (hname : IsName name)
    (hrest : ∀ c ∈ rest.head?, isNameChar c = false) (hcs : trimLeft cs = name ++ rest) :
    (readAttributes locate start tag attributes cs).map Front.pair =
      match readAssigned (String.ofList name) (trimLeft rest) with
      | .error quote =>
        .error (.malformed (locate quote) (.unterminatedValue (String.ofList name) tag))
      | .ok (value, next) =>
        (readAttributes locate start tag (attributes.insert (String.ofList name) value) next).map
          Front.pair := by
  have hnameOf := nameOf_append hname hrest
  have hafterName := afterName_append hname hrest
  obtain ⟨c, more, rfl, hc⟩ := hname.exists_cons
  rw [pair_readAttributes, hcs]
  rw [List.cons_append] at hnameOf hafterName ⊢
  -- A character of a name is neither of those that end a tag.
  split
  · rename_i heq
    cases heq
  · rename_i heq
    rw [(List.cons.inj heq).1] at hc
    exact absurd hc (by decide)
  · rename_i heq
    rw [(List.cons.inj heq).1] at hc
    exact absurd hc (by decide)
  · rename_i heq
    rw [← heq, hnameOf, hafterName]
    exact if_neg (by simp)

/-- Written attributes are read back, up to the end of the tag. -/
theorem pair_readAttributes_print (locate : List Char → Position) (start : Position) (tag : String)
    {entries : List (String × String)} (hnames : ∀ a ∈ entries, IsName a.1.toList)
    (attributes : Attributes) (rest : List Char) :
    (readAttributes locate start tag attributes
        (entries.flatMap printAttribute ++ '>' :: rest)).map Front.pair =
      .ok ((attributes.insertAll entries, false), rest) := by
  induction entries generalizing attributes with
  | nil =>
    rw [pair_readAttributes, List.flatMap_nil, List.nil_append,
      trimLeft_cons (by decide : isBlank '>' = false)]
    rfl
  | cons a entries ih =>
    have hname := hnames a List.mem_cons_self
    have hmore := ih (fun b hb => hnames b (List.mem_cons_of_mem _ hb))
      (attributes.insert a.1 a.2)
    have hcs : (a :: entries).flatMap printAttribute ++ '>' :: rest =
        ' ' :: (a.1.toList ++ '=' :: '"' :: ((Html.escapeAttribute a.2).toList ++
          '"' :: (entries.flatMap printAttribute ++ '>' :: rest))) := by
      simp [printAttribute]
    have htrim : trimLeft ((a :: entries).flatMap printAttribute ++ '>' :: rest) =
        a.1.toList ++ '=' :: '"' :: ((Html.escapeAttribute a.2).toList ++
          '"' :: (entries.flatMap printAttribute ++ '>' :: rest)) := by
      rw [hcs, trimLeft, List.dropWhile_cons_of_pos (by decide)]
      exact trimLeft_name_append hname _
    rw [pair_readAttributes_name locate start tag attributes hname (by simp; decide) htrim,
      trimLeft_cons (by decide), readAssigned_print, String.ofList_toList]
    exact hmore

/-! ### Reading an element -/

section
variable (registry : Registry) (locate : List Char → Position)

/-- A written tag is read with its attributes, and then what is behind it. -/
theorem pair_readMarked_print (start : Position) {tag : String} (htag : IsName tag.toList)
    {attributes : Attributes} (hnames : ∀ name ∈ attributes.keys, IsName name.toList)
    (rest : List Char) :
    (readMarked registry locate start
        (tag.toList ++ (attributes.entries.flatMap printAttribute ++ '>' :: rest))).map
        Front.pair =
      (readElement registry locate start tag.toList attributes false rest).map
        fun read => (some read.1, read.2) := by
  have hhead : ∀ c ∈ (attributes.entries.flatMap printAttribute ++ '>' :: rest).head?,
      isNameChar c = false := by
    cases attributes.entries with
    | nil => simp; decide
    | cons a entries => simp [printAttribute]; decide
  have hopening : (readOpening registry locate start
      (tag.toList ++ (attributes.entries.flatMap printAttribute ++ '>' :: rest))).map Front.pair =
      readElement registry locate start tag.toList attributes false rest := by
    rw [pair_readOpening, nameOf_append htag hhead, afterName_append htag hhead,
      if_neg (by simpa using htag.1), pair_readAttributes_print]
    · show readElement registry locate start tag.toList (.ofList attributes.entries) false rest = _
      rw [OrderedMap.ofList_entries]
    · intro a ha
      exact hnames a.1 (List.mem_map_of_mem ha)
  obtain ⟨c, more, hcons, hc⟩ := htag.exists_cons
  rw [← hopening, hcons, List.cons_append]
  exact pair_readMarked_name registry locate start hc _

namespace Progress

variable (keep : Bool)

/-- An element may begin anywhere but behind the outermost one. -/
theorem openElement_eq {p : Progress} (hp : ∀ root, p ≠ .after root) (tag : String)
    (attributes : Attributes) (position : Position) :
    p.openElement tag attributes position =
      .ok (.inside { tag, attributes, position, children := [], content := "" } p.stack) := by
  cases p with
  | before | inside innermost outer => rfl
  | after root => exact absurd rfl (hp root)

/-- An element without content may stand where one may begin. -/
theorem addWhole_eq {p : Progress} (hp : ∀ root, p ≠ .after root) (n : Node) :
    p.addWhole n = .ok (attach n p.stack) := by
  cases p with
  | before | inside innermost outer => rfl
  | after root => exact absurd rfl (hp root)

/-- A written closing tag closes the innermost element. -/
theorem scan_closing {o : Open} (htag : IsName o.tag.toList) (outer : List Open)
    (rest : List Char) :
    (Progress.inside o outer).scan registry locate keep
        ('<' :: '/' :: (o.tag.toList ++ '>' :: rest)) =
      (attach o.close outer).scan registry locate keep rest := by
  have hread : ∀ start, (readMarked registry locate start
      ('/' :: (o.tag.toList ++ '>' :: rest))).map Front.pair =
      .ok (some (.closing o.tag), rest) := by
    intro start
    have hhead : ∀ c ∈ ('>' :: rest).head?, isNameChar c = false := by simp; decide
    rw [pair_readMarked]
    simp only
    rw [pair_readClosing, nameOf_append htag hhead, afterName_append htag hhead,
      trimLeft_cons (by decide : isBlank '>' = false), String.ofList_toList]
    rfl
  rw [scan_marked, hread]
  show (closeElement (.inside o outer) o.tag _ >>= _) = _
  rw [closeElement, if_pos rfl]
  rfl

/-- A text without blanks around it is not blank. -/
theorem all_isBlank_of_trim {content : String} (htrim : trim content = content)
    (hne : content.toList ≠ []) : content.toList.all isBlank = false := by
  rw [Bool.eq_false_iff]
  intro hall
  have hleft : trimLeft content.toList = [] := List.dropWhile_eq_nil_iff.mpr (by simpa using hall)
  have hempty : trim content = "" := by
    rw [trim, trimChars, hleft]
    rfl
  rw [htrim] at hempty
  exact hne (by rw [hempty]; rfl)

/-- A written content is taken in as one text, up to a bracket. -/
theorem scan_content {content : String} (hplain : '<' ∉ content.toList)
    (htrim : trim content = content) (o : Open) (outer : List Open) (rest : List Char) :
    (Progress.inside o outer).scan registry locate keep (content.toList ++ '<' :: rest) =
      (Progress.inside { o with content := o.content ++ content } outer).scan registry locate keep
        ('<' :: rest) := by
  rw [scan_append registry locate keep _ hplain (by simp), pass]
  by_cases hempty : content.toList = []
  · rw [String.toList_eq_nil_iff.mp hempty, String.append_empty]
    rfl
  · rw [all_isBlank_of_trim htrim hempty, String.ofList_toList]
    rfl

/-! ### Reading a tree -/

/-- What is written for elements, and for a tag behind them, begins with a bracket. -/
theorem exists_printCharsAmong (nodes : List Node) (rest : List Char) :
    ∃ more, printCharsAmong nodes ++ '<' :: rest = '<' :: more := by
  cases nodes with
  | nil => exact ⟨rest, rfl⟩
  | cons n nodes =>
    cases n
    exact ⟨_, by rw [printCharsAmong, Node.printChars, List.append_assoc, List.cons_append]⟩

mutual

/-- Reading a written element attaches it and goes on behind it. -/
theorem scan_print : ∀ (n : Node), (∀ m ∈ n.nodes, m.Writable registry) → ∀ {p : Progress},
    (∀ root, p ≠ .after root) → ∀ rest : List Char, ∃ read : Node, read.unplaced = n.unplaced ∧
      p.scan registry locate keep (n.printChars ++ rest) =
        (attach read p.stack).scan registry locate keep rest
  | .element tag attributes children content position, hn, p, hp, rest => by
    obtain ⟨htag, hnames, htrimmed, hknown, hcaptured, hplain⟩ := hn _
      (show Node.element tag attributes children content position ∈ _ by
        rw [Node.nodes]; exact List.mem_cons_self)
    simp only [Node.tag, Node.attributes, Node.children, Node.content] at *
    have hbelow : ∀ m ∈ nodesAmong children, m.Writable registry := fun m hm =>
      hn m (by rw [Node.nodes]; exact List.mem_cons_of_mem _ hm)
    obtain ⟨spec, hspec⟩ := Option.isSome_iff_exists.mp hknown
    have htext : (Node.element tag attributes children content position).printChars ++ rest =
        '<' :: (tag.toList ++ (attributes.entries.flatMap printAttribute ++ '>' ::
          (content.toList ++ (printCharsAmong children ++
            '<' :: '/' :: (tag.toList ++ '>' :: rest))))) := by
      simp [Node.printChars]
    rw [htext, scan_marked, pair_readMarked_print registry locate _ htag hnames,
      readElement, String.ofList_toList, hspec]
    generalize locate _ = start
    simp only [Bool.false_eq_true, if_false]
    cases hcaptures : spec.captures with
    | true =>
      -- The content is kept as text, and there are no children behind it.
      obtain ⟨rfl, hbalanced⟩ := hcaptured spec hspec hcaptures
      refine ⟨.element tag attributes [] content start, rfl, ?_⟩
      rw [printCharsAmong, List.nil_append, capture_of_balanced htag hbalanced]
      show (p.addWhole (.element tag attributes [] (trim content) start) >>= _) = _
      rw [htrimmed, addWhole_eq hp]
      rfl
    | false =>
      -- The element is open while its content and its children are read.
      obtain ⟨more, hmore⟩ := exists_printCharsAmong children ('/' :: (tag.toList ++ '>' :: rest))
      have hcontent := scan_content registry locate keep (hplain spec hspec hcaptures) htrimmed
        { tag, attributes, position := start, children := [], content := "" } p.stack more
      obtain ⟨read, hread, hchildren⟩ := scan_printAmong children hbelow
        { tag, attributes, position := start, children := [], content := "" ++ content } p.stack
        ('<' :: '/' :: (tag.toList ++ '>' :: rest))
      refine ⟨.element tag attributes read content start, ?_, ?_⟩
      · rw [Node.unplaced, Node.unplaced, hread]
      · show (p.openElement tag attributes start >>= _) = _
        rw [openElement_eq hp]
        show Progress.scan registry locate keep (.inside _ p.stack) (content.toList ++ _) = _
        rw [hmore, hcontent, ← hmore, hchildren, scan_closing registry locate keep htag]
        simp only [Open.close, List.append_nil, List.reverse_reverse, String.empty_append, htrimmed]

/-- Reading written elements adds them to the one that is open. -/
theorem scan_printAmong : ∀ (nodes : List Node), (∀ m ∈ nodesAmong nodes, m.Writable registry) →
    ∀ (o : Open) (outer : List Open) (rest : List Char), ∃ read : List Node,
      unplacedAmong read = unplacedAmong nodes ∧
        (Progress.inside o outer).scan registry locate keep (printCharsAmong nodes ++ rest) =
          (Progress.inside { o with children := read.reverse ++ o.children } outer).scan registry
            locate keep rest
  | [], _, o, outer, rest => ⟨[], rfl, rfl⟩
  | n :: nodes, hnodes, o, outer, rest => by
    rw [nodesAmong] at hnodes
    obtain ⟨read, hread, hscan⟩ := scan_print n
      (fun m hm => hnodes m (List.mem_append_left _ hm)) (p := .inside o outer) (by simp)
      (printCharsAmong nodes ++ rest)
    obtain ⟨others, hothers, hmore⟩ := scan_printAmong nodes
      (fun m hm => hnodes m (List.mem_append_right _ hm)) (o.addChild read) outer rest
    refine ⟨read :: others, by rw [unplacedAmong, unplacedAmong, hread, hothers], ?_⟩
    rw [printCharsAmong, List.append_assoc, hscan]
    show Progress.scan registry locate keep (.inside (o.addChild read) outer) _ = _
    rw [hmore]
    simp [Open.addChild]

end

end Progress

end

/-- Reading a written tree gives it back, up to positions. -/
theorem read_printed_markup (registry : Registry) (keepComments : Bool) (n : Node)
    (hn : ∀ m ∈ n.nodes, m.Writable registry) :
    ∃ read, Node.read registry keepComments n.print = .ok read ∧ read.unplaced = n.unplaced := by
  obtain ⟨read, hread, hscan⟩ := Progress.scan_print registry (Position.ofRest n.printChars)
    (keepComments && registry.has "mj-raw") n hn (p := .before) (by simp) []
  refine ⟨read, ?_, hread⟩
  rw [List.append_nil] at hscan
  rw [Node.read_eq_scan, Node.print, String.toList_ofList, hscan]
  exact Progress.scan_nil ..

/-- A letter with a value that needs escapes, and with a text that has a tag of its own name in
it. -/
def quotingLetter : Node :=
  .element "mjml" ∅
    [.element "mj-body" (.ofList [("css-class", "a \"b\" & <c>"), ("lang", "")])
      [.element "mj-text" ∅ [] "<b>é</b> <mj-text >a<mj-text/></mj-text>\n<" .start] "note" .start]
    "" .start

/-- A value that needs escapes and a text with tags of its own name come back. -/
theorem quotingLetter_read :
    (∀ m ∈ quotingLetter.nodes, m.Writable .core) ∧
      ∃ read, Node.read .core true quotingLetter.print = .ok read ∧
        read.unplaced = quotingLetter.unplaced := by
  have hinner : Balanced "mj-text".toList "a<mj-text/>".toList :=
    .single (show Quiet _ ['a'] by decide) (show IsGap [] by decide)
      (.text (show Quiet _ [] by decide))
  have hbalanced : Balanced "mj-text".toList
      "<b>é</b> <mj-text >a<mj-text/></mj-text>\n<".toList :=
    .element (show Quiet _ "<b>é</b> ".toList by decide) (show IsGap [' '] by decide) hinner
      (show IsGap [] by decide) (.text (show Quiet _ ['\n', '<'] by decide))
  have hparents : ∀ tag ∈ ["mjml", "mj-body"], ∀ spec ∈ Registry.core.get? tag,
      spec.captures ≠ true := by decide
  have hn : ∀ m ∈ quotingLetter.nodes, m.Writable .core := by
    simp only [quotingLetter, Node.nodes, nodesAmong, List.append_nil, List.forall_mem_cons]
    refine ⟨?_, ?_, ?_, by simp⟩
    · exact ⟨by decide, by decide, by decide, by decide,
        fun spec hspec h => absurd h (hparents "mjml" (by decide) spec hspec), by decide⟩
    · exact ⟨by decide, by decide, by decide, by decide,
        fun spec hspec h => absurd h (hparents "mj-body" (by decide) spec hspec), by decide⟩
    · exact ⟨by decide, by decide, by decide, by decide,
        fun _ _ _ => ⟨rfl, hbalanced⟩, by decide⟩
  exact ⟨hn, read_printed_markup .core true quotingLetter hn⟩

end EmailMarkup.Markup
