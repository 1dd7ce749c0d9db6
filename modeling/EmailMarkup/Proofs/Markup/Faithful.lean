import EmailMarkup.Proofs.Markup.Position
import EmailMarkup.Proofs.Markup.Scan
import EmailMarkup.Proofs.Markup.Spelling
import EmailMarkup.Proofs.Markup.Tree

/-!
# Trees and the text they come from

Every element of a tree that was read is tidy and stands where it says (`Node.Faithful`): its tag is
known, its content has no blanks around it, its attributes have names, and at its position the text
has its tag, or the comment that it was made from. Siblings stand in the order of the text, behind
their parent.

While a text is read, the elements that are still open form a chain: each begins behind all that the
one around it has so far (`ChainFaithful`). A step of reading keeps this (`faithful_take`), with the
place that reading has come to as the bound of the innermost element, and so does a whole run
(`faithful_scan`).
-/

set_option autoImplicit false

namespace EmailMarkup.Markup

open EmailMarkup.Text EmailMarkup.Component

variable {further position : Position} {text : List Char} {content : String}

section
variable (registry : Registry) (source : List Char)

/-- The element was made from a comment that stands at its position, and keeps it as a whole. -/
def Node.IsCommentAt (n : Node) : Prop :=
  n.tag = "mj-raw" ∧ n.attributes = ∅ ∧ n.children = [] ∧
    ∃ text ∈ textAt? source n.position, BeginsComment n.content.toList text

/-- An element that is tidy and stands where it says. -/
structure Node.Faithful (n : Node) : Prop where
  name : IsName n.tag.toList
  known : registry.has n.tag = true
  content : Unpadded n.content.toList
  names : ∀ name ∈ n.attributes.keys, IsName name.toList
  captured : ∀ spec ∈ registry.get? n.tag, spec.captures = true → n.children = []
  placed : (∃ text ∈ textAt? source n.position, BeginsTag n.tag.toList text) ∨
    n.IsCommentAt source
  behind : ∀ c ∈ n.children, n.position < c.position
  ordered : n.children.Pairwise fun a b => a.position < b.position

/-! ### Open elements -/

/-- An element that is open, of which all that is known so far stands before a position. -/
structure Open.Faithful (limit : Position) (o : Open) : Prop where
  begins : ∃ text ∈ textAt? source o.position, Tagged registry o.tag o.attributes text
  opens : ∀ spec ∈ registry.get? o.tag, spec.captures = false
  children : ∀ n ∈ nodesAmong o.children, n.Faithful registry source
  behind : ∀ c ∈ o.children, o.position < c.position
  -- The children are listed last first.
  ordered : o.children.Pairwise fun a b => b.position < a.position
  before : o.position < limit
  childrenBefore : ∀ c ∈ o.children, c.position < limit

/-- Each open element is bounded by the position of the one in it. -/
def ChainFaithful : Position → List Open → Prop
  | _, [] => True
  | limit, o :: outer => o.Faithful registry source limit ∧ ChainFaithful o.position outer

/-- What is known of a document that was read up to a position. -/
def Progress.Faithful (here : Position) : Progress → Prop
  | .before => True
  | .inside o outer => ChainFaithful registry source here (o :: outer)
  | .after root => ∀ n ∈ root.nodes, n.Faithful registry source

variable {registry source}

theorem Open.Faithful.mono {limit : Position} {o : Open} (h : o.Faithful registry source limit)
    (hlt : limit < further) : o.Faithful registry source further :=
  { h with
    before := Position.lt_trans h.before hlt
    childrenBefore := fun c hc => Position.lt_trans (h.childrenBefore c hc) hlt }

theorem ChainFaithful.mono {limit further : Position} {stack : List Open}
    (h : ChainFaithful registry source limit stack) (hlt : limit < further) :
    ChainFaithful registry source further stack := by
  cases stack with
  | nil => trivial
  | cons o outer => exact ⟨h.1.mono hlt, h.2⟩

theorem Progress.Faithful.mono {here further : Position} {p : Progress}
    (h : p.Faithful registry source here) (hlt : here < further) :
    p.Faithful registry source further := by
  cases p with
  | before => trivial
  | inside o outer => exact ChainFaithful.mono h hlt
  | after root => exact h

/-- A child that stands at the bound is one more child. -/
theorem Open.Faithful.addChild {o : Open} {n : Node} {further : Position}
    (h : o.Faithful registry source n.position)
    (hn : ∀ m ∈ n.nodes, m.Faithful registry source) (hlt : n.position < further) :
    (o.addChild n).Faithful registry source further :=
  { begins := h.begins
    opens := h.opens
    children := by
      intro m hm
      rw [Open.addChild, nodesAmong] at hm
      rcases List.mem_append.mp hm with hm | hm
      · exact hn m hm
      · exact h.children m hm
    behind := List.forall_mem_cons.mpr ⟨h.before, h.behind⟩
    ordered := List.pairwise_cons.mpr ⟨h.childrenBefore, h.ordered⟩
    before := Position.lt_trans h.before hlt
    childrenBefore := List.forall_mem_cons.mpr
      ⟨hlt, fun c hc => Position.lt_trans (h.childrenBefore c hc) hlt⟩ }

/-- The elements of an open one are those of its children, whichever way they are listed. -/
theorem mem_nodesAmong_reverse {m : Node} {nodes : List Node} :
    m ∈ nodesAmong nodes.reverse ↔ m ∈ nodesAmong nodes := by
  rw [mem_nodesAmong_iff, mem_nodesAmong_iff]
  simp only [List.mem_reverse]

/-- An open element becomes one that is tidy and stands where it says. -/
theorem Open.Faithful.close {o : Open} {limit : Position} (h : o.Faithful registry source limit) :
    ∀ m ∈ o.close.nodes, m.Faithful registry source := by
  intro m hm
  rw [Open.close, Node.nodes] at hm
  rcases List.mem_cons.mp hm with rfl | hm
  · obtain ⟨text, htext, htagged⟩ := h.begins
    exact
      { name := htagged.name
        known := htagged.known
        content := by
          rw [Node.content, trim, String.toList_ofList]
          exact unpadded_trimChars _
        names := htagged.names
        captured := by
          intro spec hspec hcaptures
          rw [h.opens spec hspec] at hcaptures
          cases hcaptures
        placed := .inl ⟨text, htext, htagged.begins⟩
        behind := fun c hc => h.behind c (List.mem_reverse.mp hc)
        ordered := List.pairwise_reverse.mpr h.ordered }
  · exact h.children m (mem_nodesAmong_reverse.mp hm)

/-- An element that stands at the bound is put where it belongs. -/
theorem faithful_attach {n : Node} {stack : List Open}
    (hstack : ChainFaithful registry source n.position stack)
    (hn : ∀ m ∈ n.nodes, m.Faithful registry source) (hlt : n.position < further) :
    (Progress.attach n stack).Faithful registry source further := by
  cases stack with
  | nil => exact hn
  | cons o outer => exact ⟨hstack.1.addChild hn hlt, hstack.2⟩

/-! ### Steps of reading -/

/-- An element without children is all there is in it. -/
theorem Node.Faithful.forall_nodes {tag : String} {attributes : Attributes}
    (h : (Node.element tag attributes [] content position).Faithful registry source) :
    ∀ m ∈ (Node.element tag attributes [] content position).nodes, m.Faithful registry source := by
  intro m hm
  rw [Node.nodes, nodesAmong] at hm
  rw [List.mem_singleton.mp hm]
  exact h

/-- An element that ends with its tag, or whose content is kept as text. -/
theorem Node.faithful_of_tagged {tag : String} {attributes : Attributes}
    (htext : text ∈ textAt? source position) (htagged : Tagged registry tag attributes text)
    (hcontent : Unpadded content.toList) :
    (Node.element tag attributes [] content position).Faithful registry source :=
  { name := htagged.name
    known := htagged.known
    content := hcontent
    names := htagged.names
    captured := fun _ _ _ => rfl
    placed := .inl ⟨text, htext, htagged.begins⟩
    behind := fun _ hc => nomatch hc
    ordered := .nil }

/-- A comment has no blanks around it. -/
theorem BeginsComment.unpadded {comment : List Char} (h : BeginsComment comment text) :
    Unpadded comment := by
  obtain ⟨body, rfl, -, -⟩ := h
  have hlast : ("<!--".toList ++ (body ++ "-->".toList)).getLast? = some '>' := by
    rw [← List.append_assoc, List.getLast?_append]
    rfl
  refine ⟨fun c hc => ?_, fun c hc => ?_⟩
  · cases hc
    decide
  · rw [hlast] at hc
    cases hc
    decide

/-- An element that is made from a comment. -/
theorem Node.faithful_of_comment {comment : String} (hraw : registry.has "mj-raw" = true)
    (htext : text ∈ textAt? source position) (hcomment : BeginsComment comment.toList text) :
    (Node.element "mj-raw" ∅ [] comment position).Faithful registry source :=
  { name := show IsName "mj-raw".toList by decide
    known := hraw
    content := hcomment.unpadded
    names := namesOnly_empty
    captured := fun _ _ _ => rfl
    placed := .inr ⟨rfl, rfl, rfl, text, htext, hcomment⟩
    behind := fun _ hc => nomatch hc
    ordered := .nil }

/-- Taking in a text, which goes into the content of the innermost element. -/
theorem faithful_addText {here : Position} {p next : Progress}
    (hp : p.Faithful registry source here) (hlt : here < further)
    (h : p.addText content position = .ok next) : next.Faithful registry source further := by
  cases p with
  | before => cases h
  | inside o outer =>
    cases h
    have ho := hp.1.mono hlt
    exact ⟨⟨ho.begins, ho.opens, ho.children, ho.behind, ho.ordered, ho.before, ho.childrenBefore⟩,
      hp.2⟩
  | after root => cases h

/-- Taking in an item that stands at the place that reading has come to. -/
theorem faithful_add {keep : Bool} (hkeep : keep = true → registry.has "mj-raw" = true)
    {here : Position} {p next : Progress} {item : Item} (hp : p.Faithful registry source here)
    (htext : text ∈ textAt? source here) (hitem : item.Spells registry text)
    (hlt : here < further) (h : p.add keep { item, position := here } = .ok next) :
    next.Faithful registry source further := by
  cases item with
  | text content => exact faithful_addText hp hlt h
  | comment comment =>
    cases h
    cases p with
    | before => trivial
    | inside o outer =>
      rw [Progress.addComment]
      split
      · rename_i hkept
        have hraw : registry.has "mj-raw" = true := hkeep (by simp_all)
        exact ⟨Open.Faithful.addChild (n := .element "mj-raw" ∅ [] comment here) hp.1
          (Node.faithful_of_comment hraw htext hitem).forall_nodes hlt, hp.2⟩
      · exact ChainFaithful.mono hp hlt
    | after root => exact hp
  | opening tag attributes =>
    have hopen : (Open.mk tag attributes here [] "").Faithful registry source further :=
      { begins := ⟨text, htext, hitem.1⟩
        opens := hitem.2
        children := fun _ hn => nomatch hn
        behind := fun _ hc => nomatch hc
        ordered := .nil
        before := hlt
        childrenBefore := fun _ hc => nomatch hc }
    cases p with
    | before =>
      cases h
      exact ⟨hopen, trivial⟩
    | inside o outer =>
      cases h
      exact ⟨hopen, hp⟩
    | after root => cases h
  | whole tag attributes content =>
    have hn := (Node.faithful_of_tagged htext hitem.1 hitem.2).forall_nodes
    cases p with
    | before =>
      cases h
      exact hn
    | inside o outer =>
      cases h
      exact faithful_attach (n := .element tag attributes [] content here) hp hn hlt
    | after root => cases h
  | closing tag =>
    cases p with
    | before => cases h
    | inside o outer =>
      replace h : (if o.tag = tag then Except.ok (Progress.attach o.close outer) else _) =
        Except.ok next := h
      split at h
      · cases h
        exact faithful_attach (n := o.close) hp.2 hp.1.close
          (Position.lt_trans hp.1.before hlt)
      · cases h
    | after root => cases h

/-- Reading a text to its end, from any place of it on, gives a faithful tree. -/
theorem faithful_scan {keep : Bool} (hkeep : keep = true → registry.has "mj-raw" = true)
    {cs : List Char} (hcs : cs <:+ source) {p : Progress}
    (hp : p.Faithful registry source (.ofRest source cs)) {root : Node}
    (h : p.scan registry (.ofRest source) keep cs = .ok root) :
    ∀ n ∈ root.nodes, n.Faithful registry source := by
  induction hlength : cs.length using Nat.strong_induction_on generalizing cs p with
  | _ length ih =>
  subst hlength
  cases cs with
  | nil =>
    rw [Progress.scan_nil] at h
    cases p with
    | before => cases h
    | inside o outer => cases h
    | after last =>
      cases h
      exact hp
  | cons c cs =>
    by_cases hc : c = '<'
    · subst hc
      rw [Progress.scan_marked] at h
      obtain ⟨⟨item?, rest⟩, hread, h⟩ := exists_of_bind h
      obtain ⟨next, hnext, h⟩ := exists_of_bind h
      obtain ⟨hrest, hspells⟩ := of_readMarked registry _ _ hread
      have hshorter : rest.length < ('<' :: cs).length := Nat.lt_succ_of_le hrest.length_le
      have hsuffix : rest <:+ '<' :: cs := hrest.trans (List.suffix_cons _ _)
      have hlt := Position.ofRest_lt hcs hsuffix hshorter
      refine ih rest.length hshorter (hsuffix.trans hcs) ?_ h rfl
      cases item? with
      | none =>
        cases hnext
        exact hp.mono hlt
      | some item =>
        exact faithful_add hkeep hp (textAt?_ofRest hcs) (hspells item rfl) hlt hnext
    · rw [Progress.scan_text registry _ keep p hc] at h
      obtain ⟨next, hnext, h⟩ := exists_of_bind h
      have hshorter := (readText (.ofRest source) c cs hc).shorter
      have hsuffix : (c :: cs).dropWhile (· ≠ '<') <:+ c :: cs := List.dropWhile_suffix _
      have hlt := Position.ofRest_lt hcs hsuffix hshorter
      refine ih _ hshorter (hsuffix.trans hcs) ?_ h rfl
      unfold readText at hnext
      simp only at hnext
      split at hnext
      · cases hnext
        exact hp.mono hlt
      · exact faithful_addText hp hlt hnext

end

/-- Every element of a tree that was read is tidy and stands where it says. -/
theorem forall_nodes_faithful {registry : Registry} {keepComments : Bool} {markup : String}
    {root : Node} (h : Node.read registry keepComments markup = .ok root) :
    ∀ n ∈ root.nodes, n.Faithful registry markup.toList := by
  rw [Node.read_eq_scan] at h
  refine faithful_scan (fun hkeep => ?_) List.suffix_rfl (p := .before) trivial h
  rw [Bool.and_eq_true] at hkeep
  exact hkeep.2

/-- A document with a comment over two lines, and with wide characters before its elements. -/
def commentedLetter : String :=
  "<mjml>\n <mj-body> é<!-- a\n--> é<mj-text a=1> x <b/></mj-text></mj-body></mjml>"

/-- The tree of that document. -/
def commentedLetterTree : Node :=
  .element "mjml" ∅
    [.element "mj-body" ∅
      [.element "mj-raw" ∅ [] "<!-- a\n-->" ⟨2, 13⟩,
        .element "mj-text" (.ofList [("a", "1")]) [] "x <b/>" ⟨3, 6⟩] "é é" ⟨2, 2⟩]
    "" ⟨1, 1⟩

theorem commentedLetter_faithful :
    Node.read .core true commentedLetter = .ok commentedLetterTree ∧
      ∀ n ∈ commentedLetterTree.nodes, n.Faithful .core commentedLetter.toList := by
  have hread : Node.read .core true commentedLetter = .ok commentedLetterTree := by
    with_unfolding_all rfl
  exact ⟨hread, forall_nodes_faithful hread⟩

end EmailMarkup.Markup
