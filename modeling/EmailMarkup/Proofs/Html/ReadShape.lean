import EmailMarkup.Proofs.Html.Front

/-!
# The shape of what was read

Every document that was read is `Shaped` (`shaped_read`): its texts stand apart, its names can be
written in a tag, only elements that may have content have some (`hollowsEmpty_read`), and an
element without an end tag is the last of its siblings.

`Builder.Sound` is the invariant of a run: what has been read so far is of this shape on every level
of open elements, and nothing in it is unfinished. `Builder.Sound.step` says what one piece makes of
such a state. It is such a state again, or the text has ended in a node that nothing closes.
-/

set_option autoImplicit false

namespace EmailMarkup.Html

open EmailMarkup.Text

variable {left : List String} {ended : Bool} {inner : List Node}

/-! ### Nodes behind other nodes -/

theorem startsWithText_append (a b : List Node) :
    startsWithText (a ++ b) = if a = [] then startsWithText b else startsWithText a := by
  cases a with
  | nil => rfl
  | cons n a => cases n <;> rfl

theorem exists_of_startsWithText {nodes : List Node} (h : startsWithText nodes = true) :
    ∃ content rest, nodes = .text content :: rest := by
  unfold startsWithText at h
  split at h
  · exact ⟨_, _, rfl⟩
  · cases h

/-- Finished nodes may be followed by others, if no two texts meet. -/
theorem Shaped.append {xs : List Node} (hxs : Shaped false [] xs) {ys : List Node}
    (hys : Shaped ended left ys)
    (hapart : startsWithText ys = true → startsWithText xs.reverse = false) :
    Shaped ended left (xs ++ ys) := by
  induction xs with
  | nil => exact hys
  | cons n xs ih =>
    have hlast : startsWithText ys = true → startsWithText xs.reverse = false := by
      intro htext
      have h := hapart htext
      rw [List.reverse_cons, startsWithText_append] at h
      split at h
      · rename_i hnil
        rw [hnil]
        rfl
      · exact h
    rw [List.cons_append]
    cases hxs with
    | text hne hbetween hrest =>
      refine .text hne ?_ (ih hrest hlast)
      rw [startsWithText_append]
      split
      · rename_i hnil
        subst hnil
        exact Bool.eq_false_iff.mpr fun htext => by cases hapart htext
      · exact hbetween
    | comment hopen hrest => exact .comment hopen (ih hrest hlast)
    | declaration hform hrest => exact .declaration hform (ih hrest hlast)
    | hollow hname hattrs hhollow hrest => exact .hollow hname hattrs hhollow (ih hrest hlast)
    | rawText hname hattrs hraw hcontent hrest =>
      exact .rawText hname hattrs hraw hcontent (ih hrest hlast)
    | container hname hpad hattrs hvoid hraw hchildren hinner hrest =>
      exact .container hname hpad hattrs hvoid hraw hchildren hinner (ih hrest hlast)

/-- What a text says does not matter to the shape, unless it is empty. -/
theorem Shaped.setText {before after : List Node} {content content' : String}
    (h : Shaped false left (before ++ .text content :: after)) (hne : content' ≠ "") :
    Shaped false left (before ++ .text content' :: after) := by
  induction before with
  | nil =>
    cases h with
    | text _ hapart hrest => exact .text hne hapart hrest
  | cons n before ih =>
    have hhead : startsWithText (before ++ .text content' :: after) =
        startsWithText (before ++ .text content :: after) := by
      rw [startsWithText_append, startsWithText_append]
      rfl
    rw [List.cons_append] at h ⊢
    generalize hmore : before ++ .text content :: after = more at h hhead ih
    cases h with
    | text hn hapart hrest => exact .text hn (hhead.trans hapart) (ih hrest)
    | comment hopen hrest => exact .comment hopen (ih hrest)
    | declaration hform hrest => exact .declaration hform (ih hrest)
    | hollow hname hattrs hhollow hrest => exact .hollow hname hattrs hhollow (ih hrest)
    | rawText hname hattrs hraw hcontent hrest =>
      exact .rawText hname hattrs hraw hcontent (ih hrest)
    | container hname hpad hattrs hvoid hraw hchildren hinner hrest =>
      exact .container hname hpad hattrs hvoid hraw hchildren hinner (ih hrest)
    | openContainer => exact absurd hmore (by simp)

/-! ### States of a run -/

/-- An open element that may have content, with finished children. -/
structure OpenElement.Sound (e : OpenElement) : Prop where
  name : isElementName e.name = true
  attributes : ∀ a ∈ e.attributes, a.HasName
  void : isVoid e.name = false
  raw : isRawText e.name = false
  children : Shaped false [] e.children.reverse

/-- A state in which everything that was read is finished, apart from the open elements. -/
structure Builder.Sound (b : Builder) : Prop where
  top : Shaped false [] b.top.reverse
  stack : ∀ e ∈ b.stack, e.Sound

/-- Children may be changed in ways that keep them in shape. -/
theorem Builder.Sound.onChildren {b : Builder} (h : b.Sound) {f : List Node → List Node}
    (hf : ∀ children, Shaped false [] children.reverse → Shaped false [] (f children).reverse) :
    (b.onChildren f).Sound := by
  obtain ⟨top, stack⟩ := b
  cases stack with
  | nil => exact ⟨hf top h.top, h.stack⟩
  | cons e stack =>
    obtain ⟨he, hstack⟩ := List.forall_mem_cons.mp h.stack
    exact ⟨h.top, List.forall_mem_cons.mpr
      ⟨⟨he.name, he.attributes, he.void, he.raw, hf _ he.children⟩, hstack⟩⟩

/-- Nodes that begin with no text may join finished children, latest first. -/
theorem Shaped.behind {children : List Node} (h : Shaped false [] children.reverse)
    (hinner : Shaped ended left inner.reverse) (htext : startsWithText inner.reverse = false) :
    Shaped ended left (inner ++ children).reverse := by
  rw [List.reverse_append]
  exact h.append hinner fun hcontra => absurd (htext.symm.trans hcontra) Bool.false_ne_true

/-- Text keeps children in shape, as a node of its own or as more of the last one. -/
theorem Shaped.joinText {children : List Node} (h : Shaped false [] children.reverse)
    {content : String} (hne : content ≠ "") :
    Shaped false [] (Html.joinText content children).reverse := by
  cases htext : startsWithText children with
  | false =>
    rw [joinText_eq_cons htext, List.reverse_cons]
    exact h.append (.text hne rfl .nil) fun _ => by rw [List.reverse_reverse, htext]
  | true =>
    obtain ⟨before, rest, rfl⟩ := exists_of_startsWithText htext
    rw [Html.joinText, List.reverse_cons]
    rw [List.reverse_cons] at h
    exact h.setText (by simp [hne])

/-- A finished node that is no text may be added to a sound state. -/
theorem Builder.Sound.add {b : Builder} (h : b.Sound) {n : Node} (hn : Shaped false [] [n])
    (htext : startsWithText [n] = false) : (b.onChildren (n :: ·)).Sound := by
  refine h.onChildren fun children hchildren => ?_
  show Shaped false [] ([n] ++ children).reverse
  exact hchildren.behind hn htext

/-- A name that reads the same as a trimmed one has no blanks at its ends either. -/
theorem unpadded_of_sameName {a b : String} (h : sameName a b = true)
    (hb : Unpadded b.toList) : Unpadded a.toList := by
  rw [sameName, beq_iff_eq] at h
  rwa [← unpadded_lowerChars, h, unpadded_lowerChars]

/-- Closing elements from the inside keeps the state sound. The nodes `inner` are elements that were
closed without an end tag of their own, under the names `left`. -/
theorem sound_closeThrough {name : String} (hpad : Unpadded name.toList) {top : List Node}
    (htop : Shaped false [] top.reverse) {stack : List OpenElement}
    (hstack : ∀ e ∈ stack, e.Sound) (hopen : (stack.any fun e => sameName e.name name) = true)
    (hinner : Shaped false left inner.reverse) (htext : startsWithText inner.reverse = false)
    (hleft : ∀ n ∈ left, sameName n name = false) : (closeThrough name inner top stack).Sound := by
  induction stack generalizing inner left with
  | nil => cases hopen
  | cons e stack ih =>
    obtain ⟨he, hstack⟩ := List.forall_mem_cons.mp hstack
    have hchildren := he.children.behind hinner htext
    rw [closeThrough]
    simp only
    split
    · rename_i hsame
      have hclosed : Shaped false [] [OpenElement.finish { e with children := inner ++ e.children }
          true] := by
        refine .container he.name (unpadded_of_sameName hsame hpad) he.attributes he.void he.raw
          hchildren ?_ .nil
        intro n hn
        have hne := hleft n hn
        simp only [sameName, beq_iff_eq, beq_eq_false_iff_ne] at hsame hne ⊢
        rwa [hsame]
      exact Builder.Sound.add ⟨htop, hstack⟩ hclosed rfl
    · rename_i hsame
      rw [Bool.not_eq_true] at hsame
      rw [List.any_cons, hsame, Bool.false_or] at hopen
      exact ih hstack hopen (.openContainer he.name he.attributes he.void he.raw hchildren) rfl
        (List.forall_mem_cons.mpr ⟨hsame, hleft⟩)

/-- What is closed at the end of a text is in shape. -/
theorem shaped_closeAll {top : List Node} (htop : Shaped false [] top.reverse)
    {stack : List OpenElement} (hstack : ∀ e ∈ stack, e.Sound)
    (hinner : Shaped ended left inner.reverse) (htext : startsWithText inner.reverse = false) :
    ∃ left, Shaped ended left (closeAll inner top stack).reverse := by
  induction stack generalizing inner left with
  | nil => exact ⟨left, htop.behind hinner htext⟩
  | cons e stack ih =>
    obtain ⟨he, hstack⟩ := List.forall_mem_cons.mp hstack
    exact ih hstack (.openContainer he.name he.attributes he.void he.raw
      (he.children.behind hinner htext)) rfl

/-! ### One piece, and all pieces -/

/-- One piece leads from a sound state to another, or to the end of the text by adding a node that
nothing closes. -/
theorem Builder.Sound.step {b : Builder} (h : b.Sound) {cs rest : List Char} {p : Piece}
    (hbegins : Begins cs p rest) :
    (b.step p).Sound ∨
      rest = [] ∧ ∃ n, Shaped true [] [n] ∧ startsWithText [n] = false ∧
        b.step p = b.onChildren (n :: ·) := by
  have hend : ∀ body, (b.step (.endTag (String.ofList (trimChars body)))).Sound := by
    intro body
    rw [Builder.step_endTag]
    split
    · rename_i hopen
      refine sound_closeThrough ?_ h.top h.stack hopen .nil rfl (by simp)
      rw [String.toList_ofList]
      exact unpadded_trimChars body
    · exact h
  cases hbegins with
  | text => exact .inl (h.onChildren fun _ hchildren => hchildren.joinText (by simp))
  | comment hopen | openComment hopen => exact .inl (h.add (.comment hopen .nil) rfl)
  | declaration hform => exact .inl (h.add (.declaration hform .nil) rfl)
  | openDeclaration hform => exact .inr ⟨rfl, _, .openDeclaration hform, rfl, rfl⟩
  | endTag | openEndTag => exact .inl (hend _)
  | startTag hname hread hraw =>
    have hattrs := hasName_of_readAttributes hread
    refine .inl ?_
    rw [Builder.step]
    split
    · rename_i hhollow
      exact h.add (.hollow hname hattrs (by simpa using hhollow) .nil) rfl
    · rename_i hcontent
      simp only [Bool.or_eq_true, not_or, Bool.not_eq_true] at hcontent
      exact ⟨h.top, List.forall_mem_cons.mpr ⟨⟨hname, hattrs, hcontent.2,
        hraw.resolve_right (by simp [hcontent.1]), .nil⟩, h.stack⟩⟩
  | rawText hname hraw hread hcontent =>
    exact .inl (h.add (.rawText hname (hasName_of_readAttributes hread) hraw hcontent .nil) rfl)
  | openRawText hname hraw hread hcontent =>
    exact .inr ⟨rfl, _, .openRawText hname (hasName_of_readAttributes hread) hraw hcontent, rfl, rfl⟩

/-- What a text leads to from a sound state is in shape once all is closed. -/
theorem Builder.Sound.feed {b : Builder} (h : b.Sound) (cs : List Char) :
    ∃ left, Shaped true left (closeAll [] (b.feed cs).top (b.feed cs).stack).reverse := by
  induction cs using readPieces.induct generalizing b with
  | case1 =>
    rw [feed_nil]
    exact shaped_closeAll h.top h.stack .nil rfl
  | case2 c cs _ ih =>
    rw [feed_cons]
    rcases h.step (begins_readPiece c cs) with hstep | ⟨hrest, n, hn, htext, hstep⟩
    · exact ih hstep
    · rw [hrest, feed_nil, hstep]
      exact closeAll_inner [n] b ▸ shaped_closeAll h.top h.stack hn htext

/-- Every document that was read is in shape. -/
theorem shaped_read (html : String) : ∃ left, Shaped true left (Document.read html).children :=
  Builder.Sound.feed ⟨.nil, by simp⟩ html.toList

/-- An element whose content is raw text can have content. -/
theorem hollowsEmpty_rawText {name : String} {attributes : List Attribute}
    (hraw : isRawText name = true) (content : String) (closed : Bool) {rest : List Node}
    (hrest : HollowsEmpty rest) :
    HollowsEmpty (.element { name, attributes, selfClosing := false, closed }
      (rawChildren content) :: rest) := by
  refine .element (fun hhollow => ?_) ?_ hrest
  · have hvoid : isVoid name = true := hhollow
    rw [isRawText_of_isVoid hvoid] at hraw
    cases hraw
  · unfold rawChildren
    split
    · exact .nil
    · exact .text .nil

theorem Shaped.hollowsEmpty {nodes : List Node} (h : Shaped ended left nodes) :
    HollowsEmpty nodes := by
  induction h with
  | nil => exact .nil
  | text _ _ _ ih => exact .text ih
  | comment _ _ ih => exact .comment ih
  | declaration _ _ ih => exact .declaration ih
  | openDeclaration => exact .declaration .nil
  | hollow _ _ _ _ ih => exact .element (fun _ => rfl) .nil ih
  | rawText _ _ hraw _ _ ih => exact hollowsEmpty_rawText hraw _ true ih
  | openRawText _ _ hraw => exact hollowsEmpty_rawText hraw _ false .nil
  | container _ _ _ hvoid _ _ _ _ ihChildren ih =>
    exact .element (by simp [Tag.isHollow, hvoid]) ihChildren ih
  | openContainer _ _ hvoid _ _ ih => exact .element (by simp [Tag.isHollow, hvoid]) ih .nil

/-- In a document that was read, elements that cannot have content have none. -/
theorem hollowsEmpty_read (html : String) : HollowsEmpty (Document.read html).children := by
  obtain ⟨left, hshaped⟩ := shaped_read html
  exact hshaped.hollowsEmpty

end EmailMarkup.Html
