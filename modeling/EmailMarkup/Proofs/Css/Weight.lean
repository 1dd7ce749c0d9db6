import EmailMarkup.Proofs.Css.Declaration
import EmailMarkup.Proofs.Css.Token

/-!
# What declarations weigh

Where declarations are read as they were written, each of them was cut off by its own semicolon
(`cut_first`). Nothing else could have made up for a semicolon that some value has swallowed, and
that is a matter of weight: spaces aside, what was read of a declaration has at least as many
characters as what is written of it (`Spells.solid_text_le`), since escapes only shrink a name and
the mark is written in its shortest form. So no declaration was read from more of the text than it
takes up itself.

Spaces do not count because one of them is written before the mark, where none need have been read.
-/

set_option autoImplicit false

namespace EmailMarkup.Css

open EmailMarkup.Text

/-! ### Weights -/

/-- The number of characters of a text that are not spaces. -/
def solid (cs : List Char) : Nat :=
  cs.countP (· != ' ')

theorem solid_append (cs ds : List Char) : solid (cs ++ ds) = solid cs + solid ds :=
  List.countP_append

theorem solid_cons (c : Char) (cs : List Char) :
    solid (c :: cs) = (if c = ' ' then 0 else 1) + solid cs := by
  rw [solid, List.countP_cons, Nat.add_comm, solid]
  by_cases hc : c = ' ' <;> simp [hc]

theorem solid_colon (cs : List Char) : solid (':' :: cs) = 1 + solid cs := by
  rw [solid_cons, if_neg (by decide)]

/-- Folding to lower case keeps the weight. -/
theorem solid_lowerChars (cs : List Char) : solid (lowerChars cs) = solid cs := by
  rw [solid, lowerChars, List.countP_map, solid]
  congr 1
  funext c
  exact congrArg not (toLower_beq (by decide) c)

/-- Escapes only make a name heavier, so a decoded name weighs no more than its source. -/
theorem solid_decodeName_le (cs : List Char) : solid (decodeName cs) ≤ solid cs :=
  countP_decodeName_le rfl rfl cs

/-- Two beginnings of a text that end with a semicolon and weigh the same are the same. -/
theorem eq_of_solid_eq {a b c d : List Char} (h : (a ++ [';']) ++ b = (c ++ [';']) ++ d)
    (hsolid : solid (a ++ [';']) = solid (c ++ [';'])) : a = c ∧ b = d := by
  have hshort : ∀ {x y z : List Char}, x ++ [';'] = (y ++ [';']) ++ z →
      solid (x ++ [';']) = solid (y ++ [';']) → z = [] := by
    intro x y z hxy hequal
    rcases List.eq_nil_or_concat z with rfl | ⟨w, e, rfl⟩
    · rfl
    · -- What is longer ends with a semicolon of its own, which weighs something.
      rw [List.concat_eq_append, ← List.append_assoc] at hxy
      obtain ⟨rfl, he⟩ := List.append_inj' hxy rfl
      obtain rfl : ';' = e := by simpa using he
      have hone : solid [';'] = 1 := by decide
      rw [solid_append, solid_append, solid_append, hone] at hequal
      omega
  obtain ⟨e, hc, -⟩ | ⟨e, ha, -⟩ := List.append_eq_append_iff.mp h
  · obtain rfl := hshort hc hsolid.symm
    rw [List.append_nil, List.append_left_inj] at hc
    subst hc
    exact ⟨rfl, List.append_cancel_left h⟩
  · obtain rfl := hshort ha hsolid
    rw [List.append_nil, List.append_left_inj] at ha
    subst ha
    exact ⟨rfl, List.append_cancel_left h⟩

/-- A text that stands one character further on as well ends with that character all through. -/
theorem eq_concat_of_shift {x z v : List Char} {a : Char} (h : x ++ (v ++ [a]) = z ++ v) :
    z = x ++ [a] := by
  induction v using List.reverseRecOn with
  | nil => simpa using h.symm
  | append_singleton w b ih =>
    have hlast : (x ++ (w ++ [b])) ++ [a] = (z ++ w) ++ [b] := by simpa using h
    obtain ⟨hfront, hb⟩ := List.append_inj' hlast rfl
    obtain rfl : a = b := by simpa using hb
    exact ih hfront

/-! ### Texts that a semicolon ends -/

/-- A text that is nothing or ends with a semicolon. -/
def Ended (cs : List Char) : Prop :=
  ∀ c ∈ cs.getLast?, c = ';'

/-- A text with a semicolon at its end is ended. -/
theorem ended_concat (cs : List Char) : Ended (cs ++ [';']) := by
  simp [Ended]

/-- So is every end of such a text. -/
theorem Ended.suffix {cs rest : List Char} (h : Ended cs) (hrest : rest <:+ cs) : Ended rest := by
  obtain ⟨front, rfl⟩ := hrest
  cases rest with
  | nil => simp [Ended]
  | cons c rest =>
    intro d hd
    rw [Option.mem_def] at hd
    exact h d (by rw [List.getLast?_append, hd, Option.some_or, Option.mem_def])

/-- An ended text is empty or has the semicolon as its last character. -/
theorem Ended.eq_concat {cs : List Char} (h : Ended cs) (hcs : cs ≠ []) :
    ∃ front, cs = front ++ [';'] := by
  obtain ⟨front, last, rfl⟩ := (List.eq_nil_or_concat cs).resolve_left hcs
  obtain rfl : last = ';' := h last (by simp)
  exact ⟨front, List.concat_eq_append⟩

/-! ### Components that were read -/

/-- A token that was read somewhere in a text. -/
def Token.IsRead (t : Token) : Prop :=
  ∃ c cs, t = { kind := (readToken c cs).1, source := c :: (readToken c cs).2.taken }

/-- A component that begins with a token that was read. If it is a block, that token opens it. -/
def Component.IsRead : Component → Prop
  | .token t => t.IsRead
  | .block opener bracket _ _ => opener.IsRead ∧ opener.kind.opens? = some bracket

/-- The tokens of a text are read ones: each was found at the front of some text. -/
theorem isRead_of_mem {cs : List Char} {t : Token} (h : t ∈ readTokens cs) : t.IsRead := by
  fun_induction readTokens cs with
  | case1 => cases h
  | case2 c rest _ ih =>
    rcases List.mem_cons.mp h with rfl | h
    · exact ⟨c, rest, rfl⟩
    · exact ih h

/-- A grouping of tokens that were read. -/
structure Grouping.IsRead (g : Grouping) : Prop where
  top : ∀ c ∈ g.top, c.IsRead
  stack : ∀ b ∈ g.stack, b.opener.IsRead ∧ b.opener.kind.opens? = some b.bracket

/-- One more component keeps the grouping made of tokens that were read. -/
theorem Grouping.IsRead.add {g : Grouping} (h : g.IsRead) {c : Component} (hc : c.IsRead) :
    (g.add c).IsRead := by
  unfold Grouping.add
  cases hstack : g.stack with
  | nil => exact ⟨List.forall_mem_cons.mpr ⟨hc, h.top⟩, by simp⟩
  | cons b rest =>
    have hall := h.stack
    rw [hstack] at hall
    exact ⟨h.top, List.forall_mem_cons.mpr (List.forall_mem_cons.mp hall)⟩

/-- So does one more token, whether it opens, closes or stands alone. -/
theorem Grouping.IsRead.step {g : Grouping} (h : g.IsRead) {t : Token} (ht : t.IsRead) :
    (g.step t).IsRead := by
  obtain ⟨bracket, hopens, hstep⟩ | ⟨b, rest, hstack, hstep⟩ | hstep :=
    Grouping.step_cases g.stack t
  · rw [hstep g rfl]
    exact ⟨h.top, List.forall_mem_cons.mpr ⟨⟨ht, hopens⟩, h.stack⟩⟩
  · rw [hstep g rfl]
    have hall := h.stack
    rw [hstack, List.forall_mem_cons] at hall
    have hrest : Grouping.IsRead { g with stack := rest } := ⟨h.top, hall.2⟩
    exact hrest.add hall.1
  · rw [hstep g rfl]
    exact h.add ht

/-- The blocks that are still open at the end are made of such tokens too. -/
theorem Grouping.IsRead.result {g : Grouping} (h : g.IsRead) : ∀ c ∈ g.result, c.IsRead := by
  intro c hc
  rw [Grouping.result, List.mem_reverse] at hc
  by_cases hstack : g.stack = []
  · rw [hstack] at hc
    exact h.top c hc
  · obtain ⟨b, hb, content, hend⟩ := endBlocks_of_open none g.top hstack
    rw [hend] at hc
    rcases List.mem_cons.mp hc with rfl | hc
    · exact h.stack b hb
    · exact h.top c hc

/-- The components of every text are made of tokens that were read. -/
theorem isRead_components (cs : List Char) : ∀ c ∈ components cs, c.IsRead := by
  have hfold : ∀ (tokens : List Token) (g : Grouping), g.IsRead → (∀ t ∈ tokens, t.IsRead) →
      (tokens.foldl Grouping.step g).IsRead := by
    intro tokens
    induction tokens with
    | nil => exact fun g h _ => h
    | cons t tokens ih =>
      intro g h hall
      rw [List.forall_mem_cons] at hall
      exact ih (g.step t) (h.step hall.1) hall.2
  exact (hfold _ _ ⟨by simp, by simp⟩ fun _ => isRead_of_mem).result

/-! ### What a component weighs -/

/-- A token that was read fits its source, which says what the source can look like. -/
theorem Token.IsRead.fits {t : Token} (h : t.IsRead) : ∃ rest, t.kind.Fits t.source rest := by
  obtain ⟨c, cs, rfl⟩ := h
  exact ⟨_, fits_readToken c cs⟩

/-- No token is read from nothing, and so none is weightless by being empty. -/
theorem Token.IsRead.source_ne_nil {t : Token} (h : t.IsRead) : t.source ≠ [] := by
  obtain ⟨c, cs, rfl⟩ := h
  exact List.cons_ne_nil _ _

theorem Component.IsRead.source_ne_nil {c : Component} (h : c.IsRead) : c.source ≠ [] := by
  cases c with
  | token t => exact Token.IsRead.source_ne_nil h
  | block opener bracket content closer =>
    rw [Component.source]
    simp [h.1.source_ne_nil]

/-- Components without any source are none. -/
theorem eq_nil_of_sourceOf {cs : List Component} (h : ∀ c ∈ cs, c.IsRead) (hcs : sourceOf cs = []) :
    cs = [] := by
  cases cs with
  | nil => rfl
  | cons c cs =>
    rw [sourceOf, List.append_eq_nil_iff] at hcs
    exact absurd hcs.1 (h c List.mem_cons_self).source_ne_nil

/-- A component of a kind is a token, with a source that fits the kind. -/
theorem Component.IsRead.eq_token {c : Component} (h : c.IsRead) {kind : Kind}
    (hkind : c.isKind kind = true) :
    ∃ source rest, c = .token { kind, source } ∧ kind.Fits source rest := by
  cases c with
  | block => cases hkind
  | token t =>
    obtain ⟨own, source⟩ := t
    obtain rfl : own = kind := by simpa [Component.isKind] using hkind
    obtain ⟨rest, hfits⟩ := Token.IsRead.fits h
    exact ⟨source, rest, rfl, hfits⟩

/-- There is only one token of this kind. -/
theorem Component.IsRead.eq_semicolon {c : Component} (h : c.IsRead)
    (hkind : c.isKind .semicolon = true) : c = .token semicolon := by
  obtain ⟨source, rest, rfl, hfits⟩ := h.eq_token hkind
  cases hfits
  rfl

/-- A component that ends with a semicolon, and is not one, begins with another character. -/
theorem two_le_solid {c : Component} (h : c.IsRead) (hnot : c.isKind .semicolon = false)
    {front : List Char} (hsource : c.source = front ++ [';']) : 2 ≤ solid c.source := by
  have hsemicolon (cs : List Char) : (readToken ';' cs).1 = .semicolon := rfl
  have hspace (cs : List Char) : (readToken ' ' cs).1 = .blank := rfl
  obtain ⟨x, tail, hx, hne, hsolid⟩ : ∃ x tail, c.source = x :: tail ∧ x ≠ ';' ∧ x ≠ ' ' := by
    cases c with
    | token t =>
      obtain ⟨x, cs, rfl⟩ := h
      refine ⟨x, _, rfl, ?_, ?_⟩
      · rintro rfl
        rw [Component.isKind, hsemicolon] at hnot
        cases hnot
      · rintro rfl
        -- A space begins a token of blanks, and the semicolon at its end is none.
        have hfits := fits_readToken ' ' cs
        rw [hspace] at hfits
        change ' ' :: (readToken ' ' cs).2.taken = front ++ [';'] at hsource
        have hlast : isAsciiBlank ';' = true := hfits ';' (by rw [hsource]; simp)
        cases hlast
    | block opener bracket content closer =>
      obtain ⟨⟨x, cs, rfl⟩, hopens⟩ := h
      refine ⟨x, _, by rw [Component.source, List.append_assoc, List.cons_append], ?_, ?_⟩
      · rintro rfl
        rw [hsemicolon] at hopens
        cases hopens
      · rintro rfl
        rw [hspace] at hopens
        cases hopens
  have hfront : x :: tail = front ++ [';'] := hx.symm.trans hsource
  cases front with
  | nil =>
    rw [List.nil_append, List.cons.injEq] at hfront
    exact absurd hfront.1 hne
  | cons y front =>
    rw [List.cons_append, List.cons.injEq] at hfront
    have hone : solid [';'] = 1 := by decide
    rw [hx, solid_cons, if_neg hsolid, hfront.2, solid_append, hone]
    omega

/-- Components that end with a semicolon, and are none. -/
theorem two_le_solid_sourceOf {cs : List Component} (h : ∀ c ∈ cs, c.IsRead)
    (hnot : ∀ c ∈ cs, c.isKind .semicolon = false) (hended : Ended (sourceOf cs)) (hcs : cs ≠ []) :
    2 ≤ solid (sourceOf cs) := by
  obtain ⟨front, c, rfl⟩ := (List.eq_nil_or_concat cs).resolve_left hcs
  rw [List.concat_eq_append] at h hnot hended ⊢
  have hc := h c (by simp)
  have hsource : sourceOf (front ++ [c]) = sourceOf front ++ c.source := by
    rw [sourceOf_append, sourceOf, sourceOf, List.append_nil]
  rw [hsource] at hended ⊢
  obtain ⟨text, htext⟩ := (hended.suffix (List.suffix_append _ _)).eq_concat hc.source_ne_nil
  have htwo := two_le_solid hc (hnot c (by simp)) htext
  rw [solid_append]
  omega

/-! ### What a declaration weighs -/

/-- A declaration as it is written. -/
def Declaration.text (d : Declaration) : List Char :=
  d.print.toList

/-- What is written behind a value. -/
def Declaration.ending (d : Declaration) : List Char :=
  if d.important then " !important;".toList else [';']

theorem text_eq (d : Declaration) :
    d.text = d.property.toList ++ ':' :: (d.value.toList ++ d.ending) := by
  rw [Declaration.text, Declaration.print, Declaration.ending]
  split <;> simp

theorem toList_printDeclarations (ds : List Declaration) :
    (printDeclarations ds).toList = ds.flatMap Declaration.text := by
  rw [printDeclarations, String.toList_join, List.flatMap_map]
  rfl

/-- What a declaration weighs when it is written. The mark of importance weighs ten. -/
theorem solid_text (d : Declaration) :
    solid d.text =
      solid d.property.toList + 1 + solid d.value.toList + if d.important then 11 else 1 := by
  rw [text_eq, solid_append, solid_colon, solid_append, Declaration.ending]
  split
  · have hending : solid " !important;".toList = 11 := by decide
    rw [hending]
    omega
  · have hending : solid [';'] = 1 := by decide
    rw [hending]
    omega

/-- What stands before and behind a trimmed text is blank. -/
theorem exists_blanks_of_trimChars (cs : List Char) :
    ∃ left right, cs = left ++ (trimChars cs ++ right) ∧ (∀ c ∈ left, isBlank c = true) ∧
      ∀ c ∈ right, isBlank c = true := by
  obtain ⟨right, hright, hblank⟩ := exists_blanks_of_trimRight (trimLeft cs)
  refine ⟨cs.takeWhile isBlank, right, ?_, fun c hc => List.mem_takeWhile_imp hc, hblank⟩
  nth_rewrite 1 [← List.takeWhile_append_dropWhile (p := isBlank) (l := cs)]
  exact congrArg _ hright

/-- The parts of the text of a declaration that was read: its name, a gap, the colon, and its value
with the blanks around it. The tail is what else was read. -/
structure Spells (t : Token) (segment : List Component) (d : Declaration)
    (tail : List Component) : Prop where
  sourceOf_eq : ∃ gap left right, sourceOf segment =
    gap ++ ':' :: (left ++ (d.value.toList ++ (right ++ sourceOf tail))) ∧
    (∀ c ∈ left, isBlank c = true) ∧ ∀ c ∈ right, isBlank c = true
  kind : ∃ name, t.kind = .ident name
  property : d.property.toList = lowerChars (decodeName t.source)
  tail_suffix : tail <:+ segment
  mark : d.important = true → ∃ gaps mark between word name rest,
    tail = gaps ++ mark :: (between ++ .token word :: rest) ∧ mark.isKind (.delim '!') = true ∧
      word.kind = .ident name ∧ lower name = "important"

/-- A declaration that was read is spelled by its tokens. Without `IsRead` a token could claim any
name for any source. -/
theorem exists_spells {t : Token} {name : String} {segment : List Component} {d : Declaration}
    (ht : t.IsRead) (hkind : t.kind = .ident name) (hsegment : ∀ c ∈ segment, c.IsRead)
    (h : declarationOf? name segment = some d) : ∃ tail, Spells t segment d tail := by
  obtain ⟨gaps, colon, rest, rfl, hgaps, hcolon, hproperty, hvalue, -, himportant⟩ :=
    exists_of_declarationOf? h
  obtain ⟨vs, ts, rfl, hsource, hmark⟩ := readValue_split [] rest
  obtain ⟨left, right, hsplit, hleft, hright⟩ :=
    exists_blanks_of_trimChars (readValue [] (vs ++ ts)).1
  have hvs : (readValue [] (vs ++ ts)).1 = sourceOf vs := by
    rw [hsource]
    split
    · rename_i hnil
      rw [hnil]
      rfl
    · rfl
  refine ⟨ts, ?_, ⟨name, hkind⟩, ?_, ?_, ?_⟩
  · refine ⟨sourceOf gaps, left, right, ?_, hleft, hright⟩
    rw [← hvalue, hvs] at hsplit
    have hcolon : colon.source = [':'] := by
      obtain ⟨source, rest, rfl, hfits⟩ := (hsegment colon (by simp)).eq_token hcolon
      exact hfits
    rw [sourceOf_append, sourceOf, sourceOf_append, hcolon, hsplit]
    simp
  · obtain ⟨rest, hfits⟩ := ht.fits
    rw [hkind] at hfits
    rw [hproperty, hfits.1, lower, String.toList_ofList, String.toList_ofList]
  · exact (List.suffix_append _ _).trans ((List.suffix_cons _ _).trans (List.suffix_append _ _))
  · intro htrue
    obtain ⟨hfalse, -⟩ | ⟨-, before, mark, after, rfl, -, hmark, hword⟩ := hmark
    · rw [himportant, hfalse] at htrue
      cases htrue
    · obtain ⟨between, word, wordName, rest, rfl, -, hword, hname⟩ := exists_of_atImportant hword
      exact ⟨before, mark, between, word, wordName, rest, rfl, hmark, hword, hname⟩

section
variable {t : Token} {segment tail : List Component} {d : Declaration}

/-- The mark and its word weigh as much as they do when written. -/
theorem Spells.ten_le (h : Spells t segment d tail) (hread : ∀ c ∈ segment, c.IsRead)
    (himportant : d.important = true) :
    ∃ front word rest, sourceOf tail = front ++ (word ++ sourceOf rest) ∧ 1 ≤ solid front ∧
      lowerChars (decodeName word) = "important".toList ∧ rest <:+ tail := by
  obtain ⟨gaps, mark, between, word, name, rest, rfl, hmark, hword, hname⟩ := h.mark himportant
  obtain ⟨source, after, rfl, hfits⟩ :=
    (hread mark (h.tail_suffix.subset (by simp))).eq_token hmark
  have hwordRead : word.IsRead := hread (.token word) (h.tail_suffix.subset (by simp))
  have hsource : source = ['!'] := hfits
  refine ⟨sourceOf gaps ++ (['!'] ++ sourceOf between), word.source, rest, ?_, ?_, ?_, ?_⟩
  · simp [sourceOf_append, sourceOf, Component.source, hsource]
  · have hone : solid ['!'] = 1 := by decide
    rw [solid_append, solid_append, hone]
    omega
  · obtain ⟨after, hfits⟩ := hwordRead.fits
    rw [hword] at hfits
    rw [← hname, hfits.1, lower, String.toList_ofList, String.toList_ofList]
  · exact ⟨gaps ++ .token { kind := .delim '!', source } :: (between ++ [.token word]), by simp⟩

/-- However the word is escaped, it weighs at least its nine letters. -/
theorem nine_le_solid {word : List Char} (h : lowerChars (decodeName word) = "important".toList) :
    9 ≤ solid word := by
  have hle := solid_decodeName_le word
  rw [← solid_lowerChars (decodeName word), h] at hle
  exact hle

/-- A property weighs at most what its name did in the source. -/
theorem Spells.solid_property_le (h : Spells t segment d tail) :
    solid d.property.toList ≤ solid t.source := by
  rw [h.property, solid_lowerChars]
  exact solid_decodeName_le t.source

/-- What was read of a declaration weighs as much as what is written of it. -/
theorem Spells.solid_text_le (h : Spells t segment d tail) (hread : ∀ c ∈ segment, c.IsRead) :
    solid d.text ≤ solid t.source + solid (sourceOf segment) + 1 := by
  obtain ⟨gap, left, right, hsource, -, -⟩ := h.sourceOf_eq
  have hproperty := h.solid_property_le
  rw [solid_text, hsource, solid_append, solid_colon, solid_append, solid_append, solid_append]
  split
  · rename_i himportant
    obtain ⟨front, word, rest, htail, hfront, hword, -⟩ := h.ten_le hread himportant
    have hnine := nine_le_solid hword
    rw [htail, solid_append, solid_append]
    omega
  · omega

/-- What is left of a declaration that ends with a semicolon inside of it. -/
theorem Spells.solid_tail (h : Spells t segment d tail) (hread : ∀ c ∈ segment, c.IsRead)
    (hnot : ∀ c ∈ segment, c.isKind .semicolon = false) (hended : Ended (sourceOf segment))
    (htail : tail ≠ []) : (if d.important then 12 else 2) ≤ solid (sourceOf tail) := by
  have hread' : ∀ c ∈ tail, c.IsRead := fun c hc => hread c (h.tail_suffix.subset hc)
  have hnot' : ∀ c ∈ tail, c.isKind .semicolon = false :=
    fun c hc => hnot c (h.tail_suffix.subset hc)
  have hended' : Ended (sourceOf tail) := by
    obtain ⟨front, hfront⟩ := h.tail_suffix
    rw [← hfront, sourceOf_append] at hended
    exact hended.suffix (List.suffix_append _ _)
  split
  · rename_i himportant
    obtain ⟨front, word, rest, hsource, hfront, hword, hrest⟩ := h.ten_le hread himportant
    have hnine := nine_le_solid hword
    rw [hsource, ← List.append_assoc] at hended'
    by_cases hnil : rest = []
    · -- The word itself would end with a semicolon.
      exfalso
      rw [hnil, sourceOf, List.append_nil] at hended'
      have hne : word ≠ [] := by
        rintro rfl
        exact absurd hnine (by decide)
      obtain ⟨x, hx⟩ := (hended'.suffix (List.suffix_append _ _)).eq_concat hne
      have hmem : ';' ∈ lowerChars (decodeName word) :=
        List.mem_map.mpr ⟨';', mem_decodeName (by rw [hx]; simp), rfl⟩
      rw [hword] at hmem
      exact absurd hmem (by decide)
    · have htwo := two_le_solid_sourceOf (fun c hc => hread' c (hrest.subset hc))
        (fun c hc => hnot' c (hrest.subset hc)) (hended'.suffix (List.suffix_append _ _)) hnil
      rw [hsource, solid_append, solid_append]
      omega
  · exact two_le_solid_sourceOf hread' hnot' hended' htail

/-- The value of the last declaration stands at the end of a text, behind another character than a
semicolon. -/
def EndsWithValue (ds : List Declaration) (text : List Char) : Prop :=
  ∃ first d front c, ds = first ++ [d] ∧ d.important = false ∧ c ≠ ';' ∧
    text = front ++ c :: d.value.toList

/-- A declaration that no semicolon ends weighs more than it does when written, unless its value
ends with the text. -/
theorem Spells.solid_text_lt (h : Spells t segment d tail) (hread : ∀ c ∈ segment, c.IsRead)
    (hnot : ∀ c ∈ segment, c.isKind .semicolon = false) (hended : Ended (sourceOf segment)) :
    solid d.text < solid t.source + solid (sourceOf segment) ∨
      EndsWithValue [d] (t.source ++ sourceOf segment) := by
  obtain ⟨gap, left, right, hsource, hleft, hright⟩ := h.sourceOf_eq
  by_cases htail : tail = []
  · -- With nothing behind it the value takes the last semicolon, since blanks cannot.
    right
    have hplain : d.important = false := by
      by_contra himportant
      obtain ⟨front, word, rest, htext, hfront, -⟩ :=
        h.ten_le hread (by simpa using himportant)
      rw [htail, sourceOf] at htext
      rw [(List.append_eq_nil_iff.mp htext.symm).1] at hfront
      exact absurd hfront (by decide)
    rw [htail, sourceOf, List.append_nil] at hsource
    have hnil : right = [] := by
      by_contra hne
      rw [hsource] at hended
      obtain ⟨x, hx⟩ := (hended.suffix ⟨gap ++ ':' :: (left ++ d.value.toList),
        by simp⟩).eq_concat hne
      exact absurd (hright ';' (by rw [hx]; simp)) (by decide)
    rw [hnil, List.append_nil] at hsource
    rcases List.eq_nil_or_concat left with rfl | ⟨blanks, c, rfl⟩
    · exact ⟨[], d, t.source ++ gap, ':', rfl, hplain, by decide, by rw [hsource]; simp⟩
    · refine ⟨[], d, t.source ++ (gap ++ ':' :: blanks), c, rfl, hplain, ?_,
        by rw [hsource]; simp⟩
      rintro rfl
      exact absurd (hleft ';' (by simp)) (by decide)
  · left
    have hweight := h.solid_tail hread hnot hended htail
    have hproperty := h.solid_property_le
    rw [solid_text, hsource, solid_append, solid_colon, solid_append, solid_append, solid_append]
    cases himportant : d.important <;> simp [himportant] at hweight ⊢ <;> omega

end

/-! ### Declarations that are written one after the other -/

/-- The first of the declarations that were read, and what it is spelled by. -/
theorem exists_spelled {cs : List Component} (hread : ∀ c ∈ cs, c.IsRead) {d : Declaration}
    {ds : List Declaration} (h : declarationsOf cs = d :: ds) :
    ∃ before t segment tail behind, cs = before ++ .token t :: (segment ++ behind) ∧
      t.IsRead ∧ (∀ c ∈ segment, c.IsRead) ∧ (∀ c ∈ segment, c.isKind .semicolon = false) ∧
      Spells t segment d tail ∧ (behind = [] ∧ ds = [] ∨
        ∃ after, behind = .token semicolon :: after ∧ declarationsOf after = ds) := by
  obtain ⟨before, t, name, segment, behind, rfl, hkind, hnot, hfound, hbehind⟩ :=
    declares_of_declarationsOf h
  have ht : t.IsRead := hread (.token t) (by simp)
  have hsegment : ∀ c ∈ segment, c.IsRead := fun c hc => hread c (by simp [hc])
  obtain ⟨tail, hspells⟩ := exists_spells ht hkind hsegment hfound
  refine ⟨before, t, segment, tail, behind, rfl, ht, hsegment, hnot, hspells, ?_⟩
  refine hbehind.imp_right ?_
  rintro ⟨s, after, rfl, hs, hafter⟩
  have hsemicolon := (hread (.token s) (by simp)).eq_semicolon
    (by simpa [Component.isKind] using hs)
  exact ⟨after, by rw [hsemicolon], hafter⟩

/-- The source around a declaration, in three pieces. -/
theorem sourceOf_spelled (before segment behind : List Component) (t : Token) :
    sourceOf (before ++ .token t :: (segment ++ behind)) =
      sourceOf before ++ (t.source ++ sourceOf segment) ++ sourceOf behind := by
  simp [sourceOf_append, sourceOf, Component.source]

/-- More text and more declarations before it do not matter for how a text ends. -/
theorem EndsWithValue.append {ds : List Declaration} {text : List Char} (h : EndsWithValue ds text)
    (before : List Declaration) (front : List Char) :
    EndsWithValue (before ++ ds) (front ++ text) := by
  obtain ⟨first, d, z, c, rfl, hplain, hc, rfl⟩ := h
  exact ⟨before ++ first, d, front ++ z, c, by rw [List.append_assoc], hplain, hc,
    by rw [List.append_assoc]⟩

/-- As declarations are written, a semicolon stands behind the last value. -/
theorem not_endsWithValue (ds : List Declaration) :
    ¬ EndsWithValue ds (ds.flatMap Declaration.text) := by
  rintro ⟨first, d, z, c, rfl, hplain, hc, htext⟩
  have hshift : (first.flatMap Declaration.text ++ (d.property.toList ++ [':'])) ++
      (d.value.toList ++ [';']) = (z ++ [c]) ++ d.value.toList := by
    rw [List.flatMap_append, List.flatMap_singleton, text_eq, Declaration.ending, hplain] at htext
    simpa using htext
  have hlast := eq_concat_of_shift hshift
  obtain ⟨-, hsemicolon⟩ := List.append_inj' hlast rfl
  exact hc (by simpa using hsemicolon)

/-- A written declaration ends with a semicolon. -/
theorem text_eq_concat (d : Declaration) : ∃ body, d.text = body ++ [';'] := by
  rw [text_eq, Declaration.ending]
  split
  · exact ⟨d.property.toList ++ ':' :: (d.value.toList ++ " !important".toList), by simp⟩
  · exact ⟨d.property.toList ++ ':' :: d.value.toList, by simp⟩

/-- So do written declarations, one after the other. -/
theorem ended_flatMap_text (ds : List Declaration) : Ended (ds.flatMap Declaration.text) := by
  rcases List.eq_nil_or_concat ds with rfl | ⟨first, d, rfl⟩
  · simp [Ended]
  · obtain ⟨body, hbody⟩ := text_eq_concat d
    rw [List.concat_eq_append, List.flatMap_append, List.flatMap_singleton, hbody,
      ← List.append_assoc]
    exact ended_concat _

/-- What was read of declarations weighs as much as what is written of them, unless the value of the
last ends with the text. -/
theorem solid_flatMap_text_le {cs : List Component} (hread : ∀ c ∈ cs, c.IsRead)
    (hended : Ended (sourceOf cs)) {ds : List Declaration} (h : declarationsOf cs = ds) :
    solid (ds.flatMap Declaration.text) ≤ solid (sourceOf cs) ∨ EndsWithValue ds (sourceOf cs) := by
  induction ds generalizing cs with
  | nil => exact .inl (Nat.zero_le _)
  | cons d ds ih =>
    obtain ⟨before, t, segment, tail, behind, rfl, ht, hsegment, hnot, hspells, hbehind⟩ :=
      exists_spelled hread h
    rw [sourceOf_spelled] at hended ⊢
    obtain ⟨rfl, rfl⟩ | ⟨after, rfl, hafter⟩ := hbehind
    · rw [sourceOf, List.append_nil] at hended ⊢
      obtain hlt | hvalue := hspells.solid_text_lt hsegment hnot
        (hended.suffix ((List.suffix_append _ _).trans (List.suffix_append _ _)))
      · left
        rw [List.flatMap_cons, List.flatMap_nil, List.append_nil, solid_append, solid_append]
        omega
      · exact .inr (hvalue.append [] _)
    · have hafterRead : ∀ c ∈ after, c.IsRead := fun c hc => hread c (by simp [hc])
      have hsource : sourceOf (.token semicolon :: after) = ';' :: sourceOf after := rfl
      rw [hsource] at hended ⊢
      have hle := hspells.solid_text_le hsegment
      obtain hafter | hvalue := ih hafterRead
        (hended.suffix ((List.suffix_cons _ _).trans (List.suffix_append _ _))) hafter
      · left
        rw [List.flatMap_cons, solid_append, solid_append, solid_append, solid_append, solid_cons,
          if_neg (by decide)]
        omega
      · right
        have hmore := hvalue.append [d] (sourceOf before ++ (t.source ++ sourceOf segment) ++ [';'])
        rwa [List.append_assoc _ [';']] at hmore

/-- Where declarations are read as they are written, the first of them is cut off by its semicolon:
it is read on its own, and so are the others. -/
theorem cut_first {d : Declaration} {ds : List Declaration}
    (h : declarationsOf (components ((d :: ds).flatMap Declaration.text)) = d :: ds) :
    ∃ before t segment tail, components d.text =
        before ++ .token t :: (segment ++ [.token semicolon]) ∧
      t.IsRead ∧ (∀ c ∈ segment, c.IsRead) ∧ (∀ c ∈ segment, c.isKind .semicolon = false) ∧
      Spells t segment d tail ∧ declarationsOf (components d.text) = [d] ∧
      declarationsOf (components (ds.flatMap Declaration.text)) = ds := by
  have hread := isRead_components ((d :: ds).flatMap Declaration.text)
  have hended := ended_flatMap_text (d :: ds)
  have hwhole := sourceOf_components ((d :: ds).flatMap Declaration.text)
  have hvalue := not_endsWithValue (d :: ds)
  obtain ⟨before, t, segment, tail, behind, hcs, ht, hsegment, hnot, hspells, hbehind⟩ :=
    exists_spelled hread h
  rw [hcs, sourceOf_spelled] at hwhole
  obtain ⟨rfl, rfl⟩ | ⟨after, rfl, hafter⟩ := hbehind
  · -- Without a semicolon behind it, the declaration would weigh more than its text.
    exfalso
    rw [sourceOf, List.append_nil] at hwhole
    rw [← hwhole] at hended hvalue
    obtain hlt | hends := hspells.solid_text_lt hsegment hnot
      (hended.suffix ((List.suffix_append _ _).trans (List.suffix_append _ _)))
    · have hweight := congrArg solid hwhole
      rw [List.flatMap_singleton, solid_append, solid_append] at hweight
      omega
    · exact hvalue (hends.append [] _)
  · have hsource : sourceOf (.token semicolon :: after) = [';'] ++ sourceOf after := rfl
    rw [hsource, ← List.append_assoc] at hwhole
    have hfirst := hspells.solid_text_le hsegment
    have hothers : solid (ds.flatMap Declaration.text) ≤ solid (sourceOf after) := by
      refine (solid_flatMap_text_le (fun c hc => hread c (by rw [hcs]; simp [hc])) ?_
        hafter).resolve_right ?_
      · rw [← hwhole] at hended
        exact hended.suffix (List.suffix_append _ _)
      · intro hends
        rw [← hwhole] at hvalue
        exact hvalue (hends.append [d] _)
    obtain ⟨body, hbody⟩ := text_eq_concat d
    rw [List.flatMap_cons, hbody] at hwhole
    have hone : solid [';'] = 1 := by decide
    have hweight := congrArg solid hwhole
    rw [hbody, solid_append, hone] at hfirst
    simp only [solid_append, hone] at hweight
    -- Neither the first nor the others weigh less than their text, so both are their text.
    obtain ⟨hfront, hrest⟩ := eq_of_solid_eq hwhole (by simp only [solid_append, hone]; omega)
    rw [List.flatMap_cons, hbody, ← hrest, ← hfront, List.append_assoc _ [';']] at hcs h
    have hcomponents : components (sourceOf before ++ (t.source ++ sourceOf segment) ++
        ';' :: sourceOf after) = (before ++ .token t :: segment) ++ .token semicolon :: after := by
      simpa using hcs
    have hreplace := components_replace hcomponents
      (by simp [sourceOf_append, sourceOf, Component.source])
    -- With nothing put behind the semicolon the first is left, and with the same the others.
    have hcut := hreplace []
    rw [components_nil] at hcut
    have hrestRead : after = components (sourceOf after) := by
      simpa using hcomponents.symm.trans (hreplace (sourceOf after))
    refine ⟨before, t, segment, tail, ?_, ht, hsegment, hnot, hspells, ?_, ?_⟩
    · rw [hbody, ← hfront, hcut]
      simp
    · rw [List.singleton_append, hcomponents, declarationsOf_append, hafter,
        ← List.singleton_append] at h
      rw [hbody, ← hfront, hcut]
      exact List.append_cancel_right h
    · rw [← hrest, ← hrestRead]
      exact hafter

end EmailMarkup.Css
