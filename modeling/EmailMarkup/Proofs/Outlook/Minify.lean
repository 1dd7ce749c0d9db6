import EmailMarkup.Proofs.Outlook.Merge
import EmailMarkup.Proofs.Outlook.Tight

/-!
# What minifying does to a text

`Cut` is a text with its conditional blocks, which are found from left to right: a block begins at
an opening that some closing mark follows, and ends at the first closing mark.
`minify_tightens_blocks` says what minifying does to it. The characters outside of blocks, the
openings and the closing marks stay, each content is made tight, and the result is cut into blocks
at the same places, so that minifying it again changes nothing.

An opening may run on through any text up to its `]`, other blocks not excluded, so it is not plain
that a place where no block begins stays one when the blocks further on change. It does, because the
next block brings an opening of its own: whether another one begins in front of it is settled by the
text up to the end of that opening, which does not change (`beginsBlock_iff_of_opening`).
-/

set_option autoImplicit false

namespace EmailMarkup.Outlook

open EmailMarkup.Text

variable {cs start content : List Char}

/-! ### Blocks -/

/-- The opening of a conditional block: a condition that begins with a blank and has at least one
more character, none of them a `]`. -/
def IsOpening (start : List Char) : Prop :=
  ∃ b condition, start = "<!--[if".toList ++ (b :: condition ++ "]>".toList) ∧
    isBlank b = true ∧ condition ≠ [] ∧ ']' ∉ condition

/-- A conditional block begins here: an opening that some closing mark follows. -/
def BeginsBlock (cs : List Char) : Prop :=
  ∃ start rest, IsOpening start ∧ closing.toList <:+: rest ∧ cs = start ++ rest

/-- A conditional block, or a character outside of all blocks. -/
inductive Stretch
  | outside (c : Char)
  | block (start content : List Char)

/-- A text and its parts. -/
inductive Cut : List Char → List Stretch → Prop
  | nil : Cut [] []
  | outside {c : Char} {cs : List Char} {parts : List Stretch} (hnone : ¬ BeginsBlock (c :: cs))
      (h : Cut cs parts) : Cut (c :: cs) (.outside c :: parts)
  | block {start content next : List Char} {parts : List Stretch} (hopen : IsOpening start)
      (hfirst : ¬ closing.toList <:+: content) (h : Cut next parts) :
      Cut (start ++ (content ++ (closing.toList ++ next))) (.block start content :: parts)

/-! ### Finding blocks -/

/-- A blank does not end a condition. -/
theorem ne_bracket_of_isBlank {b : Char} (hb : isBlank b = true) : b ≠ ']' := by
  rintro rfl
  exact absurd hb (by decide)

theorem anyOpening?_eq_some_iff {rest : List Char} :
    anyOpening? cs = some (start, rest) ↔ IsOpening start ∧ cs = start ++ rest := by
  constructor
  · intro h
    unfold anyOpening? at h
    obtain ⟨tail, htail, h⟩ := Option.bind_eq_some_iff.mp h
    rw [after?_eq_some_iff] at htail
    split at h
    · rename_i b d more
      split at h
      · rename_i hstart
        rw [Bool.and_eq_true] at hstart
        obtain ⟨next, hnext, h⟩ := Option.bind_eq_some_iff.mp h
        rw [after?_eq_some_iff] at hnext
        simp only [Option.pure_def, Option.some.injEq, Prod.mk.injEq] at h
        obtain ⟨rfl, rfl⟩ := h
        have hb : (b != ']') = true := bne_iff_ne.mpr (ne_bracket_of_isBlank hstart.1)
        have htake : (b :: d :: more).takeWhile (· != ']') =
            b :: d :: more.takeWhile (· != ']') := by
          simp only [List.takeWhile_cons, hb, hstart.2, if_true]
        have hnot : ']' ∉ d :: more.takeWhile (· != ']') := by
          intro hmem
          have htaken : ']' ∈ (b :: d :: more).takeWhile (· != ']') := by
            rw [htake]
            exact List.mem_cons_of_mem b hmem
          exact absurd (List.mem_takeWhile_imp htaken) (by decide)
        refine ⟨⟨b, _, ?_, hstart.1, List.cons_ne_nil _ _, hnot⟩, ?_⟩
        · rw [htake, List.append_assoc]
        · rw [htail, List.append_assoc, List.append_assoc, ← hnext,
            List.takeWhile_append_dropWhile]
      · cases h
    · cases h
  · rintro ⟨⟨b, condition, rfl, hb, hne, hnot⟩, rfl⟩
    obtain ⟨d, condition, rfl⟩ := List.exists_cons_of_ne_nil hne
    have hafter : after? "<!--[if".toList ("<!--[if".toList ++ (b :: d :: condition ++
        "]>".toList) ++ rest) = some (b :: d :: (condition ++ (']' :: '>' :: rest))) := by
      rw [after?_eq_some_iff]
      simp
    have hall : ']' ∉ b :: d :: condition := by
      rw [List.mem_cons, not_or]
      exact ⟨(ne_bracket_of_isBlank hb).symm, hnot⟩
    have hd : (d != ']') = true := bne_of_notMem hnot d List.mem_cons_self
    have hdrop : (b :: d :: (condition ++ (']' :: '>' :: rest))).dropWhile (· != ']') =
        "]>".toList ++ rest := dropWhile_bne_append hall ('>' :: rest)
    have htake : (b :: d :: (condition ++ (']' :: '>' :: rest))).takeWhile (· != ']') =
        b :: d :: condition := takeWhile_bne_append hall ('>' :: rest)
    have hnext : after? "]>".toList ("]>".toList ++ rest) = some rest :=
      after?_eq_some_iff.mpr rfl
    unfold anyOpening?
    rw [hafter]
    simp only [Option.bind_eq_bind, Option.bind_some, hb, hd, Bool.and_self, if_true, hdrop, htake,
      hnext, Option.pure_def, List.append_assoc]

/-- A content ends at the first closing mark. -/
theorem splitAtMark?_closing_iff {next : List Char} :
    splitAtMark? closing.toList cs = some (content, next) ↔
      ¬ closing.toList <:+: content ∧ cs = content ++ (closing.toList ++ next) := by
  obtain ⟨mark, hmark, hone⟩ := closing_eq
  constructor
  · intro h
    obtain ⟨hcs, hfirst⟩ := splitAtMark?_eq_some h
    refine ⟨?_, hcs⟩
    rintro ⟨pre, post, rfl⟩
    refine hfirst pre (closing.toList ++ post) (by rw [List.append_assoc]) ?_ ?_
    · rw [hmark]
      exact List.cons_ne_nil _ _
    · rw [List.append_assoc]
      exact List.prefix_append _ _
  · rintro ⟨hnone, rfl⟩
    refine splitAtMark?_append (by decide) content next ?_
    rintro pre post rfl hpost hbegins
    rw [hmark, List.cons_append] at hbegins
    have hbefore := prefix_of_prefix_append_bracket hone hpost hbegins
    rw [← hmark] at hbefore
    exact hnone (hbefore.isInfix.trans (List.suffix_append pre post).isInfix)

theorem anyBlock?_eq_some_iff {next : List Char} :
    anyBlock? cs = some (start, content, next) ↔ IsOpening start ∧
      ¬ closing.toList <:+: content ∧ cs = start ++ (content ++ (closing.toList ++ next)) := by
  unfold anyBlock?
  constructor
  · intro h
    obtain ⟨⟨start', rest⟩, hopen, h⟩ := Option.bind_eq_some_iff.mp h
    obtain ⟨⟨content', next'⟩, hsplit, h⟩ := Option.bind_eq_some_iff.mp h
    simp only [Option.pure_def, Option.some.injEq, Prod.mk.injEq] at h
    obtain ⟨rfl, rfl, rfl⟩ := h
    obtain ⟨hopening, rfl⟩ := anyOpening?_eq_some_iff.mp hopen
    obtain ⟨hfirst, rfl⟩ := splitAtMark?_closing_iff.mp hsplit
    exact ⟨hopening, hfirst, rfl⟩
  · rintro ⟨hopening, hfirst, rfl⟩
    rw [anyOpening?_eq_some_iff.mpr ⟨hopening, rfl⟩]
    simp [splitAtMark?_closing_iff.mpr ⟨hfirst, rfl⟩]

theorem anyBlock?_eq_none_iff : anyBlock? cs = none ↔ ¬ BeginsBlock cs := by
  constructor
  · rintro h ⟨start, rest, hopening, hoccurs, rfl⟩
    obtain ⟨⟨content, next⟩, hsplit⟩ := Option.isSome_iff_exists.mp (occursIn_iff.mpr hoccurs)
    obtain ⟨hfirst, rfl⟩ := splitAtMark?_closing_iff.mp hsplit
    rw [anyBlock?_eq_some_iff.mpr ⟨hopening, hfirst, rfl⟩] at h
    cases h
  · intro h
    rw [← Option.not_isSome_iff_eq_none, Option.isSome_iff_exists]
    rintro ⟨⟨start, content, next⟩, hblock⟩
    obtain ⟨hopening, -, rfl⟩ := anyBlock?_eq_some_iff.mp hblock
    exact h ⟨start, _, hopening, ⟨content, next, by rw [List.append_assoc]⟩, rfl⟩

/-! ### Minifying part by part -/

theorem minifyChars_block (hopen : IsOpening start) (hfirst : ¬ closing.toList <:+: content)
    (next : List Char) :
    minifyChars (start ++ (content ++ (closing.toList ++ next))) =
      start ++ (squeeze (closeGaps true content) ++ (closing.toList ++ minifyChars next)) := by
  have hblock := anyBlock?_eq_some_iff.mpr
    ⟨hopen, hfirst, (rfl : start ++ (content ++ (closing.toList ++ next)) = _)⟩
  obtain ⟨c, cs, hcs⟩ : ∃ c cs, start ++ (content ++ (closing.toList ++ next)) = c :: cs := by
    obtain ⟨b, condition, rfl, -⟩ := hopen
    exact ⟨_, _, rfl⟩
  rw [hcs] at hblock ⊢
  rw [minifyChars]
  split
  · rename_i start' content' next' h'
    rw [h', Option.some.injEq, Prod.mk.injEq, Prod.mk.injEq] at hblock
    obtain ⟨rfl, rfl, rfl⟩ := hblock
    rw [List.append_assoc, List.append_assoc]
  · rename_i h'
    rw [h'] at hblock
    cases hblock

theorem minifyChars_outside {c : Char} (hnone : ¬ BeginsBlock (c :: cs)) :
    minifyChars (c :: cs) = c :: minifyChars cs := by
  have hblock := anyBlock?_eq_none_iff.mpr hnone
  rw [minifyChars]
  split
  · rename_i h'
    rw [h'] at hblock
    cases hblock
  · rfl

/-- Every text can be cut into its parts. -/
theorem exists_cut (cs : List Char) : ∃ parts, Cut cs parts := by
  fun_induction minifyChars cs with
  | case1 => exact ⟨[], .nil⟩
  | case2 c cs start content next hblock hshort ih =>
    obtain ⟨parts, hparts⟩ := ih
    obtain ⟨hopen, hfirst, hcs⟩ := anyBlock?_eq_some_iff.mp hblock
    rw [hcs]
    exact ⟨_, .block hopen hfirst hparts⟩
  | case3 c cs hblock ih =>
    obtain ⟨parts, hparts⟩ := ih
    exact ⟨_, .outside (anyBlock?_eq_none_iff.mp hblock) hparts⟩

/-! ### The same blocks -/

/-- An opening ends with the first `]` in it. -/
theorem IsOpening.eq_append (h : IsOpening start) :
    ∃ front, start = front ++ ']' :: ['>'] ∧ ']' ∉ front := by
  obtain ⟨b, condition, rfl, hb, -, hnot⟩ := h
  refine ⟨"<!--[if".toList ++ b :: condition, by simp, ?_⟩
  rw [List.mem_append, List.mem_cons, not_or, not_or]
  exact ⟨by decide, (ne_bracket_of_isBlank hb).symm, hnot⟩

/-- An opening in front of another one does not run on behind it. -/
theorem IsOpening.prefix_of_append_eq {start' u x y : List Char} (h : IsOpening start)
    (h' : IsOpening start') (heq : start ++ x = u ++ (start' ++ y)) : start <+: u ++ start' := by
  obtain ⟨front, rfl, hfront⟩ := h.eq_append
  obtain ⟨front', rfl, -⟩ := h'.eq_append
  have hsplit : front ++ ']' :: '>' :: x = (u ++ front') ++ ']' :: '>' :: y := by simpa using heq
  rw [← List.append_assoc]
  rcases List.append_eq_append_iff.mp hsplit with ⟨mid, hmid, hrest⟩ | ⟨mid, hmid, hrest⟩
  · -- The `]` of the first opening stands before that of the second, or is the same.
    rw [hmid, List.append_assoc, List.prefix_append_right_inj]
    cases mid with
    | nil => exact List.prefix_refl _
    | cons c mid =>
      rw [List.cons_append, List.cons.injEq] at hrest
      cases mid with
      | nil => exact absurd (List.cons.inj hrest.2).1 (by decide)
      | cons d mid =>
        rw [List.cons_append, List.cons.injEq] at hrest
        rw [← hrest.1, ← hrest.2.1]
        exact List.prefix_append _ _
  · cases mid with
    | nil => rw [hmid, List.append_nil]
    | cons c mid =>
      rw [List.cons_append, List.cons.injEq] at hrest
      rw [hmid, ← hrest.1] at hfront
      exact absurd (List.mem_append_right _ List.mem_cons_self) hfront

/-- Whether a block begins in front of an opening that a closing mark follows is settled by the text
up to the end of that opening. -/
theorem beginsBlock_iff_of_opening {u rest : List Char} (hopen : IsOpening start)
    (hoccurs : closing.toList <:+: rest) :
    BeginsBlock (u ++ (start ++ rest)) ↔ ∃ start', IsOpening start' ∧ start' <+: u ++ start := by
  constructor
  · rintro ⟨start', rest', hopen', -, heq⟩
    exact ⟨start', hopen', hopen'.prefix_of_append_eq hopen heq.symm⟩
  · rintro ⟨start', hopen', tail, htail⟩
    refine ⟨start', tail ++ rest, hopen', hoccurs.trans (List.suffix_append tail rest).isInfix, ?_⟩
    rw [← List.append_assoc, ← htail, List.append_assoc]

/-- Minifying changes nothing, or it changes nothing up to the end of an opening. -/
theorem Cut.same_front {stretches : List Stretch} (h : Cut cs stretches) :
    minifyChars cs = cs ∨ ∃ u start rest rest', IsOpening start ∧ closing.toList <:+: rest ∧
      closing.toList <:+: rest' ∧ cs = u ++ (start ++ rest) ∧
      minifyChars cs = u ++ (start ++ rest') := by
  induction h with
  | nil => exact .inl (by rw [minifyChars])
  | @outside c cs stretches hnone h ih =>
    rw [minifyChars_outside hnone]
    rcases ih with hsame | ⟨u, start, rest, rest', hopen, hrest, hrest', hcs, hminified⟩
    · exact .inl (by rw [hsame])
    · exact .inr ⟨c :: u, start, rest, rest', hopen, hrest, hrest', by rw [hcs]; rfl,
        by rw [hminified]; rfl⟩
  | @block start content next stretches hopen hfirst h ih =>
    rw [minifyChars_block hopen hfirst]
    exact .inr ⟨[], start, _, _, hopen, ⟨content, next, List.append_assoc _ _ _⟩,
      ⟨_, _, List.append_assoc _ _ _⟩, rfl, rfl⟩

/-- Where no block begins, none begins when the text further on is minified. -/
theorem Cut.not_beginsBlock {c : Char} {stretches : List Stretch} (h : Cut cs stretches)
    (hnone : ¬ BeginsBlock (c :: cs)) : ¬ BeginsBlock (c :: minifyChars cs) := by
  rcases h.same_front with hsame | ⟨u, start, rest, rest', hopen, hrest, hrest', hcs, hminified⟩
  · rwa [hsame]
  · rw [hcs, ← List.cons_append, beginsBlock_iff_of_opening hopen hrest] at hnone
    rwa [hminified, ← List.cons_append, beginsBlock_iff_of_opening hopen hrest']

/-- What minifying makes of a stretch. -/
def Stretch.tighten : Stretch → Stretch
  | .outside c => .outside c
  | .block start content => .block start (squeeze (closeGaps true content))

/-- No closing mark comes up in a content. -/
theorem not_occurs_squeeze_closeGaps (h : ¬ closing.toList <:+: content) :
    ¬ closing.toList <:+: squeeze (closeGaps true content) := by
  have hmark : closing.toList.tail.all (fun m => !isBlank m && m != '<') = true := by decide
  have hclosing : closing.toList = '<' :: closing.toList.tail := rfl
  rw [hclosing] at h ⊢
  refine fun hoccurs => h ((tightens_squeeze_closeGaps true content).occurs ?_ hoccurs)
  intro m hm
  simpa using List.all_eq_true.mp hmark m hm

/-- The minified text has its blocks where the text has them. -/
theorem Cut.minify {stretches : List Stretch} (h : Cut cs stretches) :
    Cut (minifyChars cs) (stretches.map Stretch.tighten) := by
  induction h with
  | nil =>
    rw [minifyChars]
    exact .nil
  | outside hnone h ih =>
    rw [minifyChars_outside hnone]
    exact .outside (h.not_beginsBlock hnone) ih
  | block hopen hfirst h ih =>
    rw [minifyChars_block hopen hfirst]
    exact .block hopen (not_occurs_squeeze_closeGaps hfirst) ih

/-! ### What stays -/

/-- The characters that are no blanks stay, in order. -/
theorem Cut.filter_eq {cs : List Char} {stretches : List Stretch} (h : Cut cs stretches) :
    (minifyChars cs).filter (fun c => !isBlank c) = cs.filter fun c => !isBlank c := by
  induction h with
  | nil => rw [minifyChars]
  | outside hnone h ih =>
    rw [minifyChars_outside hnone, List.filter_cons, List.filter_cons, ih]
  | block hopen hfirst h ih =>
    rw [minifyChars_block hopen hfirst]
    simp only [List.filter_append, ih, (tightens_squeeze_closeGaps true _).filter_eq]

/-- A text whose blocks are tight is not changed. -/
theorem Cut.minifyChars_eq {stretches : List Stretch} (h : Cut cs stretches)
    (htight : ∀ start content, Stretch.block start content ∈ stretches → Tight content) :
    minifyChars cs = cs := by
  induction h with
  | nil => rw [minifyChars]
  | outside hnone h ih =>
    rw [minifyChars_outside hnone, ih fun start content hmem =>
      htight start content (List.mem_cons_of_mem _ hmem)]
  | @block start content next stretches hopen hfirst h ih =>
    have hcontent := tightFrom_true_iff.mpr (htight start content List.mem_cons_self)
    rw [minifyChars_block hopen hfirst,
      hcontent.eq_of_tightens (tightens_squeeze_closeGaps true content),
      ih fun start content hmem => htight start content (List.mem_cons_of_mem _ hmem)]

/-- A character outside of blocks stays. Of a block the opening stays, and the content is made
tight. -/
inductive Stretch.Tightened : Stretch → Stretch → Prop
  | outside (c : Char) : Tightened (.outside c) (.outside c)
  | block (start : List Char) {content content' : List Char} (h : Tightens true content content')
      (htight : Tight content') : Tightened (.block start content) (.block start content')

theorem Stretch.tightened_tighten (s : Stretch) : s.Tightened s.tighten := by
  cases s with
  | outside c => exact .outside c
  | block start content =>
    have htightens := tightens_squeeze_closeGaps true content
    exact .block start htightens htightens.tight

/-- Minifying a text leaves everything outside of its conditional blocks and the marks of the blocks
as they are, and makes the content of each block tight. The result has the same blocks and the same
characters other than blanks, and minifying it again changes nothing. -/
theorem minify_tightens_blocks (html : String) :
    ∃ stretches stretches', Cut html.toList stretches ∧ Cut (minify html).toList stretches' ∧
      List.Forall₂ Stretch.Tightened stretches stretches' ∧
      (minify html).toList.filter (fun c => !isBlank c) =
        html.toList.filter (fun c => !isBlank c) ∧
      minify (minify html) = minify html := by
  obtain ⟨stretches, hcut⟩ := exists_cut html.toList
  have htext : (minify html).toList = minifyChars html.toList := String.toList_ofList
  refine ⟨stretches, stretches.map Stretch.tighten, hcut, ?_, ?_, ?_, ?_⟩
  · rw [htext]
    exact hcut.minify
  · rw [List.forall₂_map_right_iff, List.forall₂_same]
    exact fun s _ => s.tightened_tighten
  · rw [htext]
    exact hcut.filter_eq
  · have htwice : minifyChars (minifyChars html.toList) = minifyChars html.toList := by
      refine hcut.minify.minifyChars_eq fun start content hmem => ?_
      obtain ⟨s, -, hs⟩ := List.mem_map.mp hmem
      have htightened := s.tightened_tighten
      rw [hs] at htightened
      cases htightened with
      | block _ _ htight => exact htight
    rw [Outlook.minify, htext, htwice]
    rfl

end EmailMarkup.Outlook
