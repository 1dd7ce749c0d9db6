import EmailMarkup.Outlook.Conditional
import EmailMarkup.Proofs.Text

/-!
# What merging does to negated blocks

`merge` takes out every seam: a closing mark, blanks, and the opening mark of a plain block. A
negated block ends with `<!--<![endif]-->`, and the last part of that is a closing mark like any
other. A negated block that stands before a plain one is therefore cut: its closing mark goes and
only `<!--` is left of it, which makes the rest of the text a comment
(`negated_cut_before_outlook`).

Nothing else can touch a negated block. `negated_survive_merge` says so for every sequence of texts,
plain blocks and negated blocks: those that no plain opening follows, blanks aside, are in the
merged text unchanged and in order, and each of the others loses exactly its closing mark.

Both rest on two laws of `mergeChars`. A text in which no closing mark can begin goes through
unchanged (`mergeChars_of_apart`), and the text may be cut before any `<` that does not begin a
plain opening (`mergeChars_append_bracket`).
-/

set_option autoImplicit false

namespace EmailMarkup.Outlook

open EmailMarkup.Text

variable {cs : List Char}

/-! ### The marks -/

/-- What both negated openings begin with. -/
def negatedStart : List Char := "<!--[if !".toList

/-- Either mark is a bracket and characters that are no bracket. -/
theorem opening_eq : ∃ mark, opening.toList = '<' :: mark ∧ '<' ∉ mark :=
  ⟨opening.toList.tail, by decide, by decide⟩

theorem closing_eq : ∃ mark, closing.toList = '<' :: mark ∧ '<' ∉ mark :=
  ⟨closing.toList.tail, by decide, by decide⟩

/-- No closing mark begins in a text without brackets. -/
theorem apart_closing {u : List Char} (h : '<' ∉ u) : Apart closing.toList u := by
  obtain ⟨mark, hmark, -⟩ := closing_eq
  rw [hmark]
  exact apart_of_bracket_notMem h

/-- A mark is found in front of a bracket exactly if it is found without what begins there. -/
theorem after?_append_bracket {mark before : List Char} (hmark : '<' ∉ mark) (hbefore : before ≠ [])
    (after : List Char) :
    after? ('<' :: mark) (before ++ '<' :: after) =
      (after? ('<' :: mark) before).map (· ++ '<' :: after) := by
  cases hfound : after? ('<' :: mark) before with
  | some rest =>
    rw [after?_eq_some_iff] at hfound
    rw [Option.map_some, after?_eq_some_iff, hfound, List.append_assoc]
  | none =>
    rw [after?_eq_none_iff] at hfound
    rw [Option.map_none, after?_eq_none_iff]
    intro hprefix
    exact hfound (prefix_of_prefix_append_bracket hmark hbefore hprefix)

/-! ### Seams -/

/-- Trimming the front of a text stops at a bracket. -/
theorem trimLeft_append_bracket (cs after : List Char) :
    trimLeft (cs ++ '<' :: after) = trimLeft cs ++ '<' :: after :=
  (span_append fun _ => by simp [isBlank]).2

/-- A text may be cut before a bracket that begins no plain opening: the seams at its front are
those of the first part. -/
theorem seam?_append_bracket {after : List Char} (hcs : cs ≠ [])
    (hafter : ¬ opening.toList <+: '<' :: after) :
    seam? (cs ++ '<' :: after) = (seam? cs).map (· ++ '<' :: after) := by
  obtain ⟨close, hclose, hcloseOne⟩ := closing_eq
  obtain ⟨start, hstart, hstartOne⟩ := opening_eq
  unfold seam?
  rw [hclose, after?_append_bracket hcloseOne hcs]
  cases after? ('<' :: close) cs with
  | none => rfl
  | some rest =>
    rw [Option.map_some, Option.bind_some, Option.bind_some, trimLeft_append_bracket]
    by_cases hrest : trimLeft rest = []
    · -- Only blanks follow the closing mark, so the opening would have to begin at the cut.
      rw [hrest, List.nil_append, after?_eq_none_iff.mpr hafter, hstart]
      rfl
    · rw [hstart, after?_append_bracket hstartOne hrest]

/-! ### Merging -/

theorem mergeChars_nil : mergeChars [] = [] := by
  rw [mergeChars]

/-- A seam is taken out. -/
theorem mergeChars_of_seam {next : List Char} (h : seam? cs = some next) :
    mergeChars cs = mergeChars next := by
  cases cs with
  | nil => exact absurd (length_of_seam? h) (Nat.not_lt_zero _)
  | cons c cs =>
    rw [mergeChars]
    split
    · rename_i next' h'
      rw [h', Option.some.injEq] at h
      exact congrArg mergeChars h
    · rename_i h'
      rw [h'] at h
      cases h

/-- A character that begins no seam is kept. -/
theorem mergeChars_cons {c : Char} (h : seam? (c :: cs) = none) :
    mergeChars (c :: cs) = c :: mergeChars cs := by
  rw [mergeChars]
  split
  · rename_i next' h'
    rw [h'] at h
    cases h
  · rfl

theorem seam?_eq_none (h : ¬ closing.toList <+: cs) : seam? cs = none := by
  rw [seam?, after?_eq_none_iff.mpr h, Option.bind_none]

/-- A text in which no closing mark can begin goes through unchanged. -/
theorem mergeChars_of_apart {u : List Char} (h : Apart closing.toList u) (rest : List Char) :
    mergeChars (u ++ rest) = u ++ mergeChars rest := by
  induction u with
  | nil => rfl
  | cons c u ih =>
    have hseam : seam? (c :: (u ++ rest)) = none := seam?_eq_none (h.not_begins rest)
    rw [List.cons_append, mergeChars_cons hseam, ih (apart_cons_iff.mp h).2, List.cons_append]

/-- A text without a closing mark has no seam. -/
theorem mergeChars_eq_self (h : ¬ closing.toList <:+: cs) : mergeChars cs = cs := by
  induction cs with
  | nil => exact mergeChars_nil
  | cons c cs ih =>
    rw [List.infix_cons_iff, not_or] at h
    rw [mergeChars_cons (seam?_eq_none h.1), ih h.2]

/-- A text may be cut before a bracket that begins no plain opening. -/
theorem mergeChars_append_bracket (cs : List Char) {after : List Char}
    (hafter : ¬ opening.toList <+: '<' :: after) :
    mergeChars (cs ++ '<' :: after) = mergeChars cs ++ mergeChars ('<' :: after) := by
  -- The recursion of `mergeChars`: a seam at the front is one of the first part, or there is none.
  fun_induction mergeChars cs with
  | case1 => rfl
  | case2 c cs next hseam hlen ih =>
    have hwhole : seam? (c :: cs ++ '<' :: after) = some (next ++ '<' :: after) := by
      rw [seam?_append_bracket (List.cons_ne_nil c cs) hafter, hseam, Option.map_some]
    rw [mergeChars_of_seam hwhole, ih]
  | case3 c cs hseam ih =>
    have hwhole : seam? (c :: cs ++ '<' :: after) = none := by
      rw [seam?_append_bracket (List.cons_ne_nil c cs) hafter, hseam, Option.map_none]
    rw [List.cons_append] at hwhole ⊢
    rw [mergeChars_cons hwhole, ih, List.cons_append]

/-- What follows the plain opening that a text begins with, blanks aside. -/
def behindOpening? (cs : List Char) : Option (List Char) :=
  after? opening.toList (trimLeft cs)

/-- Before a plain opening a closing mark goes, with the opening. -/
theorem mergeChars_closing_of_some {rest : List Char} (h : behindOpening? cs = some rest) :
    mergeChars (closing.toList ++ cs) = mergeChars rest := by
  have hclose : after? closing.toList (closing.toList ++ cs) = some cs :=
    after?_eq_some_iff.mpr rfl
  have hseam : seam? (closing.toList ++ cs) = some rest := by
    rw [seam?, hclose, Option.bind_some]
    exact h
  exact mergeChars_of_seam hseam

/-- Elsewhere a closing mark stays. -/
theorem mergeChars_closing_of_none (h : behindOpening? cs = none) :
    mergeChars (closing.toList ++ cs) = closing.toList ++ mergeChars cs := by
  obtain ⟨close, hclose, hone⟩ := closing_eq
  have hafter : after? closing.toList (closing.toList ++ cs) = some cs :=
    after?_eq_some_iff.mpr rfl
  have hseam : seam? ('<' :: (close ++ cs)) = none := by
    rw [← List.cons_append, ← hclose, seam?, hafter, Option.bind_some]
    exact h
  have hrest : mergeChars (close ++ cs) = close ++ mergeChars cs :=
    mergeChars_of_apart (apart_closing hone) cs
  rw [hclose, List.cons_append, mergeChars_cons hseam, hrest, List.cons_append]

/-- No blank is a bracket. -/
theorem bracket_notMem_blanks : '<' ∉ cs.takeWhile isBlank := by
  intro hmem
  exact absurd (List.mem_takeWhile_imp hmem) (by decide)

/-- The text in front of a plain opening goes through merging with it. -/
theorem mergeChars_of_behindOpening? {rest : List Char} (h : behindOpening? cs = some rest) :
    mergeChars cs = cs.takeWhile isBlank ++ (opening.toList ++ mergeChars rest) := by
  have hsplit : cs = cs.takeWhile isBlank ++ (opening.toList ++ rest) := by
    rw [← after?_eq_some_iff.mp h]
    exact List.takeWhile_append_dropWhile.symm
  calc mergeChars cs
      = mergeChars (cs.takeWhile isBlank ++ (opening.toList ++ rest)) := congrArg mergeChars hsplit
    _ = cs.takeWhile isBlank ++ mergeChars (opening.toList ++ rest) :=
        mergeChars_of_apart (apart_closing bracket_notMem_blanks) _
    _ = cs.takeWhile isBlank ++ (opening.toList ++ mergeChars rest) := by
        rw [mergeChars_of_apart (by decide) rest]

/-! ### Sequences of blocks -/

/-- A piece of a text: free text, a plain block, or a negated block of either kind. -/
inductive Segment
  | text (s : String)
  | outlook (content : String)
  | negated (office : Bool) (content : String)

/-- How a segment is written. -/
def Segment.print : Segment → String
  | .text s => s
  | .outlook content => block content
  | .negated true content => negatedOfficeBlock content
  | .negated false content => negatedBlock content

/-- How a sequence of segments is written. -/
def printAll (segments : List Segment) : String :=
  String.join (segments.map Segment.print)

/-- Whether the content of a negated block has no closing mark of its own. -/
def Segment.unbroken : Segment → Bool
  | .negated _ content => !occursIn closing.toList content.toList
  | _ => true

theorem not_infix_of_unbroken {office : Bool} {content : String}
    (h : (Segment.negated office content).unbroken = true) :
    ¬ closing.toList <:+: content.toList := by
  rw [Segment.unbroken, Bool.not_eq_true'] at h
  rw [← occursIn_iff, h]
  decide

/-- A negated block up to the comment sign that its closing mark begins with. -/
def uncloseNegated (office : Bool) (content : String) : String :=
  (if office then negatedOfficeOpening else negatedOpening) ++ content ++ "<!--"

/-- The negated blocks that no plain opening follows, blanks aside. -/
def standing : List Segment → List Segment
  | [] => []
  | .negated office content :: rest =>
    if (behindOpening? (printAll rest).toList).isSome then standing rest
    else .negated office content :: standing rest
  | _ :: rest => standing rest

/-- Texts that stand in a text one after the other. -/
inductive InOrder : List (List Char) → List Char → Prop
  | nil (cs : List Char) : InOrder [] cs
  | cons (gap b : List Char) {bs : List (List Char)} {rest : List Char} (h : InOrder bs rest) :
    InOrder (b :: bs) (gap ++ (b ++ rest))

theorem inOrder_cons_iff {b : List Char} {bs : List (List Char)} :
    InOrder (b :: bs) cs ↔ ∃ gap rest, cs = gap ++ (b ++ rest) ∧ InOrder bs rest := by
  constructor
  · rintro (_ | ⟨gap, _, hrest⟩)
    exact ⟨gap, _, rfl, hrest⟩
  · rintro ⟨gap, rest, rfl, hrest⟩
    exact .cons gap b hrest

theorem toList_printAll_cons (s : Segment) (rest : List Segment) :
    (printAll (s :: rest)).toList = s.print.toList ++ (printAll rest).toList := by
  simp [printAll]

theorem printAll_append (before after : List Segment) :
    printAll (before ++ after) = printAll before ++ printAll after := by
  simp [printAll]

theorem toList_print_negated (office : Bool) (content : String) :
    (Segment.negated office content).print.toList =
      (uncloseNegated office content).toList ++ closing.toList := by
  have hmark : negatedClosing.toList = "<!--".toList ++ closing.toList := by decide
  cases office
  · simp [Segment.print, uncloseNegated, negatedBlock, hmark]
  · simp [Segment.print, uncloseNegated, negatedOfficeBlock, hmark]

theorem negatedStart_begins (office : Bool) (content : String) :
    negatedStart <+: (uncloseNegated office content).toList := by
  have hopen : negatedStart <+:
      (if office then negatedOfficeOpening else negatedOpening).toList := by
    cases office
    · decide
    · decide
  simp only [uncloseNegated, String.toList_append, List.append_assoc]
  exact hopen.trans (List.prefix_append _ _)

/-- Every standing block begins as a negated block does. -/
theorem negatedStart_begins_of_mem_standing {segments : List Segment} {b : List Char}
    (h : b ∈ (standing segments).map fun s => s.print.toList) : negatedStart <+: b := by
  induction segments with
  | nil => simp [standing] at h
  | cons s rest ih =>
    cases s with
    | text s => exact ih h
    | outlook content => exact ih h
    | negated office content =>
      rw [standing] at h
      split at h
      · exact ih h
      · rw [List.map_cons, List.mem_cons] at h
        rcases h with rfl | h
        · rw [toList_print_negated]
          exact (negatedStart_begins office content).trans (List.prefix_append _ _)
        · exact ih h

/-- More text in front changes nothing. -/
theorem InOrder.append_left {bs : List (List Char)} (h : InOrder bs cs) (before : List Char) :
    InOrder bs (before ++ cs) := by
  cases h with
  | nil => exact .nil _
  | cons gap b hrest =>
    rw [← List.append_assoc]
    exact .cons (before ++ gap) b hrest

/-- A front in which none of the texts can begin may be left out. -/
theorem InOrder.of_append {bs : List (List Char)} {u cs : List Char}
    (hu : ∀ b ∈ bs, Apart b u) (h : InOrder bs (u ++ cs)) : InOrder bs cs := by
  cases bs with
  | nil => exact .nil cs
  | cons b bs =>
    obtain ⟨gap, rest, hsplit, hrest⟩ := inOrder_cons_iff.mp h
    have hb := hu b List.mem_cons_self
    rcases List.append_eq_append_iff.mp hsplit with ⟨mid, rfl, rfl⟩ | ⟨mid, rfl, hmid⟩
    · exact .cons mid b hrest
    · cases mid with
      | nil => exact inOrder_cons_iff.mpr ⟨[], rest, hmid.symm, hrest⟩
      | cons c mid =>
        -- The first text would begin in the front.
        exact absurd ⟨rest, hmid⟩ (hb.of_append.not_begins cs)

/-- A negated block goes through merging up to its closing mark. -/
theorem mergeChars_unclosed (office : Bool) {content : String}
    (hcontent : ¬ closing.toList <:+: content.toList) (rest : List Char) :
    mergeChars ((uncloseNegated office content).toList ++ (closing.toList ++ rest)) =
      (uncloseNegated office content).toList ++ mergeChars (closing.toList ++ rest) := by
  obtain ⟨start, hstart, hsplit⟩ : ∃ start, Apart closing.toList start ∧
      (uncloseNegated office content).toList = start ++ (content.toList ++ "<!--".toList) := by
    cases office
    · exact ⟨negatedOpening.toList, by decide, by simp [uncloseNegated]⟩
    · exact ⟨negatedOfficeOpening.toList, by decide, by simp [uncloseNegated]⟩
  -- The two brackets of the closing mark are too close for a plain opening.
  have hsign : ¬ opening.toList <+: "<!--".toList ++ (closing.toList ++ rest) := by
    rw [← List.append_assoc]
    exact not_begins_of_begins (List.prefix_append ("<!--".toList ++ closing.toList) rest)
      (by decide)
  have hdash : mergeChars ("<!--".toList ++ (closing.toList ++ rest)) =
      "<!--".toList ++ mergeChars (closing.toList ++ rest) :=
    mergeChars_of_apart (by decide) _
  have hmiddle : mergeChars (content.toList ++ ("<!--".toList ++ (closing.toList ++ rest))) =
      content.toList ++ ("<!--".toList ++ mergeChars (closing.toList ++ rest)) := by
    rw [← hdash]
    conv_rhs => rw [← mergeChars_eq_self hcontent]
    exact mergeChars_append_bracket content.toList hsign
  rw [hsplit, List.append_assoc, List.append_assoc, mergeChars_of_apart hstart, hmiddle,
    List.append_assoc, List.append_assoc]

/-- What stands before a negated block is merged on its own. -/
theorem mergeChars_append_negated (before : List Char) (office : Bool) (content : String)
    (rest : List Char) :
    mergeChars (before ++ ((uncloseNegated office content).toList ++ rest)) =
      mergeChars before ++ mergeChars ((uncloseNegated office content).toList ++ rest) := by
  have hstart : negatedStart <+: (uncloseNegated office content).toList ++ rest :=
    (negatedStart_begins office content).trans (List.prefix_append _ rest)
  have hnot := not_begins_of_begins hstart
    (by decide : ¬ (negatedStart <+: opening.toList ∨ opening.toList <+: negatedStart))
  obtain ⟨tail, htail⟩ := hstart
  rw [← htail] at hnot ⊢
  exact mergeChars_append_bracket before hnot

/-- In a merged sequence the standing negated blocks are in order, whatever text is put in front. -/
theorem inOrder_standing {segments : List Segment} (hfree : ∀ s ∈ segments, s.unbroken = true)
    (before : List Char) :
    InOrder ((standing segments).map fun s => s.print.toList)
      (mergeChars (before ++ (printAll segments).toList)) := by
  induction segments generalizing before with
  | nil => exact .nil _
  | cons s rest ih =>
    have hrest := ih fun s hs => hfree s (List.mem_cons_of_mem _ hs)
    rw [toList_printAll_cons]
    cases s with
    | text s =>
      rw [← List.append_assoc]
      exact hrest _
    | outlook content =>
      rw [← List.append_assoc]
      exact hrest _
    | negated office content =>
      have hcontent := not_infix_of_unbroken (hfree _ List.mem_cons_self)
      rw [toList_print_negated, List.append_assoc, mergeChars_append_negated,
        mergeChars_unclosed office hcontent]
      cases hnext : behindOpening? (printAll rest).toList with
      | none =>
        have hstands : standing (.negated office content :: rest) =
            .negated office content :: standing rest := by simp [standing, hnext]
        rw [hstands, List.map_cons, toList_print_negated, mergeChars_closing_of_none hnext,
          ← List.append_assoc (uncloseNegated office content).toList]
        exact .cons (mergeChars before) _ (hrest [])
      | some next =>
        -- The block is cut. The blocks behind it are in what follows the plain opening, because
        -- none of them begins in the blanks before it or in the opening itself.
        have hcut : standing (.negated office content :: rest) = standing rest := by
          simp [standing, hnext]
        have hbehind := hrest []
        rw [List.nil_append, mergeChars_of_behindOpening? hnext] at hbehind
        have hblanks : InOrder ((standing rest).map fun s => s.print.toList)
            (opening.toList ++ mergeChars next) := by
          refine hbehind.of_append fun b hb => ?_
          exact (apart_of_bracket_notMem bracket_notMem_blanks).of_start
            (negatedStart_begins_of_mem_standing hb)
        have hopening : InOrder ((standing rest).map fun s => s.print.toList)
            (mergeChars next) := by
          refine hblanks.of_append fun b hb => ?_
          exact (by decide : Apart negatedStart opening.toList).of_start
            (negatedStart_begins_of_mem_standing hb)
        rw [hcut, mergeChars_closing_of_some hnext]
        exact (hopening.append_left _).append_left _

/-- Merging keeps every negated block that no plain opening follows, blanks aside, unchanged and in
order. Of each of the others it takes the closing mark, with the blanks and the opening behind it,
and it merges what stands before and behind any negated block on its own. -/
theorem negated_survive_merge (segments : List Segment)
    (hfree : ∀ s ∈ segments, s.unbroken = true) :
    InOrder ((standing segments).map fun s => s.print.toList) (merge (printAll segments)).toList ∧
    ∀ before office content after, segments = before ++ .negated office content :: after →
      (merge (printAll segments)).toList = (merge (printAll before)).toList ++
        match behindOpening? (printAll after).toList with
        | some rest => (uncloseNegated office content).toList ++ mergeChars rest
        | none => (Segment.negated office content).print.toList ++
            (merge (printAll after)).toList := by
  constructor
  · rw [merge, String.toList_ofList]
    exact inOrder_standing hfree []
  · rintro before office content after rfl
    have hcontent := not_infix_of_unbroken
      (hfree (.negated office content) (List.mem_append_right _ List.mem_cons_self))
    simp only [merge, String.toList_ofList, printAll_append, String.toList_append,
      toList_printAll_cons, toList_print_negated, List.append_assoc]
    rw [mergeChars_append_negated, mergeChars_unclosed office hcontent]
    cases hnext : behindOpening? (printAll after).toList with
    | some rest => rw [mergeChars_closing_of_some hnext]
    | none => rw [mergeChars_closing_of_none hnext]

/-- A negated block that stands, between plain blocks, and one that is cut. -/
def mixedSegments : List Segment :=
  [.outlook "a", .negated true "b", .text "c", .outlook "d", .negated false "e", .outlook "f"]

theorem mixed_survive_merge :
    (∀ s ∈ mixedSegments, s.unbroken = true) ∧
    InOrder ["<!--[if !mso]><!-->b<!--<![endif]-->".toList]
      (merge (printAll mixedSegments)).toList ∧
    (merge (printAll mixedSegments)).toList = (merge (printAll (mixedSegments.take 4))).toList ++
      ("<!--[if !mso | IE]><!-->e<!--".toList ++ mergeChars ("f".toList ++ closing.toList)) := by
  have hfree : ∀ s ∈ mixedSegments, s.unbroken = true := by decide +kernel
  have hstanding : ((standing mixedSegments).map fun s => s.print.toList) =
      ["<!--[if !mso]><!-->b<!--<![endif]-->".toList] := by
    decide +kernel
  have hbehind : behindOpening? (printAll [.outlook "f"]).toList =
      some ("f".toList ++ closing.toList) := by
    decide +kernel
  have hunclosed : (uncloseNegated false "e").toList =
      "<!--[if !mso | IE]><!-->e<!--".toList := by
    decide +kernel
  obtain ⟨hkept, hcut⟩ := negated_survive_merge mixedSegments hfree
  have hlast := hcut (mixedSegments.take 4) false "e" [.outlook "f"] rfl
  simp only [hbehind, hunclosed] at hlast
  rw [hstanding] at hkept
  exact ⟨hfree, hkept, hlast⟩

/-- Before a plain block a negated block does not survive. -/
theorem negated_cut_before_outlook :
    merge (printAll [.negated false "a", .outlook "b"]) =
      "<!--[if !mso | IE]><!-->a<!--b<![endif]-->" ∧
    ¬ InOrder [(Segment.negated false "a").print.toList]
      (merge (printAll [.negated false "a", .outlook "b"])).toList := by
  have hbehind : behindOpening? (printAll [.outlook "b"]).toList =
      some ("b".toList ++ closing.toList) := by
    decide +kernel
  have hlast : mergeChars ("b".toList ++ closing.toList) = "b".toList ++ closing.toList := by
    rw [mergeChars_of_apart (by decide), ← List.append_nil closing.toList,
      mergeChars_closing_of_none (by decide), mergeChars_nil]
  have hmerged : merge (printAll [.negated false "a", .outlook "b"]) =
      "<!--[if !mso | IE]><!-->a<!--b<![endif]-->" := by
    rw [merge, toList_printAll_cons, toList_print_negated, List.append_assoc,
      mergeChars_unclosed false (by decide), mergeChars_closing_of_some hbehind, hlast]
    decide +kernel
  refine ⟨hmerged, ?_⟩
  rw [hmerged]
  intro hkept
  obtain ⟨gap, rest, hsplit, -⟩ := inOrder_cons_iff.mp hkept
  have hinfix : (Segment.negated false "a").print.toList <:+:
      "<!--[if !mso | IE]><!-->a<!--b<![endif]-->".toList :=
    ⟨gap, rest, by rw [List.append_assoc, hsplit]⟩
  exact absurd hinfix (by decide +kernel)

end EmailMarkup.Outlook
