import EmailMarkup.Proofs.Markup.Item

/-!
# Content that is kept as text

The content of an element that keeps it as text goes up to the closing tag of the element, where
elements of the same name inside it are counted. `capture_balanced` says that content is passed over
as a whole if the tags of the name are balanced in it, whatever other markup it has and whatever
follows, as long as what follows begins with a bracket: then no tag can begin in the content and end
behind it.
-/

set_option autoImplicit false

namespace EmailMarkup.Markup

open EmailMarkup.Text

/-! ### Names -/

/-- A name of a tag or of an attribute. -/
def IsName (cs : List Char) : Prop :=
  cs ≠ [] ∧ ∀ c ∈ cs, isNameChar c = true

instance (cs : List Char) : Decidable (IsName cs) :=
  decidable_of_iff (cs ≠ [] ∧ cs.all isNameChar = true) (by simp [IsName])

theorem IsName.notMem {cs : List Char} (h : IsName cs) {x : Char} (hx : isNameChar x = false) :
    x ∉ cs := by
  intro hmem
  rw [h.2 x hmem] at hx
  cases hx

/-- The first character of a name. -/
theorem IsName.exists_cons {cs : List Char} (h : IsName cs) :
    ∃ c rest, cs = c :: rest ∧ isNameChar c = true := by
  obtain ⟨c, rest, rfl⟩ := List.exists_cons_of_ne_nil h.1
  exact ⟨c, rest, rfl, h.2 c List.mem_cons_self⟩

theorem nameOf_append_afterName (cs : List Char) : nameOf cs ++ afterName cs = cs :=
  List.takeWhile_append_dropWhile

theorem head?_afterName (cs : List Char) : ∀ c ∈ (afterName cs).head?, isNameChar c = false :=
  fun _ hc => of_mem_head?_dropWhile hc

/-- A name is read to its end, if what follows does not go on it. -/
theorem nameOf_append {name rest : List Char} (h : IsName name)
    (hrest : ∀ c ∈ rest.head?, isNameChar c = false) : nameOf (name ++ rest) = name :=
  (span_of_forall h.2 hrest).1

theorem afterName_append {name rest : List Char} (h : IsName name)
    (hrest : ∀ c ∈ rest.head?, isNameChar c = false) : afterName (name ++ rest) = rest :=
  (span_of_forall h.2 hrest).2

/-! ### Where a tag begins -/

/-- A tag begins where its mark stands with a character behind it that ends a name. -/
theorem startsTag_iff {mark cs : List Char} :
    startsTag mark cs = true ↔ ∃ c rest, cs = mark ++ c :: rest ∧ endsBareValue c = true := by
  unfold startsTag
  constructor
  · intro h
    split at h
    · rename_i c rest hafter
      exact ⟨c, rest, after?_eq_some_iff.mp hafter, h⟩
    · cases h
  · rintro ⟨c, rest, hcs, hc⟩
    rw [after?_eq_some_iff.mpr hcs]
    exact hc

/-- A tag does not run over the next bracket. -/
theorem startsTag_append_bracket {mark before : List Char} (hmark : '<' ∉ mark)
    (hbefore : before ≠ []) (after : List Char) :
    startsTag ('<' :: mark) (before ++ '<' :: after) = startsTag ('<' :: mark) before := by
  rw [Bool.eq_iff_iff, startsTag_iff, startsTag_iff]
  constructor
  · rintro ⟨c, rest, hcs, hc⟩
    have hne : c ≠ '<' := by
      rintro rfl
      exact absurd hc (by decide)
    have hprefix : '<' :: (mark ++ [c]) <+: before ++ '<' :: after := by
      rw [hcs]
      exact ⟨rest, by simp⟩
    have hfree : '<' ∉ mark ++ [c] := by simp [hmark, hne.symm]
    obtain ⟨tail, htail⟩ := prefix_of_prefix_append_bracket hfree hbefore hprefix
    exact ⟨c, tail, by rw [← htail]; simp, hc⟩
  · rintro ⟨c, rest, rfl, hc⟩
    exact ⟨c, rest ++ '<' :: after, by simp, hc⟩

/-- An opening tag of a name is not a closing one: a name does not begin with a slash. -/
theorem startsTag_closing_of_isName {name : List Char} (h : IsName name) (rest : List Char) :
    startsTag ('<' :: '/' :: name) ('<' :: (name ++ rest)) = false := by
  rw [Bool.eq_false_iff]
  intro hstarts
  obtain ⟨c, tail, heq, -⟩ := startsTag_iff.mp hstarts
  obtain ⟨d, name, rfl, hd⟩ := h.exists_cons
  rw [List.cons_append, List.cons_append, List.cons_append, List.cons.injEq,
    List.cons.injEq] at heq
  rw [heq.2.1] at hd
  exact absurd hd (by decide)

/-- No tag of the name begins in the text. -/
def Quiet (name text : List Char) : Prop :=
  ∀ post ∈ text.tails,
    startsTag ('<' :: name) post = false ∧ startsTag ('<' :: '/' :: name) post = false

instance (name text : List Char) : Decidable (Quiet name text) :=
  inferInstanceAs (Decidable (∀ post ∈ text.tails,
    startsTag ('<' :: name) post = false ∧ startsTag ('<' :: '/' :: name) post = false))

/-- What may stand in a tag behind its name, so that the name ends there and the tag does not. -/
def IsTagTail (inside : List Char) : Prop :=
  '>' ∉ inside ∧ ∀ c ∈ inside.head?, endsBareValue c = true

theorem IsTagTail.startsTag {inside : List Char} (h : IsTagTail inside) (mark rest : List Char) :
    startsTag mark (mark ++ (inside ++ '>' :: rest)) = true := by
  rw [startsTag_iff]
  cases inside with
  | nil => exact ⟨'>', rest, rfl, by decide⟩
  | cons c inside => exact ⟨c, inside ++ '>' :: rest, rfl, h.2 c rfl⟩

/-! ### Steps of capturing -/

@[simp]
theorem map_onContent_nil (x : Except CaptureFault (List Char × List Char)) :
    x.map (onContent []) = x := by
  cases x with
  | error fault | ok captured => rfl

@[simp]
theorem map_onContent_map (a b : List Char) (x : Except CaptureFault (List Char × List Char)) :
    (x.map (onContent a)).map (onContent b) = x.map (onContent (b ++ a)) := by
  cases x with
  | error fault => rfl
  | ok captured => simp [Except.map, onContent]

/-- What is done at a character is told by whether a tag of the name begins there. -/
theorem capture_cons (name : List Char) (depth : Nat) (c : Char) (rest : List Char) :
    capture name depth (c :: rest) =
      if startsTag ('<' :: '/' :: name) (c :: rest) then
        match splitAtMark? ['>'] rest with
        | none => .error (.unterminated (c :: rest))
        | some (inside, next) =>
          match depth with
          | 0 => .ok ([], next)
          | depth + 1 => (capture name depth next).map (onContent (c :: inside ++ ['>']))
      else if startsTag ('<' :: name) (c :: rest) then
        match splitAtMark? ['>'] rest with
        | none => .error (unendedTag (c :: rest))
        | some (inside, next) =>
          (capture name (depthAfter inside depth) next).map (onContent (c :: inside ++ ['>']))
      else (capture name depth rest).map (onContent [c]) := by
  rw [capture]
  split
  · split
    · rename_i h
      conv_rhs => rw [h]
    · rename_i h
      cases depth with
      | zero | succ depth => conv_rhs => rw [h]
  · split
    · split
      · rename_i h
        conv_rhs => rw [h]
      · rename_i h
        conv_rhs => rw [h]
    · rfl

/-- A character at which no tag of the name begins belongs to the content. -/
theorem capture_char {name rest : List Char} {c : Char} (depth : Nat)
    (hopen : startsTag ('<' :: name) (c :: rest) = false)
    (hclose : startsTag ('<' :: '/' :: name) (c :: rest) = false) :
    capture name depth (c :: rest) = (capture name depth rest).map (onContent [c]) := by
  rw [capture_cons, hclose, hopen]
  rfl

/-- A tag begins with a bracket. -/
theorem startsTag_of_ne {c : Char} (h : c ≠ '<') (mark rest : List Char) :
    startsTag ('<' :: mark) (c :: rest) = false := by
  rw [Bool.eq_false_iff]
  intro hstarts
  obtain ⟨d, tail, heq, -⟩ := startsTag_iff.mp hstarts
  exact h (List.cons.inj heq).1

/-- Text without a bracket is passed, whatever follows. -/
theorem capture_text {text : List Char} (h : '<' ∉ text) (name : List Char) (depth : Nat)
    (rest : List Char) :
    capture name depth (text ++ rest) = (capture name depth rest).map (onContent text) := by
  induction text with
  | nil => simp
  | cons c text ih =>
    rw [List.mem_cons, not_or] at h
    rw [List.cons_append, capture_char depth (startsTag_of_ne (Ne.symm h.1) _ _)
      (startsTag_of_ne (Ne.symm h.1) _ _), ih h.2, map_onContent_map]
    rfl

section
variable {name inside : List Char} (hname : IsName name) (hinside : IsTagTail inside)
  (depth : Nat) (rest : List Char)

include hname hinside

/-- The tag of another element of the name is passed, and counted unless it is that element. -/
theorem capture_opening :
    capture name depth ('<' :: (name ++ (inside ++ '>' :: rest))) =
      (capture name (depthAfter (name ++ inside) depth) rest).map
        (onContent ('<' :: (name ++ (inside ++ ['>'])))) := by
  have hclose := startsTag_closing_of_isName hname (inside ++ '>' :: rest)
  have hopen := hinside.startsTag ('<' :: name) rest
  rw [List.cons_append] at hopen
  have hend : splitAtMark? ['>'] (name ++ (inside ++ '>' :: rest)) =
      some (name ++ inside, rest) := by
    rw [← List.append_assoc]
    refine splitAtMark?_char ?_ rest
    rw [List.mem_append, not_or]
    exact ⟨hname.notMem (by decide), hinside.1⟩
  rw [capture_cons, hclose, hopen, hend]
  simp

/-- The closing tag of another element of the name is passed, and that of the element itself is the
end of the content. -/
theorem capture_closing :
    capture name depth ('<' :: '/' :: (name ++ (inside ++ '>' :: rest))) =
      match depth with
      | 0 => .ok ([], rest)
      | depth + 1 =>
        (capture name depth rest).map (onContent ('<' :: '/' :: (name ++ (inside ++ ['>'])))) := by
  have hclose := hinside.startsTag ('<' :: '/' :: name) rest
  rw [List.cons_append, List.cons_append] at hclose
  have hend : splitAtMark? ['>'] ('/' :: (name ++ (inside ++ '>' :: rest))) =
      some ('/' :: (name ++ inside), rest) := by
    have hfree : '>' ∉ '/' :: (name ++ inside) := by
      simp [hname.notMem (show isNameChar '>' = false by decide), hinside.1]
    simpa using splitAtMark?_char hfree rest
  rw [capture_cons, hclose, hend]
  cases depth with
  | zero => rfl
  | succ depth => simp

end

/-- Text in which no tag of the name begins is passed, up to a bracket. -/
theorem capture_quiet {name text : List Char} (hname : IsName name) (htext : Quiet name text)
    (depth : Nat) (rest : List Char) :
    capture name depth (text ++ '<' :: rest) =
      (capture name depth ('<' :: rest)).map (onContent text) := by
  have hfree : '<' ∉ name := hname.notMem (by decide)
  induction text with
  | nil => simp
  | cons c text ih =>
    have hhere := htext (c :: text) (by simp)
    have htail : Quiet name text := fun post hpost => htext post (by simp_all)
    rw [List.cons_append, capture_char, ih htail, map_onContent_map]
    · rfl
    · rw [← List.cons_append, startsTag_append_bracket hfree (by simp)]
      exact hhere.1
    · rw [← List.cons_append, startsTag_append_bracket (by simp [hfree]) (by simp)]
      exact hhere.2

/-! ### Balanced content -/

/-- What stands in a tag between its name and its end: nothing, or something that begins with a
blank. It does not end with a slash, which would belong to the end of the tag. -/
def IsGap (cs : List Char) : Prop :=
  '>' ∉ cs ∧ (∀ c ∈ cs.head?, isBlank c = true) ∧ cs.getLast? ≠ some '/'

instance (cs : List Char) : Decidable (IsGap cs) :=
  decidable_of_iff ('>' ∉ cs ∧ cs.head?.all isBlank = true ∧ cs.getLast? ≠ some '/')
    (by simp [IsGap, Option.all_eq_true])

/-- Content in which the tags of a name are balanced: texts without such tags alternate with single
tags and with elements of the name, whose content is balanced too. Any of the texts may be empty. -/
inductive Balanced (name : List Char) : List Char → Prop
  | text {t : List Char} (ht : Quiet name t) : Balanced name t
  | single {t gap rest : List Char} (ht : Quiet name t) (hgap : IsGap gap)
      (hrest : Balanced name rest) :
      Balanced name (t ++ '<' :: (name ++ (gap ++ '/' :: '>' :: rest)))
  | element {t opening content closing rest : List Char} (ht : Quiet name t)
      (hopening : IsGap opening) (hcontent : Balanced name content) (hclosing : IsGap closing)
      (hrest : Balanced name rest) :
      Balanced name (t ++ '<' :: (name ++ (opening ++ '>' :: (content ++
        '<' :: '/' :: (name ++ (closing ++ '>' :: rest))))))

theorem IsGap.isTagTail {gap : List Char} (h : IsGap gap) : IsTagTail gap := by
  refine ⟨h.1, fun c hc => ?_⟩
  rw [endsBareValue, h.2.1 c hc, Bool.true_or, Bool.true_or]

theorem IsGap.isTagTail_slash {gap : List Char} (h : IsGap gap) : IsTagTail (gap ++ ['/']) := by
  refine ⟨by simp [h.1], ?_⟩
  cases gap with
  | nil => simp [endsBareValue]
  | cons c gap => exact fun d hd => h.isTagTail.2 d (by simpa using hd)

/-- A tag that does not end with a slash opens an element. -/
theorem IsGap.depthAfter_eq {name gap : List Char} (hname : IsName name) (h : IsGap gap)
    (depth : Nat) : depthAfter (name ++ gap) depth = depth + 1 := by
  have hlast : (name ++ gap).getLast? ≠ some '/' := by
    rw [List.getLast?_append]
    cases hgap : gap.getLast? with
    | some c =>
      rw [Option.some_or, ← hgap]
      exact h.2.2
    | none =>
      rw [Option.none_or]
      intro hslash
      exact hname.notMem (by decide) (List.mem_of_getLast? hslash)
  rw [depthAfter, if_neg (by simpa using hlast)]

theorem depthAfter_slash (name gap : List Char) (depth : Nat) :
    depthAfter (name ++ (gap ++ ['/'])) depth = depth := by
  rw [depthAfter, if_pos]
  simp [List.getLast?_append]

/-- Balanced content is passed at every depth. -/
theorem capture_balanced {name content : List Char} (hname : IsName name)
    (h : Balanced name content) (depth : Nat) (rest : List Char) :
    capture name depth (content ++ '<' :: rest) =
      (capture name depth ('<' :: rest)).map (onContent content) := by
  -- The induction is over the pieces of the content; an element raises the depth for its own
  -- content only, so the depth has to be general.
  induction h generalizing depth rest with
  | text ht => exact capture_quiet hname ht depth rest
  | @single t gap more ht hgap _ ih =>
    have htag := capture_opening hname hgap.isTagTail_slash depth (more ++ '<' :: rest)
    rw [depthAfter_slash, ih] at htag
    simp only [List.append_assoc, List.cons_append, List.nil_append] at htag ⊢
    rw [capture_quiet hname ht, htag]
    simp
  | @element t opening inner closing more ht hopening _ hclosing _ ihInner ihMore =>
    have htag := capture_opening hname hopening.isTagTail depth
      (inner ++ '<' :: '/' :: (name ++ (closing ++ '>' :: (more ++ '<' :: rest))))
    have hend := capture_closing hname hclosing.isTagTail (depth + 1) (more ++ '<' :: rest)
    simp only at hend
    rw [hopening.depthAfter_eq hname, ihInner, hend, ihMore] at htag
    simp only [List.append_assoc, List.cons_append] at htag ⊢
    rw [capture_quiet hname ht, htag]
    simp

/-- An element with balanced content is captured up to its closing tag. -/
theorem capture_of_balanced {name content : List Char} (hname : IsName name)
    (h : Balanced name content) (rest : List Char) :
    capture name 0 (content ++ '<' :: '/' :: (name ++ '>' :: rest)) = .ok (content, rest) := by
  have hend := capture_closing hname (show IsTagTail [] by simp [IsTagTail]) 0 rest
  rw [List.nil_append] at hend
  rw [capture_balanced hname h, hend]
  simp [Except.map, onContent]

end EmailMarkup.Markup
