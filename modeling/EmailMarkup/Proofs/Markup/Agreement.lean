import EmailMarkup.Proofs.Markup.Offset

/-!
# The two readers agree

Reading by byte offsets is the reading of the library: it always ends, and with the same result
(`read_eq`). In particular it breaks off where `Node.read` says that it does and nowhere else.

Each part of the reader does what its counterpart does on the rest of the text that begins at the
offset; `offsetOf` leads from a rest to its offset, and `Position.ofRest` to its line and column. No
cut it asks for is off, but for one: where the tag of another element of the same name is not ended,
all of the text but its last byte is cut out, and the last character may have more than one
(`content_offsetOf`).
-/

set_option autoImplicit false

namespace EmailMarkup.Markup.Offset

open EmailMarkup.Text EmailMarkup.Component
open String (utf8Len)

variable {cs rest tagged : List Char} {steps : Nat}

/-! ### Lines and columns -/

/-- The last line grows by each character, and begins anew behind a line break. -/
theorem lastLine_concat (cs : List Char) (c : Char) :
    lastLine (cs ++ [c]) = if c = '\n' then [] else lastLine cs ++ [c] := by
  rw [lastLine, List.reverse_append, List.reverse_singleton, List.singleton_append]
  split
  · rename_i hc
    rw [List.takeWhile_cons_of_neg (by simp [hc]), List.reverse_nil]
  · rename_i hc
    rw [List.takeWhile_cons_of_pos (by simp [hc]), List.reverse_cons, lastLine]

/-- Counting lines and the characters of the last one gives the position after a text. -/
theorem start_after (cs : List Char) :
    Position.start.after cs = { line := cs.count '\n' + 1, column := (lastLine cs).length + 1 } := by
  induction cs using List.reverseRecOn with
  | nil => rfl
  | append_singleton cs c ih =>
    rw [Position.after, List.foldl_append]
    show (Position.start.after cs).next c = _
    rw [ih, Position.next, lastLine_concat, List.count_append]
    split
    · rename_i hc
      simp [hc]
    · rename_i hc
      simp [hc]

/-- Behind the last line break stands the last line. -/
theorem exists_lastLine (h : '\n' ∈ cs) : ∃ front, cs = front ++ '\n' :: lastLine cs := by
  induction cs using List.reverseRecOn with
  | nil => cases h
  | append_singleton cs c ih =>
    rw [lastLine_concat]
    by_cases hc : c = '\n'
    · exact ⟨cs, by rw [if_pos hc, hc]⟩
    · have hmem : '\n' ∈ cs := by
        rcases List.mem_append.mp h with h | h
        · exact h
        · exact absurd (List.mem_singleton.mp h).symm hc
      obtain ⟨front, hfront⟩ := ih hmem
      refine ⟨front, ?_⟩
      rw [if_neg hc]
      nth_rewrite 1 [hfront]
      simp

/-- Without a line break the last line is all there is. -/
theorem lastLine_eq_self (h : '\n' ∉ cs) : lastLine cs = cs := by
  have htake : cs.reverse.takeWhile (· ≠ '\n') = cs.reverse := by
    rw [List.takeWhile_eq_self_iff]
    intro c hc
    rw [decide_eq_true_eq]
    rintro rfl
    exact h (List.mem_reverse.mp hc)
  rw [lastLine, htake, List.reverse_reverse]

section
variable {input : List Char}

/-- At the offset of an end of the text, the position is counted as from that end. -/
theorem position_offsetOf (h : rest <:+ input) :
    position input (offsetOf input rest) = ended (.ok (.ofRest input rest)) := by
  obtain ⟨front, rfl⟩ := h
  rw [position, upTo?_offsetOf, Position.ofRest_append, start_after]
  simp only [cut_some, ended_ok_bind, lastLineEnd?]
  by_cases hmem : '\n' ∈ front
  · obtain ⟨before, hbefore⟩ := exists_lastLine hmem
    generalize lastLine front = line at hbefore
    subst hbefore
    have hnewline : utf8Len (before ++ '\n' :: line) - utf8Len line - 1 + 1 =
        utf8Len (before ++ ['\n']) := by
      have hsize : '\n'.utf8Size = 1 := by decide
      simp only [String.utf8Len_append, String.utf8Len_cons, String.utf8Len_nil, hsize]
      omega
    have hlast := from?_append (before ++ ['\n']) line
    rw [List.append_assoc, List.singleton_append] at hlast
    rw [if_pos hmem]
    simp only [hnewline, hlast, cut_some, ended_ok_bind, pure_eq]
  · rw [if_neg hmem, lastLine_eq_self hmem]
    rfl

/-- A failure there is told with that position. -/
theorem failAt_offsetOf {α : Type} (h : rest <:+ input) (fault : Fault) :
    (failAt input (offsetOf input rest) fault : Run α) =
      ended (.error (.malformed (.ofRest input rest) fault)) := by
  rw [failAt, position_offsetOf h]
  rfl

/-! ### Attributes -/

/-- Blanks are skipped by bytes as by characters. -/
theorem skipBlanks_offsetOf (h : cs <:+ input) :
    skipBlanks input (offsetOf input cs) = ended (.ok (offsetOf input (trimLeft cs))) := by
  rw [skipBlanks, from?_offsetOf h]
  rfl

/-- A name is cut by bytes as by characters. A name is ASCII, so each of its bytes is a character.
-/
theorem name_offsetOf (h : cs <:+ input) :
    name input (offsetOf input cs) = ended (.ok (nameOf cs, offsetOf input (afterName cs))) := by
  have hsplit := nameOf_append_afterName cs
  have hlength : bytesBefore (fun c => !isNameChar c) cs = utf8Len (nameOf cs) := by
    simp only [bytesBefore, Bool.not_not]
    rfl
  have hcut := upTo?_append (nameOf cs) (afterName cs)
  have hmove : offsetOf input (nameOf cs ++ afterName cs) + utf8Len (nameOf cs) =
      offsetOf input (afterName cs) := offsetOf_append (by rw [hsplit]; exact h)
  rw [hsplit] at hcut hmove
  rw [name, from?_offsetOf h]
  simp only [cut_some, ended_ok_bind, hlength, hcut, hmove, pure_eq]

/-- What comes of a value in quotes, given how it splits the text behind the first quote. -/
theorem quoted_offsetOf (tag name : String) {quote : Char} (hquote : quote.utf8Size = 1)
    (h : quote :: cs <:+ input) :
    quoted input tag name quote (quote :: cs) (offsetOf input (quote :: cs)) =
      match splitAtMark? [quote] cs with
      | some (value, next) =>
        ended (.ok (Html.unescape (String.ofList value), offsetOf input next))
      | none =>
        ended (.error (.malformed (.ofRest input (quote :: cs)) (.unterminatedValue name tag))) := by
  have hinner : from? (quote :: cs) 1 = some cs := by
    have hcut := from?_append [quote] cs
    rwa [String.utf8Len_cons, hquote] at hcut
  rw [quoted, hinner]
  simp only [cut_some, ended_ok_bind, find?]
  cases hsplit : splitAtMark? [quote] cs with
  | none => exact failAt_offsetOf h _
  | some parts =>
    obtain ⟨value, next⟩ := parts
    obtain ⟨rfl, -⟩ := splitAtMark?_eq_some hsplit
    have hvalue : between? (quote :: (value ++ ([quote] ++ next))) 1 (utf8Len value + 1) =
        some value := by
      have hpiece : value ++ ([quote] ++ next) <:+ quote :: (value ++ ([quote] ++ next)) :=
        List.suffix_cons _ _
      have hfirst := offsetOf_cons (List.suffix_refl (quote :: (value ++ ([quote] ++ next))))
      have hlast := offsetOf_append hpiece
      have hbetween := between?_offsetOf hpiece
      rw [← hlast, ← hfirst, offsetOf_self, hquote, Nat.zero_add, Nat.add_comm] at hbetween
      exact hbetween
    have hmove : offsetOf input (quote :: (value ++ ([quote] ++ next))) + utf8Len value + 2 =
        offsetOf input next := by
      have hpiece : quote :: value ++ [quote] ++ next <:+ input := by
        simpa using h
      have hend := offsetOf_append hpiece
      simp only [List.cons_append, List.append_assoc, String.utf8Len_cons, String.utf8Len_append,
        String.utf8Len_nil, hquote] at hend ⊢
      omega
    simp only [Option.map_some, hvalue, cut_some, ended_ok_bind, hmove, pure_eq]

/-- A quoted value is cut at its closing quote, or fails where it began. -/
theorem value_offsetOf (tag name : String) (h : cs <:+ input) :
    value input tag name (offsetOf input cs) =
      match readValue? cs with
      | some (value, next) =>
        ended (.ok (Html.unescape (String.ofList value), offsetOf input next))
      | none => ended (.error (.malformed (.ofRest input cs) (.unterminatedValue name tag))) := by
  rw [value, from?_offsetOf h, readValue?.eq_def]
  simp only [cut_some, ended_ok_bind]
  split
  · exact quoted_offsetOf tag name (by decide) h
  · exact quoted_offsetOf tag name (by decide) h
  · have hsplit : (cs.takeWhile fun c => !endsBareValue c) ++
        (cs.dropWhile fun c => !endsBareValue c) = cs := List.takeWhile_append_dropWhile
    have hcut := upTo?_append (cs.takeWhile fun c => !endsBareValue c)
      (cs.dropWhile fun c => !endsBareValue c)
    have hmove := offsetOf_append (hsplit.symm ▸ h)
    rw [hsplit] at hcut hmove
    simp only [bytesBefore, hcut, cut_some, ended_ok_bind, hmove, pure_eq]

/-- A value behind the equals sign, or the empty value without one. -/
theorem assigned_offsetOf (tag name : String) (h : cs <:+ input) :
    assigned input tag name (offsetOf input cs) =
      match readAssigned name cs with
      | .ok (value, next) => ended (.ok (value, offsetOf input next))
      | .error quote =>
        ended (.error (.malformed (.ofRest input quote) (.unterminatedValue name tag))) := by
  rw [assigned, from?_offsetOf h]
  simp only [cut_some, ended_ok_bind]
  split
  · rename_i hassign
    obtain ⟨rest, rfl⟩ := beginsWith_iff.mp hassign
    rw [List.singleton_append] at h ⊢
    have hrest : rest <:+ input := (List.suffix_cons _ _).trans h
    have hmove : offsetOf input ('=' :: rest) + 1 = offsetOf input rest := offsetOf_cons h
    rw [hmove, skipBlanks_offsetOf hrest, readAssigned]
    simp only [ended_ok_bind]
    rw [value_offsetOf tag name ((trimLeft_suffix rest).trans hrest)]
    cases readValue? (trimLeft rest) with
    | none | some parts => rfl
  · rename_i hassign
    rw [readAssigned]
    · rfl
    · rintro rest rfl
      exact hassign (beginsWith_iff.mpr ⟨rest, rfl⟩)

/-- What was read, with the offset of what is left. -/
def placed {α : Type} (input : List Char) (read : α × List Char) : α × Nat :=
  (read.1, offsetOf input read.2)

/-- The loop over attributes, with a step for each character: it gives what the recursion gives,
failures and their positions included. -/
theorem attributes_offsetOf (htagged : tagged <:+ input) (tag : String) (before : Attributes)
    (h : cs <:+ input) (hsteps : cs.length < steps) :
    attributes input (offsetOf input tagged) tag steps before (offsetOf input cs) =
      ended (((readAttributes (.ofRest input) (.ofRest input tagged) tag before cs).map
        Front.pair).map (placed input)) := by
  induction steps generalizing cs before with
  | zero => cases hsteps
  | succ steps ih =>
  have htrim := trimLeft_suffix cs
  rw [attributes, skipBlanks_offsetOf h]
  simp only [ended_ok_bind]
  rw [from?_offsetOf (htrim.trans h), pair_readAttributes]
  simp only [cut_some, ended_ok_bind]
  generalize hrun : ite ((trimLeft cs).isEmpty = true) _ _ = run
  -- The cases are those of what stands behind the blanks.
  split
  · rename_i htail
    rw [← hrun, htail]
    exact failAt_offsetOf htagged _
  · rename_i rest htail
    rw [htail] at htrim hrun
    subst hrun
    have hpiece : ['/', '>'] ++ rest <:+ input := htrim.trans h
    have hmove := offsetOf_append hpiece
    rw [if_neg (by simp), if_pos (by simp [beginsWith, after?])]
    exact congrArg (fun next => ended (.ok ((before, true), next))) hmove
  · rename_i rest htail
    rw [htail] at htrim hrun
    subst hrun
    have hmove := offsetOf_cons (htrim.trans h)
    rw [if_neg (by simp), if_neg (by simp [beginsWith, after?]),
      if_pos (by simp [beginsWith, after?])]
    exact congrArg (fun next => ended (.ok ((before, false), next))) hmove
  · rename_i c more hslash hend htail
    rw [htail] at htrim hrun
    subst hrun
    have hmore : c :: more <:+ input := htrim.trans h
    rw [if_neg (by simp), if_neg, if_neg, name_offsetOf hmore]
    · simp only [ended_ok_bind]
      split
      · rename_i hname
        -- An empty name leaves the text where it was.
        have hafter : afterName (c :: more) = c :: more := by
          have hsplit := nameOf_append_afterName (c :: more)
          rwa [List.isEmpty_iff.mp hname, List.nil_append] at hsplit
        rw [hafter]
        exact failAt_offsetOf hmore _
      · rename_i hname
        have hafter := (afterName_suffix (c :: more)).trans hmore
        have hblank := (trimLeft_suffix (afterName (c :: more))).trans hafter
        rw [skipBlanks_offsetOf hafter]
        simp only [ended_ok_bind]
        rw [assigned_offsetOf tag _ hblank]
        cases hvalue : readAssigned (String.ofList (nameOf (c :: more)))
            (trimLeft (afterName (c :: more))) with
        | error quote => rfl
        | ok read =>
          obtain ⟨hnext, hshorter⟩ := of_readAssigned htail hname hvalue
          exact ih _ (hnext.trans h) (by omega)
    · rintro hbegins
      obtain ⟨rest, hrest⟩ := beginsWith_iff.mp hbegins
      cases hrest
      exact hend rfl
    · rintro hbegins
      obtain ⟨rest, hrest⟩ := beginsWith_iff.mp hbegins
      cases hrest
      exact hslash rest rfl rfl

/-! ### Content kept as text -/

/-- Whether a tag begins is seen without reading further. -/
theorem beginsTag_eq (mark cs : List Char) : beginsTag mark cs = ended (.ok (startsTag mark cs)) := by
  rw [beginsTag, startsTag.eq_def]
  split
  · rename_i hbegins
    obtain ⟨rest, rfl⟩ := beginsWith_iff.mp hbegins
    rw [from?_append, after?_eq_some_iff.mpr rfl]
    cases rest with
    | nil | cons c rest => rfl
  · rename_i hbegins
    rw [after?_eq_none_iff.mpr (mt beginsWith_iff.mpr hbegins)]
    rfl

/-- A mark that does not begin where the text begins is found in the rest. -/
theorem splitAtMark?_cons_of_ne {m c : Char} (h : m ≠ c) (mark cs : List Char) :
    splitAtMark? (m :: mark) (c :: cs) =
      (splitAtMark? (m :: mark) cs).map fun parts => (c :: parts.1, parts.2) := by
  rw [splitAtMark?, after?, if_neg (by simpa using h)]

/-- What comes of a content of which a part has been passed already. -/
def outcome (input : List Char) (start : Position) (tag passed : List Char) :
    Except CaptureFault (List Char × List Char) → Except Failure (List Char × Nat)
  | .ok captured => .ok (passed ++ captured.1, offsetOf input captured.2)
  | .error .neverClosed => .error (.malformed start (.neverClosed (String.ofList tag)))
  | .error .brokenCharacter => .error .brokenCharacter
  | .error (.unterminated rest) =>
    .error (.malformed (.ofRest input rest) (.unterminatedClosingTag (String.ofList tag)))

/-- What was passed before belongs to the content. -/
theorem outcome_map (start : Position) (tag passed more : List Char)
    (x : Except CaptureFault (List Char × List Char)) :
    outcome input start tag passed (x.map (onContent more)) =
      outcome input start tag (passed ++ more) x := by
  cases x with
  | error fault =>
    cases fault with
    | neverClosed => rfl
    | unterminated rest => rfl
    | brokenCharacter => rfl
  | ok captured => simp [Except.map, outcome, onContent]

theorem getLast?_cons_bracket (inside : List Char) :
    (('<' :: inside).getLast? == some '/') = (inside.getLast? == some '/') := by
  cases inside with
  | nil => decide
  | cons c inside => rw [List.getLast?_cons_cons]

/-- A tag that is ended is passed with its end. -/
theorem offsetOf_tag {inside next : List Char} (h : '<' :: rest <:+ input)
    (hend : splitAtMark? ['>'] rest = some (inside, next)) :
    '<' :: rest = ('<' :: inside ++ ['>']) ++ next ∧
      offsetOf input ('<' :: rest) + utf8Len ('<' :: inside) + 1 = offsetOf input next := by
  obtain ⟨rfl, -⟩ := splitAtMark?_char_eq_some hend
  have hsplit : '<' :: (inside ++ '>' :: next) = ('<' :: inside ++ ['>']) ++ next := by simp
  refine ⟨hsplit, ?_⟩
  rw [hsplit] at h ⊢
  have hmove := offsetOf_append h
  rwa [String.utf8Len_append, ← Nat.add_assoc] at hmove

/-- One byte behind the last but one is the end of the text. -/
theorem offsetOf_pred (h : cs <:+ input) (hne : cs ≠ []) :
    offsetOf input cs + (utf8Len cs - 1) + 1 = offsetOf input [] := by
  have hle := String.utf8Len_le_of_suffix h
  have hpos := Nat.pos_of_ne_zero (mt String.utf8Len_eq_zero.mp hne)
  rw [offsetOf, offsetOf_nil]
  omega

/-- A tag that is not ended can be cut out without its last byte, unless reading breaks off. -/
theorem upTo?_unended (hne : cs ≠ []) :
    (∃ init, upTo? cs (utf8Len cs - 1) = some init) ∧ unendedTag cs = .neverClosed ∨
      upTo? cs (utf8Len cs - 1) = none ∧ unendedTag cs = .brokenCharacter := by
  obtain ⟨init, c, rfl⟩ : ∃ init c, cs = init ++ [c] :=
    ⟨_, _, (List.dropLast_append_getLast hne).symm⟩
  rw [upTo?_pred, unendedTag, List.getLast?_concat]
  by_cases hone : c.utf8Size = 1
  · simp [hone]
  · simp [hone]

/-- Behind whatever is passed of a text, reading goes on as capturing does. -/
def ReadsOn (input tagged tag : List Char) (steps : Nat) (passed cs : List Char) : Prop :=
  ∀ (depth : Nat) (front next : List Char), cs = front ++ next → front ≠ [] →
    content input (offsetOf input tagged) tag (offsetOf input (passed ++ cs)) steps (depth + 1)
        (offsetOf input next) =
      ended (outcome input (.ofRest input tagged) tag (passed ++ front) (capture tag depth next))

/-- Behind a tag that is not ended nothing is left, and it may be impossible to cut it out. -/
theorem ReadsOn.unended {tag passed : List Char} (hon : ReadsOn input tagged tag steps passed cs)
    (hcs : cs <:+ input) (hne : cs ≠ []) (depth : Nat) :
    (do
      let inside ← cut (upTo? cs (utf8Len cs - 1))
      content input (offsetOf input tagged) tag (offsetOf input (passed ++ cs)) steps
        (if inside.getLast? == some '/' then depth + 1 else depth + 1 + 1)
        (offsetOf input cs + (utf8Len cs - 1) + 1)) =
      ended (outcome input (.ofRest input tagged) tag passed (.error (unendedTag cs))) := by
  have hstop : ∀ depth, content input (offsetOf input tagged) tag (offsetOf input (passed ++ cs))
      steps (depth + 1) (offsetOf input []) =
        ended (.error (.malformed (.ofRest input tagged) (.neverClosed (String.ofList tag)))) := by
    intro depth
    rw [hon depth cs [] (by simp) hne, capture]
    rfl
  rcases upTo?_unended hne with ⟨⟨init, hcut⟩, hunended⟩ | ⟨hcut, hunended⟩
  · simp only [hcut, hunended, cut_some, ended_ok_bind, offsetOf_pred hcs hne]
    split
    · exact hstop depth
    · exact hstop (depth + 1)
  · rw [hcut, hunended]
    rfl

/-- The content of an element is read up to its closing tag. This is where reading can break off. -/
theorem content_offsetOf (htagged : tagged <:+ input) (tag : List Char) (depth : Nat)
    {passed : List Char} (h : passed ++ cs <:+ input) (hsteps : cs.length < steps) :
    content input (offsetOf input tagged) tag (offsetOf input (passed ++ cs)) steps (depth + 1)
        (offsetOf input cs) =
      ended (outcome input (.ofRest input tagged) tag passed (capture tag depth cs)) := by
  -- Whatever is passed next is added to what has been passed, and the rest gets shorter.
  induction steps generalizing cs passed depth with
  | zero => cases hsteps
  | succ steps ih =>
  have hcs : cs <:+ input := (List.suffix_append _ _).trans h
  rw [content, from?_offsetOf hcs]
  simp only [cut_some, ended_ok_bind, find?]
  cases hbracket : splitAtMark? ['<'] cs with
  | none =>
    have hcapture := capture_text (splitAtMark?_char_eq_none_iff.mp hbracket) tag depth []
    rw [List.append_nil, capture] at hcapture
    rw [hcapture]
    exact failAt_offsetOf htagged _
  | some parts =>
    obtain ⟨text, rest⟩ := parts
    obtain ⟨rfl, hfree⟩ := splitAtMark?_char_eq_some hbracket
    have hrest : '<' :: rest <:+ input := (List.suffix_append _ _).trans hcs
    rw [← List.append_assoc] at h ⊢
    have hon : ReadsOn input tagged tag steps (passed ++ text) ('<' :: rest) := by
      intro depth front next hsplit hfront
      have hshorter : next.length < steps := by
        have hpos := List.length_pos_iff.mpr hfront
        simp only [hsplit, List.length_append] at hsteps
        omega
      rw [hsplit, ← List.append_assoc] at h ⊢
      exact ih depth h hshorter
    simp only [Option.map_some, offsetOf_append hcs, from?_offsetOf hrest, cut_some, ended_ok_bind,
      beginsTag_eq]
    rw [capture_text hfree, outcome_map, capture_cons,
      splitAtMark?_cons_of_ne (by decide : '>' ≠ '<')]
    cases startsTag ('<' :: '/' :: tag) ('<' :: rest) with
    | true =>
      cases hend : splitAtMark? ['>'] rest with
      | none => exact failAt_offsetOf hrest _
      | some parts =>
        obtain ⟨inside, next⟩ := parts
        obtain ⟨hsplit, hmove⟩ := offsetOf_tag hrest hend
        simp only [if_true, Option.map_some, hmove]
        cases depth with
        | zero =>
          simp only [Nat.zero_add, if_true, between?_offsetOf h, cut_some, ended_ok_bind, pure_eq,
            outcome, List.append_nil]
        | succ depth =>
          rw [if_neg (by omega), outcome_map]
          exact hon depth _ next hsplit (by simp)
    | false =>
      simp only [Bool.false_eq_true, if_false]
      cases startsTag ('<' :: tag) ('<' :: rest) with
      | true =>
        simp only [if_true]
        cases hend : splitAtMark? ['>'] rest with
        | none => exact hon.unended hrest (List.cons_ne_nil _ _) depth
        | some parts =>
          obtain ⟨inside, next⟩ := parts
          obtain ⟨hsplit, hmove⟩ := offsetOf_tag hrest hend
          have hinside : upTo? ('<' :: rest) (utf8Len ('<' :: inside)) = some ('<' :: inside) := by
            rw [hsplit, List.append_assoc]
            exact upTo?_append _ _
          simp only [Option.map_some, Option.getD_some, hinside, cut_some, ended_ok_bind, hmove,
            getLast?_cons_bracket]
          rw [outcome_map, ← hon _ _ next hsplit (by simp), depthAfter]
          split
          · rfl
          · rfl
      | false =>
        have hmove := offsetOf_cons hrest
        simp only [Bool.false_eq_true, if_false]
        rw [outcome_map]
        exact hmove ▸ hon depth ['<'] rest rfl (by simp)

/-! ### Items -/

/-- What was read as an item, with the offset of what is left. -/
def placedItem (input : List Char) (read : Item × List Char) : Option Item × Nat :=
  (some read.1, offsetOf input read.2)

/-- A comment is read to its mark or fails at its beginning. -/
theorem comment_offsetOf (h : '<' :: '!' :: '-' :: '-' :: cs <:+ input) :
    comment input (offsetOf input ('<' :: '!' :: '-' :: '-' :: cs)) =
      ended (((readComment (.ofRest input ('<' :: '!' :: '-' :: '-' :: cs)) cs).map
        Front.pair).map (placedItem input)) := by
  have hinner : from? ('<' :: '!' :: '-' :: '-' :: cs) 4 = some cs :=
    from?_append ['<', '!', '-', '-'] cs
  rw [comment, from?_offsetOf h, pair_readComment]
  simp only [cut_some, ended_ok_bind, hinner, find?]
  cases hsplit : splitAtMark? ['-', '-', '>'] cs with
  | none => exact failAt_offsetOf h _
  | some parts =>
    obtain ⟨body, rest⟩ := parts
    obtain ⟨rfl, -⟩ := splitAtMark?_eq_some hsplit
    have hpiece : ['<', '!', '-', '-'] ++ body ++ ['-', '-', '>'] ++ rest <:+ input := by
      simpa using h
    have hlast := offsetOf_append hpiece
    have hsource := between?_offsetOf hpiece
    have hmarks : utf8Len ['<', '!', '-', '-'] = 4 ∧ utf8Len ['-', '-', '>'] = 3 := by decide
    rw [String.utf8Len_append, String.utf8Len_append, hmarks.1, hmarks.2, ← Nat.add_assoc,
      ← Nat.add_assoc] at hlast
    simp only [List.append_assoc, List.cons_append, List.nil_append] at hlast hsource
    have htext : String.ofList ('<' :: '!' :: '-' :: '-' :: (body ++ ['-', '-', '>'])) =
        "<!--" ++ String.ofList body ++ "-->" := by
      rw [← String.toList_inj]
      simp
    simp only [Option.map_some, List.cons_append, List.nil_append, hlast, hsource, cut_some,
      ended_ok_bind, pure_eq, htext]
    rfl

/-- A declaration is skipped to its mark. The mark must not begin with a bracket, or it could be
found in the one at hand. -/
theorem declaration_offsetOf {m : Char} (hm : m ≠ '<') (mark : List Char)
    (h : '<' :: cs <:+ input) :
    declaration input (m :: mark) (offsetOf input ('<' :: cs)) =
      ended (((skipDeclaration (.ofRest input ('<' :: cs)) (m, mark) cs).map Front.pair).map
        (placed input)) := by
  rw [declaration, from?_offsetOf h, pair_skipDeclaration]
  simp only [cut_some, ended_ok_bind, find?, splitAtMark?_cons_of_ne hm]
  cases hsplit : splitAtMark? (m :: mark) cs with
  | none => exact failAt_offsetOf h _
  | some parts =>
    obtain ⟨body, rest⟩ := parts
    obtain ⟨rfl, -⟩ := splitAtMark?_eq_some hsplit
    have hpiece : '<' :: body ++ (m :: mark) ++ rest <:+ input := by simpa using h
    have hmove := offsetOf_append hpiece
    rw [String.utf8Len_append, ← Nat.add_assoc, List.append_assoc] at hmove
    simp only [Option.map_some, pure_eq]
    exact congrArg (fun next => ended (.ok (none, next))) hmove

/-- A closing tag is read up to its bracket. -/
theorem closing_offsetOf (h : '<' :: '/' :: cs <:+ input) :
    closing input (offsetOf input ('<' :: '/' :: cs)) =
      ended (((readClosing (.ofRest input ('<' :: '/' :: cs)) cs).map Front.pair).map
        (placedItem input)) := by
  have hpiece : ['<', '/'] ++ cs <:+ input := h
  have hmove : offsetOf input ('<' :: '/' :: cs) + 2 = offsetOf input cs := offsetOf_append hpiece
  have hcs : cs <:+ input := (List.suffix_append _ _).trans hpiece
  have hafter := (afterName_suffix cs).trans hcs
  have htrim := (trimLeft_suffix (afterName cs)).trans hafter
  rw [closing, hmove, name_offsetOf hcs, pair_readClosing]
  simp only [ended_ok_bind]
  rw [skipBlanks_offsetOf hafter]
  simp only [ended_ok_bind, from?_offsetOf htrim, cut_some]
  split
  · rename_i hend
    obtain ⟨rest, hrest⟩ := beginsWith_iff.mp hend
    rw [← hrest, List.singleton_append] at htrim ⊢
    have hnext : offsetOf input ('>' :: rest) + 1 = offsetOf input rest := offsetOf_cons htrim
    rw [hnext]
    rfl
  · rename_i hend
    split
    · rename_i rest hrest
      exact absurd (beginsWith_iff.mpr ⟨rest, hrest.symm⟩) hend
    · exact failAt_offsetOf h _

/-- An opening tag, with its attributes and the content that it captures. -/
theorem opening_offsetOf (registry : Registry) (h : '<' :: cs <:+ input)
    (hsteps : cs.length < steps) :
    opening input registry steps (offsetOf input ('<' :: cs)) =
      ended (((readOpening registry (.ofRest input) (.ofRest input ('<' :: cs)) cs).map
        Front.pair).map (placedItem input)) := by
  have hcs : cs <:+ input := (List.suffix_cons _ _).trans h
  have hmove : offsetOf input ('<' :: cs) + 1 = offsetOf input cs := offsetOf_cons h
  have hafter := (afterName_suffix cs).trans hcs
  rw [opening, position_offsetOf h, pair_readOpening, hmove]
  simp only [ended_ok_bind, name_offsetOf hcs]
  split
  · exact failAt_offsetOf h _
  · have hshort : (afterName cs).length < steps :=
      Nat.lt_of_le_of_lt (afterName_suffix cs).length_le hsteps
    rw [attributes_offsetOf h _ _ hafter hshort]
    cases hread : (readAttributes (.ofRest input) (.ofRest input ('<' :: cs))
        (String.ofList (nameOf cs)) ∅ (afterName cs)).map Front.pair with
    | error failure => rfl
    | ok read =>
      obtain ⟨⟨attributes, single⟩, rest⟩ := read
      have hrest : rest <:+ afterName cs := (of_readAttributes _ _ hread).1
      show _ = ended ((readElement registry (.ofRest input) (.ofRest input ('<' :: cs)) (nameOf cs)
        attributes single rest).map (placedItem input))
      rw [readElement]
      simp only [Except.map, placed, ended_ok_bind]
      cases registry.get? (String.ofList (nameOf cs)) with
      | none => rfl
      | some spec =>
        cases single with
        | true => rfl
        | false =>
          cases hcaptures : spec.captures with
          | false => simp only [hcaptures]; rfl
          | true =>
            have hpiece : [] ++ rest <:+ input := hrest.trans hafter
            have hcontent := content_offsetOf h (nameOf cs) 0 hpiece
              (Nat.lt_of_le_of_lt hrest.length_le hshort)
            rw [List.nil_append, Nat.zero_add] at hcontent
            simp only [hcaptures, hcontent]
            cases capture (nameOf cs) 0 rest with
            | ok captured => rfl
            | error fault =>
              cases fault with
              | neverClosed => rfl
              | unterminated tail => rfl
              | brokenCharacter => rfl

/-- An item may be told that it is one before or after its rest gets an offset. -/
theorem map_placed_some (input : List Char) (x : Except Failure (Item × List Char)) :
    (x.map fun read => (some read.1, read.2)).map (placed input) = x.map (placedItem input) := by
  cases x with
  | error failure | ok read => rfl

/-- One step at a bracket: the offset reader and the reader on characters agree, on items and on
failures. -/
theorem marked_offsetOf (registry : Registry) (h : '<' :: cs <:+ input)
    (hsteps : cs.length < steps) :
    marked input registry steps (offsetOf input ('<' :: cs)) =
      ended (((readMarked registry (.ofRest input) (.ofRest input ('<' :: cs)) cs).map
        Front.pair).map (placed input)) := by
  have hno {cs : List Char} (mark : List Char) (hnot : ∀ tail, cs = mark ++ tail → False) :
      ¬ beginsWith ('<' :: mark) ('<' :: cs) = true := by
    intro hbegins
    obtain ⟨tail, htail⟩ := beginsWith_iff.mp hbegins
    cases htail
    exact hnot tail rfl
  rw [marked, from?_offsetOf h, pair_readMarked]
  simp only [cut_some, ended_ok_bind]
  generalize hrun : ite (beginsWith ['<', '!', '-', '-'] ('<' :: cs) = true) _ _ = run
  split
  · rw [if_pos (by simp [beginsWith, after?])] at hrun
    rw [← hrun, map_placed_some, comment_offsetOf h]
  · rw [if_neg (by simp [beginsWith, after?]), if_pos (by simp [beginsWith, after?])] at hrun
    rw [← hrun, declaration_offsetOf (by decide) _ h]
  · rename_i rest hcomment
    have hdash := @hno ('!' :: rest) ['!', '-', '-'] fun tail htail =>
      hcomment tail (List.cons.inj htail).2
    rw [if_neg hdash, if_neg (by simp [beginsWith, after?]),
      if_pos (by simp [beginsWith, after?])] at hrun
    rw [← hrun, declaration_offsetOf (by decide) _ h]
  · rw [if_neg (by simp [beginsWith, after?]), if_neg (by simp [beginsWith, after?]),
      if_neg (by simp [beginsWith, after?]), if_pos (by simp [beginsWith, after?])] at hrun
    rw [← hrun, map_placed_some, closing_offsetOf h]
  · rename_i hcomment hquestion hbang hslash
    rw [if_neg (hno ['!', '-', '-'] hcomment), if_neg (hno ['?'] hquestion),
      if_neg (hno ['!'] hbang), if_neg (hno ['/'] hslash)] at hrun
    rw [← hrun, map_placed_some, opening_offsetOf registry h hsteps]

/-! ### Documents -/

/-- One step at a text: what it is taken in as does not depend on offsets. -/
theorem addText_offsetOf (p : Progress) {text : List Char} (h : text ++ rest <:+ input) :
    addText input p text (offsetOf input (text ++ rest)) =
      ended (p.pass text (.ofRest input (trimLeft (text ++ rest)))) := by
  rw [addText, Progress.pass]
  split
  · rfl
  · rename_i hblank
    have hne : trimLeft text ≠ [] := by
      intro hnil
      rw [trimLeft, List.dropWhile_eq_nil_iff] at hnil
      exact hblank (by simpa using hnil)
    have htrim : trimLeft (text ++ rest) = trimLeft text ++ rest :=
      trimLeft_append_of_ne_nil hne rest
    have hsplit : text.takeWhile isBlank ++ trimLeft text = text :=
      List.takeWhile_append_dropWhile
    have hpiece : text.takeWhile isBlank ++ (trimLeft text ++ rest) <:+ input := by
      rwa [← List.append_assoc, hsplit]
    have hstart : offsetOf input (text ++ rest) + (utf8Len text - utf8Len (trimLeft text)) =
        offsetOf input (trimLeft text ++ rest) := by
      have hmove := offsetOf_append hpiece
      have hlength := congrArg utf8Len hsplit
      rw [← List.append_assoc, hsplit] at hmove
      rw [String.utf8Len_append] at hlength
      rw [← hmove, ← hlength, Nat.add_sub_cancel]
    rw [hstart, position_offsetOf ((List.suffix_append _ _).trans hpiece), htrim]
    rfl

/-- Reading by byte offsets goes on as reading the rest does. -/
theorem scan_offsetOf (registry : Registry) (keep : Bool) (p : Progress) (h : cs <:+ input)
    (hsteps : cs.length < steps) :
    scan input registry keep steps p (offsetOf input cs) =
      ended (p.scan registry (.ofRest input) keep cs) := by
  induction steps generalizing cs p with
  | zero => cases hsteps
  | succ steps ih =>
  rw [scan]
  by_cases hempty : cs = []
  · subst hempty
    rw [offsetOf_nil, if_neg (Nat.lt_irrefl _), Progress.scan_nil]
  · have hlt : offsetOf input cs < utf8Len input := by
      have hle := String.utf8Len_le_of_suffix h
      have hpos := Nat.pos_of_ne_zero (mt String.utf8Len_eq_zero.mp hempty)
      rw [offsetOf]
      omega
    rw [if_pos hlt, from?_offsetOf h]
    simp only [cut_some, ended_ok_bind, find?]
    cases hbracket : splitAtMark? ['<'] cs with
    | none =>
      have hpiece : cs ++ [] <:+ input := by rwa [List.append_nil]
      have htext := addText_offsetOf p hpiece
      have hscan := p.scan_append registry (.ofRest input) keep (splitAtMark?_char_eq_none_iff.mp hbracket)
        (show ∀ c ∈ [].head?, c = '<' by simp)
      rw [List.append_nil] at htext hscan
      simp only [Option.map_none, htext, hscan]
      cases p.pass cs (.ofRest input (trimLeft cs)) with
      | error failure => rfl
      | ok next => exact congrArg ended (next.scan_nil registry (.ofRest input) keep).symm
    | some parts =>
      obtain ⟨text, rest⟩ := parts
      obtain ⟨rfl, hfree⟩ := splitAtMark?_char_eq_some hbracket
      have hrest : '<' :: rest <:+ input := (List.suffix_append _ _).trans h
      have hshort : rest.length < steps := by
        simp only [List.length_append, List.length_cons] at hsteps
        omega
      have hmove := offsetOf_append h
      rw [p.scan_append registry (.ofRest input) keep hfree (by simp)]
      simp only [Option.map_some, upTo?_append, cut_some, ended_ok_bind, addText_offsetOf p h]
      cases p.pass text (.ofRest input (trimLeft (text ++ '<' :: rest))) with
      | error failure => rfl
      | ok next =>
        simp only [ended_ok_bind, hmove, position_offsetOf hrest,
          marked_offsetOf registry hrest hshort]
        show _ = ended (next.scan registry (.ofRest input) keep ('<' :: rest))
        rw [Progress.scan_marked]
        cases hread : (readMarked registry (.ofRest input) (.ofRest input ('<' :: rest)) rest).map
            Front.pair with
        | error failure => rfl
        | ok read =>
          obtain ⟨item?, more⟩ := read
          have hmore : more <:+ rest := (of_readMarked registry _ _ hread).1
          show (ended (next.take keep (item?.map fun item => _)) >>= _) =
            ended (next.take keep (item?.map fun item => _) >>= _)
          cases next.take keep (item?.map fun item => _) with
          | error failure => rfl
          | ok last =>
            exact ih last (hmore.trans ((List.suffix_cons _ _).trans hrest))
              (Nat.lt_of_le_of_lt hmore.length_le hshort)

end

/-- Reading by byte offsets ends within one step more than the text has characters, and with the
result of reading it. -/
theorem read_eq (registry : Registry) (keepComments : Bool) {markup : String}
    (hsteps : markup.length < steps) :
    read registry keepComments steps markup = ended (Node.read registry keepComments markup) := by
  rw [read, ← offsetOf_self markup.toList, Node.read_eq_scan]
  exact scan_offsetOf registry _ .before List.suffix_rfl (by rwa [String.length_toList])

end EmailMarkup.Markup.Offset
