import EmailMarkup.Proofs.Css.Local

/-!
# What a token says of the text

Names are compared after decoding. Decoding shortens a name by each escape in it
(`countP_decodeName_le`), so a name that is its own decoding has none (`notMem_of_decodeName`).

`Kind.Fits` says what the kind of a token tells of its source: which characters a blank or a name is
made of, how a comment begins, and that the marks of declarations are single characters.
-/

set_option autoImplicit false

namespace EmailMarkup.Css

open EmailMarkup.Text

variable {cs : List Char} {c : Char}

/-! ### Names -/

/-- A semicolon is escaped by a backslash alone. -/
theorem escape_taken_of_mem (h : ';' ∈ (escape cs).taken) : (escape cs).taken = [';'] := by
  have hhex (n : Nat) (cs : List Char) : ';' ∉ (hexDigits n cs).taken := by
    induction n generalizing cs with
    | zero => simp [hexDigits, Cut.nothing]
    | succ n ih =>
      cases cs with
      | nil => simp [hexDigits, Cut.nothing]
      | cons c cs =>
        rw [hexDigits]
        split
        · rename_i hc
          rw [Cut.cons, List.mem_cons, not_or]
          refine ⟨?_, ih cs⟩
          rintro rfl
          exact absurd hc (by decide)
        · simp [Cut.nothing]
  have hblank (cs : List Char) : ';' ∉ (oneBlank cs).taken := by
    unfold oneBlank
    split
    · simp [Cut.cons, Cut.nothing]
    · split
      · rename_i hc
        simp only [Cut.cons, Cut.nothing, List.mem_singleton]
        rintro rfl
        exact absurd hc (by decide)
      · simp [Cut.nothing]
    · simp [Cut.nothing]
  cases cs with
  | nil => cases h
  | cons c cs =>
    rw [escape] at h ⊢
    split at h
    · exact absurd (List.mem_append.mp h) (not_or.mpr ⟨hhex _ _, hblank _⟩)
    · rename_i hc
      have hsemicolon : ';' = c := by simpa [Cut.cons, Cut.nothing] using h
      subst hsemicolon
      rw [if_neg hc]
      rfl

/-- Decoding a name leaves no more characters of a kind than it had, if the backslash and NUL are of
that kind. -/
theorem countP_decodeName_le {p : Char → Bool} (hslash : p '\\' = true) (hnul : p '\x00' = true)
    (cs : List Char) : (decodeName cs).countP p ≤ cs.countP p := by
  fun_induction decodeName cs with
  | case1 => exact Nat.le_refl _
  | case2 c rest hc _ ih =>
    rw [beq_iff_eq] at hc
    subst hc
    -- The backslash makes up for the character that the escape stands for.
    have hrest := congrArg (List.countP p) (escape rest).whole
    rw [List.countP_append] at hrest
    rw [List.countP_cons, List.countP_cons, hslash, if_pos rfl]
    split <;> omega
  | case3 c rest hc ih =>
    rw [List.countP_cons, List.countP_cons]
    by_cases hzero : (c == '\x00') = true
    · rw [if_pos hzero, beq_iff_eq.mp hzero, hnul, if_pos rfl]
      split <;> omega
    · rw [if_neg hzero]
      omega

/-- A semicolon in the source of a name is still there when it is decoded. -/
theorem mem_decodeName (h : ';' ∈ cs) : ';' ∈ decodeName cs := by
  fun_induction decodeName cs with
  | case1 => exact h
  | case2 c rest hc _ ih =>
    have hmem : ';' ∈ rest := by
      rcases List.mem_cons.mp h with rfl | h
      · cases hc
      · exact h
    rw [← (escape rest).whole] at hmem
    rcases List.mem_append.mp hmem with hmem | hmem
    · rw [escape_taken_of_mem hmem]
      exact List.mem_cons_self
    · exact List.mem_cons_of_mem _ (ih hmem)
  | case3 c rest hc ih =>
    rcases List.mem_cons.mp h with rfl | h
    · exact List.mem_cons_self
    · exact List.mem_cons_of_mem _ (ih h)

/-- A name that stands for itself has no escapes. -/
theorem notMem_of_decodeName (h : lowerChars (decodeName cs) = cs) : '\\' ∉ cs := by
  fun_induction decodeName cs with
  | case1 => simp
  | case2 c rest hc _ ih =>
    -- Nothing is lost behind a backslash only if the escape is empty, and that is no backslash.
    exfalso
    rw [lowerChars, List.map_cons, List.cons.injEq] at h
    have hlength := congrArg List.length h.2
    have hle := countP_decodeName_le (p := fun _ => true) rfl rfl (escape rest).rest
    have hrest := congrArg List.length (escape rest).whole
    rw [List.length_append] at hrest
    rw [List.length_map] at hlength
    simp only [List.countP_true] at hle
    have htaken : (escape rest).taken = [] := List.eq_nil_of_length_eq_zero (by omega)
    have hslash : '\\' = c := (beq_iff_eq.mp hc).symm
    rw [htaken, ← hslash] at h
    exact absurd h.1 (by decide)
  | case3 c rest hc ih =>
    rw [lowerChars, List.map_cons, List.cons.injEq] at h
    rw [List.mem_cons, not_or]
    refine ⟨fun heq => hc (beq_iff_eq.mpr heq.symm), ih h.2⟩

theorem escapedChar_ne_nul (cs : List Char) : escapedChar cs ≠ '\x00' := by
  unfold escapedChar
  split
  · decide
  · split
    · split
      · rename_i n hn
        split
        · decide
        · rename_i hpos
          unfold charOfCode?
          by_cases hvalid : n.isValidChar
          · rw [dif_pos hvalid]
            intro h
            have hcode := congrArg Char.toNat h
            exact hpos hcode
          · rw [dif_neg hvalid]
            decide
      · decide
    · split
      · decide
      · rename_i c _ _ hc
        simpa using hc

theorem nul_notMem_decodeName (cs : List Char) : '\x00' ∉ decodeName cs := by
  fun_induction decodeName cs with
  | case1 => simp
  | case2 c rest hc _ ih =>
    rw [List.mem_cons, not_or]
    exact ⟨(escapedChar_ne_nul _).symm, ih⟩
  | case3 c rest hc ih =>
    rw [List.mem_cons, not_or]
    refine ⟨?_, ih⟩
    split
    · decide
    · rename_i hnul
      exact fun heq => hnul (beq_iff_eq.mpr heq.symm)

/-- A name without escapes is decoded to itself. The null character is none of a decoded name. -/
theorem decodeName_of_plain (hslash : '\\' ∉ cs) (hnul : '\x00' ∉ cs) : decodeName cs = cs := by
  induction cs with
  | nil => rw [decodeName]
  | cons c cs ih =>
    rw [List.mem_cons, not_or] at hslash hnul
    rw [decodeName, if_neg (by simpa using Ne.symm hslash.1),
      if_neg (by simpa using Ne.symm hnul.1), ih hslash.2 hnul.2]

theorem isNameChar_of_mem_name (h : '\\' ∉ (name cs).taken) :
    ∀ c ∈ (name cs).taken, isNameChar c = true := by
  fun_induction name cs with
  | case1 | case2 c rest hslash hnewline => simp [Cut.nothing]
  | case3 c rest hslash hnewline _ ih =>
    rw [beq_iff_eq] at hslash
    subst hslash
    exact absurd List.mem_cons_self h
  | case4 c rest hslash hname ih =>
    exact List.forall_mem_cons.mpr ⟨hname, ih fun hmem => h (List.mem_cons_of_mem _ hmem)⟩
  | case5 c rest hslash hname => simp [Cut.nothing]

theorem isNameStart_of_atName (h : atName (c :: cs) = true) (hminus : c ≠ '-') (hslash : c ≠ '\\') :
    isNameStart c = true := by
  simpa [atName, hminus, hslash] using h

theorem isDigit_of_isNameStart (h : isNameStart c = true) : c.isDigit = false := by
  rw [isNameStart, Bool.or_eq_true, Bool.or_eq_true, Bool.or_eq_true, beq_iff_eq, beq_iff_eq,
    decide_eq_true_eq] at h
  obtain ((halpha | rfl) | rfl) | hcode := h
  · unfold Char.isAlpha Char.isUpper Char.isLower at halpha
    unfold Char.isDigit
    grind
  · rfl
  · rfl
  · -- Digits are among the ASCII characters.
    by_contra hdigit
    rw [Bool.not_eq_false, Char.isDigit, Bool.and_eq_true, decide_eq_true_eq,
      decide_eq_true_eq] at hdigit
    have hle : c.toNat ≤ 57 := UInt32.le_iff_toNat_le.mp hdigit.2
    omega

theorem isNameChar_of_atName (h : atName (c :: cs) = true) (hc : c ≠ '\\') :
    isNameChar c = true := by
  by_cases hminus : c = '-'
  · rw [hminus]
    decide
  · rw [isNameChar, isNameStart_of_atName h hminus hc]
    rfl

/-! ### Kinds and sources -/

/-- What is known of a token of a kind from its source and the text behind it. -/
def Kind.Fits : Kind → List Char → List Char → Prop
  | .blank, source, _ => ∀ c ∈ source, isAsciiBlank c = true
  | .comment, source, _ => ['/', '*'] <+: source
  | .ident name, source, rest => name = String.ofList (decodeName source) ∧
    atName (source ++ rest) = true ∧ ('\\' ∉ source → ∀ c ∈ source, isNameChar c = true)
  | .colon, source, _ => source = [':']
  | .semicolon, source, _ => source = [';']
  | .delim c, source, _ => source = [c]
  | _, _, _ => True

theorem fits_functionOf (text : String) (cs source rest : List Char) :
    (functionOf text cs).1.Fits source rest := by
  unfold functionOf
  split <;> trivial

/-- A name fits its source, also if it is a function or an address. -/
theorem fits_identLike (h : atName (c :: cs) = true) :
    (identLike c cs).1.Fits (c :: (identLike c cs).2.taken) (identLike c cs).2.rest := by
  by_cases hbracket : ['('] <+: (nameTail c cs).rest
  · obtain ⟨rest, hrest⟩ := hbracket
    rw [(identLike_of_bracket hrest.symm).1]
    exact fits_functionOf _ _ _ _
  · rw [identLike_of_not_bracket hbracket]
    refine ⟨rfl, by rw [List.cons_append, (nameTail c cs).whole, h], fun hslash => ?_⟩
    rw [List.mem_cons, not_or] at hslash
    refine List.forall_mem_cons.mpr ⟨isNameChar_of_atName h (Ne.symm hslash.1), ?_⟩
    have htail : nameTail c cs = name cs := by
      rw [nameTail, if_neg (by simpa using Ne.symm hslash.1)]
    rw [htail] at hslash ⊢
    exact isNameChar_of_mem_name hslash.2

theorem fits_comparison (mark : Char) (cs : List Char) :
    (comparison mark cs).1.Fits (mark :: (comparison mark cs).2.taken)
      (comparison mark cs).2.rest := by
  unfold comparison
  split
  · trivial
  · rfl

/-- Every token fits what it was read from: one case for each way in which a token begins. -/
theorem fits_readToken (c : Char) (cs : List Char) :
    (readToken c cs).1.Fits (c :: (readToken c cs).2.taken) (readToken c cs).2.rest := by
  unfold readToken
  split
  · rename_i hblank
    exact List.forall_mem_cons.mpr ⟨hblank, fun d hd => List.mem_takeWhile_imp hd⟩
  split
  · trivial
  split
  · trivial
  split
  · split
    · trivial
    · rfl
  · unfold marked
    split
    · trivial
    · rfl
  · exact fits_comparison _ _
  · exact fits_comparison _ _
  · exact fits_comparison _ _
  · exact fits_comparison _ _
  · exact fits_comparison _ _
  · trivial
  · trivial
  · trivial
  · trivial
  · trivial
  · trivial
  · rfl
  · rfl
  · split
    · exact List.prefix_append ['/', '*'] _
    · rfl
  · split
    · trivial
    · rfl
  · split
    · trivial
    · split
      · rename_i hname
        exact fits_identLike hname
      · rfl
  · split
    · rename_i hname
      exact fits_identLike hname
    · rfl

/-- A name is read as one, unless it is the beginning of the mark that closes an HTML comment. -/
theorem readToken_of_atName (h : atName (c :: cs) = true) (hc : isNameChar c = true)
    (hmark : ¬ ['-', '>'] <+: cs) : readToken c cs = identLike c cs := by
  by_cases hminus : c = '-'
  · subst hminus
    have hnumber : startsNumber '-' cs = false := by
      cases cs with
      | nil => rfl
      | cons d cs =>
        have hd : isNameStart d || d == '-' || d == '\\' := h
        have hdigit : d.isDigit = false := by
          rw [Bool.or_eq_true, Bool.or_eq_true, beq_iff_eq, beq_iff_eq] at hd
          obtain (hd | rfl) | rfl := hd
          · exact isDigit_of_isNameStart hd
          · rfl
          · rfl
        have hpoint : d ≠ '.' := by
          rintro rfl
          exact absurd hd (by decide)
        simp [startsNumber, atDigit, atFraction, hdigit, hpoint]
    -- The closing mark is looked for before a name.
    unfold readToken
    rw [if_neg (by decide), if_neg (by decide), if_neg (by simp [hnumber])]
    split <;> try contradiction
    split
    · exact absurd (List.prefix_append ['-', '>'] _) hmark
    · rw [if_pos h]
  · have hslash : c ≠ '\\' := by
      rintro rfl
      exact absurd hc (by decide)
    have hstart := isNameStart_of_atName h hminus hslash
    -- No character with a meaning of its own can begin a name.
    have hne {x : Char} (hx : isNameStart x = false) : c ≠ x := by
      rintro rfl
      rw [hx] at hstart
      cases hstart
    have hblank : isAsciiBlank c = false := by
      simp [isAsciiBlank, hne (x := ' ') rfl, hne (x := '\t') rfl, hne (x := '\n') rfl,
        hne (x := '\x0c') rfl, hne (x := '\r') rfl]
    have hquote : (c == '"' || c == '\'') = false := by
      simp [hne (x := '"') rfl, hne (x := '\'') rfl]
    have hnumber : startsNumber c cs = false := by
      simp [startsNumber, isDigit_of_isNameStart hstart, hne (x := '.') rfl, hne (x := '+') rfl,
        hminus]
    unfold readToken
    rw [if_neg (by simp [hblank]), if_neg (by simp [hquote]), if_neg (by simp [hnumber])]
    split <;> try exact absurd hstart (by decide)
    rw [if_pos h]

/-- Each token of a text fits what it was read from. -/
theorem fits_of_readTokens {before after : List Token} {t : Token}
    (h : readTokens cs = before ++ t :: after) :
    t.kind.Fits t.source (after.flatMap Token.source) := by
  induction before generalizing cs with
  | nil =>
    cases cs with
    | nil =>
      rw [readTokens] at h
      cases h
    | cons c cs =>
      rw [readTokens_cons, List.nil_append, List.cons.injEq] at h
      obtain ⟨rfl, rfl⟩ := h
      rw [flatMap_source_readTokens]
      exact fits_readToken c cs
  | cons u before ih =>
    cases cs with
    | nil =>
      rw [readTokens] at h
      cases h
    | cons c cs =>
      rw [readTokens_cons, List.cons_append, List.cons.injEq] at h
      exact ih h.2

end EmailMarkup.Css
