import EmailMarkup.Html.Entity
import EmailMarkup.Proofs.Text

/-!
# Laws of character references

A value that is escaped for double quotes decodes to itself (`unescapeChars_escapeAttributeChars`),
because escaping leaves no ampersand that does not begin one of the five named references. Running
text is different: an ampersand that already begins a reference stays, so escaping is not undone by
decoding, but it settles. `escapeTextChars_append` says that escaped text in front of any other text
is passed over as it stands, wherever the two meet; escaping twice is escaping once is its case with
nothing behind.

Both rest on `reference?_append`: the first semicolon decides what the name of a reference is, so
what comes after it never matters.
-/

set_option autoImplicit false

namespace EmailMarkup.Html

open EmailMarkup.Text

variable {name cs : List Char} {c : Char}

/-! ### References -/

/-- A short name without a semicolon, followed by one, is the name of a reference. -/
theorem reference?_append (rest : List Char) (hname : ';' ∉ name)
    (hlen : byteLength name ≤ longestReference) :
    reference? (name ++ ';' :: rest) = some (name, rest) := by
  unfold reference?
  rw [takeWhile_bne_append hname, dropWhile_bne_append hname]
  exact if_pos hlen

/-- Every reference is a short name without a semicolon, followed by one. -/
theorem eq_append_of_reference? {rest : List Char} (h : reference? cs = some (name, rest)) :
    cs = name ++ ';' :: rest ∧ ';' ∉ name ∧ byteLength name ≤ longestReference := by
  unfold reference? at h
  simp only at h
  split at h
  · rename_i hdrop
    split at h
    · rename_i hlen
      cases h
      obtain ⟨hcs, hname⟩ := eq_append_of_dropWhile_bne hdrop
      exact ⟨hcs, hname, hlen⟩
    · cases h
  · cases h

/-- A hexadecimal digit is a letter or a digit. -/
theorem isAlphanum_of_hexValue? (h : (hexValue? c).isSome = true) : c.isAlphanum = true := by
  unfold hexValue? at h
  simp only [Char.le_def, UInt32.le_iff_toNat_le] at h
  split at h
  · rename_i hdigit
    rw [Char.isAlphanum, hdigit, Bool.or_true]
  · have hnat : c.toNat = c.val.toNat := rfl
    have hlower : 'a'.val.toNat = 97 ∧ 'f'.val.toNat = 102 := ⟨rfl, rfl⟩
    have hupper : 'A'.val.toNat = 65 ∧ 'F'.val.toNat = 70 := ⟨rfl, rfl⟩
    rw [isAlphanum_iff]
    split at h
    · omega
    · split at h
      · omega
      · cases h

/-- A name of the form of a reference holds only letters, digits and the number sign. -/
theorem isAlphanum_of_isReferenceName (h : isReferenceName name = true) :
    ∀ c ∈ name, c.isAlphanum = true ∨ c = '#' := by
  intro c hc
  unfold isReferenceName at h
  split at h
  -- After the number sign: digits, or an `x` and hexadecimal digits.
  · rename_i x digits
    rcases List.mem_cons.mp hc with rfl | hc
    · exact Or.inr rfl
    · left
      split at h
      · rename_i hx
        rw [Bool.and_eq_true, List.all_eq_true] at h
        rcases List.mem_cons.mp hc with rfl | hc
        · rw [Bool.or_eq_true, beq_iff_eq, beq_iff_eq] at hx
          rcases hx with rfl | rfl <;> rfl
        · exact isAlphanum_of_hexValue? (h.2 c hc)
      · rw [Char.isAlphanum, List.all_eq_true.mp h c hc, Bool.or_true]
  · left
    rw [Bool.and_eq_true, List.all_eq_true] at h
    rcases List.mem_cons.mp hc with rfl | hc
    · rw [Char.isAlphanum, h.1, Bool.true_or]
    · exact h.2 c hc
  · cases h

/-- No other sign than the number sign stands in a name of the form of a reference. -/
theorem notMem_of_isReferenceName (h : isReferenceName name = true) {x : Char}
    (hx : x.isAlphanum = false ∧ x ≠ '#') : x ∉ name := by
  intro hmem
  rcases isAlphanum_of_isReferenceName h x hmem with halnum | hsign
  · exact Bool.false_ne_true (hx.1.symm.trans halnum)
  · exact hx.2 hsign

/-- An ampersand begins a reference exactly when a short name of the right form and a semicolon
follow it. -/
theorem startsReference_iff :
    startsReference cs = true ↔ ∃ name rest, cs = name ++ ';' :: rest ∧
      isReferenceName name = true ∧ byteLength name ≤ longestReference := by
  unfold startsReference
  constructor
  · intro h
    cases hcs : reference? cs with
    | none => rw [hcs] at h; cases h
    | some found =>
      obtain ⟨name, rest⟩ := found
      rw [hcs] at h
      obtain ⟨hsplit, -, hlen⟩ := eq_append_of_reference? hcs
      exact ⟨name, rest, hsplit, h, hlen⟩
  · rintro ⟨name, rest, rfl, hform, hlen⟩
    rw [reference?_append rest (notMem_of_isReferenceName hform (by decide)) hlen]
    exact hform

/-! ### Values in double quotes -/

/-- Decoding passes over every character but an ampersand. -/
theorem unescapeChars_cons (hc : c ≠ '&') (cs : List Char) :
    unescapeChars (c :: cs) = c :: unescapeChars cs := by
  rw [unescapeChars]
  exact hc

/-- A short name followed by a semicolon is decoded as the name is. -/
theorem decodeReference?_append (rest : List Char) (hname : ';' ∉ name)
    (hlen : byteLength name ≤ longestReference) :
    decodeReference? (name ++ ';' :: rest) = (decodeName? name).map fun c => (c, rest) := by
  rw [decodeReference?, reference?_append rest hname hlen]
  rfl

/-- Decoding passes over an ampersand that begins no reference. -/
theorem unescapeChars_ampersand (h : decodeReference? cs = none) :
    unescapeChars ('&' :: cs) = '&' :: unescapeChars cs := by
  rw [unescapeChars]
  -- The recursion keeps the equation of its match, so it is split and not rewritten.
  split
  · rename_i heq
    rw [h] at heq
    cases heq
  · rfl

/-- Decoding replaces a reference by its character and goes on behind it. -/
theorem unescapeChars_reference (name : List Char) (rest : List Char) (hname : ';' ∉ name)
    (hlen : byteLength name ≤ longestReference) (hdecode : decodeName? name = some c) :
    unescapeChars ('&' :: (name ++ ';' :: rest)) = c :: unescapeChars rest := by
  have hdec := decodeReference?_append rest hname hlen
  rw [hdecode] at hdec
  rw [unescapeChars]
  split
  · rename_i heq
    cases hdec.symm.trans heq
    rfl
  · rename_i heq
    cases hdec.symm.trans heq

/-- Decoding undoes what escaping makes of one character. -/
theorem unescapeChars_attributeChar_append (c : Char) (rest : List Char) :
    unescapeChars (attributeChar c ++ rest) = c :: unescapeChars rest := by
  unfold attributeChar
  split
  · exact unescapeChars_reference "amp".toList rest (by decide) (by decide) rfl
  · exact unescapeChars_reference "quot".toList rest (by decide) (by decide) rfl
  · exact unescapeChars_reference "lt".toList rest (by decide) (by decide) rfl
  · exact unescapeChars_reference "gt".toList rest (by decide) (by decide) rfl
  · rename_i hamp _ _ _
    exact unescapeChars_cons hamp rest

/-- Escaping a value for double quotes is undone by decoding. -/
theorem unescapeChars_escapeAttributeChars (cs : List Char) :
    unescapeChars (escapeAttributeChars cs) = cs := by
  unfold escapeAttributeChars
  induction cs with
  | nil => rw [List.flatMap_nil, unescapeChars]
  | cons c cs ih => rw [List.flatMap_cons, unescapeChars_attributeChar_append, ih]

@[simp]
theorem unescape_escapeAttribute (s : String) : unescape (escapeAttribute s) = s := by
  simp [unescape, escapeAttribute, unescapeChars_escapeAttributeChars]

/-- An escaped value holds no double quote and no angle bracket. -/
theorem notMem_escapeAttribute {x : Char} (hx : x = '"' ∨ x = '<' ∨ x = '>') (s : String) :
    x ∉ (escapeAttribute s).toList := by
  unfold escapeAttribute escapeAttributeChars
  rw [String.toList_ofList, List.mem_flatMap]
  rintro ⟨c, -, hc⟩
  unfold attributeChar at hc
  split at hc
  · rcases hx with rfl | rfl | rfl <;> exact absurd hc (by decide)
  · rcases hx with rfl | rfl | rfl <;> exact absurd hc (by decide)
  · rcases hx with rfl | rfl | rfl <;> exact absurd hc (by decide)
  · rcases hx with rfl | rfl | rfl <;> exact absurd hc (by decide)
  · rename_i hquote hopen hclose
    rw [List.mem_singleton] at hc
    subst hc
    rcases hx with hx | hx | hx
    · exact hquote hx
    · exact hopen hx
    · exact hclose hx

theorem quote_notMem_escapeAttribute (s : String) : '"' ∉ (escapeAttribute s).toList :=
  notMem_escapeAttribute (by decide) s

/-! ### Running text -/

/-- Escaped text holds no angle bracket. -/
theorem bracket_notMem_escapeTextChars (cs : List Char) :
    '<' ∉ escapeTextChars cs ∧ '>' ∉ escapeTextChars cs := by
  fun_induction escapeTextChars cs with
  | case1 => simp
  | case2 cs ih | case3 cs ih | case4 cs _ ih | case5 cs _ ih => simpa using ih
  | case6 c cs hlt hgt _ ih =>
    simp only [List.mem_cons, not_or]
    exact ⟨⟨Ne.symm hlt, ih.1⟩, ⟨Ne.symm hgt, ih.2⟩⟩

theorem bracket_notMem_escapeText (s : String) : '<' ∉ (escapeText s).toList := by
  rw [escapeText, String.toList_ofList]
  exact (bracket_notMem_escapeTextChars s.toList).1

theorem escapeTextChars_ne_nil (h : cs ≠ []) : escapeTextChars cs ≠ [] := by
  fun_cases escapeTextChars cs with
  | case1 => exact absurd rfl h
  | case2 cs | case3 cs | case4 cs | case5 cs | case6 c cs => simp

/-- Text without brackets and ampersands is escaped as it stands, whatever follows. -/
theorem escapeTextChars_plain_append {plain : List Char} (rest : List Char)
    (hplain : ∀ c ∈ plain, c ≠ '<' ∧ c ≠ '>' ∧ c ≠ '&') :
    escapeTextChars (plain ++ rest) = plain ++ escapeTextChars rest := by
  induction plain with
  | nil => rfl
  | cons c plain ih =>
    obtain ⟨hlt, hgt, hamp⟩ := hplain c List.mem_cons_self
    have htail := ih fun d hd => hplain d (List.mem_cons_of_mem c hd)
    rw [List.cons_append, List.cons_append, ← htail]
    rw [escapeTextChars]
    · exact hlt
    · exact hgt
    · exact hamp

/-- The name of a reference, followed by a semicolon, is escaped as it stands. -/
theorem escapeTextChars_name_append (rest : List Char) (hform : isReferenceName name = true) :
    escapeTextChars (name ++ ';' :: rest) = name ++ ';' :: escapeTextChars rest := by
  have hplain : ∀ c ∈ name ++ [';'], c ≠ '<' ∧ c ≠ '>' ∧ c ≠ '&' := by
    intro c hc
    rcases List.mem_append.mp hc with hc | hc
    · refine ⟨?_, ?_, ?_⟩
      all_goals
        rintro rfl
        exact notMem_of_isReferenceName hform (by decide) hc
    · rw [List.mem_singleton] at hc
      subst hc
      decide
  have h := escapeTextChars_plain_append rest hplain
  simpa using h

/-- An ampersand that begins a reference is kept, together with the reference. -/
theorem escapeTextChars_reference (rest : List Char) (hform : isReferenceName name = true)
    (hlen : byteLength name ≤ longestReference) :
    escapeTextChars ('&' :: (name ++ ';' :: rest)) =
      '&' :: (name ++ ';' :: escapeTextChars rest) := by
  have hstarts : startsReference (name ++ ';' :: rest) = true :=
    startsReference_iff.mpr ⟨name, rest, rfl, hform, hlen⟩
  rw [escapeTextChars, if_pos hstarts, escapeTextChars_name_append rest hform]

/-- Escaped text in front of another text is passed over as it stands. -/
theorem escapeTextChars_append (a b : List Char) :
    escapeTextChars (escapeTextChars a ++ b) = escapeTextChars a ++ escapeTextChars b := by
  fun_induction escapeTextChars a with
  | case1 => rfl
  | case2 cs ih =>
    have h := escapeTextChars_reference (escapeTextChars cs ++ b)
      (show isReferenceName "lt".toList = true by decide) (by decide)
    rw [ih] at h
    exact h
  | case3 cs ih =>
    have h := escapeTextChars_reference (escapeTextChars cs ++ b)
      (show isReferenceName "gt".toList = true by decide) (by decide)
    rw [ih] at h
    exact h
  | case4 cs hstarts ih =>
    -- Escaping does not reach into the name, so the ampersand still begins the same reference.
    obtain ⟨name, rest, rfl, hform, hlen⟩ := startsReference_iff.mp hstarts
    rw [escapeTextChars_name_append rest hform] at ih ⊢
    rw [List.append_assoc, List.cons_append, escapeTextChars_name_append _ hform] at ih
    rw [List.cons_append, List.append_assoc, List.cons_append,
      escapeTextChars_reference _ hform hlen, ih]
    simp
  | case5 cs _ ih =>
    have h := escapeTextChars_reference (escapeTextChars cs ++ b)
      (show isReferenceName "amp".toList = true by decide) (by decide)
    rw [ih] at h
    exact h
  | case6 c cs hlt hgt hamp ih =>
    rw [List.cons_append, List.cons_append, ← ih]
    rw [escapeTextChars]
    · exact hlt
    · exact hgt
    · exact hamp

/-- Escaping twice is escaping once. -/
@[simp]
theorem escapeText_escapeText (s : String) : escapeText (escapeText s) = escapeText s := by
  have h := escapeTextChars_append s.toList []
  rw [List.append_nil, escapeTextChars, List.append_nil] at h
  simp [escapeText, h]

theorem escapeText_append (s t : String) :
    escapeText (escapeText s ++ t) = escapeText s ++ escapeText t := by
  rw [← String.toList_inj]
  simp [escapeText, escapeTextChars_append]

end EmailMarkup.Html
