import EmailMarkup.Proofs.Html.Entity

/-!
# Escaping and decoding running text

Escaped text is a normal form: it has no angle bracket, each of its ampersands begins a reference
(`startsReference_escapeTextChars`), and texts in that form may be put side by side.

Escaping also leaves what a text decodes to, with one exception. The decoder reads the number of a
reference with a reader of numerals, which takes a plus sign, while `isReferenceName` asks for
digits. So the ampersand of `&#+65;` is escaped although it would have been decoded
(`decodeName?_cases`). Each such reference makes the result longer and nothing makes it shorter
(`decoding_escaped`), so one of them is enough to tell the two apart.
-/

set_option autoImplicit false

namespace EmailMarkup.Html

open EmailMarkup.Text

variable {cs : List Char} {c : Char}

/-! ### Ampersands -/

section

variable {P : List Char → Prop}

/-- What follows an ampersand of a text satisfies `P`, whichever ampersand it is. -/
def AtAmpersands (P : List Char → Prop) (cs : List Char) : Prop :=
  ∀ after, '&' :: after <:+ cs → P after

theorem atAmpersands_cons : AtAmpersands P (c :: cs) ↔ (c = '&' → P cs) ∧ AtAmpersands P cs := by
  simp only [AtAmpersands, List.suffix_cons_iff]
  grind

theorem atAmpersands_append {front : List Char} (h : '&' ∉ front) (rest : List Char) :
    AtAmpersands P (front ++ rest) ↔ AtAmpersands P rest := by
  induction front with
  | nil => rfl
  | cons c front ih =>
    rw [List.mem_cons, not_or] at h
    rw [List.cons_append, atAmpersands_cons, ih h.2]
    simp [Ne.symm h.1]

end

/-- Every ampersand of escaped text begins a reference. -/
theorem startsReference_escapeTextChars (cs : List Char) :
    AtAmpersands (startsReference · = true) (escapeTextChars cs) := by
  fun_induction escapeTextChars cs with
  | case1 => simp [AtAmpersands]
  | case2 cs ih | case3 cs ih | case5 cs _ ih =>
    simp [atAmpersands_cons, ih]
    rfl
  | case4 cs hstarts ih =>
    refine atAmpersands_cons.mpr ⟨fun _ => ?_, ih⟩
    obtain ⟨name, rest, rfl, hform, hlen⟩ := startsReference_iff.mp hstarts
    rw [escapeTextChars_name_append rest hform]
    exact startsReference_iff.mpr ⟨name, _, rfl, hform, hlen⟩
  | case6 c cs _ _ hamp ih => exact atAmpersands_cons.mpr ⟨fun hc => absurd hc hamp, ih⟩

/-- Escaped text has no bracket and only ampersands that begin references, and escaped texts side by
side are escaped. -/
theorem escapeText_stable :
    (∀ s : String, '<' ∉ (escapeText s).toList ∧ '>' ∉ (escapeText s).toList ∧
      AtAmpersands (startsReference · = true) (escapeText s).toList) ∧
    ∀ s t : String, escapeText (escapeText s ++ escapeText t) = escapeText s ++ escapeText t := by
  refine ⟨fun s => ?_, fun s t => by rw [escapeText_append, escapeText_escapeText]⟩
  rw [escapeText, String.toList_ofList]
  obtain ⟨hopen, hclose⟩ := bracket_notMem_escapeTextChars s.toList
  exact ⟨hopen, hclose, startsReference_escapeTextChars s.toList⟩

/-! ### Names that are decoded -/

theorem forall_of_numeral? {base n m : Nat} {digit? : Char → Option Nat}
    (h : numeral? base digit? n cs = some m) : ∀ c ∈ cs, (digit? c).isSome = true := by
  induction cs generalizing n with
  | nil => simp
  | cons c cs ih =>
    obtain ⟨d, hd, hrest⟩ := Option.bind_eq_some_iff.mp h
    exact List.forall_mem_cons.mpr ⟨by simp [hd], ih hrest⟩

/-- A number is written with digits alone, or with a plus sign and digits. -/
theorem naturalIn?_cases {base limit n : Nat} {digit? : Char → Option Nat}
    (h : naturalIn? base digit? limit cs = some n) :
    (cs ≠ [] ∧ ∀ d ∈ cs, (digit? d).isSome = true) ∨
      '+' ∈ cs ∧ ∀ d ∈ cs, d = '+' ∨ (digit? d).isSome = true := by
  unfold naturalIn? at h
  simp only [Option.ite_none_left_eq_some, Option.filter_eq_some_iff] at h
  obtain ⟨hne, hread, -⟩ := h
  have hdigits := forall_of_numeral? hread
  split at hdigits
  · exact .inr ⟨List.mem_cons_self, by simpa using fun d hd => .inr (hdigits d hd)⟩
  · exact .inl ⟨by simpa using hne, hdigits⟩

/-- A name that is decoded has the form of a reference, unless there is a plus sign in it. -/
theorem decodeName?_cases {name : List Char} (h : decodeName? name = some c) :
    '&' ∉ name ∧ (isReferenceName name = true ∨ '+' ∈ name) := by
  -- The three kinds of numbers differ in what stands before the digits and in the digits.
  have hnumber {base n : Nat} {digit? : Char → Option Nat} (mark : List Char) {digits : List Char}
      (hmark : '&' ∉ mark) (hdigit : digit? '&' = none)
      (hn : naturalIn? base digit? (Nat.pow 2 32) digits = some n)
      (hform : digits ≠ [] → (∀ d ∈ digits, (digit? d).isSome = true) →
        isReferenceName (mark ++ digits) = true) :
      '&' ∉ mark ++ digits ∧ (isReferenceName (mark ++ digits) = true ∨ '+' ∈ mark ++ digits) := by
    rcases naturalIn?_cases hn with ⟨hne, hall⟩ | ⟨hplus, hall⟩
    · exact ⟨by grind, .inl (hform hne hall)⟩
    · exact ⟨by grind, .inr (List.mem_append_right _ hplus)⟩
  unfold decodeName? at h
  split_ifs at h
  -- The five names.
  iterate 5 subst name; decide
  split at h
  · obtain ⟨n, hn, -⟩ := Option.bind_eq_some_iff.mp h
    exact hnumber ['#', 'x'] (by decide) rfl hn fun hne hall => by
      simpa [isReferenceName, hne] using hall
  · obtain ⟨n, hn, -⟩ := Option.bind_eq_some_iff.mp h
    exact hnumber ['#', 'X'] (by decide) rfl hn fun hne hall => by
      simpa [isReferenceName, hne] using hall
  · rename_i digits hx hX _ _ _ _ _
    obtain ⟨n, hn, -⟩ := Option.bind_eq_some_iff.mp h
    refine hnumber ['#'] (by decide) rfl hn fun hne hall => ?_
    cases digits with
    | nil => exact absurd rfl hne
    | cons d digits =>
      have hd : d ≠ 'x' ∧ d ≠ 'X' := ⟨fun he => hx _ (by rw [he]), fun he => hX _ (by rw [he])⟩
      simpa [isReferenceName, hd, digitValue?] using hall
  · cases h

/-! ### Decoding escaped text -/

/-- Decoding escaped text passes over every character, unless a reference begins there that is
recognised and decoded. -/
theorem unescapeChars_escapeTextChars_cons
    (h : c = '&' → startsReference cs = true → decodeReference? cs = none) :
    unescapeChars (escapeTextChars (c :: cs)) = c :: unescapeChars (escapeTextChars cs) := by
  generalize htext : c :: cs = text
  fun_cases escapeTextChars text
  all_goals cases htext
  · exact unescapeChars_reference "lt".toList _ (by decide) (by decide) rfl
  · exact unescapeChars_reference "gt".toList _ (by decide) (by decide) rfl
  · rename_i hstarts
    obtain ⟨name, rest, rfl, hform, hlen⟩ := startsReference_iff.mp hstarts
    have hname : ';' ∉ name := notMem_of_isReferenceName hform (by decide)
    have hnone := h rfl hstarts
    rw [decodeReference?_append rest hname hlen, Option.map_eq_none_iff] at hnone
    -- The name stays as it is, so it is not decoded behind the escaped text either.
    rw [escapeTextChars_name_append rest hform]
    exact unescapeChars_ampersand (by rw [decodeReference?_append _ hname hlen, hnone]; rfl)
  · exact unescapeChars_reference "amp".toList _ (by decide) (by decide) rfl
  · rename_i hamp
    exact unescapeChars_cons hamp _

theorem unescapeChars_escapeTextChars_append {front : List Char} (h : '&' ∉ front)
    (rest : List Char) :
    unescapeChars (escapeTextChars (front ++ rest)) =
      front ++ unescapeChars (escapeTextChars rest) := by
  induction front with
  | nil => rfl
  | cons c front ih =>
    rw [List.mem_cons, not_or] at h
    rw [List.cons_append, unescapeChars_escapeTextChars_cons fun hc => absurd hc.symm h.1, ih h.2,
      List.cons_append]

/-- The ampersand just before a text begins a reference that is decoded and has a plus sign. -/
def StartsSigned (cs : List Char) : Prop :=
  ∃ name rest, reference? cs = some (name, rest) ∧ '+' ∈ name ∧ (decodeName? name).isSome = true

/-- Escaping never shortens what a text decodes to, and leaves it exactly if the text holds no
signed reference. -/
theorem decoding_escaped (cs : List Char) :
    (unescapeChars cs).length ≤ (unescapeChars (escapeTextChars cs)).length ∧
      (unescapeChars (escapeTextChars cs) = unescapeChars cs ↔
        AtAmpersands (¬StartsSigned ·) cs) := by
  fun_induction unescapeChars cs with
  | case1 => simp [AtAmpersands, escapeTextChars, unescapeChars]
  | case2 cs c next hdec _ ih =>
    obtain ⟨⟨name, rest⟩, href, hname⟩ := Option.bind_eq_some_iff.mp hdec
    obtain ⟨d, hd, heq⟩ := Option.map_eq_some_iff.mp hname
    cases heq
    obtain ⟨rfl, hsemi, hlen⟩ := eq_append_of_reference? href
    obtain ⟨hamp, hform⟩ := decodeName?_cases hd
    have hsigned : StartsSigned (name ++ ';' :: next) ↔ '+' ∈ name := by
      simp [StartsSigned, href, hd]
    rw [atAmpersands_cons, hsigned, atAmpersands_append hamp, atAmpersands_cons]
    by_cases hplus : '+' ∈ name
    · -- The ampersand is escaped, and all of the reference is kept for the one character.
      have hnot : ¬startsReference (name ++ ';' :: next) = true := fun hstarts => by
        rw [startsReference, href] at hstarts
        exact notMem_of_isReferenceName hstarts (by decide) hplus
      rw [unescapeChars_escapeTextChars_cons fun _ hstarts => absurd hstarts hnot,
        unescapeChars_escapeTextChars_append hamp,
        unescapeChars_escapeTextChars_cons fun hc => absurd hc (by decide)]
      have hlonger : (c :: unescapeChars next).length <
          ('&' :: (name ++ ';' :: unescapeChars (escapeTextChars next))).length := by
        simp only [List.length_cons, List.length_append]
        omega
      exact ⟨hlonger.le, fun heq => absurd (heq ▸ hlonger) (lt_irrefl _),
        fun h => absurd hplus (h.1 rfl)⟩
    · rw [escapeTextChars_reference next (hform.resolve_right hplus) hlen,
        unescapeChars_reference name _ hsemi hlen hd]
      simpa [hplus] using ih
  | case3 cs hnone ih =>
    have hsigned : ¬StartsSigned cs := by
      rintro ⟨name, rest, href, -, hdecoded⟩
      obtain ⟨c, hc⟩ := Option.isSome_iff_exists.mp hdecoded
      simp [decodeReference?, href, hc] at hnone
    rw [atAmpersands_cons, unescapeChars_escapeTextChars_cons fun _ _ => hnone]
    simpa [hsigned] using ih
  | case4 c cs hamp ih =>
    rw [atAmpersands_cons, unescapeChars_escapeTextChars_cons fun hc => absurd hc hamp]
    simpa [show c ≠ '&' from hamp] using ih

/-- Escaping leaves what a text decodes to exactly if the text holds no signed reference. -/
theorem unescape_escapeText_iff (s : String) :
    unescape (escapeText s) = unescape s ↔ AtAmpersands (¬StartsSigned ·) s.toList := by
  rw [unescape, unescape, escapeText, String.toList_ofList, String.ofList_inj]
  exact (decoding_escaped s.toList).2

/-- The plus sign is taken for a part of the number. -/
theorem unescape_escapeText_signed :
    unescape (escapeText "&#+65;") ≠ unescape "&#+65;" := by
  decide +kernel

end EmailMarkup.Html
