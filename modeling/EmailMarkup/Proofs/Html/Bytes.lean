import EmailMarkup.Html.Piece
import EmailMarkup.Proofs.ByteOffset

/-!
# Scanning the bytes of a text

A text can be scanned byte by byte instead of character by character, if all that is asked of a byte
is which character of ASCII it is. The bytes of the other characters are none of these, so a kind of
characters that takes in all others or none (`ByAscii`) is a kind of bytes as well
(`ByAscii.byte`), and scanning stops at the first byte of a character (`skipBytes_offsetOf`).
-/

set_option autoImplicit false

namespace EmailMarkup.Html.Offset

open EmailMarkup.Text
open String (utf8Len)

variable {c : Char} {rest : List Char} {p : Char → Bool}

/-! ### Bytes -/

/-- The bytes of a text. -/
def bytesOf (cs : List Char) : List UInt8 :=
  cs.flatMap String.utf8EncodeChar

section
variable (input : List Char)

/-- The byte at an offset. It is taken for the character of that number, so that the bytes of wide
characters count as characters outside ASCII. -/
def byteAt? (i : Nat) : Option Char :=
  ((bytesOf input)[i]?).map Char.ofUInt8

/-- The offset of the first byte from `i` on that is not of a kind, or of the end of the text. -/
def skipBytes (p : Char → Bool) (i : Nat) : Nat :=
  i + (((bytesOf input).drop i).takeWhile fun b => p (Char.ofUInt8 b)).length

/-- The bytes from an offset on, if it is within the text. -/
def bytesFrom? (i : Nat) : Option (List UInt8) :=
  if i ≤ (bytesOf input).length then some ((bytesOf input).drop i) else none

end

/-! ### The bytes of a character -/

/-- A kind of characters that takes in all characters outside ASCII or none of them. -/
def ByAscii (p : Char → Bool) : Prop :=
  ∃ v, ∀ c : Char, 128 ≤ c.toNat → p c = v

theorem toNat_ofUInt8 (b : UInt8) : (Char.ofUInt8 b).toNat = b.toNat :=
  UInt8.toNat_toUInt32 b

/-- A character of ASCII is one byte, its number. -/
theorem utf8EncodeChar_of_lt (h : c.toNat < 128) :
    ∃ b, String.utf8EncodeChar c = [b] ∧ Char.ofUInt8 b = c := by
  refine ⟨UInt8.ofNat c.toNat, ?_, ?_⟩
  · have hle : c.val.toNat ≤ 127 := by
      change c.toNat ≤ 127
      omega
    simp only [String.utf8EncodeChar, if_pos hle]
    rfl
  · apply Char.toNat_inj.mp
    exact (toNat_ofUInt8 _).trans (UInt8.toNat_ofNat'.trans (Nat.mod_eq_of_lt (by omega)))

theorem utf8Size_of_lt (h : c.toNat < 128) : c.utf8Size = 1 := by
  obtain ⟨b, hb, -⟩ := utf8EncodeChar_of_lt h
  rw [← String.length_utf8EncodeChar, hb, List.length_singleton]

/-- The bytes of any other character are no characters of ASCII. -/
theorem le_of_mem_utf8EncodeChar (h : 128 ≤ c.toNat) {b : UInt8}
    (hb : b ∈ String.utf8EncodeChar c) : 128 ≤ (Char.ofUInt8 b).toNat := by
  have hwide : ¬ c.val.toNat ≤ 127 := by
    change ¬ c.toNat ≤ 127
    omega
  have hmax : c.val.toNat < 0x110000 := by
    rcases c.valid with h | h
    · omega
    · exact h.2
  rw [toNat_ofUInt8]
  simp only [String.utf8EncodeChar, if_neg hwide] at hb
  split at hb
  · simp at hb
    rcases hb with rfl | rfl <;> simp <;> omega
  · split at hb
    · simp at hb
      rcases hb with rfl | rfl | rfl <;> simp <;> omega
    · simp at hb
      rcases hb with rfl | rfl | rfl | rfl <;> simp <;> omega

/-- The bytes of a character are of its kind. -/
theorem ByAscii.byte (hp : ByAscii p) {b : UInt8} (hb : b ∈ String.utf8EncodeChar c) :
    p (Char.ofUInt8 b) = p c := by
  by_cases hc : c.toNat < 128
  · obtain ⟨d, hd, heq⟩ := utf8EncodeChar_of_lt hc
    rw [hd, List.mem_singleton] at hb
    rw [hb, heq]
  · obtain ⟨v, hv⟩ := hp
    have hwide : 128 ≤ c.toNat := Nat.le_of_not_lt hc
    rw [hv c hwide, hv _ (le_of_mem_utf8EncodeChar hwide hb)]

/-- A class that holds all or no characters beyond ASCII can be tested on the first byte. -/
theorem ByAscii.firstByte (hp : ByAscii p) (c : Char) :
    ∃ b bytes, String.utf8EncodeChar c = b :: bytes ∧ p (Char.ofUInt8 b) = p c := by
  obtain ⟨b, bytes, hbytes⟩ := List.exists_cons_of_ne_nil String.utf8EncodeChar_ne_nil
  exact ⟨b, bytes, hbytes, hp.byte (hbytes ▸ List.mem_cons_self)⟩

/-! ### Kinds of characters -/

theorem byAscii_beq {x : Char} (hx : x.toNat < 128) : ByAscii (· == x) :=
  ⟨false, fun c hc => beq_eq_false_iff_ne.mpr fun heq => by
    rw [heq] at hc
    omega⟩

theorem ByAscii.or {p q : Char → Bool} (hp : ByAscii p) (hq : ByAscii q) :
    ByAscii fun c => p c || q c := by
  obtain ⟨v, hv⟩ := hp
  obtain ⟨w, hw⟩ := hq
  exact ⟨v || w, fun c hc => congrArg₂ Bool.or (hv c hc) (hw c hc)⟩

theorem ByAscii.not {p : Char → Bool} (hp : ByAscii p) : ByAscii fun c => !p c := by
  obtain ⟨v, hv⟩ := hp
  exact ⟨!v, fun c hc => congrArg Bool.not (hv c hc)⟩

theorem byAscii_blank : ByAscii isAsciiBlank :=
  ((((byAscii_beq (by decide)).or (byAscii_beq (by decide))).or (byAscii_beq (by decide))).or
    (byAscii_beq (by decide))).or (byAscii_beq (by decide))

theorem byAscii_tagName : ByAscii isTagNameChar :=
  ((byAscii_blank.or (byAscii_beq (by decide))).or (byAscii_beq (by decide))).not

theorem byAscii_attributeName : ByAscii isAttributeNameChar :=
  (((byAscii_blank.or (byAscii_beq (by decide))).or (byAscii_beq (by decide))).or
    (byAscii_beq (by decide))).not

theorem byAscii_unquoted : ByAscii isUnquotedChar :=
  (byAscii_blank.or (byAscii_beq (by decide))).not

/-! ### Offsets of ends of the text -/

theorem bytesOf_append (cs ds : List Char) : bytesOf (cs ++ ds) = bytesOf cs ++ bytesOf ds :=
  List.flatMap_append

theorem length_bytesOf (cs : List Char) : (bytesOf cs).length = utf8Len cs := by
  induction cs with
  | nil => rfl
  | cons c cs ih =>
    rw [bytesOf, List.flatMap_cons, List.length_append, String.length_utf8EncodeChar,
      String.utf8Len_cons, ← ih, bytesOf, Nat.add_comm]

/-- Taking bytes of such a class takes whole characters. -/
theorem takeWhile_bytesOf (hp : ByAscii p) (cs : List Char) :
    ((bytesOf cs).takeWhile fun b => p (Char.ofUInt8 b)) = bytesOf (cs.takeWhile p) := by
  induction cs with
  | nil => rfl
  | cons c cs ih =>
    show (String.utf8EncodeChar c ++ bytesOf cs).takeWhile _ = _
    cases hc : p c with
    | true =>
      rw [List.takeWhile_append_of_pos fun b hb => (hp.byte hb).trans hc, ih,
        List.takeWhile_cons_of_pos hc]
      rfl
    | false =>
      obtain ⟨b, bytes, hbytes, hb⟩ := hp.firstByte c
      rw [hbytes, List.cons_append, List.takeWhile_cons_of_neg (by simp [hb, hc]),
        List.takeWhile_cons_of_neg (by simp [hc])]
      rfl

section
variable {input : List Char}

/-- The bytes from where an end of the text begins are its bytes. -/
theorem drop_bytesOf (h : rest <:+ input) :
    (bytesOf input).drop (offsetOf input rest) = bytesOf rest := by
  obtain ⟨front, rfl⟩ := h
  have hlength : offsetOf (front ++ rest) rest = (bytesOf front).length := by
    rw [length_bytesOf, offsetOf, String.utf8Len_append, Nat.add_sub_cancel]
  rw [hlength, bytesOf_append, List.drop_left]

/-- Skipping bytes of such a class never ends inside a character. -/
theorem skipBytes_offsetOf (hp : ByAscii p) (h : rest <:+ input) :
    skipBytes input p (offsetOf input rest) = offsetOf input (rest.dropWhile p) := by
  have happ := List.takeWhile_append_dropWhile (p := p) (l := rest)
  rw [skipBytes, drop_bytesOf h, takeWhile_bytesOf hp, length_bytesOf]
  nth_rewrite 1 [← happ]
  exact offsetOf_append (by rwa [happ])

/-- A character of ASCII is found at an offset if the end of the text there begins with it. -/
theorem byteAt?_offsetOf {x : Char} (hx : x.toNat < 128) (h : rest <:+ input) :
    byteAt? input (offsetOf input rest) = some x ↔ rest.head? = some x := by
  have hbyte : (bytesOf input)[offsetOf input rest]? = (bytesOf rest).head? := by
    rw [← drop_bytesOf h, List.head?_drop]
  rw [byteAt?, hbyte]
  cases rest with
  | nil => simp [bytesOf]
  | cons c cs =>
    obtain ⟨b, bytes, hbytes, hb⟩ := (byAscii_beq hx).firstByte c
    rw [bytesOf, List.flatMap_cons, hbytes, List.cons_append, List.head?_cons, Option.map_some,
      List.head?_cons, Option.some.injEq, Option.some.injEq, ← beq_iff_eq, hb, beq_iff_eq]

/-- The piece before the first character that is not of a kind is cut out of the text. -/
theorem between?_takeWhile (p : Char → Bool) (h : rest <:+ input) :
    between? input (offsetOf input rest) (offsetOf input (rest.dropWhile p)) =
      some (rest.takeWhile p) := by
  have happ := List.takeWhile_append_dropWhile (p := p) (l := rest)
  nth_rewrite 1 [← happ]
  exact between?_offsetOf (by rwa [happ])

/-- One byte behind where an end of a text begins that has a first character of ASCII. -/
theorem offsetOf_succ (hc : c.toNat < 128) (h : c :: rest <:+ input) :
    offsetOf input (c :: rest) + 1 = offsetOf input rest := by
  rw [← offsetOf_cons h, utf8Size_of_lt hc]

end

end EmailMarkup.Html.Offset
