import EmailMarkup.Text.Ascii
import EmailMarkup.Text.CodePoint

/-!
# Character references

Escaping for the two places where a text can stand in HTML, and decoding. A value in double quotes
has its quotes, angle brackets and ampersands replaced. In running text an ampersand that already
begins a reference is left alone, so that escaping twice is escaping once.

A reference is an ampersand, a name and a semicolon, where the name takes at most nine bytes in
UTF-8. The decoder knows five names and the numeric forms.
-/

namespace EmailMarkup.Html

open EmailMarkup.Text

/-- How a character is written inside a value in double quotes. -/
def attributeChar (c : Char) : List Char :=
  match c with
  | '&' => "&amp;".toList
  | '"' => "&quot;".toList
  | '<' => "&lt;".toList
  | '>' => "&gt;".toList
  | _ => [c]

/-- Escapes a text for a value in double quotes. -/
def escapeAttributeChars (cs : List Char) : List Char :=
  cs.flatMap attributeChar

/-- Escapes a text for a value in double quotes. -/
def escapeAttribute (s : String) : String :=
  String.ofList (escapeAttributeChars s.toList)

/-- The number of bytes a text takes in UTF-8. -/
def byteLength : List Char → Nat
  | [] => 0
  | c :: cs => c.utf8Size + byteLength cs

/-- The longest name of a reference, in bytes. -/
def longestReference : Nat := 9

/-- The name of the reference whose ampersand stands just before a text, and what follows its
semicolon. -/
def reference? (cs : List Char) : Option (List Char × List Char) :=
  let name := cs.takeWhile (· != ';')
  match cs.dropWhile (· != ';') with
  | _ :: rest => if byteLength name ≤ longestReference then some (name, rest) else none
  | [] => none

/-- Whether a name has the form of a reference: a hexadecimal or decimal number after `#`, or a
letter followed by letters and digits. -/
def isReferenceName (name : List Char) : Bool :=
  match name with
  -- A bare `#` falls through to the next case, where it is no letter.
  | '#' :: x :: digits =>
    if x == 'x' || x == 'X' then !digits.isEmpty && digits.all fun c => (hexValue? c).isSome
    -- There is no upper limit here: a number too large for a character still has the form.
    else (x :: digits).all Char.isDigit
  | c :: cs => c.isAlpha && cs.all Char.isAlphanum
  | [] => false

/-- Whether the ampersand just before a text begins a reference. -/
def startsReference (cs : List Char) : Bool :=
  match reference? cs with
  | some (name, _) => isReferenceName name
  | none => false

/-- Escapes running text. -/
def escapeTextChars : List Char → List Char
  | [] => []
  | '<' :: cs => "&lt;".toList ++ escapeTextChars cs
  | '>' :: cs => "&gt;".toList ++ escapeTextChars cs
  | '&' :: cs =>
    if startsReference cs then '&' :: escapeTextChars cs
    else "&amp;".toList ++ escapeTextChars cs
  | c :: cs => c :: escapeTextChars cs

/-- Escapes running text. -/
def escapeText (s : String) : String :=
  String.ofList (escapeTextChars s.toList)

/-- The character a name stands for: one of the five named ones, or a number. -/
def decodeName? (name : List Char) : Option Char :=
  if name = "amp".toList then some '&'
  else if name = "lt".toList then some '<'
  else if name = "gt".toList then some '>'
  else if name = "quot".toList then some '"'
  else if name = "apos".toList then some '\''
  else match name with
    | '#' :: 'x' :: digits => (hexadecimal? (Nat.pow 2 32) digits).bind charOfCode?
    | '#' :: 'X' :: digits => (hexadecimal? (Nat.pow 2 32) digits).bind charOfCode?
    -- A numeral may begin with a plus sign, and its value has to be that of a character.
    | '#' :: digits => (natural? (Nat.pow 2 32) digits).bind charOfCode?
    | _ => none

/-- The character that the reference just after an ampersand stands for, and what follows it. -/
def decodeReference? (cs : List Char) : Option (Char × List Char) :=
  (reference? cs).bind fun (name, rest) => (decodeName? name).map fun c => (c, rest)

/-- What follows a reference is shorter than the text it stands in. -/
theorem length_of_reference? {cs name rest : List Char} (h : reference? cs = some (name, rest)) :
    rest.length < cs.length := by
  unfold reference? at h
  simp only at h
  have hdrop := (List.dropWhile_sublist (l := cs) (· != ';')).length_le
  split at h
  · rename_i heq
    split at h
    · simp only [Option.some.injEq, Prod.mk.injEq] at h
      obtain ⟨-, rfl⟩ := h
      rw [heq] at hdrop
      simp only [List.length_cons] at hdrop
      omega
    · simp at h
  · simp at h

/-- What follows a decoded reference is shorter than the text it stands in. -/
theorem length_of_decodeReference? {cs rest : List Char} {c : Char}
    (h : decodeReference? cs = some (c, rest)) : rest.length < cs.length := by
  obtain ⟨⟨name, rest'⟩, href, hname⟩ := Option.bind_eq_some_iff.mp h
  obtain ⟨c', -, hc⟩ := Option.map_eq_some_iff.mp hname
  simp only [Prod.mk.injEq] at hc
  obtain ⟨-, rfl⟩ := hc
  exact length_of_reference? href

/-- Decodes the references of a text. What is no reference is kept as written. -/
def unescapeChars (cs : List Char) : List Char :=
  match cs with
  | [] => []
  | '&' :: rest =>
    match h : decodeReference? rest with
    | some (c, next) =>
      have := length_of_decodeReference? h
      -- What was decoded is not looked at again, so `&amp;lt;` is decoded once.
      c :: unescapeChars next
    | none => '&' :: unescapeChars rest
  | c :: rest => c :: unescapeChars rest
termination_by cs.length

/-- Decodes the references of a text. -/
def unescape (s : String) : String :=
  String.ofList (unescapeChars s.toList)

end EmailMarkup.Html
