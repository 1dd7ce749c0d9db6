import EmailMarkup.Text.Search
import EmailMarkup.Text.Visible

/-!
# Texts in double quotes

A text for a reader of reports: in double quotes, with a backslash before quotes and backslashes.
Characters that are not seen are spelled out, so that a quoted text stands on one line and shows all
that is in it.
-/

namespace EmailMarkup.Text

/-- A character inside double quotes. -/
def quotedChar (c : Char) : List Char :=
  match c with
  | '"' => ['\\', '"']
  | '\\' => ['\\', '\\']
  | '\x00' => ['\\', '0']
  | '\t' => ['\\', 't']
  | '\n' => ['\\', 'n']
  | '\r' => ['\\', 'r']
  | c =>
    -- Any other character that is not seen has no letter of its own and is named by its number.
    if isVisible c then [c] else "\\u\x7b".toList ++ Nat.toDigits 16 c.toNat ++ ['\x7d']

/-- A text in double quotes. -/
def quoted (s : String) : String :=
  "\"" ++ replaceEach quotedChar s ++ "\""

end EmailMarkup.Text
