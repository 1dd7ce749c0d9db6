import EmailMarkup.Text.Ascii
import EmailMarkup.Text.CodePoint
import EmailMarkup.Text.Cut

/-!
# CSS tokens

The tokens of a style sheet, each with the source text it covers. The sources of the tokens of a
text, one after the other, are that text, so a value can be taken as a slice of the source. Nothing
is an error: what is not finished at the end of the text ends there, and a string ends before an
unescaped line break.

Names are compared after decoding: an escape stands for the character it names, and a NUL for the
replacement character.
-/

namespace EmailMarkup.Css

open EmailMarkup.Text

/-- The three kinds of brackets. -/
inductive Bracket where
  | round
  | square
  | curly
  deriving DecidableEq, Repr

/-- What a token is. -/
inductive Kind where
  | blank
  | comment
  | ident (name : String)
  /-- A name and the bracket that opens its arguments. -/
  | function (name : String)
  | atKeyword (name : String)
  | hash
  | string
  | url
  | number
  | colon
  | semicolon
  /-- One of the comparisons of attribute selectors, such as `~=`. -/
  | comparison
  /-- A mark that opens or closes an HTML comment. -/
  | htmlMark
  | opening (bracket : Bracket)
  | closing (bracket : Bracket)
  | delim (c : Char)
  deriving DecidableEq, Repr

/-- A token and its source. -/
structure Token where
  kind : Kind
  source : List Char
  deriving DecidableEq, Repr

/-! ### Characters -/

/-- A line break, as it ends a string. -/
def isNewline (c : Char) : Bool :=
  c == '\n' || c == '\r' || c == '\x0c'

/-- A character that a name can begin with: a letter, an underscore, NUL or anything outside
ASCII. -/
def isNameStart (c : Char) : Bool :=
  c.isAlpha || c == '_' || c == '\x00' || 0x80 ≤ c.toNat

/-- A character that a name can go on with. -/
def isNameChar (c : Char) : Bool :=
  isNameStart c || c.isDigit || c == '-'

/-- A digit of a hexadecimal number. -/
def isHexDigit (c : Char) : Bool :=
  (hexValue? c).isSome

/-- Whether a text begins with a line break. -/
def atNewline : List Char → Bool
  | c :: _ => isNewline c
  | [] => false

/-- Whether a text begins with a digit. -/
def atDigit : List Char → Bool
  | c :: _ => c.isDigit
  | [] => false

/-- Whether a text begins with a point and a digit. -/
def atFraction : List Char → Bool
  | '.' :: cs => atDigit cs
  | _ => false

/-- Whether a text begins with a name. -/
def atName : List Char → Bool
  | '-' :: c :: _ => isNameStart c || c == '-' || c == '\\'
  | '\\' :: cs => !atNewline cs
  | c :: _ => isNameStart c
  | [] => false

/-- Whether a number begins with `c`, which `cs` follows. -/
def startsNumber (c : Char) (cs : List Char) : Bool :=
  c.isDigit || (c == '.' && atDigit cs) || ((c == '+' || c == '-') && (atDigit cs || atFraction cs))

/-! ### Scanners -/

/-- Takes at most `n` hexadecimal digits. -/
def hexDigits : Nat → (cs : List Char) → Cut cs
  | 0, cs => .nothing cs
  | _, [] => .nothing []
  | n + 1, c :: cs => if isHexDigit c then .cons c (hexDigits n cs) else .nothing (c :: cs)

/-- Takes one blank, if there is one. A carriage return with its line feed counts as one. -/
def oneBlank (cs : List Char) : Cut cs :=
  match cs with
  | '\r' :: '\n' :: rest => .cons '\r' (.cons '\n' (.nothing rest))
  | c :: rest => if isAsciiBlank c then .cons c (.nothing rest) else .nothing (c :: rest)
  | [] => .nothing []

/-- Takes what follows the backslash of an escape: up to six hexadecimal digits and a blank that
ends them, or any one character. -/
def escape (cs : List Char) : Cut cs :=
  match cs with
  | [] => .nothing []
  | c :: rest =>
    -- The blank is part of the escape, so that a digit can follow it.
    if isHexDigit c then (hexDigits 6 (c :: rest)).andThen (oneBlank _)
    else .cons c (.nothing rest)

/-- Takes the characters and escapes of a name. -/
def name (cs : List Char) : Cut cs :=
  match cs with
  | [] => .nothing []
  | c :: rest =>
    if c == '\\' then
      -- A backslash at the end of a line escapes nothing and is no part of a name.
      if atNewline rest then .nothing (c :: rest)
      else
        have : (escape rest).rest.length < (c :: rest).length :=
          Nat.lt_succ_of_le (escape rest).length_rest_le
        .cons c ((escape rest).andThen (name (escape rest).rest))
    else if isNameChar c then .cons c (name rest)
    else .nothing (c :: rest)
termination_by cs.length
decreasing_by all_goals (simp only [List.length_cons] at *; omega)

/-- Takes a comment after its opening mark. -/
def comment : (cs : List Char) → Cut cs
  | [] => .nothing []
  | '*' :: '/' :: rest => .cons '*' (.cons '/' (.nothing rest))
  | c :: rest => .cons c (comment rest)

/-- Takes what follows a backslash inside a string: a line break is passed over, and anything else
is an escape as in a name. -/
def escapeInString (cs : List Char) : Cut cs :=
  if atNewline cs then oneBlank cs else escape cs

/-- Takes a string after its opening quote: up to and including the next such quote, or up to a line
break without a backslash. -/
def string (quote : Char) (cs : List Char) : Cut cs :=
  match cs with
  | [] => .nothing []
  | c :: rest =>
    if c == quote then .cons c (.nothing rest)
    -- The line break is left for the next token, so what follows is read afresh.
    else if isNewline c then .nothing (c :: rest)
    else if c == '\\' then
      have : (escapeInString rest).rest.length < (c :: rest).length :=
        Nat.lt_succ_of_le (escapeInString rest).length_rest_le
      .cons c ((escapeInString rest).andThen (string quote (escapeInString rest).rest))
    else .cons c (string quote rest)
termination_by cs.length
decreasing_by all_goals (simp only [List.length_cons] at *; omega)

/-- Takes the fraction of a number: a point and digits. -/
def fraction (cs : List Char) : Cut cs :=
  match cs with
  | c :: rest =>
    if c == '.' && atDigit rest then .cons c (.span Char.isDigit rest) else .nothing (c :: rest)
  | [] => .nothing []

/-- Takes the exponent of a number: the letter, perhaps a sign, and digits. -/
def exponent (cs : List Char) : Cut cs :=
  match cs with
  | e :: sign :: rest =>
    if e == 'e' || e == 'E' then
      if sign.isDigit then .cons e (.span Char.isDigit (sign :: rest))
      else if (sign == '+' || sign == '-') && atDigit rest then
        .cons e (.cons sign (.span Char.isDigit rest))
      else .nothing (e :: sign :: rest)
    else .nothing (e :: sign :: rest)
  | cs => .nothing cs

/-- Takes the unit of a number: a percent sign or a name. -/
def unit (cs : List Char) : Cut cs :=
  match cs with
  | '%' :: rest => .cons '%' (.nothing rest)
  | cs => if atName cs then name cs else .nothing cs

/-- Takes what follows the first character of a number. -/
def number (c : Char) (cs : List Char) : Cut cs :=
  let digits := Cut.span Char.isDigit cs
  -- A number that begins with a point has had its point.
  let decimals := digits.andThen (if c == '.' then .nothing _ else fraction digits.rest)
  let scaled := decimals.andThen (exponent decimals.rest)
  scaled.andThen (unit scaled.rest)

/-- Takes the rest of an address that is not well formed, up to and including its closing bracket.
-/
def badUrl : (cs : List Char) → Cut cs
  | [] => .nothing []
  | ')' :: rest => .cons ')' (.nothing rest)
  | '\\' :: ')' :: rest => .cons '\\' (.cons ')' (badUrl rest))
  | '\\' :: '\\' :: rest => .cons '\\' (.cons '\\' (badUrl rest))
  | c :: rest => .cons c (badUrl rest)

/-- Takes the end of an address after blanks: its closing bracket, or the rest of a bad address. The
first character of that rest escapes nothing. -/
def urlEnd (cs : List Char) : Cut cs :=
  match cs with
  | [] => .nothing []
  | c :: rest =>
    if isAsciiBlank c then .cons c (urlEnd rest)
    else if c == ')' then .cons c (.nothing rest)
    else .cons c (badUrl rest)

/-- A character that makes an address bad: a control character, a quote or an opening bracket. -/
def spoilsUrl (c : Char) : Bool :=
  let n := c.toNat
  (0x1 ≤ n && n ≤ 0x8) || n == 0xB || (0xE ≤ n && n ≤ 0x1F) || n == 0x7F || c == '"' || c == '\'' ||
    c == '('

/-- Takes an address without quotes from its first character on. -/
def urlBody (cs : List Char) : Cut cs :=
  match cs with
  | [] => .nothing []
  | c :: rest =>
    if c == ')' then .cons c (.nothing rest)
    else if isAsciiBlank c then .cons c (urlEnd rest)
    else if spoilsUrl c then .cons c (badUrl rest)
    else if c == '\\' then
      if atNewline rest then .cons c (badUrl rest)
      else
        have : (escape rest).rest.length < (c :: rest).length :=
          Nat.lt_succ_of_le (escape rest).length_rest_le
        .cons c ((escape rest).andThen (urlBody (escape rest).rest))
    else .cons c (urlBody rest)
termination_by cs.length
decreasing_by all_goals (simp only [List.length_cons] at *; omega)

/-- Takes an address without quotes after `url(`. With quotes there is no address but a function
with a string. -/
def url? (cs : List Char) : Option (Cut cs) :=
  let blanks := Cut.span isAsciiBlank cs
  match blanks.rest with
  | '"' :: _ => none
  | '\'' :: _ => none
  | _ => some (blanks.andThen (urlBody blanks.rest))

/-! ### Names -/

/-- The character an escape stands for. -/
def escapedChar (taken : List Char) : Char :=
  match taken with
  | [] => '�'
  | c :: _ =>
    if isHexDigit c then
      match numeral? 16 hexValue? 0 (taken.takeWhile isHexDigit) with
      -- Zero, surrogates and numbers beyond the last character name no character.
      | some n => if n = 0 then '�' else (charOfCode? n).getD '�'
      | none => '�'
    else if c == '\x00' then '�'
    else c

/-- The name that its source stands for. -/
def decodeName (cs : List Char) : List Char :=
  match cs with
  | [] => []
  | c :: rest =>
    if c == '\\' then
      have : (escape rest).rest.length < (c :: rest).length :=
        Nat.lt_succ_of_le (escape rest).length_rest_le
      escapedChar (escape rest).taken :: decodeName (escape rest).rest
    else (if c == '\x00' then '�' else c) :: decodeName rest
termination_by cs.length
decreasing_by all_goals (simp only [List.length_cons] at *; omega)

/-! ### Tokens -/

/-- A name, or a function, or an address, that begins with `c`. -/
def identLike (c : Char) (cs : List Char) : Kind × Cut cs :=
  let tail : Cut cs :=
    -- The first character may itself be the backslash of an escape.
    if c == '\\' then (escape cs).andThen (name (escape cs).rest) else name cs
  let text := String.ofList (decodeName (c :: tail.taken))
  match h : tail.rest with
  | '(' :: rest =>
    -- The bracket follows at once: with a blank between, this is a name.
    let opened : Cut cs := tail.andThen (h ▸ .cons '(' (.nothing rest))
    if lower text == "url" then
      match url? opened.rest with
      | some body => (.url, opened.andThen body)
      | none => (.function text, opened)
    else (.function text, opened)
  | _ => (.ident text, tail)

/-- A name after a mark such as `@`. -/
def marked (kind : String → Kind) (mark : Char) (cs : List Char) : Kind × Cut cs :=
  if atName cs then
    let tail := name cs
    (kind (String.ofList (decodeName tail.taken)), tail)
  else (.delim mark, .nothing cs)

/-- A comparison, if an equals sign follows, and a delimiter otherwise. -/
def comparison (mark : Char) (cs : List Char) : Kind × Cut cs :=
  match cs with
  | '=' :: rest => (.comparison, .cons '=' (.nothing rest))
  | cs => (.delim mark, .nothing cs)

/-- The token that begins with `c`, and what it takes of the text after `c`. -/
def readToken (c : Char) (cs : List Char) : Kind × Cut cs :=
  if isAsciiBlank c then (.blank, .span isAsciiBlank cs)
  else if c == '"' || c == '\'' then (.string, string c cs)
  else if startsNumber c cs then (.number, number c cs)
  else match c with
    | '#' =>
      -- After the mark a name may begin with what a name on its own may not.
      if atName cs || atDigit cs || cs.head? == some '-' then (.hash, name cs)
      else (.delim '#', .nothing cs)
    | '@' => marked .atKeyword '@' cs
    | '$' => comparison '$' cs
    | '*' => comparison '*' cs
    | '^' => comparison '^' cs
    | '|' => comparison '|' cs
    | '~' => comparison '~' cs
    | '(' => (.opening .round, .nothing cs)
    | ')' => (.closing .round, .nothing cs)
    | '[' => (.opening .square, .nothing cs)
    | ']' => (.closing .square, .nothing cs)
    | '{' => (.opening .curly, .nothing cs)
    | '}' => (.closing .curly, .nothing cs)
    | ':' => (.colon, .nothing cs)
    | ';' => (.semicolon, .nothing cs)
    | '/' =>
      match cs with
      | '*' :: rest => (.comment, .cons '*' (comment rest))
      | cs => (.delim '/', .nothing cs)
    | '<' =>
      match cs with
      | '!' :: '-' :: '-' :: rest => (.htmlMark, .cons '!' (.cons '-' (.cons '-' (.nothing rest))))
      | cs => (.delim '<', .nothing cs)
    | '-' =>
      match cs with
      | '-' :: '>' :: rest => (.htmlMark, .cons '-' (.cons '>' (.nothing rest)))
      | cs => if atName ('-' :: cs) then identLike '-' cs else (.delim '-', .nothing cs)
    | c => if atName (c :: cs) then identLike c cs else (.delim c, .nothing cs)

/-- The tokens of a text. -/
def readTokens (cs : List Char) : List Token :=
  match cs with
  | [] => []
  | c :: rest =>
    have : (readToken c rest).2.rest.length < (c :: rest).length :=
      Nat.lt_succ_of_le (readToken c rest).2.length_rest_le
    { kind := (readToken c rest).1, source := c :: (readToken c rest).2.taken } ::
      readTokens (readToken c rest).2.rest
termination_by cs.length
decreasing_by all_goals (simp only [List.length_cons] at *; omega)

/-- The sources of the tokens of a text make up the text. -/
theorem flatMap_source_readTokens (cs : List Char) : (readTokens cs).flatMap Token.source = cs := by
  fun_induction readTokens cs with
  | case1 => rfl
  | case2 c rest _ ih =>
    rw [List.flatMap_cons, ih, List.cons_append, (readToken c rest).2.whole]

end EmailMarkup.Css
