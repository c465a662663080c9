import Aggregate.Data.Digits

/-!
# The text of TOML documents

What stands between values (blanks, line ends, comments), strings and keys. A reader takes characters from the front
of a text and gives back the rest.

- `skipSpace` and `finishLine?`: what may stand between values, and behind the last one on a line;
- `string?`: the four kinds of strings;
- `key?`: keys of one or more parts.
-/

namespace Aggregate.Toml

/-! ## Blanks and comments -/

/-- Whether a character may stand in comments and strings as it is. -/
def isPlain (c : Char) : Bool := c == '\t' || (0x20 ≤ c.toNat && c.toNat ≠ 0x7F)

/-- Whether a character is blank within a line. -/
def isBlank (c : Char) : Bool := c == ' ' || c == '\t'

/-- The rest of a text behind blanks. -/
def skipBlank (cs : List Char) : List Char := cs.dropWhile isBlank

/-- The rest of a text behind a comment, if it begins with one. -/
def skipComment : List Char → List Char
  | '#' :: rest => rest.dropWhile isPlain
  | cs => cs

/-- The rest of a text behind a line end. -/
def lineEnd? : List Char → Option (List Char)
  | '\n' :: rest => some rest
  | '\r' :: '\n' :: rest => some rest
  | _ => none

/-- The rest of a text behind the end of its first line, which holds nothing but blanks and a comment. -/
def finishLine? (cs : List Char) : Option (List Char) :=
  match skipComment (skipBlank cs) with
  | [] => some []
  | rest => lineEnd? rest

/-- The rest of a text behind blanks, line ends and comments. A comment ends with its line. -/
def skipSpace : (comment : Bool) → List Char → Option (List Char)
  | _, '\n' :: rest => skipSpace false rest
  | _, '\r' :: '\n' :: rest => skipSpace false rest
  | true, c :: rest => if isPlain c then skipSpace true rest else none
  | true, [] => none
  | false, '#' :: rest => skipSpace true rest
  | false, c :: rest => if isBlank c then skipSpace false rest else some (c :: rest)
  | false, [] => some []

/-! ## Strings -/

/-- The character with a code, if there is one. -/
def charOf? (code : Nat) : Option Char :=
  if code < 0xD800 || (0xE000 ≤ code && code < 0x110000) then some (Char.ofNat code) else none

/-- The character that a character behind a backslash stands for. -/
def escaped? : Char → Option Char
  | 'b' => some '\x08'
  | 't' => some '\t'
  | 'n' => some '\n'
  | 'f' => some '\x0c'
  | 'r' => some '\r'
  | '"' => some '"'
  | '\\' => some '\\'
  | _ => none

/-- What a quote inside a string closes, given the text behind it: a short string ends there, and a long one if two
more quotes follow. Up to two quotes in front of those three are the last characters of the string. -/
def closing? (quote : Char) (long : Bool) (rest : List Char) : Option (List Char × List Char) :=
  if !long then some ([], rest)
  else
    let more := (rest.takeWhile (· == quote)).length
    if more < 2 then none
    else some (List.replicate (min 2 (more - 2)) quote, rest.drop (min 2 (more - 2) + 2))

/-- A character in front of what has been read of the rest. -/
def prepend (c : Char) (read : Option (List Char × List Char)) : Option (List Char × List Char) :=
  read.map fun (body, rest) => (c :: body, rest)

/-- The characters of a literal string up to its closing quotes. -/
def literalBody (long : Bool) : List Char → Option (List Char × List Char)
  | [] => none
  | '\x27' :: rest => closing? '\x27' long rest <|> prepend '\x27' (literalBody long rest)
  | '\r' :: '\n' :: rest => if long then prepend '\n' (literalBody long rest) else none
  | c :: rest => if isPlain c || (long && c == '\n') then prepend c (literalBody long rest) else none

/-- Whether the text behind a backslash makes it join lines: nothing else follows on its line. -/
def joinsLines (rest : List Char) : Bool := (lineEnd? (skipBlank rest)).isSome

/-- The characters of a basic string up to its closing quotes; blanks and line ends do not count while `joining`. -/
def basicBody (long : Bool) : (joining : Bool) → List Char → Option (List Char × List Char)
  | _, [] => none
  | true, ' ' :: rest => basicBody long true rest
  | true, '\t' :: rest => basicBody long true rest
  | true, '\n' :: rest => basicBody long true rest
  | true, '\r' :: '\n' :: rest => basicBody long true rest
  | _, '"' :: rest => closing? '"' long rest <|> prepend '"' (basicBody long false rest)
  | _, '\\' :: 'u' :: a :: b :: c :: d :: rest => do
    let c ← (Digits.number? 16 [a, b, c, d]).bind charOf?
    prepend c (basicBody long false rest)
  | _, '\\' :: 'U' :: a :: b :: c :: d :: e :: f :: g :: h :: rest => do
    let c ← (Digits.number? 16 [a, b, c, d, e, f, g, h]).bind charOf?
    prepend c (basicBody long false rest)
  | _, '\\' :: c :: rest =>
    if long && joinsLines (c :: rest) then basicBody long true (c :: rest)
    else do prepend (← escaped? c) (basicBody long false rest)
  | _, '\r' :: '\n' :: rest => if long then prepend '\n' (basicBody long false rest) else none
  | _, c :: rest => if c ≠ '\\' && (isPlain c || (long && c == '\n')) then prepend c (basicBody long false rest) else none

/-- The rest of a text behind a line end, if it begins with one. -/
def skipLineEnd (cs : List Char) : List Char := (lineEnd? cs).getD cs

/-- A string on one line. -/
def shortString? : List Char → Option (String × List Char)
  | '"' :: rest => (basicBody false false rest).map fun (body, rest) => (String.ofList body, rest)
  | '\x27' :: rest => (literalBody false rest).map fun (body, rest) => (String.ofList body, rest)
  | _ => none

/-- A string in three quotes, which may hold line ends, or a string on one line. -/
def string? : List Char → Option (String × List Char)
  | '"' :: '"' :: '"' :: rest =>
    (basicBody true false (skipLineEnd rest)).map fun (body, rest) => (String.ofList body, rest)
  | '\x27' :: '\x27' :: '\x27' :: rest =>
    (literalBody true (skipLineEnd rest)).map fun (body, rest) => (String.ofList body, rest)
  | cs => shortString? cs

/-! ## Keys -/

/-- A key: the tables it goes through, and a name in the last one. -/
structure Key where
  path : List String
  name : String

/-- All parts of a key. -/
def Key.parts (k : Key) : List String := k.path ++ [k.name]

/-- Whether a character may stand in a key without quotes. -/
def isBare (c : Char) : Bool := c.isAlphanum || c == '-' || c == '_'

/-- One part of a key. -/
def keyPart? (cs : List Char) : Option (String × List Char) :=
  let name := cs.takeWhile isBare
  if name.isEmpty then shortString? cs else some (String.ofList name, cs.dropWhile isBare)

/-- A key of at most `room` parts, with the blanks around it. -/
def keyWithin? : (room : Nat) → List Char → Option (Key × List Char)
  | 0, _ => none
  | room + 1, cs => do
    let (part, rest) ← keyPart? (skipBlank cs)
    match skipBlank rest with
    | '.' :: rest => do
      let (key, rest) ← keyWithin? room rest
      return ({ key with path := part :: key.path }, rest)
    | rest => return (⟨[], part⟩, rest)

/-- Keys have fewer parts than this, and values are nested less deep. -/
def depthLimit : Nat := 80

/-- A key, with the blanks around it. -/
def key? (cs : List Char) : Option (Key × List Char) := keyWithin? (depthLimit - 1) cs

end Aggregate.Toml
