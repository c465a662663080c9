import Aggregate.Data.Digits
import Aggregate.Pattern.Basic
import Aggregate.Unicode.Alphanumeric
import Aggregate.Unicode.Blank

/-!
# Reading patterns

The notation of patterns. There are no repetitions by number, so that an opening brace can stand only behind a
backslash, in a set or in a remark.

- `Pattern.skip`: a text without what counts for nothing in a spaced pattern;
- `Pattern.ofChars?`: the pattern that a text spells.
-/

namespace Aggregate.Pattern

/-! ## Blanks and remarks -/

/-- A text without blanks and remarks in front. A remark goes from `#` to the end of the line. -/
def skipBlanks : (inRemark : Bool) → List Char → List Char
  | _, [] => []
  | true, c :: rest => skipBlanks (c ≠ '\n') rest
  | false, c :: rest =>
    if c == '#' then skipBlanks true rest else if Unicode.isBlank c then skipBlanks false rest else c :: rest

/-- A text without what counts for nothing in front. -/
def skip (spaced : Bool) (cs : List Char) : List Char := if spaced then skipBlanks false cs else cs

/-- The character that comes next, not counting blanks in a spaced pattern, nor the first `#`. -/
def next? (spaced : Bool) (cs : List Char) : Option Char :=
  if spaced then
    match cs.dropWhile Unicode.isBlank with
    | '#' :: rest => (rest.dropWhile Unicode.isBlank).head?
    | cs => cs.head?
  else cs.head?

/-! ## Characters, places and kinds -/

/-- So many digits of base sixteen. -/
def hexDigits? (spaced : Bool) : (count : Nat) → List Char → Option (List Char × List Char)
  | 0, cs => some ([], cs)
  | count + 1, cs =>
    match skip spaced cs with
    | c :: rest =>
      if Digits.isDigit 16 c then (hexDigits? spaced count rest).map fun (ds, rest) => (c :: ds, rest) else none
    | [] => none

/-- The character whose number is given by so many digits of base sixteen. -/
def hexChar? (spaced : Bool) (count : Nat) (cs : List Char) : Option (Char × List Char) := do
  let (ds, rest) ← hexDigits? spaced count cs
  let n := Digits.number 16 ds
  if n.isValidChar then return (Char.ofNat n, rest) else none

/-- What a single character behind a backslash means. -/
def escaped? (c : Char) : Option Atom :=
  match c with
  | 'd' => some (.kind ⟨.digit, false⟩)
  | 'D' => some (.kind ⟨.digit, true⟩)
  | 's' => some (.kind ⟨.blank, false⟩)
  | 'S' => some (.kind ⟨.blank, true⟩)
  | 'w' => some (.kind ⟨.word, false⟩)
  | 'W' => some (.kind ⟨.word, true⟩)
  | 'a' => some (.symbol ⟨'\x07', false⟩)
  | 'f' => some (.symbol ⟨'\x0c', false⟩)
  | 'n' => some (.symbol ⟨'\n', false⟩)
  | 'r' => some (.symbol ⟨'\r', false⟩)
  | 't' => some (.symbol ⟨'\t', false⟩)
  | 'v' => some (.symbol ⟨'\x0b', false⟩)
  | 'A' => some (.place .textStart)
  | 'z' => some (.place .textEnd)
  | 'b' => some (.place .wordEdge)
  | 'B' => some (.place .noWordEdge)
  | '<' => some (.place .wordStart)
  | '>' => some (.place .wordEnd)
  | c => if c.toNat < 0x80 && !c.isAlphanum then some (.symbol ⟨c, false⟩) else none

/-- What stands behind a backslash. -/
def escape? (spaced : Bool) : List Char → Option (Atom × List Char)
  | 'x' :: rest => (hexChar? spaced 2 rest).map fun (c, rest) => (.symbol ⟨c, true⟩, rest)
  | 'u' :: rest => (hexChar? spaced 4 rest).map fun (c, rest) => (.symbol ⟨c, false⟩, rest)
  | 'U' :: rest => (hexChar? spaced 8 rest).map fun (c, rest) => (.symbol ⟨c, false⟩, rest)
  | c :: rest => (escaped? c).map (·, rest)
  | [] => none

/-- A part of a pattern without parts of its own. -/
def atom? (spaced : Bool) : List Char → Option (Atom × List Char)
  | '\\' :: rest => escape? spaced rest
  | '.' :: rest => some (.anyChar, rest)
  | '^' :: rest => some (.place .lineStart, rest)
  | '$' :: rest => some (.place .lineEnd, rest)
  | c :: rest => some (.symbol ⟨c, false⟩, rest)
  | [] => none

/-! ## Sets of characters -/

namespace CharSet

/-- A class of ASCII behind its first bracket, such as `:alpha:]`. -/
def ascii? : List Char → Option (CharSet × List Char)
  | ':' :: rest =>
    let (negated, rest) := match rest with
      | '^' :: rest => (true, rest)
      | rest => (false, rest)
    let name := String.ofList (rest.takeWhile (· ≠ ':'))
    match rest.dropWhile (· ≠ ':') with
    | ':' :: ']' :: rest => if name ∈ asciiClasses then some (.asciiClass negated name, rest) else none
    | _ => none
  | _ => none

/-- A single part of a set, or an end of a range. -/
def member? (spaced : Bool) : List Char → Option (Atom × List Char)
  | '\\' :: rest => escape? spaced rest
  | c :: rest => some (.symbol ⟨c, false⟩, rest)
  | [] => none

/-- The set of what a single part stands for; a place is no character. -/
def ofAtom? : Atom → Option CharSet
  | .symbol s => some (.symbol s)
  | .kind k => some (.kind k)
  | .anyChar | .place _ => none

/-- The range from one character to another, which have to be in order. -/
def range? : (first last : Atom) → Option CharSet
  | .symbol first, .symbol last => if first.char ≤ last.char then some (.range first last) else none
  | _, _ => none

/-- A single part of a set or a range. A hyphen does not make a range in front of a bracket or another hyphen. -/
def item? (spaced : Bool) (cs : List Char) : Option (CharSet × List Char) := do
  let (first, rest) ← member? spaced cs
  match skip spaced rest with
  | '-' :: further =>
    if next? spaced further == some ']' || next? spaced further == some '-' then
      return (← ofAtom? first, '-' :: further)
    let (last, rest) ← member? spaced (skip spaced further)
    return (← range? first last, rest)
  | rest => return (← ofAtom? first, rest)

/-- How many hyphens stand in front, and the text behind them. -/
def hyphens (spaced : Bool) : (fuel : Nat) → List Char → Nat × List Char
  | 0, cs => (0, cs)
  | fuel + 1, cs =>
    match skip spaced cs with
    | '-' :: rest =>
      let (n, rest) := hyphens spaced fuel rest
      (n + 1, rest)
    | cs => (0, cs)

/-- Whether a set behind its bracket is negated, and what stands there for itself: hyphens, or else a bracket. -/
def opening (fuel : Nat) (spaced : Bool) (cs : List Char) : Bool × List CharSet × List Char :=
  let (negated, cs) := match skip spaced cs with
    | '^' :: rest => (true, rest)
    | cs => (false, cs)
  match hyphens spaced fuel cs with
  | (0, ']' :: rest) => (negated, [.symbol ⟨']', false⟩], rest)
  | (n, rest) => (negated, List.replicate n (.symbol ⟨'-', false⟩), rest)

/-- The sign of an operation on sets and the text behind it. -/
def operation? : List Char → Option (SetOperation × List Char)
  | '&' :: '&' :: rest => some (.common, rest)
  | '-' :: '-' :: rest => some (.onlyFirst, rest)
  | '~' :: '~' :: rest => some (.justOne, rest)
  | _ => none

/-- The set on the right of an operation, if there is one, combined with the set on its left. -/
def combine (left : Option (SetOperation × CharSet)) (right : CharSet) : CharSet :=
  match left with
  | some (operation, s) => .combined operation s right
  | none => right

/-- The rest of a set up to its closing bracket. `left` is what stands in front of the last operation, and `items` is
what stands behind it, in reverse. -/
def read? (spaced : Bool) :
    (fuel : Nat) → (left : Option (SetOperation × CharSet)) → (items : List CharSet) → List Char →
      Option (CharSet × List Char)
  | 0, _, _, _ => none
  | fuel + 1, left, items, cs =>
    match skip spaced cs with
    | [] => none
    | ']' :: rest => some (combine left (ofList items.reverse), rest)
    | '[' :: rest =>
      match ascii? rest with
      | some (s, rest) => read? spaced fuel left (s :: items) rest
      | none => do
        let (negated, first, rest) := opening fuel spaced rest
        let (s, rest) ← read? spaced fuel none first rest
        read? spaced fuel left (.bracketed negated s :: items) rest
    | cs =>
      match operation? cs with
      | some (operation, rest) => read? spaced fuel (some (operation, combine left (ofList items.reverse))) [] rest
      | none => do
        let (s, rest) ← item? spaced cs
        read? spaced fuel left (s :: items) rest

end CharSet

/-- A set in brackets, behind the first one. -/
def bracketed? (fuel : Nat) (spaced : Bool) (cs : List Char) : Option (Pattern × List Char) := do
  let (negated, first, rest) := CharSet.opening fuel spaced cs
  let (s, rest) ← CharSet.read? spaced fuel none first rest
  return (.bracketed negated s, rest)

/-! ## Groups -/

/-- The flag that a letter stands for. -/
def Flag.ofLetter? : Char → Option Flag
  | 'i' => some .eitherCase
  | 'm' => some .manyLines
  | 's' => some .lineFeeds
  | 'U' => some .shortest
  | 'u' => some .unicode
  | 'R' => some .carriageReturns
  | 'x' => some .spaced
  | _ => none

/-- Flags that are all turned on or all turned off, and the text behind them. -/
def switches (on : Bool) : List Char → List Switch × List Char
  | [] => ([], [])
  | c :: rest =>
    match Flag.ofLetter? c with
    | some flag =>
      let (further, rest) := switches on rest
      (⟨flag, on⟩ :: further, rest)
    | none => ([], c :: rest)

/-- Flags that are turned on and behind a hyphen, if there is one, some that are turned off; none occurs twice. -/
def switches? (cs : List Char) : Option (List Switch × List Char) := do
  let (on, rest) := switches true cs
  let (off, rest) ← match rest with
    | '-' :: rest =>
      let (off, rest) := switches false rest
      if off.isEmpty then none else some (off, rest)
    | rest => some ([], rest)
  if ((on ++ off).map (·.flag)).Nodup then return (on ++ off, rest) else none

/-- Whether a character may stand in the name of a group. -/
def isNamePart (c : Char) : Bool := c == '_' || c == '.' || c == '[' || c == ']' || Unicode.isAlphanumeric c

/-- The name of a group up to its closing angle. -/
def groupName? (cs : List Char) : Option (String × List Char) :=
  let name := cs.takeWhile (· ≠ '>')
  match cs.dropWhile (· ≠ '>') with
  | '>' :: rest =>
    if name.head?.any (fun c => c == '_' || Unicode.isAlphabetic c) && name.all isNamePart then
      some (String.ofList name, rest)
    else none
  | _ => none

/-- What stands behind an opening parenthesis: the beginning of a group, or flags and a closing parenthesis. -/
inductive Opening where
  | group (g : Group)
  | flags (switches : List Switch)

/-- How the part of a pattern behind an opening parenthesis begins. -/
def opening? : List Char → Option (Opening × List Char)
  | '?' :: 'P' :: '<' :: rest | '?' :: '<' :: rest =>
    (groupName? rest).map fun (name, rest) => (.group (.named name), rest)
  | '?' :: rest => do
    let (switches, rest) ← switches? rest
    match rest with
    | ':' :: rest => return (.group (.unnumbered switches), rest)
    | ')' :: rest => if switches.isEmpty then none else return (.flags switches, rest)
    | _ => none
  | cs => some (.group .numbered, cs)

/-- Whether a pattern is spaced behind flags. -/
def spacedBehind (spaced : Bool) (switches : List Switch) : Bool :=
  match switches.find? (·.flag = .spaced) with
  | some s => s.on
  | none => spaced

/-- Whether a pattern is spaced in a group. -/
def spacedInside (spaced : Bool) : Group → Bool
  | .unnumbered switches => spacedBehind spaced switches
  | .numbered | .named _ => spaced

/-! ## Patterns -/

/-- The repetition that a sign stands for. -/
def Repetition.ofSign? : Char → Option Repetition
  | '*' => some .zeroOrMore
  | '+' => some .oneOrMore
  | '?' => some .zeroOrOne
  | _ => none

/-- Parts of a pattern, in reverse, the last one of which is repeated; flags are nothing to be repeated. -/
def repeat? (r : Repetition) (shortest : Bool) : (parts : List Pattern) → Option (List Pattern)
  | [] | switched _ :: _ => none
  | p :: parts => some (repeated r shortest p :: parts)

/-- The rest of a pattern up to its end, or to a parenthesis that closes the group it stands in. `earlier` are the
alternatives in front of this one and `parts` the parts of this one so far, both in reverse. -/
def read? :
    (fuel : Nat) → (spaced : Bool) → (earlier parts : List Pattern) → List Char → Option (Pattern × List Char)
  | 0, _, _, _, _ => none
  | fuel + 1, spaced, earlier, parts, cs =>
    match skip spaced cs with
    | [] => some (ofAlternatives (ofSequence parts.reverse :: earlier).reverse, [])
    | c :: rest =>
      match c with
      | ')' => some (ofAlternatives (ofSequence parts.reverse :: earlier).reverse, c :: rest)
      | '|' => read? fuel spaced (ofSequence parts.reverse :: earlier) [] rest
      | '(' =>
        match opening? (skip spaced rest) with
        | some (.flags switches, rest) =>
          read? fuel (spacedBehind spaced switches) earlier (switched switches :: parts) rest
        | some (.group g, rest) =>
          match read? fuel (spacedInside spaced g) [] [] rest with
          | some (p, ')' :: rest) => read? fuel spaced earlier (group g p :: parts) rest
          | _ => none
        | none => none
      | '[' => do
        let (p, rest) ← bracketed? fuel spaced rest
        read? fuel spaced earlier (p :: parts) rest
      | '\x7b' => none
      | _ =>
        match Repetition.ofSign? c with
        | some r => do
          let (shortest, rest) := match rest with
            | '?' :: rest => (true, rest)
            | rest => (false, rest)
          read? fuel spaced earlier (← repeat? r shortest parts) rest
        | none => do
          let (a, rest) ← atom? spaced (c :: rest)
          read? fuel spaced earlier (atom a :: parts) rest

/-- The pattern that a text spells. -/
def ofChars? (cs : List Char) : Option Pattern :=
  match read? (cs.length + 1) false [] [] cs with
  | some (p, []) => some p
  | _ => none

end Aggregate.Pattern
