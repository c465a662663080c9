import Aggregate.Data.Binary64
import Aggregate.Pattern.Mode
import Aggregate.Pattern.Reading

/-!
# Log directives

A directive such as `store=debug` or `store[save{id=7}]=trace` sets the level of what a module, or a span of work in
it with certain fields, logs. White space around a directive counts for nothing, but the parts are found by their
distance from the beginning of the text as it is, so that only a directive without space in front has its own parts.

- `isDirective`: whether a text is a directive.
-/

namespace Aggregate.Logging

/-- The names of the levels. -/
def levels : List String := ["off", "error", "warn", "info", "debug", "trace"]

/-- Whether a text names a level in any case, or is its number from `0` to `5`; the empty text stands for one too. -/
def isLevel (cs : List Char) : Bool :=
  let digits := if cs.head? == some '+' then cs.drop 1 else cs
  cs.isEmpty || levels.contains (String.ofList (cs.map Char.toLower)) ||
    (Digits.number? 10 digits).any fun n => n ≤ 5

/-- Whether a text can stand for the value of a field: a truth value, a number or a pattern. -/
def isFieldValue (cs : List Char) : Bool :=
  (Binary64.ofText? (String.ofList cs)).isSome || (Pattern.ofChars? cs).any (·.isUsable)

/-- Whether a text chooses a field, by its name or also by its value. -/
def isField (cs : List Char) : Bool :=
  match (String.ofList cs).splitOn "=" with
  | _ :: value :: _ => isFieldValue value.toList
  | _ => !cs.isEmpty

/-- Where in a directive a reader is. The number is the distance at which the part that is read begins. -/
inductive Progress where
  | start
  | module (first : Nat)
  | span (first : Nat)
  | field (first : Nat)
  | fields
  | behindSpan
  | level (first : Nat)
  | complete

/-- Whether a directive may begin with a character. -/
def beginsModule (c : Char) : Bool := c == '-' || c == ':' || c == '_' || Unicode.isAlphanumeric c

/-- The characters of a text from one distance, in bytes, to another. -/
def cut (cs : List Char) (first last : Nat) : List Char :=
  match cs with
  | [] => []
  | c :: rest =>
    let size := c.utf8Size
    let further := cut rest (first - size) (last - size)
    if first = 0 && last ≠ 0 then c :: further else further

/-- Reads one more character of the directive in a text, at a distance. -/
def Progress.next? (text : List Char) (distance : Nat) (c : Char) : Progress → Option Progress
  | start => if c == '[' then some (span (distance + 1)) else if beginsModule c then some (module distance) else none
  | module first =>
    match c with
    | '=' => some (level (distance + 1))
    | '[' => some (span (distance + 1))
    | ',' => some complete
    | _ => some (module first)
  | behindSpan =>
    match c with
    | '=' => some (level (distance + 1))
    | ',' => some complete
    | _ => none
  | span first =>
    match c with
    | ']' => some behindSpan
    | '\x7b' => some (field (distance + 1))
    | _ => some (span first)
  | field first =>
    match c with
    | '\x7d' => if isField (cut text first distance) then some fields else none
    | ',' => if isField (cut text first distance) then some (field (distance + 1)) else none
    | _ => some (field first)
  | fields => if c == ']' then some behindSpan else none
  | level first =>
    if c == ',' then (if isLevel (cut text first distance) then some complete else none) else some (level first)
  | complete => none

/-- Whether a directive may end. -/
def Progress.mayEnd (text : List Char) : Progress → Bool
  | module _ | behindSpan | complete => true
  | level first => isLevel (cut text first (String.ofList text).utf8ByteSize)
  | start | span _ | field _ | fields => false

/-- Where a reader is at the end of the directive in a text. -/
def Progress.atEnd? (text : List Char) : (distance : Nat) → Progress → List Char → Option Progress
  | _, p, [] => some p
  | distance, p, c :: rest => do atEnd? text (distance + c.utf8Size) (← p.next? text distance c) rest

/-- Whether a text is a directive. -/
def isDirective (text : String) : Bool :=
  let cs := text.toList
  (Progress.atEnd? cs 0 .start (Unicode.trimChars cs)).any (·.mayEnd cs)

end Aggregate.Logging
