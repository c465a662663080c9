import Aggregate.Pattern.Basic

/-!
# Patterns that can be used

What a part of a pattern fits depends on the flags in front of it: characters are those of Unicode or bytes, with or
without regard to case. Only ASCII has kinds of characters, words and a case here, so that those can be used with bytes
alone. A text holds whole characters, so that a byte may be one of ASCII only.

- `Pattern.modeBehind?`: the flags behind a pattern, if it can be used with those in front;
- `Pattern.isUsable`: whether a pattern can be used.
-/

namespace Aggregate.Pattern

/-- What counts as a character. -/
structure Mode where
  unicode : Bool
  eitherCase : Bool

namespace Mode

/-- The mode at the beginning of a pattern. -/
def first : Mode := ⟨true, false⟩

/-- The mode with a flag turned on or off. -/
def turn (m : Mode) (s : Switch) : Mode :=
  match s.flag with
  | .unicode => { m with unicode := s.on }
  | .eitherCase => { m with eitherCase := s.on }
  | .manyLines | .lineFeeds | .shortest | .carriageReturns | .spaced => m

/-- The mode at the beginning of a group. -/
def inside (m : Mode) : Group → Mode
  | .unnumbered switches => switches.foldl turn m
  | .numbered | .named _ => m

/-- Whether a part of a pattern can be used. -/
def admits (m : Mode) : Atom → Bool
  | .symbol s => if m.unicode then !m.eitherCase else !s.asByte || s.char.toNat < 0x80
  | .anyChar => m.unicode
  | .place p => !m.unicode || !p.isOfWords
  | .kind k => !m.unicode && !k.negated

/-- Whether a character can be used in a set. -/
def admitsInSet (m : Mode) (s : Symbol) : Bool :=
  if m.unicode then !m.eitherCase else s.char.toNat < 0x80

/-- Whether a set can be used without the characters it holds. -/
def admitsNegated (m : Mode) (negated : Bool) : Bool := m.unicode || !negated

end Mode

mutual

/-- Whether a set of characters can be used. -/
def CharSet.isUsable (m : Mode) : CharSet → Bool
  | .empty => true
  | .symbol s => m.admitsInSet s
  | .range first last => m.admitsInSet first && m.admitsInSet last
  | .asciiClass negated _ => m.admitsNegated negated && !(m.unicode && m.eitherCase)
  | .kind k => m.admits (.kind k)
  | .bracketed negated s => m.admitsNegated negated && s.isUsable m
  | .union ss => CharSet.areUsable m ss
  | .combined _ left right => left.isUsable m && right.isUsable m
termination_by structural s => s

/-- Whether several sets of characters can be used. -/
def CharSet.areUsable (m : Mode) : List CharSet → Bool
  | [] => true
  | s :: ss => s.isUsable m && CharSet.areUsable m ss
termination_by structural ss => ss

end

mutual

/-- The mode behind a pattern, if the pattern can be used. -/
def modeBehind? (m : Mode) : Pattern → Option Mode
  | empty => some m
  | switched switches => some (switches.foldl Mode.turn m)
  | atom a => if m.admits a then some m else none
  | bracketed negated s => if m.admitsNegated negated && s.isUsable m then some m else none
  | repeated _ _ p => p.modeBehind? m
  | group g p => (p.modeBehind? (m.inside g)).map fun _ => m
  | alternatives ps => modeBehindAll? m ps
  | sequence ps => modeBehindAll? m ps
termination_by structural p => p

/-- The mode behind several patterns, if all of them can be used. -/
def modeBehindAll? (m : Mode) : List Pattern → Option Mode
  | [] => some m
  | p :: ps => (p.modeBehind? m).bind fun m => modeBehindAll? m ps
termination_by structural ps => ps

end

/-- How deeply the parts of a pattern may stand in one another. -/
def heightLimit : Nat := 250

/-- Whether a pattern can be used: it is not too high, no two of its groups have the same name, and every part of it
can be used with the flags in front of it. -/
def isUsable (p : Pattern) : Bool :=
  p.height ≤ heightLimit && decide p.groupNames.Nodup && (p.modeBehind? Mode.first).isSome

end Aggregate.Pattern
