/-!
# Patterns

Regular expressions as they are written, with all that their notation tells apart.

- `Pattern.CharSet`: a set of characters in brackets;
- `Pattern`: a pattern;
- `Pattern.height`: how deeply its parts stand in one another;
- `Pattern.groupNames`: the names of its groups, from left to right.
-/

namespace Aggregate

namespace Pattern

/-! ## The least parts -/

/-- What can be turned on and off for a part of a pattern. -/
inductive Flag where
  /-- Capital and small letters are the same. -/
  | eitherCase
  /-- Lines have their own beginning and end. -/
  | manyLines
  /-- Any character may be a line feed. -/
  | lineFeeds
  /-- Repetitions are as short as they can be. -/
  | shortest
  /-- Characters are those of Unicode, not bytes. -/
  | unicode
  /-- Lines may end in a carriage return. -/
  | carriageReturns
  /-- Blanks and remarks behind `#` count for nothing. -/
  | spaced
  deriving DecidableEq

/-- A flag that is turned on or off. -/
structure Switch where
  flag : Flag
  on : Bool

/-- A character, which may be given as a byte by two digits of base sixteen. -/
structure Symbol where
  char : Char
  asByte : Bool

/-- A place in a text. -/
inductive Place where
  | lineStart
  | lineEnd
  | textStart
  | textEnd
  | wordEdge
  | noWordEdge
  | wordStart
  | wordEnd

/-- Whether a place is one with regard to words. -/
def Place.isOfWords : Place → Bool
  | wordEdge | noWordEdge | wordStart | wordEnd => true
  | lineStart | lineEnd | textStart | textEnd => false

/-- The kinds of characters that have a letter of their own. -/
inductive KindName where
  | digit
  | blank
  | word

/-- The characters of a kind, or all others. -/
structure Kind where
  name : KindName
  negated : Bool

/-- A part of a pattern without parts of its own. -/
inductive Atom where
  | symbol (s : Symbol)
  | anyChar
  | place (p : Place)
  | kind (k : Kind)

/-! ## Sets of characters -/

/-- The names of the classes of ASCII. -/
def asciiClasses : List String :=
  ["alnum", "alpha", "ascii", "blank", "cntrl", "digit", "graph", "lower", "print", "punct", "space", "upper", "word",
   "xdigit"]

/-- What two sets have in common, what only the first one has, or what just one of them has. -/
inductive SetOperation where
  | common
  | onlyFirst
  | justOne

/-- A set of characters. -/
inductive CharSet where
  | empty
  | symbol (s : Symbol)
  | range (first last : Symbol)
  | asciiClass (negated : Bool) (name : String)
  | kind (k : Kind)
  | bracketed (negated : Bool) (s : CharSet)
  | union (ss : List CharSet)
  | combined (operation : SetOperation) (left right : CharSet)

namespace CharSet

/-- Several sets taken together, in the simplest form. -/
def ofList : List CharSet → CharSet
  | [] => empty
  | [s] => s
  | ss => union ss

mutual

/-- How deeply the parts of a set stand in one another. -/
def height : CharSet → Nat
  | empty | symbol _ | range _ _ | asciiClass _ _ | kind _ => 0
  | bracketed _ s => s.height + 1
  | union ss => heights ss + 1
  | combined _ left right => max left.height right.height + 1
termination_by structural s => s

/-- The height of the highest of several sets. -/
def heights : List CharSet → Nat
  | [] => 0
  | s :: ss => max s.height (heights ss)
termination_by structural ss => ss

end

end CharSet

/-! ## Repetitions and groups -/

/-- How often a part may occur. -/
inductive Repetition where
  | zeroOrMore
  | oneOrMore
  | zeroOrOne

/-- What a group is there for: to be found by its number, by its name or not at all, but with flags of its own. -/
inductive Group where
  | numbered
  | named (name : String)
  | unnumbered (switches : List Switch)

end Pattern

/-! ## Patterns -/

open Pattern in
/-- A pattern. -/
inductive Pattern where
  | empty
  /-- Flags for what follows, up to the end of the group. -/
  | switched (switches : List Switch)
  | atom (a : Atom)
  | bracketed (negated : Bool) (s : CharSet)
  | repeated (r : Repetition) (shortest : Bool) (p : Pattern)
  | group (g : Group) (p : Pattern)
  | alternatives (ps : List Pattern)
  | sequence (ps : List Pattern)

namespace Pattern

/-- Several patterns one behind another, in the simplest form. -/
def ofSequence : List Pattern → Pattern
  | [] => empty
  | [p] => p
  | ps => sequence ps

/-- Several patterns of which one has to fit, in the simplest form. -/
def ofAlternatives : List Pattern → Pattern
  | [] => empty
  | [p] => p
  | ps => alternatives ps

mutual

/-- How deeply the parts of a pattern stand in one another. -/
def height : Pattern → Nat
  | empty | switched _ | atom _ => 0
  | bracketed _ s => s.height + 1
  | repeated _ _ p => p.height + 1
  | group _ p => p.height + 1
  | alternatives ps => heights ps + 1
  | sequence ps => heights ps + 1
termination_by structural p => p

/-- The height of the highest of several patterns. -/
def heights : List Pattern → Nat
  | [] => 0
  | p :: ps => max p.height (heights ps)
termination_by structural ps => ps

end

/-- The name of a group, if it has one. -/
def Group.names : Group → List String
  | named name => [name]
  | numbered | unnumbered _ => []

mutual

/-- The names of the groups of a pattern, from left to right. -/
def groupNames : Pattern → List String
  | empty | switched _ | atom _ | bracketed _ _ => []
  | repeated _ _ p => p.groupNames
  | group g p => g.names ++ p.groupNames
  | alternatives ps => allGroupNames ps
  | sequence ps => allGroupNames ps
termination_by structural p => p

/-- The names of the groups of several patterns. -/
def allGroupNames : List Pattern → List String
  | [] => []
  | p :: ps => p.groupNames ++ allGroupNames ps
termination_by structural ps => ps

end

end Pattern

end Aggregate
