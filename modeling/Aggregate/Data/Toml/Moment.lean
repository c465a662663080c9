import Aggregate.Data.Digits

/-!
# TOML dates and times

- `moment?`: a date, a time of day, or both with an optional distance from universal time;
- `Moment.render`: the one spelling of a moment;
- `Moment.ofText?`: the moment that a whole text spells.
-/

namespace Aggregate.Toml

/-- A day of the calendar. -/
structure Day where
  year : Nat
  month : Nat
  day : Nat

/-- A time of day. -/
structure Clock where
  hour : Nat
  minute : Nat
  second : Nat
  nanosecond : Nat

/-- A distance from universal time. -/
inductive Zone where
  | universal
  | shifted (west : Bool) (hour minute : Nat)

/-- A date, a time or both. -/
inductive Moment where
  | day (d : Day)
  | clock (c : Clock)
  | both (d : Day) (c : Clock) (zone : Option Zone)

/-! ## Spelling -/

/-- A number with zeros in front, of at least `count` digits. -/
def padded (count n : Nat) : String :=
  let ds := Nat.toDigits 10 n
  String.ofList (List.replicate (count - ds.length) '0' ++ ds)

/-- The spelling of a day. -/
def Day.render (d : Day) : String := padded 4 d.year ++ "-" ++ padded 2 d.month ++ "-" ++ padded 2 d.day

/-- The spelling of a time of day, with as many digits of the second as are needed. -/
def Clock.render (c : Clock) : String :=
  let whole := padded 2 c.hour ++ ":" ++ padded 2 c.minute ++ ":" ++ padded 2 c.second
  if c.nanosecond = 0 then whole
  else whole ++ "." ++ String.ofList ((padded 9 c.nanosecond).toList.reverse.dropWhile (· == '0')).reverse

/-- The spelling of a distance from universal time; one of nothing is not to the west. -/
def Zone.render : Zone → String
  | universal => "Z"
  | shifted west hour minute =>
    (if west && (hour ≠ 0 || minute ≠ 0) then "-" else "+") ++ padded 2 hour ++ ":" ++ padded 2 minute

/-- The spelling of a moment. -/
def Moment.render : Moment → String
  | day d => d.render
  | clock c => c.render
  | both d c zone => d.render ++ "T" ++ c.render ++ (zone.map Zone.render).getD ""

/-! ## Reading -/

/-- The number of days of a month. -/
def daysIn (year month : Nat) : Nat :=
  if month = 2 then (if year % 4 = 0 && (year % 100 ≠ 0 || year % 400 = 0) then 29 else 28)
  else if month ∈ [4, 6, 9, 11] then 30
  else 31

/-- A number of just `count` digits, from `low` to `high`. -/
def field? (count low high : Nat) (cs : List Char) : Option (Nat × List Char) := do
  let n ← Digits.number? 10 (cs.take count)
  if cs.length < count || n < low || high < n then none
  return (n, cs.drop count)

/-- The rest of a text behind a character that it has to begin with. -/
def expect? (c : Char) : List Char → Option (List Char)
  | d :: rest => if c = d then some rest else none
  | [] => none

/-- A day. -/
def day? (cs : List Char) : Option (Day × List Char) := do
  let (year, rest) ← field? 4 0 9999 cs
  let (month, rest) ← field? 2 1 12 (← expect? '-' rest)
  let (day, rest) ← field? 2 1 (daysIn year month) (← expect? '-' rest)
  return (⟨year, month, day⟩, rest)

/-- A fraction of a second in nanoseconds, if there is one; further digits are dropped. -/
def fraction : List Char → Nat × List Char
  | '.' :: rest =>
    match rest.takeWhile (Digits.isDigit 10) with
    | [] => (0, '.' :: rest)
    | ds => (Digits.number 10 ((ds ++ List.replicate 9 '0').take 9), rest.dropWhile (Digits.isDigit 10))
  | cs => (0, cs)

/-- A time of day. -/
def clock? (cs : List Char) : Option (Clock × List Char) := do
  let (hour, rest) ← field? 2 0 23 cs
  let (minute, rest) ← field? 2 0 59 (← expect? ':' rest)
  let (second, rest) ← field? 2 0 60 (← expect? ':' rest)
  let (nanosecond, rest) := fraction rest
  return (⟨hour, minute, second, nanosecond⟩, rest)

/-- A distance from universal time. -/
def zone? : List Char → Option (Zone × List Char)
  | c :: rest =>
    if c == 'Z' || c == 'z' then some (.universal, rest)
    else if c == '+' || c == '-' then do
      let (hour, rest) ← field? 2 0 23 rest
      let (minute, rest) ← field? 2 0 59 (← expect? ':' rest)
      return (.shifted (c == '-') hour minute, rest)
    else none
  | [] => none

/-- A time of day behind a day, if there is one. -/
def clockBehind? : List Char → Option (Clock × List Char)
  | c :: rest => if c == 'T' || c == 't' || c == ' ' then clock? rest else none
  | [] => none

/-- A moment. -/
def moment? (cs : List Char) : Option (Moment × List Char) :=
  match day? cs with
  | none => (clock? cs).map fun (c, rest) => (.clock c, rest)
  | some (d, rest) =>
    match clockBehind? rest with
    | none => some (.day d, rest)
    | some (c, rest) =>
      match zone? rest with
      | none => some (.both d c none, rest)
      | some (z, rest) => some (.both d c (some z), rest)

/-- The moment that a whole text spells. -/
def Moment.ofText? (text : String) : Option Moment :=
  match moment? text.toList with
  | some (m, []) => some m
  | _ => none

end Aggregate.Toml
