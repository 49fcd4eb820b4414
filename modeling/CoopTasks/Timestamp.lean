/-!
# Timestamps

A moment in universal time, to the nanosecond, written and read in the form of RFC 3339. Reading is
lenient: blanks may stand before every number and around the offset, the date and the time may be
separated by a blank, and the digits of a fraction beyond the ninth are ignored. Written are a `Z`
and as many digits of the fraction as are needed, in threes.
-/

namespace CoopTasks

/-- Seconds since the start of 1970 and nanoseconds. A second that is inserted at the end of a
minute counts as that of 59 seconds with another thousand million nanoseconds. -/
structure Timestamp where
  seconds : Int
  nanos : Nat
deriving DecidableEq, Repr

namespace Timestamp

/-- A day in the calendar. -/
structure Date where
  year : Int
  month : Nat
  day : Nat
deriving DecidableEq, Repr

namespace Date

def isLeap (year : Int) : Bool := year % 4 == 0 && (year % 100 != 0 || year % 400 == 0)

def daysInMonth (year : Int) : Nat → Nat
  | 2 => if isLeap year then 29 else 28
  | 4 | 6 | 9 | 11 => 30
  | _ => 31

/-- The years that can be told apart. -/
def inRange (year : Int) : Bool := -262143 ≤ year && year ≤ 262142

def isValid (d : Date) : Bool :=
  inRange d.year && 1 ≤ d.month && d.month ≤ 12 && 1 ≤ d.day && d.day ≤ daysInMonth d.year d.month

/-- Days from the start of 1970. Years are counted from March, so that a leap day comes last. -/
def toDays (d : Date) : Int :=
  let year := if d.month ≤ 2 then d.year - 1 else d.year
  let month := if d.month ≤ 2 then d.month + 9 else d.month - 3
  365 * year + year / 4 - year / 100 + year / 400 + (153 * month + 2) / 5 + d.day - 1 - 719468

def ofDays (days : Int) : Date :=
  let days := days + 719468
  let era := days / 146097
  let day := (days % 146097).toNat
  let year := (day - day / 1460 + day / 36524 - day / 146096) / 365
  let day := day - (365 * year + year / 4 - year / 100)
  let month := (5 * day + 2) / 153
  let day := day - (153 * month + 2) / 5 + 1
  let year := 400 * era + year
  if month < 10 then ⟨year, month + 3, day⟩ else ⟨year + 1, month - 9, day⟩

end Date

/-- A number of at least so many digits, with zeros in front. -/
def padded (width n : Nat) : String :=
  let digits := toString n
  String.ofList (List.replicate (width - digits.length) '0') ++ digits

/-- A year outside of the range from 0 to 9999 is written with a sign. -/
def renderYear (year : Int) : String :=
  if year < 0 then "-" ++ padded 4 year.natAbs
  else if year ≤ 9999 then padded 4 year.toNat
  else "+" ++ padded 4 year.toNat

def renderFraction (nanos : Nat) : String :=
  if nanos = 0 then ""
  else if nanos % 1000000 = 0 then "." ++ padded 3 (nanos / 1000000)
  else if nanos % 1000 = 0 then "." ++ padded 6 (nanos / 1000)
  else "." ++ padded 9 nanos

def render (t : Timestamp) : String :=
  let date := Date.ofDays (t.seconds / 86400)
  let second := (t.seconds % 86400).toNat
  let inserted := t.nanos / 1000000000
  renderYear date.year ++ "-" ++ padded 2 date.month ++ "-" ++ padded 2 date.day ++ "T" ++
    padded 2 (second / 3600) ++ ":" ++ padded 2 (second / 60 % 60) ++ ":" ++
    padded 2 (second % 60 + inserted) ++ renderFraction (t.nanos % 1000000000) ++ "Z"

/-- The blanks of Unicode. -/
def isBlank (c : Char) : Bool :=
  (9 ≤ c.toNat && c.toNat ≤ 13) || (0x2000 ≤ c.toNat && c.toNat ≤ 0x200A) ||
    [0x20, 0x85, 0xA0, 0x1680, 0x2028, 0x2029, 0x202F, 0x205F, 0x3000].contains c.toNat

def skipBlanks (cs : List Char) : List Char := cs.dropWhile isBlank

def ofDigits (cs : List Char) : Nat := cs.foldl (fun n c => 10 * n + (c.toNat - 48)) 0

/-- Reads from one up to `width` digits. -/
def readNumber (width : Nat) (cs : List Char) : Option (Nat × List Char) :=
  match (cs.take width).takeWhile Char.isDigit with
  | [] => none
  | digits => some (ofDigits digits, cs.drop digits.length)

/-- Reads a number of at most two digits, after blanks. -/
def readField (cs : List Char) : Option (Nat × List Char) := readNumber 2 (skipBlanks cs)

/-- Reads a character, after blanks. -/
def readMark (mark : Char) (cs : List Char) : Option (List Char) :=
  match skipBlanks cs with
  | c :: rest => if c = mark then some rest else none
  | [] => none

/-- Reads a year: four digits at most, or any number of them after a sign. -/
def readYear (cs : List Char) : Option (Int × List Char) :=
  match skipBlanks cs with
  | '-' :: rest => (readNumber rest.length rest).map fun (n, rest) => (-(n : Int), rest)
  | '+' :: rest => (readNumber rest.length rest).map fun (n, rest) => ((n : Int), rest)
  | rest => (readNumber 4 rest).map fun (n, rest) => ((n : Int), rest)

/-- Reads a fraction of a second as nanoseconds. -/
def readFraction : List Char → Option (Nat × List Char)
  | '.' :: cs =>
    match cs.takeWhile Char.isDigit with
    | [] => none
    | digits =>
      let used := digits.take 9
      some (ofDigits used * Nat.pow 10 (9 - used.length), cs.drop digits.length)
  | cs => some (0, cs)

/-- Reads the distance from universal time in seconds. -/
def readOffset : List Char → Option (Int × List Char)
  | u :: t :: c :: rest =>
    if u.toUpper = 'U' ∧ t.toUpper = 'T' ∧ c.toUpper = 'C' then some (0, rest)
    else readSigned (u :: t :: c :: rest)
  | cs => readSigned cs
where
  readSigned : List Char → Option (Int × List Char)
    | 'Z' :: rest | 'z' :: rest => some (0, rest)
    | '+' :: rest => readDistance rest
    | '-' :: rest | '−' :: rest => (readDistance rest).map fun (n, rest) => (-n, rest)
    | _ => none
  readDistance : List Char → Option (Int × List Char)
    | a :: b :: rest =>
      match rest.dropWhile fun c => c == ':' || isBlank c with
      | c :: d :: rest =>
        if [a, b, c, d].all Char.isDigit ∧ ofDigits [c, d] < 60 then
          some (3600 * ofDigits [a, b] + 60 * ofDigits [c, d], rest)
        else none
      | _ => none
    | _ => none

/-- The moment given by a date and a time of the day at some distance from universal time. -/
def ofLocal? (date : Date) (hour minute second nanos : Nat) (offset : Int) : Option Timestamp :=
  if date.isValid ∧ hour < 24 ∧ minute < 60 ∧ second ≤ 60 ∧ offset.natAbs < 86400 then
    let inserted := second / 60
    let time := 3600 * hour + 60 * minute + (second - inserted)
    let seconds := date.toDays * 86400 + time - offset
    if Date.inRange (Date.ofDays (seconds / 86400)).year then
      some ⟨seconds, nanos + 1000000000 * inserted⟩
    else none
  else none

def read? (text : String) : Option Timestamp := do
  let (year, cs) ← readYear text.toList
  let (month, cs) ← readField (← readMark '-' cs)
  let (day, cs) ← readField (← readMark '-' cs)
  let separator :: cs := cs | none
  guard (separator = 'T' ∨ separator = 't' ∨ separator = ' ')
  let (hour, cs) ← readField cs
  let (minute, cs) ← readField (← readMark ':' cs)
  let (second, cs) ← readField (← readMark ':' cs)
  let (nanos, cs) ← readFraction cs
  let (offset, cs) ← readOffset (skipBlanks cs)
  guard (skipBlanks cs).isEmpty
  ofLocal? ⟨year, month, day⟩ hour minute second nanos offset

end Timestamp

end CoopTasks
