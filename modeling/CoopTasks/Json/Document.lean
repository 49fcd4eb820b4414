import CoopTasks.Json.Numeral

/-!
# JSON texts by their grammar

`Document.read?` takes a text apart by the grammar alone: numbers stay numerals, strings stay as
quoted, members stay in order with all repetitions, and nesting has no limit. What a numeral or a
quoted string means, and how deep a value may nest, is decided where it is used, so a member that
nobody uses may hold numbers out of range and halves of surrogate pairs.
-/

namespace CoopTasks

/-- A string as quoted: its code points, with a `\u` escape kept as the unit that it names. -/
abbrev Quoted := List Nat

namespace Quoted

/-- The string meant. Units of a surrogate pair are joined; one that stands alone has no meaning. -/
def decode? : Quoted → Option (List Char)
  | [] => some []
  | [u] => if 0xD800 ≤ u ∧ u < 0xE000 then none else some [Char.ofNat u]
  | u :: v :: rest =>
    if 0xD800 ≤ u ∧ u < 0xDC00 then
      if 0xDC00 ≤ v ∧ v < 0xE000 then
        (decode? rest).map (Char.ofNat (0x10000 + (u - 0xD800) * 0x400 + (v - 0xDC00)) :: ·)
      else none
    else if 0xDC00 ≤ u ∧ u < 0xE000 then none
    else (decode? (v :: rest)).map (Char.ofNat u :: ·)

def toString? (q : Quoted) : Option String := q.decode?.map String.ofList

end Quoted

inductive Document where
  | null
  | bool (value : Bool)
  | number (numeral : Numeral)
  | string (quoted : Quoted)
  | array (items : List Document)
  | object (members : List (Quoted × Document))

namespace Document

def isBlank (c : Char) : Bool := c == ' ' || c == '\n' || c == '\t' || c == '\r'

def skipBlanks (s : List Char) : List Char := s.dropWhile isBlank

def hexValue? (c : Char) : Option Nat :=
  if '0' ≤ c ∧ c ≤ '9' then some (c.toNat - 48)
  else if 'a' ≤ c ∧ c ≤ 'f' then some (c.toNat - 87)
  else if 'A' ≤ c ∧ c ≤ 'F' then some (c.toNat - 55)
  else none

/-- The unit written as four hexadecimal digits. -/
def unit? (a b c d : Char) : Option Nat := do
  let a ← hexValue? a
  let b ← hexValue? b
  let c ← hexValue? c
  let d ← hexValue? d
  some (((a * 16 + b) * 16 + c) * 16 + d)

/-- What a backslash before a character other than `u` stands for. -/
def escaped? : Char → Option Nat
  | '"' => some 34
  | '\\' => some 92
  | '/' => some 47
  | 'b' => some 8
  | 'f' => some 12
  | 'n' => some 10
  | 'r' => some 13
  | 't' => some 9
  | _ => none

/-- Reads a string whose opening quote has been read. -/
def readQuoted : List Char → Option (Quoted × List Char)
  | [] => none
  | '"' :: rest => some ([], rest)
  | '\\' :: 'u' :: a :: b :: c :: d :: rest => do
    let u ← unit? a b c d
    let (units, rest) ← readQuoted rest
    some (u :: units, rest)
  | '\\' :: c :: rest => do
    let u ← escaped? c
    let (units, rest) ← readQuoted rest
    some (u :: units, rest)
  | c :: rest =>
    if c.toNat < 32 ∨ c = '\\' then none
    else (readQuoted rest).map fun (units, rest) => (c.toNat :: units, rest)

/-- The digits at the start of a text. -/
def readDigits (s : List Char) : List Nat × List Char :=
  ((s.takeWhile Char.isDigit).map fun c => c.toNat - 48, s.dropWhile Char.isDigit)

/-- The whole part: a zero alone, or digits that do not start with one. -/
def readWhole (s : List Char) : Option (List Nat × List Char) :=
  match readDigits s with
  | ([], _) => none
  | (0 :: _ :: _, _) => none
  | whole => some whole

def readFraction : List Char → Option (List Nat × List Char)
  | '.' :: s =>
    match readDigits s with
    | ([], _) => none
    | fraction => some fraction
  | s => some ([], s)

def readExponent : List Char → Option (Option (Bool × List Nat) × List Char)
  | c :: s =>
    if c = 'e' ∨ c = 'E' then
      let (down, s) := match s with
        | '+' :: s => (false, s)
        | '-' :: s => (true, s)
        | s => (false, s)
      match readDigits s with
      | ([], _) => none
      | (digits, s) => some (some (down, digits), s)
    else some (none, c :: s)
  | [] => some (none, [])

def readNumeral (s : List Char) : Option (Numeral × List Char) := do
  let (negative, s) := match s with
    | '-' :: s => (true, s)
    | s => (false, s)
  let (whole, s) ← readWhole s
  let (fraction, s) ← readFraction s
  let (exponent, s) ← readExponent s
  some (⟨negative, whole, fraction, exponent⟩, s)

mutual

/-- Reads a value, after blanks. Every call reads a character or hands on to one that does, so fuel
of twice the length of the text is enough. -/
def readValue : Nat → List Char → Option (Document × List Char)
  | 0, _ => none
  | fuel + 1, s =>
    match skipBlanks s with
    | 'n' :: 'u' :: 'l' :: 'l' :: rest => some (.null, rest)
    | 't' :: 'r' :: 'u' :: 'e' :: rest => some (.bool true, rest)
    | 'f' :: 'a' :: 'l' :: 's' :: 'e' :: rest => some (.bool false, rest)
    | '"' :: rest => (readQuoted rest).map fun (q, rest) => (.string q, rest)
    | '[' :: rest =>
      match skipBlanks rest with
      | ']' :: rest => some (.array [], rest)
      | rest => (readItems fuel rest).map fun (items, rest) => (.array items, rest)
    | '{' :: rest =>
      match skipBlanks rest with
      | '}' :: rest => some (.object [], rest)
      | rest => (readMembers fuel rest).map fun (members, rest) => (.object members, rest)
    | rest => (readNumeral rest).map fun (numeral, rest) => (.number numeral, rest)

/-- Reads one item or more, up to the closing bracket. -/
def readItems : Nat → List Char → Option (List Document × List Char)
  | 0, _ => none
  | fuel + 1, s => do
    let (item, s) ← readValue fuel s
    match skipBlanks s with
    | ']' :: rest => some ([item], rest)
    | ',' :: rest =>
      let (items, rest) ← readItems fuel rest
      some (item :: items, rest)
    | _ => none

/-- Reads one member or more, up to the closing brace. -/
def readMembers : Nat → List Char → Option (List (Quoted × Document) × List Char)
  | 0, _ => none
  | fuel + 1, s =>
    match skipBlanks s with
    | '"' :: rest => do
      let (name, rest) ← readQuoted rest
      match skipBlanks rest with
      | ':' :: rest =>
        let (value, rest) ← readValue fuel rest
        match skipBlanks rest with
        | '}' :: rest => some ([(name, value)], rest)
        | ',' :: rest =>
          let (members, rest) ← readMembers fuel rest
          some ((name, value) :: members, rest)
        | _ => none
      | _ => none
    | _ => none

end

/-- The document that a text holds, with nothing but blanks around it. -/
def read? (text : String) : Option Document :=
  match readValue (2 * text.length + 2) text.toList with
  | some (document, rest) => if (skipBlanks rest).isEmpty then some document else none
  | none => none

end Document

end CoopTasks
