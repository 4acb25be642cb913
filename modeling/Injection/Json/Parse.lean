import Injection.Json.Basic

/-!
Reading JSON text. Values may be nested 127 deep. A reader hands back the text it did not use;
as every second step uses at least one character, twice the length of the text bounds the
recursion.
-/

namespace Injection.Json

def isBlank (c : Char) : Bool := c = ' ' || c = '\n' || c = '\t' || c = '\r'

def skipBlanks (cs : List Char) : List Char := cs.dropWhile isBlank

def readHex : (count : Nat) → Nat → List Char → Option (Nat × List Char)
  | 0, n, cs => some (n, cs)
  | _ + 1, _, [] => none
  | count + 1, n, c :: cs => (Hex.digitValue? c).bind fun d => readHex count (16 * n + d) cs

/-- Reads the four digits of an escaped unit and, if it is the first half of a surrogate pair,
the other half as well. A half without its partner is refused. -/
def readUnit (cs : List Char) : Option (Char × List Char) := do
  let (u, cs) ← readHex 4 0 cs
  if 0xd800 ≤ u ∧ u < 0xdc00 then
    match cs with
    | '\\' :: 'u' :: cs =>
      let (v, cs) ← readHex 4 0 cs
      if 0xdc00 ≤ v ∧ v < 0xe000 then
        return (Char.ofNat (0x10000 + (u - 0xd800) * 0x400 + (v - 0xdc00)), cs)
      else none
    | _ => none
  else if 0xdc00 ≤ u ∧ u < 0xe000 then none
  else return (Char.ofNat u, cs)

/-- The character that a letter stands for after a backslash. -/
def unescape? : Char → Option Char
  | '"' => some '"'
  | '\\' => some '\\'
  | '/' => some '/'
  | 'b' => some '\x08'
  | 'f' => some '\x0c'
  | 'n' => some '\n'
  | 'r' => some '\r'
  | 't' => some '\t'
  | _ => none

def readString : (bound : Nat) → List Char → Option (List Char × List Char)
  | 0, _ => none
  | _ + 1, [] => none
  | bound + 1, c :: cs =>
    if c = '"' then some ([], cs)
    else if c = '\\' then do
      let (c, cs) ← match cs with
        | 'u' :: cs => readUnit cs
        | c :: cs => (unescape? c).map (·, cs)
        | [] => none
      let (text, cs) ← readString bound cs
      return (c :: text, cs)
    else if c.toNat < 0x20 then none
    else do
      let (text, cs) ← readString bound cs
      return (c :: text, cs)

def readDigits (cs : List Char) : Option (List Char × List Char) :=
  let ds := cs.takeWhile Char.isDigit
  if ds.isEmpty then none else some (ds, cs.dropWhile Char.isDigit)

/-- The fraction of a number, if there is one. -/
def readFraction (cs : List Char) : Option (List Char × List Char) :=
  match cs with
  | '.' :: rest => (readDigits rest).map fun (ds, rest) => ('.' :: ds, rest)
  | _ => some ([], cs)

/-- The exponent of a number, if there is one. -/
def readExponent (cs : List Char) : Option (List Char × List Char) :=
  match cs with
  | c :: rest =>
    if c = 'e' || c = 'E' then
      let (sign, rest) := match rest with
        | '+' :: rest => ([], rest)
        | '-' :: rest => (['-'], rest)
        | _ => ([], rest)
      (readDigits rest).map fun (ds, rest) => ('e' :: sign ++ ds, rest)
    else some ([], cs)
  | [] => some ([], [])

/-- Reads a number. Its whole part has no leading zero. A negative zero is not an integer. -/
def readNumber (cs : List Char) : Option (Json × List Char) := do
  let (negative, cs) := match cs with
    | '-' :: cs => (true, cs)
    | _ => (false, cs)
  let (whole, cs) ← readDigits cs
  guard (whole.head? ≠ some '0' || whole.length = 1)
  let (fraction, cs) ← readFraction cs
  let (exponent, cs) ← readExponent cs
  let n := whole.foldl (fun n c => 10 * n + (c.toNat - '0'.toNat)) 0
  let sign := if negative then "-" else ""
  if fraction.isEmpty && exponent.isEmpty && !(negative && n = 0) then
    return (.int (if negative then -(n : Int) else n), cs)
  else return (.decimal (sign ++ String.ofList (whole ++ fraction ++ exponent)), cs)

/-- Drops a word from the front of a text. -/
def dropWord (word : String) (cs : List Char) : Option (List Char) :=
  if word.toList.isPrefixOf cs then some (cs.drop word.length) else none

mutual

/-- Reads a value in which values are nested less than `depth` deep. -/
def readValue (depth : Nat) : (bound : Nat) → List Char → Option (Json × List Char)
  | 0, _ => none
  | bound + 1, cs =>
    match skipBlanks cs with
    | '"' :: cs => (readString bound cs).map fun (text, cs) => (.string (String.ofList text), cs)
    | '[' :: cs =>
      match depth, skipBlanks cs with
      | 0, _ => none
      | _ + 1, ']' :: cs => some (.array [], cs)
      | depth + 1, cs => (readItems depth bound cs).map fun (items, cs) => (.array items, cs)
    | '\x7b' :: cs =>
      match depth, skipBlanks cs with
      | 0, _ => none
      | _ + 1, '\x7d' :: cs => some (.object [], cs)
      | depth + 1, cs => (readMembers depth bound cs).map fun (ms, cs) => (.object ms, cs)
    | cs =>
      match dropWord "null" cs with
      | some rest => some (.null, rest)
      | none =>
      match dropWord "true" cs with
      | some rest => some (.bool true, rest)
      | none =>
      match dropWord "false" cs with
      | some rest => some (.bool false, rest)
      | none => readNumber cs

/-- Reads the items of an array, of which there is at least one, and the closing bracket. -/
def readItems (depth : Nat) : (bound : Nat) → List Char → Option (List Json × List Char)
  | 0, _ => none
  | bound + 1, cs => do
    let (item, cs) ← readValue depth bound cs
    match skipBlanks cs with
    | ',' :: cs =>
      let (items, cs) ← readItems depth bound cs
      return (item :: items, cs)
    | ']' :: cs => return ([item], cs)
    | _ => none

/-- Reads the members of an object, of which there is at least one, and the closing brace. -/
def readMembers (depth : Nat) :
    (bound : Nat) → List Char → Option (List (String × Json) × List Char)
  | 0, _ => none
  | bound + 1, cs => do
    match skipBlanks cs with
    | '"' :: cs =>
      let (name, cs) ← readString bound cs
      match skipBlanks cs with
      | ':' :: cs =>
        let (value, cs) ← readValue depth bound cs
        match skipBlanks cs with
        | ',' :: cs =>
          let (members, cs) ← readMembers depth bound cs
          return ((String.ofList name, value) :: members, cs)
        | '\x7d' :: cs => return ([(String.ofList name, value)], cs)
        | _ => none
      | _ => none
    | _ => none

end

/-- The depth to which values may be nested. -/
def maxDepth : Nat := 127

/-- Reads a text that is one value and nothing more. -/
def parse? (text : String) : Option Json :=
  let cs := text.toList
  match readValue maxDepth (2 * cs.length + 2) cs with
  | some (j, rest) => if (skipBlanks rest).isEmpty then some j else none
  | none => none

end Injection.Json
