import Injection.Binary.Reading
import Injection.Text.Hex
import Injection.Text.Numeral

/-!
The parts of TOML text that lie on no level of nesting: blanks, comments, names, strings, numbers
and points in time. A reader takes characters from the front and hands back the rest.
-/

namespace Injection.Toml

/-- A reader of a text: what it read, and the text after it. -/
abbrev Reader (α : Type) := List Char → Option (α × List Char)

def isBlank (c : Char) : Bool := c = ' ' || c = '\t'

def skipBlanks (cs : List Char) : List Char := cs.dropWhile isBlank

/-- Tells a character that shows: no control other than a tab. -/
def isVisible (c : Char) : Bool := c = '\t' || (' ' ≤ c && c ≠ '\x7f')

def lineEnd? : List Char → Option (List Char)
  | '\n' :: cs => some cs
  | '\r' :: '\n' :: cs => some cs
  | _ => none

def skipComment : List Char → List Char
  | '#' :: cs => cs.dropWhile isVisible
  | cs => cs

/-- Passes the rest of a line on which nothing more may stand. -/
def finishLine (cs : List Char) : Option (List Char) :=
  match skipComment (skipBlanks cs) with
  | [] => some []
  | cs => lineEnd? cs

def skipLines : (bound : Nat) → List Char → Option (List Char)
  | 0, cs => some cs
  | bound + 1, cs =>
    match skipBlanks cs with
    | '#' :: cs => (lineEnd? (cs.dropWhile isVisible)).bind (skipLines bound)
    | cs =>
      match lineEnd? cs with
      | some rest => skipLines bound rest
      | none => some cs

/-! ### Strings -/

/-- Reads the given number of hexadecimal digits as the number of a character. -/
def readCode (count : Nat) : Reader Char := fun cs => do
  let digits ← (cs.take count).mapM Hex.digitValue?
  let code := digits.foldl (fun n d => 16 * n + d) 0
  if digits.length = count ∧ code.isValidChar then some (Char.ofNat code, cs.drop count) else none

def readEscape : Reader Char
  | 'b' :: cs => some ('\x08', cs)
  | 't' :: cs => some ('\t', cs)
  | 'n' :: cs => some ('\n', cs)
  | 'f' :: cs => some ('\x0c', cs)
  | 'r' :: cs => some ('\r', cs)
  | '"' :: cs => some ('"', cs)
  | '\\' :: cs => some ('\\', cs)
  | 'u' :: cs => readCode 4 cs
  | 'U' :: cs => readCode 8 cs
  | _ => none

/-- Puts a character before what a reader reads. -/
def prepend (c : Char) : Option (List Char × List Char) → Option (List Char × List Char) :=
  Option.map fun (text, cs) => (c :: text, cs)

/-- Reads a string on one line after its opening quote. -/
def readBasic : (bound : Nat) → Reader (List Char)
  | 0, _ => none
  | _ + 1, [] => none
  | bound + 1, c :: cs =>
    if c = '"' then some ([], cs)
    else if c = '\\' then (readEscape cs).bind fun (c, cs) => prepend c (readBasic bound cs)
    else if isVisible c then prepend c (readBasic bound cs)
    else none

/-- Reads a string without escapes after its opening quote. -/
def readLiteral (cs : List Char) : Option (List Char × List Char) :=
  let inside := fun c => isVisible c && c ≠ '\''
  match cs.dropWhile inside with
  | '\'' :: rest => some (cs.takeWhile inside, rest)
  | _ => none

/-- Passes lines on which nothing stands, and the blanks after them. -/
def skipEmptyLines : (bound : Nat) → List Char → List Char
  | 0, cs => cs
  | bound + 1, cs =>
    match lineEnd? (skipBlanks cs) with
    | some rest => skipEmptyLines bound rest
    | none => skipBlanks cs

/-- Passes the end of a line, blanks before it and empty lines after it. -/
def skipJoint (cs : List Char) : Option (List Char) :=
  (lineEnd? (skipBlanks cs)).map fun rest => skipEmptyLines rest.length rest

/-- Reads a string over several lines after its opening quotes. Up to two quotes may stand before
the three that end it; the end of a line is a line feed. With `escapes`, a backslash at the end
of a line joins it to the next text. -/
def readBlock (quote : Char) (escapes : Bool) : (bound : Nat) → Reader (List Char)
  | 0, _ => none
  | _ + 1, [] => none
  | bound + 1, c :: cs =>
    if c = quote then
      match cs.takeWhile (· = quote) with
      | [] => prepend c (readBlock quote escapes bound cs)
      | [_] => prepend c (readBlock quote escapes bound cs)
      | more =>
        let extra := min (more.length - 2) 2
        some (List.replicate extra quote, cs.drop (extra + 2))
    else if c = '\\' && escapes then
      match skipJoint cs with
      | some rest => readBlock quote escapes bound rest
      | none => (readEscape cs).bind fun (c, cs) => prepend c (readBlock quote escapes bound cs)
    else
      match lineEnd? (c :: cs) with
      | some rest => prepend '\n' (readBlock quote escapes bound rest)
      | none => if isVisible c then prepend c (readBlock quote escapes bound cs) else none

/-- Reads a string of any of the four forms. The end of a line right after three opening quotes
does not count. -/
def readString (cs : List Char) : Option (String × List Char) :=
  let block := fun quote escapes (cs : List Char) =>
    readBlock quote escapes (cs.length + 1) ((lineEnd? cs).getD cs)
  (match cs with
  | '"' :: '"' :: '"' :: cs => block '"' true cs
  | '\'' :: '\'' :: '\'' :: cs => block '\'' false cs
  | '"' :: cs => readBasic (cs.length + 1) cs
  | '\'' :: cs => readLiteral cs
  | _ => none).map fun (text, cs) => (String.ofList text, cs)

/-! ### Names -/

def isNameChar (c : Char) : Bool := c.isAlphanum || c = '-' || c = '_'

/-- Reads a name: bare or a string on one line. -/
def readName : Reader String
  | '"' :: cs => (readBasic (cs.length + 1) cs).map fun (text, cs) => (String.ofList text, cs)
  | '\'' :: cs => (readLiteral cs).map fun (text, cs) => (String.ofList text, cs)
  | cs =>
    let name := cs.takeWhile isNameChar
    if name.isEmpty then none else some (String.ofList name, cs.dropWhile isNameChar)

/-- Reads names with dots between them, blanks around each. -/
def readNames : (bound : Nat) → Reader (List String)
  | 0, _ => none
  | bound + 1, cs => do
    let (name, cs) ← readName (skipBlanks cs)
    match skipBlanks cs with
    | '.' :: cs =>
      let (path, cs) ← readNames bound cs
      return (name :: path, cs)
    | cs => return ([name], cs)

/-- The number of names that may stand with dots between them. -/
def maxNames : Nat := 79

def readPath : Reader (List String) := fun cs => do
  let (path, cs) ← readNames (cs.length + 1) cs
  guard (path.length ≤ maxNames)
  return (path, cs)

/-! ### Numbers -/

/-- Reads digits; single underscores may stand between them. -/
def readDigits (isDigit : Char → Bool) : Reader (List Char) := fun cs =>
  let word := cs.takeWhile fun c => isDigit c || c = '_'
  let parts := (String.ofList word).splitOn "_"
  if parts.contains "" then none
  else some (word.filter isDigit, cs.drop word.length)

def readSign : List Char → List Char × List Char
  | '+' :: cs => ([], cs)
  | '-' :: cs => (['-'], cs)
  | cs => ([], cs)

/-- Reads the digits of a whole number, which has no leading zero. -/
def readWhole : Reader (List Char)
  | '0' :: cs => some (['0'], cs)
  | cs => readDigits Char.isDigit cs

def isInteger (i : Int) : Bool := -2 ^ 63 ≤ i && i < 2 ^ 63

/-- Reads a natural in the given base after its mark. -/
def readBased (base : Nat) : Reader Int := fun cs => do
  let isDigit := fun c => (Hex.digitValue? c).any (· < base)
  let (digits, cs) ← readDigits isDigit cs
  let n := digits.foldl (fun n c => base * n + (Hex.digitValue? c).getD 0) 0
  if isInteger n then some ((n : Int), cs) else none

def readInteger : Reader Int
  | '0' :: 'x' :: cs => readBased 16 cs
  | '0' :: 'o' :: cs => readBased 8 cs
  | '0' :: 'b' :: cs => readBased 2 cs
  | cs => do
    let (sign, cs) := readSign cs
    let (digits, cs) ← readWhole cs
    let n : Int := Numeral.value digits
    let i := if sign.isEmpty then n else -n
    if isInteger i then some (i, cs) else none

/-- Reads the exponent of a number, if there is one. -/
def readExponent : Reader (List Char)
  | c :: cs =>
    if c = 'e' || c = 'E' then do
      let (sign, cs) := readSign cs
      let (digits, cs) ← readDigits Char.isDigit cs
      return ('e' :: sign ++ digits, cs)
    else some ([], c :: cs)
  | [] => some ([], [])

/-- Reads a number with a fraction, an exponent or both. -/
def readFraction (cs : List Char) : Option (String × List Char) := do
  let (sign, cs) := readSign cs
  let (whole, cs) ← readWhole cs
  match cs with
  | '.' :: cs =>
    let (fraction, cs) ← readDigits Char.isDigit cs
    let (exponent, cs) ← readExponent cs
    return (String.ofList (sign ++ whole ++ '.' :: fraction ++ exponent), cs)
  | cs =>
    let (exponent, cs) ← readExponent cs
    guard !exponent.isEmpty
    return (String.ofList (sign ++ whole ++ exponent), cs)

/-- Tells a number that is past the largest one. -/
def isTooLarge (text : String) : Bool :=
  BinaryFormat.double.read? text = some BinaryFormat.double.infinityBits

/-- Reads a number that is not an integer: one with a fraction or an exponent, which may not be too
large, or one of the words for infinity and for no number. -/
def readDecimal (cs : List Char) : Option (String × List Char) :=
  let (sign, rest) := readSign cs
  if ['i', 'n', 'f'].isPrefixOf rest || ['n', 'a', 'n'].isPrefixOf rest then
    some (String.ofList (sign ++ rest.take 3), rest.drop 3)
  else do
    let (text, rest) ← readFraction cs
    guard !(isTooLarge text)
    return (text, rest)

/-! ### Points in time -/

/-- Reads a number of exactly `width` digits within bounds. -/
def readField (width low high : Nat) : Reader Nat := fun cs =>
  let digits := cs.take width
  let n := Numeral.value digits
  if digits.length = width && digits.all Char.isDigit && low ≤ n && n ≤ high then
    some (n, cs.drop width)
  else none

def pass (c : Char) : List Char → Option (List Char)
  | d :: cs => if c = d then some cs else none
  | [] => none

def isLeapYear (year : Nat) : Bool := year % 4 = 0 && (year % 100 ≠ 0 || year % 400 = 0)

def daysOfMonth (year month : Nat) : Nat :=
  if month = 2 then (if isLeapYear year then 29 else 28)
  else if [4, 6, 9, 11].contains month then 30
  else 31

def passDate (cs : List Char) : Option (List Char) := do
  let (year, cs) ← readField 4 0 9999 cs
  let (month, cs) ← readField 2 1 12 (← pass '-' cs)
  let (_, cs) ← readField 2 1 (daysOfMonth year month) (← pass '-' cs)
  return cs

/-- Passes a time of day. Its seconds may have a fraction. -/
def passClock (cs : List Char) : Option (List Char) := do
  let (_, cs) ← readField 2 0 23 cs
  let (_, cs) ← readField 2 0 59 (← pass ':' cs)
  let (_, cs) ← readField 2 0 60 (← pass ':' cs)
  match cs with
  | '.' :: rest => if rest.head?.any Char.isDigit then some (rest.dropWhile Char.isDigit) else none
  | _ => some cs

/-- Passes the distance from universal time, if there is one. -/
def passOffset (cs : List Char) : Option (List Char) :=
  match cs with
  | c :: rest =>
    if c = 'Z' || c = 'z' then some rest
    else if c = '+' || c = '-' then do
      let (_, rest) ← readField 2 0 23 rest
      let (_, rest) ← readField 2 0 59 (← pass ':' rest)
      return rest
    else some cs
  | [] => some []

/-- Passes a point in time: a date, a time of day, or both. -/
def passTime (cs : List Char) : Option (List Char) :=
  match passDate cs with
  | some rest =>
    match rest with
    | c :: clock =>
      if c = 'T' || c = 't' then (passClock clock).bind passOffset
      else if c = ' ' then
        match passClock clock with
        | some rest => passOffset rest
        | none => some rest
      else some rest
    | [] => some []
  | none => passClock cs

/-- Reads a point in time as it was written. -/
def readTime : Reader String := fun cs =>
  (passTime cs).map fun rest => (String.ofList (cs.take (cs.length - rest.length)), rest)

end Injection.Toml
