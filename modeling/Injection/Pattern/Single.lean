import Injection.Text.Blank
import Injection.Text.Hex

/-!
The parts of a pattern that stand for one character or for one place. A pattern is a regular
expression. It is kept as it was written, so the modules on patterns say only which texts are
patterns.

There are no tables of the characters beyond ASCII: no classes of them, and no pairs of letters
that differ in case. A pattern that would need one is refused, and so is one that could take a
character apart into bytes.
-/

namespace Injection.Pattern

/-- How a part of a pattern is read. -/
structure Mode where
  /-- A letter stands for both of its cases. -/
  caseless : Bool
  /-- Characters may be any of Unicode; otherwise a pattern is about bytes. -/
  unicode : Bool
  /-- Blanks do not count, and comments run from a number sign to the end of the line. -/
  spaced : Bool
deriving DecidableEq, Inhabited

namespace Mode

def standard : Mode := ⟨false, true, false⟩

/-- Passes blanks and comments; `inComment` tells that the text begins inside a comment. -/
def pass (inComment : Bool) : List Char → List Char
  | [] => []
  | c :: cs =>
    if inComment then pass (c ≠ '\n') cs
    else if Blank.isBlank c then pass false cs
    else if c = '#' then pass true cs
    else c :: cs

def skip (m : Mode) (cs : List Char) : List Char := if m.spaced then pass false cs else cs

/-- Passes blanks and one number sign among them. -/
def passMark (marked : Bool) : List Char → List Char
  | [] => []
  | c :: cs =>
    if Blank.isBlank c then passMark marked cs
    else if c = '#' && !marked then passMark true cs
    else c :: cs

/-- The character after a hyphen that tells whether the hyphen makes a range. Where blanks do not
count, the mark of a comment is passed but not the comment. -/
def following? (m : Mode) (cs : List Char) : Option Char :=
  if m.spaced then (passMark false cs).head? <|> cs.head? else cs.head?

end Mode

inductive Single where
  /-- A character; `byte` tells one that is written by two digits. -/
  | literal (c : Char) (byte : Bool)
  /-- A digit, a blank or a character of words, or any other character. -/
  | kind (negated : Bool)
  /-- A place: an end of the text or of a line, or of a word. -/
  | place (word : Bool)
  /-- Any character on a line. -/
  | any
deriving DecidableEq, Inhabited

namespace Single

def isAscii (c : Char) : Bool := c.toNat < 128

def isAllowed (m : Mode) : Single → Bool
  | literal c byte => if m.unicode then !m.caseless else isAscii c || !(byte || m.caseless)
  | kind negated => !(m.unicode || negated)
  | place word => !(m.unicode && word)
  | any => m.unicode

def isAllowedInClass (m : Mode) : Single → Bool
  | literal c _ => if m.unicode then !m.caseless else isAscii c
  | kind negated => !(m.unicode || negated)
  | _ => false

end Single

/-- Reads hexadecimal digits, as many as `count`, after those with the value `code`. -/
def readDigits (m : Mode) : (count code : Nat) → List Char → Option (Nat × List Char)
  | 0, code, cs => some (code, cs)
  | count + 1, code, cs =>
    match m.skip cs with
    | [] => none
    | c :: cs => (Hex.digitValue? c).bind fun d => readDigits m count (16 * code + d) cs

def readCode (m : Mode) (count : Nat) (cs : List Char) : Option (Single × List Char) := do
  let (code, cs) ← readDigits m count 0 cs
  guard code.isValidChar
  return (.literal (Char.ofNat code) (count = 2), cs)

def controls : List (Char × Char) :=
  [('a', '\x07'), ('f', '\x0c'), ('n', '\n'), ('r', '\r'), ('t', '\t'), ('v', '\x0b')]

def readEscape (m : Mode) : List Char → Option (Single × List Char)
  | [] => none
  | c :: cs =>
    if c = 'x' then readCode m 2 cs
    else if c = 'u' then readCode m 4 cs
    else if c = 'U' then readCode m 8 cs
    else if ['d', 's', 'w'].contains c then some (.kind false, cs)
    else if ['D', 'S', 'W'].contains c then some (.kind true, cs)
    else if ['A', 'z'].contains c then some (.place false, cs)
    else if ['b', 'B', '<', '>'].contains c then
      if c = 'b' && cs.head? = some '\x7b' then none else some (.place true, cs)
    else
      match List.lookup c controls with
      | some control => some (.literal control false, cs)
      | none =>
        if Single.isAscii c && !c.isAlphanum then some (.literal c false, cs) else none

def readSingle (m : Mode) : List Char → Option (Single × List Char)
  | [] => none
  | '\\' :: cs => readEscape m cs
  | '.' :: cs => some (.any, cs)
  | c :: cs =>
    if c = '^' || c = '$' then some (.place false, cs) else some (.literal c false, cs)

/-- Reads an end of a range in a class, or what may stand there. -/
def readClassSingle (m : Mode) : List Char → Option (Single × List Char)
  | [] => none
  | '\\' :: cs => readEscape m cs
  | c :: cs => some (.literal c false, cs)

end Injection.Pattern
