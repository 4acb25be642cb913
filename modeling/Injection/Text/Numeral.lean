import Injection.Arithmetic

/-!
Decimal integers: an optional sign and at least one digit, within bounds.
-/

namespace Injection.Numeral

def value (digits : List Char) : Nat := digits.foldl (fun n c => 10 * n + (c.toNat - '0'.toNat)) 0

/-- Reads digits, and nothing else. -/
def digits? (cs : List Char) : Option Nat :=
  if !cs.isEmpty && cs.all Char.isDigit then some (value cs) else none

/-- Reads an integer, which may have a sign. -/
def read? : List Char → Option Int
  | '+' :: cs => (digits? cs).map Int.ofNat
  | '-' :: cs => (digits? cs).map fun n => -(n : Int)
  | cs => (digits? cs).map Int.ofNat

/-- Reads a signed integer of the given number of bits. -/
def toSigned? (bits : Nat) (text : String) : Option Int := do
  let i ← read? text.toList
  if -2 ^ (bits - 1) ≤ i ∧ i < 2 ^ (bits - 1) then some i else none

/-- Reads a natural of the given number of bits. It may have a plus sign. -/
def toUnsigned? (bits : Nat) (text : String) : Option Nat := do
  let n ← match text.toList with
    | '+' :: cs => digits? cs
    | cs => digits? cs
  if n < 2 ^ bits then some n else none

end Injection.Numeral
