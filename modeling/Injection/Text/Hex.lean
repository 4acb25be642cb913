/-!
Hexadecimal text: fixed-width lower-case numbers, and byte strings with two digits a byte.
-/

namespace Injection.Hex

def digit (n : Nat) : Char :=
  if n < 10 then Char.ofNat ('0'.toNat + n) else Char.ofNat ('a'.toNat + n - 10)

/-- The value of a digit, in either case. -/
def digitValue? (c : Char) : Option Nat :=
  if '0' ≤ c && c ≤ '9' then some (c.toNat - '0'.toNat)
  else if 'a' ≤ c && c ≤ 'f' then some (c.toNat - 'a'.toNat + 10)
  else if 'A' ≤ c && c ≤ 'F' then some (c.toNat - 'A'.toNat + 10)
  else none

def digits : (width : Nat) → Nat → List Char
  | 0, _ => []
  | w + 1, n => digits w (n / 16) ++ [digit (n % 16)]

/-- A number padded with zeros to `width` digits. -/
def fixed (width n : Nat) : String := String.ofList (digits width n)

/-- The digits of a number without leading zeros; zero is one digit. -/
def natural (n : Nat) : String := String.ofList (Nat.toDigits 16 n)

def ofBytes (bytes : List UInt8) : String :=
  String.ofList (bytes.flatMap fun b => digits 2 b.toNat)

def bytesOfChars : List Char → Option (List UInt8)
  | [] => some []
  | [_] => none
  | a :: b :: rest => do
    let high ← digitValue? a
    let low ← digitValue? b
    let bytes ← bytesOfChars rest
    return UInt8.ofNat (16 * high + low) :: bytes

def toBytes? (text : String) : Option (List UInt8) := bytesOfChars text.toList

/-- Reads a number of at least one digit. -/
def toNat? (text : String) : Option Nat :=
  if text.isEmpty then none
  else text.toList.foldlM (fun n c => (digitValue? c).map (16 * n + ·)) 0

end Injection.Hex
