/-!
The text encoding of class files. A string is taken as UTF-16 units, and every unit is written
by itself in one to three bytes: NUL takes two bytes, so that no byte is zero, and a character
beyond the first plane takes three bytes for either half of its surrogate pair.
-/

namespace Injection.ModifiedUtf8

def unitsOfChar (c : Char) : List Nat :=
  if c.toNat < 0x10000 then [c.toNat]
  else [0xd800 + (c.toNat - 0x10000) / 0x400, 0xdc00 + (c.toNat - 0x10000) % 0x400]

def bytesOfUnit (u : Nat) : List UInt8 :=
  if 0 < u && u < 0x80 then [UInt8.ofNat u]
  else if u < 0x800 then [UInt8.ofNat (0xc0 + u / 0x40), UInt8.ofNat (0x80 + u % 0x40)]
  else
    [UInt8.ofNat (0xe0 + u / 0x1000), UInt8.ofNat (0x80 + u / 0x40 % 0x40),
      UInt8.ofNat (0x80 + u % 0x40)]

def encodeChars (cs : List Char) : List UInt8 :=
  (cs.flatMap unitsOfChar).flatMap bytesOfUnit

def encode (text : String) : List UInt8 := encodeChars text.toList

/-- The six bits that a byte adds to the unit begun before it. -/
def continuation? (b : UInt8) : Option Nat :=
  if 0x80 ≤ b.toNat && b.toNat < 0xc0 then some (b.toNat - 0x80) else none

/-- Reads bytes as units. A zero byte, a byte above `0xEF` and a broken group are refused; a
unit may be written longer than need be. -/
def unitsOfBytes : List UInt8 → Option (List Nat)
  | [] => some []
  | a :: rest =>
    let n := a.toNat
    if n = 0 then none
    else if n < 0x80 then (unitsOfBytes rest).map (n :: ·)
    else if n < 0xc0 then none
    else if n < 0xe0 then
      match rest with
      | b :: rest => do
        let low ← continuation? b
        let units ← unitsOfBytes rest
        return ((n - 0xc0) * 0x40 + low) :: units
      | [] => none
    else if n < 0xf0 then
      match rest with
      | b :: c :: rest => do
        let mid ← continuation? b
        let low ← continuation? c
        let units ← unitsOfBytes rest
        return ((n - 0xe0) * 0x1000 + mid * 0x40 + low) :: units
      | _ => none
    else none

/-- Tells the first half of a surrogate pair. -/
def isHighHalf (u : Nat) : Bool := 0xd800 ≤ u && u < 0xdc00

/-- Tells the second half of a surrogate pair. -/
def isLowHalf (u : Nat) : Bool := 0xdc00 ≤ u && u < 0xe000

/-- Reads units as characters; a half without its partner is refused. -/
def charsOfUnits : List Nat → Option (List Char)
  | [] => some []
  | u :: rest =>
    if isHighHalf u then
      match rest with
      | v :: rest =>
        if isLowHalf v then
          (charsOfUnits rest).map
            (Char.ofNat (0x10000 + (u - 0xd800) * 0x400 + (v - 0xdc00)) :: ·)
        else none
      | [] => none
    else if isLowHalf u then none
    else (charsOfUnits rest).map (Char.ofNat u :: ·)

def decode? (bytes : List UInt8) : Option String := do
  let units ← unitsOfBytes bytes
  let cs ← charsOfUnits units
  return String.ofList cs

end Injection.ModifiedUtf8
