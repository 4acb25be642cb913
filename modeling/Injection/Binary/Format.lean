import Injection.Arithmetic

/-!
The binary floating-point formats of class files, as bit patterns.

`BinaryFormat.decode` takes a pattern apart into an integer times a power of two, and
`BinaryFormat.round` finds the pattern nearest to a ratio of naturals (of two equally near ones
the one with an even last bit), so that all text conversions are done in exact integer
arithmetic.
-/

namespace Injection

/-- A format is given by the widths of its fraction and of its exponent. -/
structure BinaryFormat where
  fractionBits : Nat
  exponentBits : Nat
deriving DecidableEq

/-- What a bit pattern stands for: `finite negative m q` is `m · 2 ^ q`, with its sign. -/
inductive BinaryDatum where
  | nan
  | infinity (negative : Bool)
  | finite (negative : Bool) (mantissa : Nat) (exponent : Int)
deriving DecidableEq, Inhabited

namespace BinaryFormat

def single : BinaryFormat := ⟨23, 8⟩

def double : BinaryFormat := ⟨52, 11⟩

/-- The power of two by which the smallest positive value is given. -/
def minExponent (f : BinaryFormat) : Int :=
  2 - (2 ^ (f.exponentBits - 1) : Nat) - f.fractionBits

/-- The magnitude bits of infinity; larger magnitudes are not numbers. -/
def infinityBits (f : BinaryFormat) : Nat :=
  (2 ^ f.exponentBits - 1) * 2 ^ f.fractionBits

def signBit (f : BinaryFormat) : Nat := 2 ^ (f.exponentBits + f.fractionBits)

def decode (f : BinaryFormat) (bits : Nat) : BinaryDatum :=
  let negative := bits / f.signBit % 2 = 1
  let magnitude := bits % f.signBit
  if f.infinityBits < magnitude then .nan
  else if magnitude = f.infinityBits then .infinity negative
  else
    let biased := magnitude / 2 ^ f.fractionBits
    let fraction := magnitude % 2 ^ f.fractionBits
    if biased = 0 then .finite negative fraction f.minExponent
    else .finite negative (fraction + 2 ^ f.fractionBits) (f.minExponent + biased - 1)

/-- The natural nearest to `num / den`; a half goes to the even neighbour. -/
def roundDiv (num den : Nat) : Nat :=
  let floor := num / den
  let twice := 2 * (num % den)
  if den < twice || (twice = den && floor % 2 = 1) then floor + 1 else floor

/-- The ratio `num / den · 2 ^ -q`, as a pair. -/
def scaled (num den : Nat) (q : Int) : Nat × Nat :=
  if 0 ≤ q then (num, den * 2 ^ q.toNat) else (num * 2 ^ (-q).toNat, den)

/-- The magnitude bits of the value nearest to `num / den`. -/
def round (f : BinaryFormat) (num den : Nat) : Nat :=
  if num = 0 || den = 0 then 0
  else
    let low := max f.minExponent ((num.log2 : Int) - den.log2 - 1 - f.fractionBits)
    let (n, d) := scaled num den low
    let q := if 2 ^ (f.fractionBits + 1) ≤ n / d then low + 1 else low
    let (n, d) := scaled num den q
    min f.infinityBits ((q - f.minExponent).toNat * 2 ^ f.fractionBits + roundDiv n d)

def withSign (f : BinaryFormat) (negative : Bool) (magnitude : Nat) : Nat :=
  if negative then f.signBit + magnitude else magnitude

/-- The order of patterns that are numbers is that of these keys. The two zeros have one key. -/
def orderKey (f : BinaryFormat) (bits : Nat) : Int :=
  let magnitude : Int := (bits % f.signBit : Nat)
  if bits / f.signBit % 2 = 1 then -magnitude else magnitude

def nanBits (f : BinaryFormat) : Nat := f.infinityBits + 2 ^ (f.fractionBits - 1)

end BinaryFormat

end Injection
