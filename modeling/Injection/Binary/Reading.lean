import Injection.Binary.Format

/-!
Reading decimal text into a binary format. A number is an optional sign, digits with at most one
point among, before or after them, and an optional exponent; the words for infinity and for a
value that is not a number are taken in any case. The result is the nearest value, exactly.
-/

namespace Injection.BinaryFormat

/-- Splits off an optional sign; `true` is negative. -/
def splitSign : List Char → Bool × List Char
  | '-' :: cs => (true, cs)
  | '+' :: cs => (false, cs)
  | cs => (false, cs)

def digitsValue (ds : List Char) : Nat :=
  ds.foldl (fun n c => 10 * n + (c.toNat - '0'.toNat)) 0

/-- An exponent after its mark: an optional sign and at least one digit, and nothing more. -/
def readExponent (cs : List Char) : Option Int :=
  let (negative, ds) := splitSign cs
  if ds.isEmpty || ds.any (!·.isDigit) then none
  else some (if negative then -(digitsValue ds : Int) else digitsValue ds)

/-- Reads an unsigned number as its digits and a power of ten. -/
def readDecimal (cs : List Char) : Option (Nat × Int) := do
  let whole := cs.takeWhile Char.isDigit
  let rest := cs.dropWhile Char.isDigit
  let (fraction, rest) := match rest with
    | '.' :: more => (more.takeWhile Char.isDigit, more.dropWhile Char.isDigit)
    | _ => ([], rest)
  guard (!(whole ++ fraction).isEmpty)
  let e ← match rest with
    | [] => some 0
    | c :: more => if c = 'e' || c = 'E' then readExponent more else none
  return (digitsValue (whole ++ fraction), e - fraction.length)

/-- The magnitude bits nearest to `d · 10 ^ e`. Beyond four hundred places the value is past the
largest number or below half of the smallest, so no power needs to be computed. -/
def roundDecimal (f : BinaryFormat) (d : Nat) (e : Int) : Nat :=
  let places := (toString d).length
  if d = 0 || e + places < -400 then 0
  else if 400 < e + places then f.infinityBits
  else if 0 ≤ e then f.round (d * 10 ^ e.toNat) 1
  else f.round d (10 ^ (-e).toNat)

/-- The bit pattern of a decimal text, or `none` if the text is not a number. -/
def read? (f : BinaryFormat) (text : String) : Option Nat :=
  let (negative, cs) := splitSign text.toList
  let word := String.ofList (cs.map Char.toLower)
  if word = "inf" || word = "infinity" then some (f.withSign negative f.infinityBits)
  else if word = "nan" then some (f.withSign negative f.nanBits)
  else (readDecimal cs).map fun (d, e) => f.withSign negative (f.roundDecimal d e)

end Injection.BinaryFormat
