import Injection.Binary.Format

/-!
Decimal text of binary numbers: the fewest digits that read back as the same number, of those
the nearest to it, and of two equally near ones the larger. The digits are written
positionally, without an exponent, and a whole number without a point.
-/

namespace Injection.BinaryFormat

/-- A positive value `value / den` and the open or closed interval of ratios `low / den` to
`high / den` that round to it. -/
structure Interval where
  value : Nat
  low : Nat
  high : Nat
  den : Nat
  closed : Bool

/-- The interval of `m · 2 ^ q`, counted in quarters of the last place. Below a power of two the
neighbour is only half as far away. -/
def interval (f : BinaryFormat) (m : Nat) (q : Int) : Interval :=
  let down := if m = 2 ^ f.fractionBits && f.minExponent < q then 1 else 2
  let unit := if 2 ≤ q then 2 ^ (q - 2).toNat else 1
  let den := if 2 ≤ q then 1 else 2 ^ (2 - q).toNat
  ⟨4 * m * unit, (4 * m - down) * unit, (4 * m + 2) * unit, den, m % 2 = 0⟩

namespace Interval

/-- Tells whether `num / den` lies in the interval. -/
def contains (i : Interval) (num den : Nat) : Bool :=
  let x := num * i.den
  if i.closed then i.low * den ≤ x && x ≤ i.high * den
  else i.low * den < x && x < i.high * den

/-- The number `k` of digits before the point, or minus the number of zeros after it:
`10 ^ (k - 1) ≤ value / den < 10 ^ k`. -/
def magnitude (i : Interval) : Int :=
  if i.den ≤ i.value then (toString (i.value / i.den)).length
  else -((List.range 400).find? fun j => i.den ≤ i.value * 10 ^ (j + 1)).getD 400

/-- The grid point `d · 10 ^ e` as a ratio. -/
def gridPoint (d : Nat) (e : Int) : Nat × Nat :=
  if 0 ≤ e then (d * 10 ^ e.toNat, 1) else (d, 10 ^ (-e).toNat)

/-- The point of the grid of step `10 ^ e` that lies in the interval and is nearest to the
value, if there is one; only the two neighbours of the value can be it. -/
def hit (i : Interval) (e : Int) : Option Nat :=
  let (stepNum, stepDen) := gridPoint 1 e
  let num := i.value * stepDen
  let den := i.den * stepNum
  let floor := num / den
  let inside := fun d =>
    let (n, m) := gridPoint d e
    i.contains n m
  match inside floor, inside (floor + 1) with
  | true, true => some (if 2 * (num % den) < den then floor else floor + 1)
  | true, false => some floor
  | false, true => some (floor + 1)
  | false, false => none

/-- The shortest decimal `d · 10 ^ e` in the interval; `digits` is the largest count tried. -/
def shortest (i : Interval) (digits : Nat) : Nat × Int :=
  let k := i.magnitude
  ((List.range digits).findSome? fun (n : Nat) =>
    (i.hit (k - n - 1)).map fun d => (d, k - n - 1)).getD (0, 0)

end Interval

/-- Writes `d · 10 ^ e` positionally, without zeros at the end of a fraction. -/
def positional (d : Nat) (e : Int) : String :=
  let digits := (toString d).toList
  let zeros := (digits.reverse.takeWhile (· = '0')).length
  let kept := digits.take (digits.length - zeros)
  let e := e + zeros
  if kept.isEmpty then "0"
  else if 0 ≤ e then String.ofList (kept ++ List.replicate e.toNat '0')
  else
    let places := (-e).toNat
    if places < kept.length then
      String.ofList (kept.take (kept.length - places) ++ '.' :: kept.drop (kept.length - places))
    else
      String.ofList ('0' :: '.' :: List.replicate (places - kept.length) '0' ++ kept)

/-- The text of a bit pattern. Seventeen digits always tell two numbers apart. -/
def text (f : BinaryFormat) (bits : Nat) : String :=
  match f.decode bits with
  | .nan => "NaN"
  | .infinity negative => if negative then "-inf" else "inf"
  | .finite negative m q =>
    let body :=
      if m = 0 then "0"
      else
        let (d, e) := (f.interval m q).shortest 17
        positional d e
    if negative then "-" ++ body else body

end Injection.BinaryFormat
