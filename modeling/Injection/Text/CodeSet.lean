/-!
Sets of characters given by the code points at which membership changes.
-/

namespace Injection

/-- The increasing list of code points at which a set begins or ends; before the first of them a
character is outside. -/
structure CodeSet where
  changes : Array Nat

namespace CodeSet

/-- The number of changes at or before a code point, by halving the stretch from `lo` to `hi`
that is still open; `fuel` bounds the halvings. -/
def countUpTo (s : CodeSet) (code : Nat) : (fuel lo hi : Nat) → Nat
  | 0, lo, _ => lo
  | fuel + 1, lo, hi =>
    if hi ≤ lo then lo
    else
      let mid := (lo + hi) / 2
      if s.changes.getD mid 0 ≤ code then s.countUpTo code fuel (mid + 1) hi
      else s.countUpTo code fuel lo mid

/-- A character is in the set when an odd number of changes lies at or before it. -/
def contains (s : CodeSet) (c : Char) : Bool :=
  s.countUpTo c.toNat s.changes.size 0 s.changes.size % 2 = 1

end CodeSet

end Injection
