import Injection.Arithmetic
import Injection.ClassFile.Error

/-!
Numbers of fixed width. A result that does not fit is an error of its own, so that it can be said
that none arises.
-/

namespace Injection.Checked

/-- A natural that fits 8 bits. -/
def byte (n : Nat) : Except ClassFileError UInt8 :=
  if n < 2 ^ 8 then .ok (UInt8.ofNat n) else .error .overflow

/-- The difference of two naturals, which must not be negative. -/
def sub (a b : Nat) : Except ClassFileError Nat :=
  if b ≤ a then .ok (a - b) else .error .overflow

/-- A natural that fits 32 bits. -/
def word (n : Nat) : Except ClassFileError Nat :=
  if n < 2 ^ 32 then .ok n else .error .overflow

/-- An integer that fits 64 bits with its sign. -/
def signedLong (i : Int) : Except ClassFileError Int :=
  if -(2 ^ 63) ≤ i ∧ i < 2 ^ 63 then .ok i else .error .overflow

end Injection.Checked
