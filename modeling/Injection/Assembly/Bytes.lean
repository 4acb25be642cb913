import Injection.Arithmetic

/-!
Big-endian numbers. A number is cut to the width it is written in.
-/

namespace Injection.Bytes

/-- The last `width` bytes of a number, the highest first. -/
def bigEndian : (width : Nat) → Nat → List UInt8
  | 0, _ => []
  | w + 1, n => bigEndian w (n / 256) ++ [UInt8.ofNat n]

def u2 (n : Nat) : List UInt8 := bigEndian 2 n

def u4 (n : Nat) : List UInt8 := bigEndian 4 n

def u8 (n : Nat) : List UInt8 := bigEndian 8 n

/-- A negative number is written as its two's complement. -/
def i2 (i : Int) : List UInt8 := u2 (i % 2 ^ 16).toNat

def i4 (i : Int) : List UInt8 := u4 (i % 2 ^ 32).toNat

@[simp] theorem length_bigEndian (w n : Nat) : (bigEndian w n).length = w := by
  induction w generalizing n with
  | zero => rfl
  | succ w ih => simp [bigEndian, ih]

end Injection.Bytes
