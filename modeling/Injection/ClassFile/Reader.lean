import Injection.Arithmetic
import Injection.ClassFile.Error

/-!
Reading big-endian numbers from a sequence of bytes. A reader gives back what it did not use, or
fails when the bytes run out.
-/

namespace Injection

/-- The bytes still to be read and the number of those already read. -/
structure Cursor where
  position : Nat
  rest : List UInt8
deriving DecidableEq, Inhabited

/-- A computation that reads bytes and may fail. -/
abbrev Reader := StateT Cursor (Except ClassFileError)

/-- The first `n` elements of a list and those after them, if there are so many. -/
def splitExactly {α : Type} : (n : Nat) → List α → Option (List α × List α)
  | 0, rest => some ([], rest)
  | _ + 1, [] => none
  | n + 1, a :: as => (splitExactly n as).map fun (front, rest) => (a :: front, rest)

theorem splitExactly_eq_some_iff {α : Type} {n : Nat} {as front rest : List α} :
    splitExactly n as = some (front, rest) ↔ front.length = n ∧ as = front ++ rest := by
  induction n generalizing as front with
  | zero =>
    constructor
    · intro h
      simp [splitExactly] at h
      simp [← h.1, ← h.2]
    · rintro ⟨h, rfl⟩
      rw [List.length_eq_zero_iff] at h
      simp [splitExactly, h]
  | succ n ih =>
    cases as with
    | nil =>
      constructor
      · intro h
        simp [splitExactly] at h
      · rintro ⟨h, hn⟩
        have := List.nil_eq_append_iff.1 hn
        simp [this.1] at h
    | cons a as =>
      constructor
      · intro h
        obtain ⟨⟨f, r⟩, hs, he⟩ := Option.map_eq_some_iff.1 h
        cases he
        obtain ⟨hl, rfl⟩ := ih.1 hs
        exact ⟨by simp [hl], rfl⟩
      · rintro ⟨hl, he⟩
        cases front with
        | nil => simp at hl
        | cons b front =>
          simp at hl he
          have hs := ih.2 ⟨hl, he.2⟩
          simp [splitExactly, hs, he.1]

namespace Cursor

def ofBytes (bytes : List UInt8) : Cursor := ⟨0, bytes⟩

end Cursor

namespace Reader

def bytes (n : Nat) : Reader (List UInt8) := fun c =>
  match splitExactly n c.rest with
  | some (front, rest) => .ok (front, ⟨c.position + n, rest⟩)
  | none => .error .unexpectedEnd

def bigEndian (bytes : List UInt8) : Nat := bytes.foldl (fun n b => 256 * n + b.toNat) 0

def u1 : Reader UInt8 := do return UInt8.ofNat (bigEndian (← bytes 1))

def u2 : Reader UInt16 := do return UInt16.ofNat (bigEndian (← bytes 2))

def u4 : Reader UInt32 := do return UInt32.ofNat (bigEndian (← bytes 4))

/-- Eight bytes are read as two numbers of four. -/
def u8 : Reader UInt64 := do
  let high ← u4
  let low ← u4
  return UInt64.ofNat (high.toNat * 2 ^ 32 + low.toNat)

def i1 : Reader Int8 := do return (← u1).toInt8

def i2 : Reader Int16 := do return (← u2).toInt16

def i4 : Reader Int32 := do return (← u4).toInt32

def times {α : Type} (r : Reader α) : Nat → Reader (List α)
  | 0 => pure []
  | n + 1 => do
    let a ← r
    let as ← r.times n
    return a :: as

/-- A count of two bytes and as many items. -/
def counted {α : Type} (r : Reader α) : Reader (List α) := do
  let n ← u2
  r.times n.toNat

/-- Fails unless all bytes are read; the name tells what they belong to. -/
def ensureEnd (name : String) : Reader Unit := fun c =>
  if c.rest.isEmpty then .ok ((), c) else .error (.trailingBytes name)

/-- Reads a sequence of bytes of its own. What it leaves over is dropped. -/
def within {α : Type} (bytes : List UInt8) (r : Reader α) : Reader α := fun c =>
  match r (Cursor.ofBytes bytes) with
  | .ok (a, _) => .ok (a, c)
  | .error e => .error e

def ofExcept {α : Type} (r : Except ClassFileError α) : Reader α := fun c =>
  match r with
  | .ok a => .ok (a, c)
  | .error e => .error e

end Reader

end Injection
