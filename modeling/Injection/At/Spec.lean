import Injection.Locals.Discriminator
import Injection.Opcode
import Injection.Span
import Injection.Text.Blank

/-!
What an annotation asks for: a kind of injection point with everything that narrows it down.
-/

namespace Injection

/-- How far from the instruction found the answer lies, counted in nodes. -/
inductive Shift where
  | none
  | before
  | after
  | moved (distance : Int32)
deriving DecidableEq, Inhabited

namespace Shift

def offset : Shift → Int
  | none => 0
  | before => -1
  | after => 1
  | moved distance => distance.toInt

end Shift

/-- A stretch of a method between two places; an open end is the end of the method. -/
structure Slice (α : Type) where
  id : String
  lower : Option α
  upper : Option α
deriving Inhabited

/-- All that an annotation says, apart from its slice. -/
structure Criteria where
  /-- The name of the kind of point. -/
  value : String
  /-- A selector, or what else the kind takes for a target. -/
  target : Option String
  /-- The place of the one candidate wanted; all of them if negative. -/
  ordinal : Int32
  /-- The opcode wanted; any if out of range. -/
  opcode : Int32
  shift : Shift
  /-- Further settings, written `key=value`. -/
  args : List String
  /-- The local variable wanted. -/
  local? : Option LocalDiscriminator
  /-- The place of the annotation in its document. -/
  span : Option Span
deriving DecidableEq, Inhabited

/-- An annotation. The ends of its slice are given by annotations again. -/
inductive AtSpec where
  | mk (criteria : Criteria) (slice : Option (Slice AtSpec))

namespace Criteria

def ofValue (value : String) : Criteria := ⟨value, none, -1, -1, .none, [], none, none⟩

def ordinal? (c : Criteria) : Option Nat :=
  if c.ordinal < 0 then none else some c.ordinal.toInt.toNat

def opcode? (c : Criteria) : Option Opcode :=
  if c.opcode < 0 || 255 < c.opcode then none else some (UInt8.ofNat c.opcode.toInt.toNat)

/-- Splits a setting at its first equals sign. A setting without one has the value `true`. -/
def splitArg (arg : String) : String × String :=
  let key := arg.toList.takeWhile (· ≠ '=')
  match arg.toList.dropWhile (· ≠ '=') with
  | [] => (Blank.strip arg, "true")
  | _ :: value => (Blank.strip (String.ofList key), Blank.strip (String.ofList value))

/-- The value of the first setting with a given key. -/
def arg? (c : Criteria) (key : String) : Option String := List.lookup key (c.args.map splitArg)

end Criteria

namespace AtSpec

instance : Inhabited AtSpec := ⟨mk default none⟩

def criteria : AtSpec → Criteria
  | mk criteria _ => criteria

def slice? : AtSpec → Option (Slice AtSpec)
  | mk _ slice => slice

/-- An annotation that says nothing but the kind of point. -/
def ofValue (value : String) : AtSpec := mk (.ofValue value) none

/-- Changes everything but the slice. -/
def withCriteria (a : AtSpec) (f : Criteria → Criteria) : AtSpec := mk (f a.criteria) a.slice?

end AtSpec

/-- One step in the making of an annotation. -/
inductive AtStep where
  | target (text : String)
  | ordinal (n : Int32)
  | opcode (o : Opcode)
  | shift (s : Shift)
  | arg (key value : String)
  | slice (s : Slice AtSpec)
  | span (s : Span)
  | localVariable (d : LocalDiscriminator)

namespace AtSpec

def apply (a : AtSpec) : AtStep → AtSpec
  | .target text => a.withCriteria ({ · with target := some text })
  | .ordinal n => a.withCriteria ({ · with ordinal := n })
  | .opcode o => a.withCriteria ({ · with opcode := Int32.ofNat o.toNat })
  | .shift s => a.withCriteria ({ · with shift := s })
  | .arg key value => a.withCriteria fun c => { c with args := c.args ++ [key ++ "=" ++ value] }
  | .slice s => mk a.criteria (some s)
  | .span s => a.withCriteria ({ · with span := some s })
  | .localVariable d => a.withCriteria ({ · with local? := some d })

end AtSpec

end Injection
