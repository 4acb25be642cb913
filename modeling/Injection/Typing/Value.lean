import Injection.Instruction

/-!
The types that the analysis gives to locals and stack entries.
-/

namespace Injection

/-- The type of a local or a stack entry. A reference is given by its descriptor. -/
inductive TypeValue where
  /-- Never set, or set to values that do not go together. -/
  | unset
  | int
  | float
  | long
  | double
  | reference (desc : String)
  | null
  | uninitializedThis
  /-- The object made at a position, before its constructor ran. -/
  | fresh (position : Nat)
  | returnAddress
deriving DecidableEq, Hashable, Inhabited

namespace TypeValue

def size : TypeValue → Nat
  | long | double => 2
  | _ => 1

def isReference : TypeValue → Bool
  | reference _ | null | uninitializedThis | fresh _ => true
  | _ => false

/-- The value of a type descriptor, told by its first letter; the small integer types are
integers. -/
def ofDescriptor (desc : String) : TypeValue :=
  match desc.toList with
  | c :: _ =>
    if c = 'Z' || c = 'B' || c = 'C' || c = 'S' || c = 'I' then int
    else if c = 'F' then float
    else if c = 'J' then long
    else if c = 'D' then double
    else if c = 'L' || c = '[' then reference desc
    else unset
  | [] => unset

def object (name : String) : TypeValue := reference (classOperandDescriptor name)

/-- The class above all others. -/
def objectClass : String := "java/lang/Object"

/-- The descriptor for a table of locals, for values that have one. -/
def descriptor? : TypeValue → Option String
  | int => some "I"
  | float => some "F"
  | long => some "J"
  | double => some "D"
  | reference desc => some desc
  | null => some (classOperandDescriptor objectClass)
  | _ => none

def text : TypeValue → String
  | unset => "."
  | int => "I"
  | float => "F"
  | long => "J"
  | double => "D"
  | reference desc => desc
  | null => "null"
  | uninitializedThis => "uninit(this)"
  | fresh position => "uninit(#" ++ toString position ++ ")"
  | returnAddress => "R"

end TypeValue

end Injection
