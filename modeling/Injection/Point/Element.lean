import Injection.Locals.Variable
import Injection.Name

/-!
What an instruction refers to, what a walk offers, and what it answers.
-/

namespace Injection

/-- A constant that code loads. A class is given by its internal name or its array descriptor,
a floating-point number by its bits. -/
inductive ConstantValue where
  | null
  | int (value : Int32)
  | float (bits : UInt32)
  | long (value : Int64)
  | double (bits : UInt64)
  | string (text : String)
  | classOf (name : String)
deriving DecidableEq, Inhabited

namespace ConstantValue

def arg : ConstantValue → String
  | null => "nullValue=true"
  | int value => "intValue=" ++ toString value.toInt
  | float bits => "floatValue=" ++ BinaryFormat.single.text bits.toNat
  | long value => "longValue=" ++ toString value.toInt
  | double bits => "doubleValue=" ++ BinaryFormat.double.text bits.toNat
  | string text => "stringValue=" ++ text
  | classOf name => "classValue=" ++ Name.dotted name

end ConstantValue

inductive Element where
  /-- A place that refers to nothing. -/
  | place
  | method (owner name desc : String)
  | field (owner name desc : String)
  /-- An allocation, with the descriptor of the constructor that is called on the object. -/
  | allocation (className : String) (constructorDesc : Option String)
  | constant (value : ConstantValue)
  /-- A load or store, with the variable in the slot if it is known. -/
  | localVariable (slot : UInt16) (known : Option LocalVariable)
deriving DecidableEq, Inhabited

namespace Element

/-- The text that selects the element in an annotation. -/
def label? : Element → Option String
  | place => none
  | method owner name desc => some ("L" ++ owner ++ ";" ++ name ++ desc)
  | field owner name desc => some ("L" ++ owner ++ ";" ++ name ++ ":" ++ desc)
  | allocation className (some desc) =>
    let args := if desc.toList.getLast? = some 'V' then String.ofList desc.toList.dropLast else desc
    some (args ++ "L" ++ className ++ ";")
  | allocation className none => some ("L" ++ className ++ ";")
  | constant value => some value.arg
  | localVariable _ known => known.map (·.name)

end Element

inductive Decoration where
  /-- The instruction that measures or accesses the array read from a field. -/
  | arrayAccess (position : Nat)
  /-- The call of the constructor on an allocated object. -/
  | constructorCall (position : Nat)
  /-- The call whose result is stored in front of the place. -/
  | invocation (position : Nat)
deriving DecidableEq, Inhabited

structure Candidate where
  position : Nat
  element : Element
  /-- The class through which a member is referred to. -/
  qualifier : Option String
  decorations : List Decoration
deriving DecidableEq, Inhabited

namespace Candidate

def place (position : Nat) : Candidate := ⟨position, .place, none, []⟩

end Candidate

structure Match where
  /-- The number of candidates offered before it. -/
  index : Nat
  /-- The instruction that was offered. -/
  offered : Nat
  /-- The node that the shift leads to. -/
  position : Nat
  element : Element
  qualifier : Option String
  decorations : List Decoration
deriving DecidableEq, Inhabited

end Injection
