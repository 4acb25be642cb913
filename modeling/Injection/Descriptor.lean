import Injection.Arithmetic
import Injection.ClassFile.Error

/-!
Type descriptors of fields and methods: their trees, their written form, and reading them back.

Reading works on a list of characters and hands back what it did not use. Its error carries the
text at which no type could be read.
-/

namespace Injection

inductive BaseType where
  | byte
  | char
  | double
  | float
  | int
  | long
  | short
  | boolean
deriving DecidableEq, Hashable, Inhabited

namespace BaseType

/-- The letter of a base type in a descriptor. -/
def letter : BaseType → Char
  | byte => 'B'
  | char => 'C'
  | double => 'D'
  | float => 'F'
  | int => 'I'
  | long => 'J'
  | short => 'S'
  | boolean => 'Z'

def ofLetter? : Char → Option BaseType
  | 'B' => some byte
  | 'C' => some char
  | 'D' => some double
  | 'F' => some float
  | 'I' => some int
  | 'J' => some long
  | 'S' => some short
  | 'Z' => some boolean
  | _ => none

/-- The keyword of a base type in source text. -/
def keyword : BaseType → String
  | byte => "byte"
  | char => "char"
  | double => "double"
  | float => "float"
  | int => "int"
  | long => "long"
  | short => "short"
  | boolean => "boolean"

end BaseType

/-- The type of a field, a parameter or a local variable. -/
inductive FieldType where
  | base (type : BaseType)
  | object (name : String)
  | array (component : FieldType)
deriving DecidableEq, Hashable, Inhabited

namespace FieldType

/-- The number of local or stack slots that a value takes. -/
def slots : FieldType → Nat
  | base .long => 2
  | base .double => 2
  | _ => 1

def isReference : FieldType → Bool
  | base _ => false
  | _ => true

def chars : FieldType → List Char
  | base type => [type.letter]
  | object name => 'L' :: name.toList ++ [';']
  | array component => '[' :: component.chars

def descriptor (t : FieldType) : String := String.ofList t.chars

/-- Reads one type from the front of a text. The name of a class ends at the first `;` and is
not empty. -/
def read : List Char → Except ClassFileError (FieldType × List Char)
  | '[' :: rest => do
    let (component, rest) ← read rest
    return (array component, rest)
  | 'L' :: rest =>
    match rest.takeWhile (· ≠ ';'), rest.dropWhile (· ≠ ';') with
    | c :: name, _ :: after => .ok (object (String.ofList (c :: name)), after)
    | _, _ => .error (.invalidDescriptor (String.ofList ('L' :: rest)))
  | c :: rest =>
    match BaseType.ofLetter? c with
    | some type => .ok (base type, rest)
    | none => .error (.invalidDescriptor (String.ofList (c :: rest)))
  | [] => .error (.invalidDescriptor "")

/-- Reading uses up at least one character. -/
theorem length_rest_lt {cs rest : List Char} {t : FieldType} (h : read cs = .ok (t, rest)) :
    rest.length < cs.length := by
  induction cs generalizing t rest with
  | nil => simp [read] at h
  | cons c cs ih =>
    unfold read at h
    split at h
    · rename_i more heq
      cases heq
      cases hr : read cs with
      | error e => simp [hr, bind, Except.bind] at h
      | ok p =>
        simp [hr, bind, Except.bind, pure, Except.pure] at h
        have := ih hr
        simp [← h.2]
        omega
    · rename_i more heq
      cases heq
      split at h
      · rename_i hd
        cases h
        have hl := (List.dropWhile_sublist (l := cs) (· ≠ ';')).length_le
        rw [hd] at hl
        simp at hl ⊢
        omega
      · cases h
    · rename_i d more _ _ heq
      cases heq
      split at h
      · cases h
        simp
      · cases h
    · cases h

/-- Reads a text that is one type and nothing more. -/
def parse (text : String) : Except ClassFileError FieldType := do
  let (t, rest) ← read text.toList
  if rest.isEmpty then return t else throw (.invalidDescriptor text)

end FieldType

inductive ReturnType where
  | void
  | type (type : FieldType)
deriving DecidableEq, Hashable, Inhabited

namespace ReturnType

def slots : ReturnType → Nat
  | void => 0
  | type t => t.slots

def chars : ReturnType → List Char
  | void => ['V']
  | type t => t.chars

def descriptor (r : ReturnType) : String := String.ofList r.chars

def read : List Char → Except ClassFileError (ReturnType × List Char)
  | 'V' :: rest => .ok (void, rest)
  | cs => do
    let (t, rest) ← FieldType.read cs
    return (type t, rest)

end ReturnType

structure MethodDescriptor where
  params : List FieldType
  result : ReturnType
deriving DecidableEq, Hashable, Inhabited

namespace MethodDescriptor

/-- The slots of all parameters, without the receiver. -/
def argumentSlots (m : MethodDescriptor) : Nat := (m.params.map FieldType.slots).sum

def chars (m : MethodDescriptor) : List Char :=
  '(' :: m.params.flatMap FieldType.chars ++ ')' :: m.result.chars

def descriptor (m : MethodDescriptor) : String := String.ofList m.chars

/-- Reads parameter types up to the closing parenthesis and past it. -/
def readParams (cs : List Char) : Option (List FieldType × List Char) :=
  match cs with
  | [] => none
  | c :: rest =>
    if c = ')' then some ([], rest)
    else
      match used : FieldType.read (c :: rest) with
      | .error _ => none
      | .ok (t, after) =>
        have := FieldType.length_rest_lt used
        match readParams after with
        | none => none
        | some (ts, after) => some (t :: ts, after)
termination_by cs.length
decreasing_by assumption

/-- Reads a text that is one method type and nothing more. The error carries the whole text. -/
def parse (text : String) : Except ClassFileError MethodDescriptor :=
  let read? : Option MethodDescriptor :=
    match text.toList with
    | '(' :: rest =>
      match readParams rest with
      | some (params, rest) =>
        match ReturnType.read rest with
        | .ok (result, []) => some ⟨params, result⟩
        | _ => none
      | none => none
    | _ => none
  match read? with
  | some m => .ok m
  | none => .error (.invalidDescriptor text)

end MethodDescriptor

/-- The descriptor of a class operand: an array class is named by its descriptor already, any
other by its internal name. -/
def classOperandDescriptor (name : String) : String :=
  match name.toList with
  | '[' :: _ => name
  | cs => String.ofList ('L' :: cs ++ [';'])

end Injection
