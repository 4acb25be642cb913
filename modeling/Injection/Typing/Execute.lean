import Injection.Cancellation
import Injection.Method
import Injection.Typing.StackMove

/-!
The effect of an instruction on the types of the locals and the stack.
-/

namespace Injection

/-- The reasons for which a method has no types. -/
inductive AnalyzeError where
  | stackUnderflow (position : Nat)
  | stackMismatch (position : Nat)
  | unsupportedSubroutine (position : Nat)
  | invalidLocal (position : Nat) (slot : UInt16)
  | missingLabel (label : Label)
  | invalidDescriptor (text : String)
  | cancelled
  /-- The types still changed when the bound on the number of steps was reached. -/
  | unsettled
deriving DecidableEq, Inhabited

namespace AnalyzeError

def place (position : Nat) : String := "#" ++ toString position

def message : AnalyzeError → String
  | stackUnderflow position => "operand stack underflow at " ++ place position
  | stackMismatch position => "incompatible stack heights merging into " ++ place position
  | unsupportedSubroutine position =>
    "subroutines (jsr/ret) are not supported, found at " ++ place position
  | invalidLocal position slot =>
    "local variable " ++ toString slot.toNat ++ " out of range at " ++ place position
  | missingLabel label => "label " ++ label.text ++ " is not part of the method"
  | invalidDescriptor text => "invalid descriptor: " ++ text
  | cancelled => Cancelled.message .cancelled
  | unsettled => Cancelled.message .unsettled

end AnalyzeError

/-- The types before an instruction. The stack has its top first. -/
@[ext] structure TypeFrame where
  locals : List TypeValue
  stack : List TypeValue
deriving DecidableEq, Inhabited

namespace TypeFrame

/-- Puts another value in the place of every copy of one. -/
def replaceAll (f : TypeFrame) (old new : TypeValue) : TypeFrame :=
  let replace := fun v => if v = old then new else v
  ⟨f.locals.map replace, f.stack.map replace⟩

/-- The types on entry to a method: the receiver, the parameters, and unset locals up to the
number that the method declares. -/
def entry (owner : String) (m : Method) : Except AnalyzeError TypeFrame := do
  match MethodDescriptor.parse m.desc with
  | .error _ => throw (.invalidDescriptor m.desc)
  | .ok desc =>
    let receiver :=
      if m.isStatic then []
      else if m.isConstructor then [.uninitializedThis]
      else [.object owner]
    let params := desc.params.flatMap fun p =>
      let v := TypeValue.ofDescriptor p.descriptor
      if v.size = 2 then [v, .unset] else [v]
    let given := receiver ++ params
    return ⟨given ++ List.replicate (m.maxLocals.toNat - given.length) .unset, []⟩

end TypeFrame

namespace Typing

/-- Drops entries from the stack; `none` when there are too few. -/
def drop? : (count : Nat) → List TypeValue → Option (List TypeValue)
  | 0, s => some s
  | _ + 1, [] => none
  | count + 1, _ :: s => drop? count s

/-- What an instruction without operands takes from the stack and puts on it. -/
structure StackEffect where
  taken : Nat
  given : List TypeValue
deriving DecidableEq, Inhabited

namespace StackEffect

def none : StackEffect := ⟨0, []⟩

def push (v : TypeValue) : StackEffect := ⟨0, [v]⟩

def unary (v : TypeValue) : StackEffect := ⟨1, [v]⟩

def binary (v : TypeValue) : StackEffect := ⟨2, [v]⟩

/-- The numeric types in the order in which the opcodes of an operation have them. -/
def numeric (index : Nat) : TypeValue :=
  match index % 4 with
  | 0 => .int
  | 1 => .long
  | 2 => .float
  | _ => .double

/-- The effect of an opcode that neither moves entries nor reads an item of an object array. -/
def ofOpcode (op : Opcode) : StackEffect :=
  let n := op.toNat
  if n = 0 then none
  else if n = 1 then push .null
  else if n ≤ 8 then push .int
  else if n ≤ 10 then push .long
  else if n ≤ 13 then push .float
  else if n ≤ 15 then push .double
  else if n < 46 then none
  else if n ≤ 49 then binary (numeric (n - 46))
  else if 51 ≤ n ∧ n ≤ 53 then binary .int
  else if 79 ≤ n ∧ n ≤ 86 then ⟨3, []⟩
  else if 96 ≤ n ∧ n ≤ 115 then binary (numeric (n - 96))
  else if 116 ≤ n ∧ n ≤ 119 then unary (numeric (n - 116))
  else if 120 ≤ n ∧ n ≤ 131 then binary (if n % 2 = 0 then .int else .long)
  else if n = 133 ∨ n = 140 ∨ n = 143 then unary .long
  else if n = 134 ∨ n = 137 ∨ n = 144 then unary .float
  else if n = 135 ∨ n = 138 ∨ n = 141 then unary .double
  else if n = 136 ∨ n = 139 ∨ n = 142 then unary .int
  else if 145 ≤ n ∧ n ≤ 147 then unary .int
  else if 148 ≤ n ∧ n ≤ 152 then binary .int
  else if 172 ≤ n ∧ n ≤ 176 then ⟨1, []⟩
  else if n = 190 then unary .int
  else if n = 191 ∨ n = 194 ∨ n = 195 then ⟨1, []⟩
  else none

def apply (e : StackEffect) (s : List TypeValue) : Option (List TypeValue) :=
  (drop? e.taken s).map (e.given ++ ·)

end StackEffect

def itemType : TypeValue → TypeValue
  | .reference desc =>
    match desc.toList with
    | '[' :: item => .ofDescriptor (String.ofList item)
    | _ => .object TypeValue.objectClass
  | .null => .null
  | _ => .object TypeValue.objectClass

/-- The effect of an instruction without operands on the stack. -/
def plain (op : Opcode) (s : List TypeValue) : Option (List TypeValue) :=
  match StackMove.ofOpcode? op with
  | some move => move.apply s
  | none =>
    if op = .aaload then
      match s with
      | _ :: array :: rest => some (itemType array :: rest)
      | _ => none
    else (StackEffect.ofOpcode op).apply s

/-- The type of an array of a base type, by the code for it. -/
def baseArray (code : Int32) : String :=
  match code.toInt with
  | 4 => "[Z"
  | 5 => "[C"
  | 6 => "[F"
  | 7 => "[D"
  | 8 => "[B"
  | 9 => "[S"
  | 11 => "[J"
  | _ => "[I"

/-- Stores a value in a slot. A value of two words unsets the slot after it, and any value unsets
a value of two words that reached into its slot. -/
def store (locals : List TypeValue) (slot : Nat) (v : TypeValue) : Option (List TypeValue) :=
  if locals.length < slot + v.size then none
  else
    let split := slot ≠ 0 && (locals[slot - 1]?).any (·.size = 2)
    let locals := if split then locals.set (slot - 1) .unset else locals
    let locals := locals.set slot v
    some (if v.size = 2 then locals.set (slot + 1) .unset else locals)

def ofConstant : Constant → TypeValue
  | .int _ => .int
  | .float _ => .float
  | .long _ => .long
  | .double _ => .double
  | .string _ => .object "java/lang/String"
  | .classRef _ => .object "java/lang/Class"
  | .methodType _ => .object "java/lang/invoke/MethodType"
  | .methodHandle _ => .object "java/lang/invoke/MethodHandle"
  | .dynamic _ desc .. => .ofDescriptor desc

/-- The value a method gives back, if any. -/
def ofResult : ReturnType → List TypeValue
  | .void => []
  | .type t => [.ofDescriptor t.descriptor]

/-- The frame after a method call. A constructor call makes the receiver, and every copy of it,
an object of the class. -/
def call (owner : String) (op : Opcode) (target name : String) (m : MethodDescriptor)
    (f : TypeFrame) : Option TypeFrame := do
  let stack ← drop? m.params.length f.stack
  let f ← (if op = .invokestatic then some { f with stack }
    else
      match stack with
      | [] => none
      | receiver :: stack =>
        let f := { f with stack }
        if op = .invokespecial ∧ name = "<init>" then
          let made := if receiver = .uninitializedThis then .object owner else .object target
          some (f.replaceAll receiver made)
        else some f : Option TypeFrame)
  return { f with stack := ofResult m.result ++ f.stack }

/-- The frame with another stack, if there is one. -/
def onStack (position : Nat) (f : TypeFrame) : Option (List TypeValue) →
    Except AnalyzeError TypeFrame
  | some stack => .ok { f with stack }
  | none => .error (.stackUnderflow position)

/-- The frame after an instruction of a method of the class `owner`. -/
def execute (owner : String) (position : Nat) (i : Instruction) (f : TypeFrame) :
    Except AnalyzeError TypeFrame :=
  let effect := fun (taken : Nat) (given : List TypeValue) =>
    onStack position f ((StackEffect.mk taken given).apply f.stack)
  match i with
  | .label _ | .line .. | .frame _ => .ok f
  | .plain op => onStack position f (plain op f.stack)
  | .int op operand =>
    if op = .newarray then effect 1 [.reference (baseArray operand)] else effect 0 [.int]
  | .var op slot =>
    if Opcode.isLocalLoad op then
      match f.locals[slot.toNat]? with
      | some v => effect 0 [v]
      | none => .error (.invalidLocal position slot)
    else if Opcode.isLocalStore op then
      match f.stack with
      | [] => .error (.stackUnderflow position)
      | v :: stack =>
        match store f.locals slot.toNat v with
        | some locals => .ok ⟨locals, stack⟩
        | none => .error (.invalidLocal position slot)
    else .error (.unsupportedSubroutine position)
  | .type op desc =>
    if op = .newObject then effect 0 [.fresh position]
    else if op = .anewarray then effect 1 [.reference ("[" ++ classOperandDescriptor desc)]
    else if op = .checkcast then effect 1 [.reference (classOperandDescriptor desc)]
    else effect 1 [.int]
  | .field op _ _ desc =>
    if op = .getstatic then effect 0 [.ofDescriptor desc]
    else if op = .putstatic then effect 1 []
    else if op = .getfield then effect 1 [.ofDescriptor desc]
    else effect 2 []
  | .method op target name desc _ =>
    match MethodDescriptor.parse desc with
    | .error _ => .error (.invalidDescriptor desc)
    | .ok m =>
      match call owner op target name m f with
      | some f => .ok f
      | none => .error (.stackUnderflow position)
  | .invokeDynamic _ desc .. =>
    match MethodDescriptor.parse desc with
    | .error _ => .error (.invalidDescriptor desc)
    | .ok m => effect m.params.length (ofResult m.result)
  | .jump op _ =>
    if (Opcode.ifeq ≤ op ∧ op ≤ .ifle) ∨ op = .ifnull ∨ op = .ifnonnull then effect 1 []
    else if Opcode.ifIcmpeq ≤ op ∧ op ≤ .ifAcmpne then effect 2 []
    else if op = .goto then .ok f
    else .error (.unsupportedSubroutine position)
  | .ldc c => effect 0 [ofConstant c]
  | .iinc slot _ =>
    if slot.toNat < f.locals.length then .ok f else .error (.invalidLocal position slot)
  | .tableSwitch .. | .lookupSwitch .. => effect 1 []
  | .newMultiArray desc dims => effect dims.toNat [.reference desc]

end Typing

end Injection
