import Injection.Method

/-!
Building a method one call at a time. The builder keeps the locals of the last frame, one entry
for each value, so that a frame written relative to the one before it holds the complete state.
-/

namespace Injection

inductive BuilderCall where
  /-- Reserves the next unused label. -/
  | newLabel
  /-- Places a label. -/
  | label (label : Label)
  /-- Reserves the next unused label and places it. -/
  | mark
  | line (line : UInt32) (start : Label)
  | plain (opcode : Opcode)
  | int (opcode : Opcode) (operand : Int32)
  /-- Pushes an integer in the shortest form there is. -/
  | pushInt (value : Int32)
  | var (opcode : Opcode) (slot : UInt16)
  | type (opcode : Opcode) (desc : String)
  | field (opcode : Opcode) (owner name desc : String)
  | method (opcode : Opcode) (owner name desc : String)
  | invokeDynamic (name desc : String) (bootstrap : Handle) (args : List Constant)
  | jump (opcode : Opcode) (target : Label)
  | ldc (constant : Constant)
  | iinc (slot : UInt16) (amount : Int16)
  | tableSwitch (min max : Int32) (default : Label) (targets : List Label)
  | lookupSwitch (default : Label) (keys : List Int32) (targets : List Label)
  | newMultiArray (desc : String) (dims : UInt8)
  | frameSame
  | frameSame1 (stack : FrameValue)
  | frameAppend (locals : List FrameValue)
  /-- Drops the last values, not slots, of the current frame. -/
  | frameChop (count : Nat)
  | frameFull (locals stack : List FrameValue)
  | declareLocal (name desc : String) (start stop : Label) (slot : UInt16)
  | handler (start stop handler : Label) (catchType : Option String)
  | maxStack (size : UInt16)
deriving DecidableEq, Inhabited

structure MethodBuilder where
  access : Access
  name : String
  desc : String
  nodes : Array Instruction
  nextLabel : Nat
  frameLocals : List FrameValue
  handlers : List ExceptionHandler
  declaredLocals : List DeclaredLocal
  maxStack : UInt16
  maxLocals : Nat
deriving Inhabited

namespace MethodBuilder

/-- An empty method of a class. Its slots hold the receiver and the parameters. -/
def new (owner : String) (access : Access) (name desc : String) :
    Except ClassFileError MethodBuilder := do
  let frameLocals ← Frame.entryLocals owner access name desc
  let method ← MethodDescriptor.parse desc
  return {
    access, name, desc, frameLocals
    nodes := #[], nextLabel := 0, handlers := [], declaredLocals := [], maxStack := 16
    maxLocals := method.argumentSlots + if access.isStatic then 0 else 1 }

def push (b : MethodBuilder) (node : Instruction) : MethodBuilder :=
  { b with nodes := b.nodes.push node }

def reserve (b : MethodBuilder) (slots : Nat) : MethodBuilder :=
  { b with maxLocals := max b.maxLocals slots }

def pushFrame (b : MethodBuilder) (kind : FrameKind) (stack : List FrameValue) : MethodBuilder :=
  let frame := Frame.ofValues kind b.frameLocals stack
  (b.reserve frame.locals.length).push (.frame frame)

/-- The shortest instruction that pushes an integer. -/
def intPush (value : Int32) : Instruction :=
  let v := value.toInt
  if -1 ≤ v && v ≤ 5 then .plain (UInt8.ofNat (3 + v).toNat)
  else if -128 ≤ v && v ≤ 127 then .int .bipush value
  else if -32768 ≤ v && v ≤ 32767 then .int .sipush value
  else .ldc (.int value)

def apply (b : MethodBuilder) : BuilderCall → MethodBuilder
  | .newLabel => { b with nextLabel := b.nextLabel + 1 }
  | .label l => b.push (.label l)
  | .mark => { b.push (.label ⟨b.nextLabel⟩) with nextLabel := b.nextLabel + 1 }
  | .line n start => b.push (.line n start)
  | .plain op => b.push (.plain op)
  | .int op operand => b.push (.int op operand)
  | .pushInt value => b.push (intPush value)
  | .var op slot => (b.reserve (slot.toNat + Opcode.accessWidth op)).push (.var op slot)
  | .type op desc => b.push (.type op desc)
  | .field op owner name desc => b.push (.field op owner name desc)
  | .method op owner name desc => b.push (.method op owner name desc (op = .invokeinterface))
  | .invokeDynamic name desc bootstrap args => b.push (.invokeDynamic name desc bootstrap args)
  | .jump op target => b.push (.jump op target)
  | .ldc constant => b.push (.ldc constant)
  | .iinc slot amount => (b.reserve (slot.toNat + 1)).push (.iinc slot amount)
  | .tableSwitch lo hi default targets => b.push (.tableSwitch lo hi default targets)
  | .lookupSwitch default keys targets => b.push (.lookupSwitch default keys targets)
  | .newMultiArray desc dims => b.push (.newMultiArray desc dims)
  | .frameSame => b.pushFrame .same []
  | .frameSame1 stack => b.pushFrame .same1 [stack]
  | .frameAppend locals =>
    { b with frameLocals := b.frameLocals ++ locals }.pushFrame (.append locals.length) []
  | .frameChop count =>
    { b with frameLocals := b.frameLocals.take (b.frameLocals.length - count) }.pushFrame
      (.chop count) []
  | .frameFull locals stack => { b with frameLocals := locals }.pushFrame .full stack
  | .declareLocal name desc start stop slot =>
    let width := if desc = "J" || desc = "D" then 2 else 1
    { b.reserve (slot.toNat + width) with
      declaredLocals := b.declaredLocals ++ [⟨name, desc, start, stop, slot⟩] }
  | .handler start stop handler catchType =>
    { b with handlers := b.handlers ++ [⟨start, stop, handler, catchType⟩] }
  | .maxStack size => { b with maxStack := size }

/-- The method as built so far. The slot count is kept in sixteen bits. -/
def build (b : MethodBuilder) : Method where
  access := b.access
  name := b.name
  desc := b.desc
  maxStack := b.maxStack
  maxLocals := UInt16.ofNat b.maxLocals
  instructions := ⟨b.nodes⟩
  handlers := b.handlers
  declaredLocals := b.declaredLocals

/-- The method built by a sequence of calls. -/
def buildAll (owner : String) (access : Access) (name desc : String) (calls : List BuilderCall) :
    Except ClassFileError Method := do
  let b ← new owner access name desc
  return (calls.foldl apply b).build

end MethodBuilder

end Injection
