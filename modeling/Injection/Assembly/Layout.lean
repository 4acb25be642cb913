import Injection.Assembly.Pool
import Injection.Method

/-!
Laying out code: the size of every instruction, the offsets at which instructions and labels come
to stand, and the encoded form of an instruction at its offset. Sizes and offsets are numbers of
four bytes and wrap.
-/

namespace Injection

namespace Instruction

/-- The pool index that an instruction holds; those without one have 0. -/
def poolIndex : Instruction → Assembler UInt16
  | type _ desc | newMultiArray desc _ => Assembler.classRef desc
  | field _ owner name desc => Assembler.member .fieldRef owner name desc
  | method _ owner name desc interface => Assembler.method owner name desc interface
  | invokeDynamic name desc bootstrap args => Assembler.invokeDynamic name desc bootstrap args
  | ldc c => Assembler.constant c
  | _ => return 0

/-- The bytes skipped after the opcode of a switch so that its operands stand at a multiple of
four. -/
def padding (offset : UInt32) : UInt32 := (4 - (offset + 1) % 4) % 4

/-- Tells an increment that fits the short form. -/
def isShortIncrement (slot : UInt16) (amount : Int16) : Bool :=
  slot.toNat ≤ 0xff && -128 ≤ amount.toInt && amount.toInt ≤ 127

/-- The number of bytes an instruction takes at an offset. -/
def encodedSize (index : UInt16) (offset : UInt32) : Instruction → UInt32
  | label _ | line .. | frame _ => 0
  | plain _ => 1
  | int op _ => if op = .sipush then 3 else 2
  | var _ slot => if 0xff < slot.toNat then 4 else 2
  | iinc slot amount => if isShortIncrement slot amount then 3 else 6
  | type .. | field .. | jump .. => 3
  | method op .. => if op = .invokeinterface then 5 else 3
  | invokeDynamic .. => 5
  | ldc c => if c.isWide || 0xff < index.toNat then 3 else 2
  | tableSwitch _ _ _ targets => 1 + padding offset + 12 + 4 * UInt32.ofNat targets.length
  | lookupSwitch _ keys _ => 1 + padding offset + 8 + 8 * UInt32.ofNat keys.length
  | newMultiArray .. => 4

/-- The way from an offset to a target, as a signed number. -/
def distance (offset : UInt32) (target : Nat) : Int32 :=
  (UInt32.ofNat target).toInt32 - offset.toInt32

/-- The bytes of an instruction at an offset, given the offsets of labels. -/
def encode (labelOffset : Label → Except AssembleError Nat) (index : UInt16) (offset : UInt32) :
    Instruction → Except AssembleError (List UInt8) :=
  let far := fun (l : Label) => do
    let target ← labelOffset l
    return Bytes.i4 (distance offset target).toInt
  let pad := List.replicate (padding offset).toNat 0
  fun
  | label _ | line .. | frame _ => .ok []
  | plain op => .ok [op]
  | int op operand =>
    .ok (op :: if op = .sipush then Bytes.i2 operand.toInt else [UInt8.ofInt operand.toInt])
  | var op slot =>
    .ok (if 0xff < slot.toNat then 196 :: op :: Bytes.u2 slot.toNat
      else [op, UInt8.ofNat slot.toNat])
  | iinc slot amount =>
    .ok (if isShortIncrement slot amount then
        [Opcode.iinc, UInt8.ofNat slot.toNat, UInt8.ofInt amount.toInt]
      else 196 :: Opcode.iinc :: Bytes.u2 slot.toNat ++ Bytes.i2 amount.toInt)
  | type op _ | field op .. => .ok (op :: Bytes.u2 index.toNat)
  | method op _ _ desc _ => do
    if op = .invokeinterface then
      match MethodDescriptor.parse desc with
      | .ok m => return op :: Bytes.u2 index.toNat ++ [UInt8.ofNat (m.argumentSlots + 1), 0]
      | .error _ => throw (.invalidDescriptor desc)
    else return op :: Bytes.u2 index.toNat
  | invokeDynamic .. => .ok (Opcode.invokedynamic :: Bytes.u2 index.toNat ++ [0, 0])
  | jump op target => do
    let d := distance offset (← labelOffset target)
    if -0x8000 ≤ d.toInt && d.toInt < 0x8000 then return op :: Bytes.i2 d.toInt
    else throw (.branchOutOfRange offset (offset.toInt32 + d).toUInt32)
  | ldc c =>
    .ok (if c.isWide then 20 :: Bytes.u2 index.toNat
      else if 0xff < index.toNat then 19 :: Bytes.u2 index.toNat
      else [Opcode.ldc, UInt8.ofNat index.toNat])
  | tableSwitch lo hi default targets => do
    let default ← far default
    let targets ← targets.mapM far
    return Opcode.tableswitch :: pad ++ default ++ Bytes.i4 lo.toInt ++ Bytes.i4 hi.toInt ++
      targets.flatten
  | lookupSwitch default keys targets => do
    let default ← far default
    let pairs ← (keys.zip targets).mapM fun (k, l) => do return Bytes.i4 k.toInt ++ (← far l)
    return Opcode.lookupswitch :: pad ++ default ++ Bytes.u4 keys.length ++ pairs.flatten
  | newMultiArray _ dims => .ok (Opcode.multianewarray :: Bytes.u2 index.toNat ++ [dims])

end Instruction

/-- A node with its pool index and the offset at which it stands. -/
structure PlacedNode where
  node : Instruction
  index : UInt16
  offset : UInt32
deriving Inhabited

namespace PlacedNode

def size (p : PlacedNode) : UInt32 := p.node.encodedSize p.index p.offset

/-- Places nodes one after the other from an offset on. -/
def place (offset : UInt32) : List (Instruction × UInt16) → List PlacedNode
  | [] => []
  | (node, index) :: rest =>
    ⟨node, index, offset⟩ :: place (offset + node.encodedSize index offset) rest

def endOffset (placed : List PlacedNode) : UInt32 :=
  (placed.getLast?.map fun p => p.offset + p.size).getD 0

/-- The offset at which a label is placed; of several marks of one label the last counts. -/
def labelOffset (placed : List PlacedNode) (l : Label) : Except AssembleError Nat :=
  match placed.reverse.find? (·.node = .label l) with
  | some p => .ok p.offset.toNat
  | none => .error (.unplacedLabel l)

def encodeAll (placed : List PlacedNode) : Except AssembleError (List UInt8) := do
  let parts ← placed.mapM fun p => p.node.encode (labelOffset placed) p.index p.offset
  return parts.flatten

end PlacedNode

end Injection
