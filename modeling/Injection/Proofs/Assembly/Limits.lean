import Injection.ClassFile.ConstantPool
import Injection.MethodBuilder

/-!
What the class-file format can hold. Lengths and counts are numbers of two bytes, constants nest
in each other only so deep, a handle says of its member what its kind says, and an instruction has
an opcode of its family and the operands that go with it.
-/

namespace Injection

def ModifiedUtf8.Fits (text : String) : Prop := (encode text).length < 2 ^ 16

instance (text : String) : Decidable (ModifiedUtf8.Fits text) :=
  inferInstanceAs (Decidable (_ < _))

/-- A field belongs to a class, as far as a handle tells, and the kind 9 is for interfaces. -/
structure Handle.Fits (h : Handle) : Prop where
  owner : ModifiedUtf8.Fits h.owner
  name : ModifiedUtf8.Fits h.name
  desc : ModifiedUtf8.Fits h.desc
  field : 1 ≤ h.kind.toNat → h.kind.toNat ≤ 4 → h.interface = false
  interface : h.kind.toNat = 9 → h.interface = true

mutual

/-- A constant in which dynamic constants nest at most `depth` deep. -/
def Constant.Fits (depth : Nat) : Constant → Prop
  | .int _ | .float _ | .long _ | .double _ => True
  | .string text => ModifiedUtf8.Fits text
  | .classRef name => ModifiedUtf8.Fits name
  | .methodType desc => ModifiedUtf8.Fits desc
  | .methodHandle handle => handle.Fits
  | .dynamic name desc bootstrap args =>
    0 < depth ∧ ModifiedUtf8.Fits name ∧ ModifiedUtf8.Fits desc ∧ bootstrap.Fits ∧
      args.length < 2 ^ 16 ∧ Constant.AllFit (depth - 1) args

def Constant.AllFit (depth : Nat) : List Constant → Prop
  | [] => True
  | c :: cs => c.Fits depth ∧ Constant.AllFit depth cs

end

def Instruction.Fits : Instruction → Prop
  | .label _ | .line .. | .iinc .. => True
  | .frame f => ∀ name, .object name ∈ f.locals ++ f.stack → ModifiedUtf8.Fits name
  | .plain op => op.operandForm = .plain
  | .int op operand =>
    op = .bipush ∧ -128 ≤ operand.toInt ∧ operand.toInt ≤ 127 ∨
      op = .sipush ∧ -32768 ≤ operand.toInt ∧ operand.toInt ≤ 32767 ∨
        op = .newarray ∧ 0 ≤ operand.toInt ∧ operand.toInt ≤ 255
  | .var op _ => op.operandForm = .slot
  | .type op desc => op.operandForm = .type ∧ ModifiedUtf8.Fits desc
  | .field op owner name desc =>
    op.operandForm = .field ∧ ModifiedUtf8.Fits owner ∧ ModifiedUtf8.Fits name ∧
      ModifiedUtf8.Fits desc
  | .method op owner name desc _ =>
    op.operandForm = .invoke ∧ ModifiedUtf8.Fits owner ∧ ModifiedUtf8.Fits name ∧
      ModifiedUtf8.Fits desc
  | .invokeDynamic name desc bootstrap args =>
    ModifiedUtf8.Fits name ∧ ModifiedUtf8.Fits desc ∧ bootstrap.Fits ∧ args.length < 2 ^ 16 ∧
      Constant.AllFit ConstantPool.dynamicDepth args
  | .jump op _ => op.operandForm = .branch
  | .ldc c => c.Fits ConstantPool.dynamicDepth
  | .tableSwitch lo hi _ targets =>
    lo.toInt ≤ hi.toInt ∧ (targets.length : Int) = hi.toInt - lo.toInt + 1
  | .lookupSwitch _ keys targets => keys.length = targets.length
  | .newMultiArray desc _ => ModifiedUtf8.Fits desc

def BuilderCall.Fits : BuilderCall → Prop
  | .newLabel | .label _ | .mark | .line .. | .pushInt _ | .iinc .. | .maxStack _ => True
  | .plain op => (Instruction.plain op).Fits
  | .int op operand => (Instruction.int op operand).Fits
  | .var op slot => (Instruction.var op slot).Fits
  | .type op desc => (Instruction.type op desc).Fits
  | .field op owner name desc => (Instruction.field op owner name desc).Fits
  | .method op owner name desc =>
    (Instruction.method op owner name desc (op = .invokeinterface)).Fits
  | .invokeDynamic name desc bootstrap args =>
    (Instruction.invokeDynamic name desc bootstrap args).Fits
  | .jump op target => (Instruction.jump op target).Fits
  | .ldc c => (Instruction.ldc c).Fits
  | .tableSwitch lo hi default targets => (Instruction.tableSwitch lo hi default targets).Fits
  | .lookupSwitch default keys targets => (Instruction.lookupSwitch default keys targets).Fits
  | .newMultiArray desc dims => (Instruction.newMultiArray desc dims).Fits
  | .frameSame | .frameChop _ => True
  | .frameSame1 value => ∀ name, value = .object name → ModifiedUtf8.Fits name
  | .frameAppend values => ∀ name, .object name ∈ values → ModifiedUtf8.Fits name
  | .frameFull locals stack => ∀ name, .object name ∈ locals ++ stack → ModifiedUtf8.Fits name
  | .declareLocal name desc .. => ModifiedUtf8.Fits name ∧ ModifiedUtf8.Fits desc
  | .handler _ _ _ catchType => ∀ name ∈ catchType, ModifiedUtf8.Fits name

end Injection
