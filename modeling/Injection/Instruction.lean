import Injection.Constant
import Injection.Frame

/-!
The nodes of an instruction list. Labels, line numbers and frames are marks between the
instructions; every other node is a real instruction with an opcode.
-/

namespace Injection

inductive Instruction where
  | label (label : Label)
  | line (line : UInt32) (start : Label)
  | frame (frame : Frame)
  /-- An instruction without operands. -/
  | plain (opcode : Opcode)
  /-- A small integer operand: a byte, a short, or the element type of a new array. -/
  | int (opcode : Opcode) (operand : Int32)
  /-- A load or store of a local slot, or a return to the address in one. -/
  | var (opcode : Opcode) (slot : UInt16)
  /-- A class operand, by internal name or array descriptor. -/
  | type (opcode : Opcode) (desc : String)
  | field (opcode : Opcode) (owner name desc : String)
  | method (opcode : Opcode) (owner name desc : String) (interface : Bool)
  | invokeDynamic (name desc : String) (bootstrap : Handle) (args : List Constant)
  | jump (opcode : Opcode) (target : Label)
  | ldc (constant : Constant)
  | iinc (slot : UInt16) (amount : Int16)
  | tableSwitch (min max : Int32) (default : Label) (targets : List Label)
  | lookupSwitch (default : Label) (keys : List Int32) (targets : List Label)
  | newMultiArray (desc : String) (dims : UInt8)
deriving DecidableEq, Inhabited

namespace Instruction

def opcode? : Instruction → Option Opcode
  | label _ | line .. | frame _ => none
  | plain op | int op _ | var op _ | type op _ | field op .. | method op .. | jump op _ => some op
  | invokeDynamic .. => some .invokedynamic
  | ldc _ => some .ldc
  | iinc .. => some .iinc
  | tableSwitch .. => some .tableswitch
  | lookupSwitch .. => some .lookupswitch
  | newMultiArray .. => some .multianewarray

/-- Tells an instruction from a mark. -/
def isReal (i : Instruction) : Bool := i.opcode?.isSome

def isFrame : Instruction → Bool
  | frame _ => true
  | _ => false

def isReturn (i : Instruction) : Bool := i.opcode?.any Opcode.isReturn

/-- The labels to which control may go, besides the next node. -/
def targets : Instruction → List Label
  | jump _ target => [target]
  | tableSwitch _ _ default targets => default :: targets
  | lookupSwitch default _ targets => default :: targets
  | _ => []

/-- Tells whether control never goes on to the next node. -/
def isTransfer (i : Instruction) : Bool :=
  i.opcode?.any fun op =>
    op.isReturn || op = .goto || op = .athrow || op = .ret || op = .tableswitch ||
      op = .lookupswitch

def relabel (f : Label → Label) : Instruction → Instruction
  | label l => label (f l)
  | line n start => line n (f start)
  | frame g => frame (g.relabel f)
  | jump op target => jump op (f target)
  | tableSwitch lo hi default targets => tableSwitch lo hi (f default) (targets.map f)
  | lookupSwitch default keys targets => lookupSwitch (f default) keys (targets.map f)
  | i => i

def text : Instruction → String
  | label l => l.text ++ ":"
  | line n start => "LINENUMBER " ++ toString n.toNat ++ " " ++ start.text
  | frame f => f.text
  | plain op => op.mnemonic
  | int op operand => op.mnemonic ++ " " ++ toString operand.toInt
  | var op slot => op.mnemonic ++ " " ++ toString slot.toNat
  | type op desc => op.mnemonic ++ " " ++ desc
  | field op owner name desc => op.mnemonic ++ " " ++ owner ++ "." ++ name ++ " : " ++ desc
  | method op owner name desc interface =>
    op.mnemonic ++ " " ++ owner ++ "." ++ name ++ " " ++ desc ++
      if interface && op ≠ .invokeinterface then " (itf)" else ""
  | invokeDynamic name desc bootstrap _ =>
    "INVOKEDYNAMIC " ++ name ++ desc ++ " [" ++ bootstrap.owner ++ "." ++ bootstrap.name ++ "]"
  | jump op target => op.mnemonic ++ " " ++ target.text
  | ldc constant => "LDC " ++ constant.text
  | iinc slot amount => "IINC " ++ toString slot.toNat ++ " " ++ toString amount.toInt
  | tableSwitch lo hi .. => "TABLESWITCH " ++ toString lo.toInt ++ ".." ++ toString hi.toInt
  | lookupSwitch _ keys _ =>
    "LOOKUPSWITCH [" ++ ", ".intercalate (keys.map (toString ·.toInt)) ++ "]"
  | newMultiArray desc dims => "MULTIANEWARRAY " ++ desc ++ " " ++ toString dims.toNat

end Instruction

/-- The instructions and marks of a method in order. A node is named by its position. -/
structure InstructionList where
  nodes : Array Instruction
deriving DecidableEq, Inhabited

namespace InstructionList

def empty : InstructionList := ⟨#[]⟩

def ofList (nodes : List Instruction) : InstructionList := ⟨nodes.toArray⟩

def size (is : InstructionList) : Nat := is.nodes.size

def isEmpty (is : InstructionList) : Bool := is.nodes.isEmpty

def get? (is : InstructionList) (i : Nat) : Option Instruction := is.nodes[i]?

/-- Tells whether there is a node at a position and it passes a test. -/
def holds (is : InstructionList) (p : Instruction → Bool) (i : Nat) : Bool := (is.get? i).any p

/-- The last position before `i` whose node passes a test. -/
def lastBefore (is : InstructionList) (p : Instruction → Bool) : (i : Nat) → Option Nat
  | 0 => none
  | i + 1 => if is.holds p i then some i else is.lastBefore p i

theorem lastBefore_eq_some_iff {is : InstructionList} {p : Instruction → Bool} {i j : Nat} :
    is.lastBefore p j = some i ↔
      i < j ∧ is.holds p i = true ∧ ∀ k, i < k → k < j → is.holds p k = false := by
  induction j with
  | zero => simp [lastBefore]
  | succ j ih =>
      rw [lastBefore]
      cases hj : is.holds p j with
      | true =>
          rw [if_pos rfl]
          constructor
          · rintro ⟨⟩
            exact ⟨Nat.lt_succ_self _, hj, fun k hk hlt => by omega⟩
          · rintro ⟨hlt, -, hlater⟩
            by_cases hij : i < j
            · cases (hlater j hij (Nat.lt_succ_self j)).symm.trans hj
            · exact congrArg some (by omega)
      | false =>
          rw [if_neg Bool.false_ne_true, ih]
          constructor
          · rintro ⟨hlt, hi, hlater⟩
            refine ⟨by omega, hi, fun k hk hkj => ?_⟩
            rcases Nat.lt_succ_iff_lt_or_eq.mp hkj with hkj | rfl
            · exact hlater k hk hkj
            · exact hj
          · rintro ⟨hlt, hi, hlater⟩
            refine ⟨?_, hi, fun k hk hkj => hlater k hk (by omega)⟩
            rcases Nat.lt_succ_iff_lt_or_eq.mp hlt with hlt | rfl
            · exact hlt
            · cases hj.symm.trans hi

/-- The first of `count` positions from `i` on whose node passes a test. -/
def firstFrom (is : InstructionList) (p : Instruction → Bool) (i : Nat) : (count : Nat) → Option Nat
  | 0 => none
  | count + 1 => if is.holds p i then some i else is.firstFrom p (i + 1) count

def first? (is : InstructionList) : Option Nat := if is.isEmpty then none else some 0

def last? (is : InstructionList) : Option Nat := if is.isEmpty then none else some (is.size - 1)

def next? (is : InstructionList) (i : Nat) : Option Nat :=
  if i + 1 < is.size then some (i + 1) else none

def prev? (_ : InstructionList) (i : Nat) : Option Nat := if i = 0 then none else some (i - 1)

/-- The position `distance` nodes away, unless that is off either end. -/
def offset? (is : InstructionList) (i : Nat) (distance : Int) : Option Nat :=
  let target := (i : Int) + distance
  if 0 ≤ target && target < is.size then some target.toNat else none

/-- The position of a label; of several marks of one label the last counts. -/
def labelPosition? (is : InstructionList) (l : Label) : Option Nat :=
  is.lastBefore (· = .label l) is.size

def firstReal? (is : InstructionList) : Option Nat := is.firstFrom (·.isReal) 0 is.size

def nextReal? (is : InstructionList) (i : Nat) : Option Nat :=
  is.firstFrom (·.isReal) (i + 1) (is.size - (i + 1))

def prevReal? (is : InstructionList) (i : Nat) : Option Nat :=
  is.lastBefore (·.isReal) (min i is.size)

end InstructionList

end Injection
