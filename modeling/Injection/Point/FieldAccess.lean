import Injection.Point.Context
import Injection.Text.Numeral

/-!
Reads and writes of fields, and reads whose array is measured, read or written soon after.
-/

namespace Injection

/-- What is done with an array that was read from a field. -/
inductive ArrayUse where
  | length
  | get
  | set
deriving DecidableEq, Inhabited

namespace ArrayUse

def parse : Option String → Except ResolveError (Option ArrayUse)
  | none => .ok none
  | some "length" => .ok (some length)
  | some "get" => .ok (some get)
  | some "set" => .ok (some set)
  | some other => .error (.invalidArgument "array" other)

/-- The opcodes that load and store an item of a type given by the first letter of its
descriptor. -/
def itemOpcodes? : Char → Option (Opcode × Opcode)
  | 'I' => some (.iaload, .iastore)
  | 'J' => some (.laload, .lastore)
  | 'F' => some (.faload, .fastore)
  | 'D' => some (.daload, .dastore)
  | 'L' | '[' => some (.aaload, .aastore)
  | 'Z' | 'B' => some (.baload, .bastore)
  | 'C' => some (.caload, .castore)
  | 'S' => some (.saload, .sastore)
  | _ => none

/-- The opcode that uses an array of a given descriptor. -/
def opcode? (use : ArrayUse) (desc : String) : Option Opcode :=
  match desc.toList with
  | '[' :: item :: _ =>
    (itemOpcodes? item).map fun (load, store) =>
      match use with
      | length => .arraylength
      | get => load
      | set => store
  | _ => none

end ArrayUse

namespace PointContext

/-- How far the use of an array is looked for: at least one instruction. -/
def fuzz (ctx : PointContext) : Except ResolveError Nat := do
  let wanted ← match ctx.criteria.arg? "fuzz" with
    | none => pure ctx.options.defaultFuzz
    | some text =>
      match Numeral.toUnsigned? 32 text with
      | some n => pure n
      | none => throw (.invalidArgument "fuzz" text)
  return min (max wanted 1) (max ctx.options.maxFuzz 1)

def isFieldRead (op : Opcode) : Bool := op = .getfield || op = .getstatic

def readsField (owner name : String) : Instruction → Bool
  | .field op otherOwner otherName _ => isFieldRead op && otherOwner = owner && otherName = name
  | _ => false

/-- The use of an array among the next instructions. Another read of the same field ends the
search. -/
def arrayUse? (is : InstructionList) (wanted : Opcode) (owner name : String) :
    (fuzz position : Nat) → Option Nat
  | 0, _ => none
  | fuzz + 1, position => do
    let next ← is.nextReal? position
    let i ← is.get? next
    if readsField owner name i then none
    else if i.opcode? = some wanted then some next
    else arrayUse? is wanted owner name fuzz next

/-- The decorations of a field access, or `none` if it is not used as wanted. -/
def fieldDecorations? (ctx : PointContext) (use? : Option ArrayUse) (fuzz : Nat) (op : Opcode)
    (owner name desc : String) (position : Nat) : Option (List Decoration) :=
  match use? with
  | none => some []
  | some use => do
    let wanted ← if isFieldRead op then use.opcode? desc else none
    let found ← arrayUse? ctx.instructions wanted owner name fuzz position
    return [.arrayAccess found]

def fieldCandidate? (ctx : PointContext) (use? : Option ArrayUse) (fuzz : Nat) :
    Instruction → Nat → Option Candidate
  | .field op owner name desc, position =>
    if ctx.selects owner name desc && ctx.wantsOpcode op then
      (ctx.fieldDecorations? use? fuzz op owner name desc position).map fun decorations =>
        ⟨position, .field owner name desc, some owner, decorations⟩
    else none
  | _, _ => none

def fieldVisits (ctx : PointContext) : Except ResolveError (List Visit) := do
  ctx.requireOpcode Opcode.isField
  let use? ← ArrayUse.parse (ctx.criteria.arg? "array")
  let fuzz ← ctx.fuzz
  return visits ctx.positioned fun i position => pure (ctx.fieldCandidate? use? fuzz i position)

end PointContext

end Injection
