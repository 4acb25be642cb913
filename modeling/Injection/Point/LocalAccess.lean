import Injection.Point.Context

/-!
Loads and stores of local variables.
-/

namespace Injection

inductive LocalUse where
  | load
  | store
deriving DecidableEq, Inhabited

namespace LocalUse

/-- Tells the opcodes of a use. An increment is both a load and a store. -/
def accepts (use : LocalUse) (op : Opcode) : Bool :=
  op = .iinc ||
    match use with
    | load => Opcode.isLocalLoad op
    | store => Opcode.isLocalStore op

/-- The opcode and the slot of an instruction that uses a local. -/
def access? (use : LocalUse) : Instruction → Option (Opcode × UInt16)
  | .var op slot => if use.accepts op then some (op, slot) else none
  | .iinc slot _ => some (.iinc, slot)
  | _ => none

/-- Where to look for the variable: a stored one comes into force after the store. -/
def probe (use : LocalUse) (is : InstructionList) (position : Nat) : Nat :=
  match use with
  | load => position
  | store => (is.next? position).getD position

end LocalUse

namespace PointContext

/-- The variables at a position, or `none` if they cannot be told. -/
def tableAt (ctx : PointContext) (position : Nat) : Query ResolveError (Option LocalTable) :=
  match ctx.locals with
  | none => pure none
  | some locals => fun w =>
    match (locals.localsAt position).run.run w with
    | (.ok table, w) => (.ok (some table), w)
    | (.error (.unavailable _), w) => (.ok none, w)
    | (.error .cancelled, w) => (.error .cancelled, w)

/-- Tells whether the variable in a slot is wanted. Where the variables cannot be told, only the
slot counts. -/
def acceptsLocal (ctx : PointContext) (table? : Option LocalTable) (slot : UInt16) : Bool :=
  let d := ctx.criteria.local?.getD .empty
  let (first, stop) := ctx.argumentSlots
  d.acceptsSlot (table?.getD []) slot.toNat first.toNat stop.toNat

def localVisits (ctx : PointContext) (use : LocalUse) : Except ResolveError (List Visit) := do
  ctx.requireOpcode use.accepts
  return visits ctx.positioned fun i position => do
    match use.access? i with
    | none => return none
    | some (op, slot) =>
      if !ctx.wantsOpcode op then return none
      let table? ← ctx.tableAt (use.probe ctx.instructions position)
      if ctx.acceptsLocal table? slot then
        return some ⟨position,
          .localVariable slot (table?.bind fun t => t.slot? slot.toNat), none, []⟩
      else return none

end PointContext

end Injection
