import Injection.Point.Context

/-!
Points that refer to no member: the head of a method, its returns and jumps, and the place in a
constructor from which on the object is initialized.
-/

namespace Injection

namespace PointContext

def headVisits (ctx : PointContext) : List Visit :=
  ctx.instructions.firstReal?.toList.map fun position => pure (some (.place position))

def placeIf (wanted : Instruction → Bool) (i : Instruction) (position : Nat) : Visit :=
  pure (if wanted i then some (.place position) else none)

def returnVisits (ctx : PointContext) : List Visit :=
  visits ctx.positioned (placeIf Instruction.isReturn)

/-- The nodes from the last one down to the last return. -/
def fromLastReturn (ctx : PointContext) : List (Instruction × Nat) :=
  let down := ctx.positioned.reverse
  down.take ((down.takeWhile fun (i, _) => !i.isReturn).length + 1)

def tailVisits (ctx : PointContext) : List Visit :=
  visits ctx.fromLastReturn (placeIf Instruction.isReturn)

def isWantedJump (ctx : PointContext) : Instruction → Bool
  | .jump op _ => ctx.wantsOpcode op
  | _ => false

def jumpVisits (ctx : PointContext) : Except ResolveError (List Visit) := do
  ctx.requireOpcode Opcode.isJump
  return visits ctx.positioned (placeIf ctx.isWantedJump)

end PointContext

/-- Where in a constructor the head of the initialized object lies. -/
inductive Enforce where
  /-- After the initializers of fields if the constructor calls one of the superclass, else after
  that call. -/
  | standard
  /-- After the call of the other constructor. -/
  | afterDelegate
  /-- After the last write to a field of the class. -/
  | afterFields
deriving DecidableEq, Inhabited

namespace Enforce

def parse : Option String → Except ResolveError Enforce
  | none | some "DEFAULT" => .ok standard
  | some "POST_DELEGATE" => .ok afterDelegate
  | some "POST_INIT" => .ok afterFields
  | some other => .error (.invalidArgument "enforce" other)

end Enforce

namespace Instruction

def isAllocation : Instruction → Bool
  | .type .newObject _ => true
  | _ => false

/-- The owner and the descriptor of a constructor, for a call of one. -/
def constructorCall? : Instruction → Option (String × String)
  | .method .invokespecial owner name desc _ => if name = "<init>" then some (owner, desc) else none
  | _ => none

end Instruction

/-- The position, owner and descriptor of a call of a constructor. -/
structure ConstructorCall where
  position : Nat
  owner : String
  desc : String
deriving DecidableEq, Inhabited

namespace ConstructorCall

/-- The first call that is not the constructor call of an allocation, when `pending` objects are
allocated already. -/
def firstUnpaired (pending : Nat) : List (Instruction × Nat) → Option ConstructorCall
  | [] => none
  | (i, position) :: rest =>
    if i.isAllocation then firstUnpaired (pending + 1) rest
    else
      match i.constructorCall?, pending with
      | none, _ => firstUnpaired pending rest
      | some (owner, desc), 0 => some ⟨position, owner, desc⟩
      | some _, pending + 1 => firstUnpaired pending rest

/-- The call of the other constructor with which a constructor begins. -/
def delegate? (nodes : List (Instruction × Nat)) : Option ConstructorCall := firstUnpaired 0 nodes

end ConstructorCall

namespace PointContext

/-- Tells a write to a field of the class. -/
def writesOwnField (ctx : PointContext) : Instruction → Bool
  | .field .putfield owner _ _ => owner = ctx.owner
  | _ => false

/-- The last write to a field of the class after a position. -/
def lastFieldWrite? (ctx : PointContext) (position : Nat) : Option Nat :=
  (ctx.positioned.reverse.find? fun (i, p) => position < p && ctx.writesOwnField i).map (·.2)

/-- The head of the initialized object in a constructor that calls another one. -/
def initializedHead? (ctx : PointContext) (enforce : Enforce) (delegate : ConstructorCall) :
    Option Nat :=
  let after := ctx.instructions.nextReal? delegate.position
  if enforce = .afterDelegate || delegate.owner = ctx.owner then after
  else ((ctx.lastFieldWrite? delegate.position).bind ctx.instructions.nextReal?) <|> after

def constructorHeadVisits (ctx : PointContext) : Except ResolveError (List Visit) := do
  let enforce ← Enforce.parse (ctx.criteria.arg? "enforce")
  let delegate? :=
    if ctx.method.isConstructor then ConstructorCall.delegate? ctx.positioned else none
  match delegate? with
  | none => return ctx.headVisits
  | some delegate =>
    return (ctx.initializedHead? enforce delegate).toList.map fun p => pure (some (.place p))

end PointContext

end Injection
