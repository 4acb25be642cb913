import Injection.Point.Context

/-!
Calls of methods. Calls of constructors are none of them.
-/

namespace Injection

structure Invocation where
  position : Nat
  owner : String
  name : String
  desc : String
deriving DecidableEq, Inhabited

namespace Invocation

/-- The one descriptor of a method that takes a text and gives nothing. -/
def textConsumer : String := "(Ljava/lang/String;)V"

def isVoid (v : Invocation) : Bool := v.desc.endsWith ")V"

/-- The candidate at a position that stands for a call. -/
def candidate (v : Invocation) (position : Nat) (decorations : List Decoration) : Candidate :=
  ⟨position, .method v.owner v.name v.desc, some v.owner, decorations⟩

end Invocation

namespace PointContext

def invocation? (ctx : PointContext) : Instruction × Nat → Option Invocation
  | (.method _ owner name desc _, position) =>
    if name ≠ "<init>" && ctx.selects owner name desc then some ⟨position, owner, name, desc⟩
    else none
  | _ => none

def invocations (ctx : PointContext) : List Invocation := ctx.positioned.filterMap ctx.invocation?

/-- The stops at calls of selected methods, each with a look at the token first. -/
def invocationVisits (ctx : PointContext) (candidate? : Invocation → Option Candidate) :
    List Visit :=
  ctx.invocations.map fun v => do
    Query.checkpoint .cancelled
    return candidate? v

def invokeVisits (ctx : PointContext) : List Visit :=
  ctx.invocationVisits fun v => some (v.candidate v.position [])

/-- The place after a call, or after the instruction that stores its result. -/
def afterAssignment? (ctx : PointContext) (v : Invocation) : Option Nat := do
  let after ← ctx.instructions.nextReal? v.position
  let storing := (ctx.instructions.get? after).any fun i => i.opcode?.any Opcode.isLocalStore
  if storing then ctx.instructions.nextReal? after else return after

/-- The places after calls that give a value. -/
def assignVisits (ctx : PointContext) : List Visit :=
  ctx.invocationVisits fun v =>
    if v.isVoid then none
    else (ctx.afterAssignment? v).map fun p => v.candidate p [.invocation v.position]

/-- The text constant that is loaded right before a call. -/
def pushedText? (ctx : PointContext) (v : Invocation) : Option String := do
  let before ← ctx.instructions.prevReal? v.position
  match ← ctx.instructions.get? before with
  | .ldc (.string text) => some text
  | _ => none

/-- The calls that take a constant text, and a given one if the annotation gives one. -/
def textVisits (ctx : PointContext) : List Visit :=
  ctx.invocationVisits fun v =>
    if v.desc = Invocation.textConsumer &&
        (ctx.pushedText? v).any fun text => (ctx.criteria.arg? "ldc").all (· = text) then
      some (v.candidate v.position [])
    else none

end PointContext

end Injection
