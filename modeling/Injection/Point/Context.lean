import Injection.At.Spec
import Injection.Json.Decode
import Injection.Locals.Simulation
import Injection.Point.Collector
import Injection.Selector

/-!
What a walk over a method may consult.
-/

namespace Injection

structure ResolverOptions where
  /-- How far the companion of a field access is looked for if nothing is said. -/
  defaultFuzz : Nat
  /-- How far it is looked for at most. -/
  maxFuzz : Nat
  locals : LocalsSettings
deriving DecidableEq, Inhabited

namespace ResolverOptions

def standard : ResolverOptions := ⟨8, 32, .standard⟩

def names : List String := ["default_fuzz", "max_fuzz", "locals"]

/-- Reads settings; those left out are the standard ones. -/
def ofJson? (j : Json) : Option ResolverOptions := do
  let fields ← j.fields? names
  return {
    defaultFuzz := ← Json.fieldOr standard.defaultFuzz (Json.toNat? (2 ^ 32)) fields 0
    maxFuzz := ← Json.fieldOr standard.maxFuzz (Json.toNat? (2 ^ 32)) fields 1
    locals := ← Json.fieldOr standard.locals LocalsSettings.ofJson? fields 2 }

def toJson (o : ResolverOptions) : Json :=
  .object (names.zip [.nat o.defaultFuzz, .nat o.maxFuzz, o.locals.toJson])

end ResolverOptions

/-- A method together with what is asked of it. -/
structure PointContext where
  /-- The class that declares the method. -/
  owner : String
  method : Method
  criteria : Criteria
  /-- The members wanted, for kinds that take a selector; without one, all of them. -/
  selector : Option Selector
  /-- The local variables, for kinds that need them. -/
  locals : Option LocalsContext
  options : ResolverOptions

namespace PointContext

def instructions (ctx : PointContext) : InstructionList := ctx.method.instructions

def positioned (ctx : PointContext) : List (Instruction × Nat) :=
  ctx.instructions.nodes.toList.zipIdx

/-- The number of nodes between two looks at the token. -/
def lookInterval : Nat := 64

/-- Looks at the token at every 64th node. -/
def checkpoint (position : Nat) : Query ResolveError Unit :=
  if position % lookInterval = 0 then Query.checkpoint .cancelled else pure ()

/-- The stops at all given nodes, each with a look at the token first. -/
def visits (nodes : List (Instruction × Nat)) (candidate? : Instruction → Nat → Visit) :
    List Visit :=
  nodes.map fun (i, position) => do
    checkpoint position
    candidate? i position

def selects (ctx : PointContext) (owner name desc : String) : Bool :=
  Selector.allows ctx.selector owner name desc

/-- The slot of the first parameter and the slot after the last one. -/
def argumentSlots (ctx : PointContext) : UInt16 × UInt16 :=
  let first := if ctx.method.isStatic then 0 else 1
  match MethodDescriptor.parse ctx.method.desc with
  | .ok desc => (first, first + UInt16.ofNat desc.argumentSlots)
  | .error _ => (first, first)

/-- Refuses an opcode for which there is no place of the kind. -/
def requireOpcode (ctx : PointContext) (allowed : Opcode → Bool) : Except ResolveError Unit :=
  if ctx.criteria.opcode?.all allowed then .ok ()
  else .error (.invalidArgument "opcode" (toString ctx.criteria.opcode.toInt))

/-- Tells whether an opcode is the one wanted. -/
def wantsOpcode (ctx : PointContext) (op : Opcode) : Bool := ctx.criteria.opcode?.all (· = op)

end PointContext

end Injection
