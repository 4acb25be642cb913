import Injection.Point.Allocation
import Injection.Point.ConstantUse
import Injection.Point.FieldAccess
import Injection.Point.Invocation
import Injection.Point.LocalAccess

/-!
The kinds of injection points and the codes by which annotations name them.
-/

namespace Injection

inductive PointKind where
  | head
  | return
  | tail
  | invoke
  | invokeAssign
  | invokeString
  | field
  | new
  | constant
  | load
  | store
  | constructorHead
  | jump
deriving DecidableEq, Inhabited

namespace PointKind

def all : List PointKind :=
  [head, .return, tail, invoke, invokeAssign, invokeString, field, new, constant, load, store,
    constructorHead, jump]

def code : PointKind → String
  | head => "HEAD"
  | .return => "RETURN"
  | tail => "TAIL"
  | invoke => "INVOKE"
  | invokeAssign => "INVOKE_ASSIGN"
  | invokeString => "INVOKE_STRING"
  | field => "FIELD"
  | new => "NEW"
  | constant => "CONSTANT"
  | load => "LOAD"
  | store => "STORE"
  | constructorHead => "CTOR_HEAD"
  | jump => "JUMP"

/-- Tells the kinds whose target is a selector, which must be given. -/
def requiresTarget : PointKind → Bool
  | invoke | invokeAssign | invokeString | field => true
  | _ => false

/-- Tells the kinds that look at local variables. -/
def needsLocals : PointKind → Bool
  | load | store => true
  | _ => false

/-- The stops of the walk for a kind. Settings are refused before the walk begins. -/
def visits (kind : PointKind) (ctx : PointContext) : Except ResolveError (List Visit) :=
  match kind with
  | head => .ok ctx.headVisits
  | .return => .ok ctx.returnVisits
  | tail => .ok ctx.tailVisits
  | invoke => .ok ctx.invokeVisits
  | invokeAssign => .ok ctx.assignVisits
  | invokeString => .ok ctx.textVisits
  | field => ctx.fieldVisits
  | new => ctx.allocationVisits
  | constant => ctx.constantVisits
  | load => ctx.localVisits .load
  | store => ctx.localVisits .store
  | constructorHead => ctx.constructorHeadVisits
  | jump => ctx.jumpVisits

end PointKind

/-- A kind of point that the host adds. -/
structure CustomPoint where
  /-- Tells whether the target is a selector, which may then be left out. -/
  usesSelector : Bool
  /-- Offers the candidates of a method to a collection. -/
  find : PointContext → Collector → Query ResolveError Collector

inductive InjectionPoint where
  | builtin (kind : PointKind)
  | custom (point : CustomPoint)

namespace InjectionPoint

def trace : InjectionPoint → String
  | builtin kind => kind.code
  | custom _ => "Custom(..)"

def usesSelector : InjectionPoint → Bool
  | builtin kind => kind.requiresTarget
  | custom point => point.usesSelector

def requiresTarget : InjectionPoint → Bool
  | builtin kind => kind.requiresTarget
  | custom _ => false

def needsLocals : InjectionPoint → Bool
  | builtin kind => kind.needsLocals
  | custom _ => false

/-- Offers the candidates of a method to a collection. -/
def find (point : InjectionPoint) (ctx : PointContext) (c : Collector) :
    Query ResolveError Collector :=
  match point with
  | builtin kind => do
    let visits ← Query.ofExcept (kind.visits ctx)
    c.walk visits
  | custom point => point.find ctx c

end InjectionPoint

/-- The points that are known, in the order of their codes, each code at most once. -/
structure Registry where
  entries : List (String × InjectionPoint)

namespace Registry

def empty : Registry := ⟨[]⟩

/-- Puts an entry in its place, and takes out the one with the same code. -/
def insertEntry (code : String) (point : InjectionPoint) :
    List (String × InjectionPoint) → List (String × InjectionPoint)
  | [] => [(code, point)]
  | entry :: rest =>
    if code < entry.1 then (code, point) :: entry :: rest
    else if code = entry.1 then (code, point) :: rest
    else entry :: insertEntry code point rest

def insert (r : Registry) (code : String) (point : InjectionPoint) : Registry :=
  ⟨insertEntry code point r.entries⟩

def builtin : Registry :=
  PointKind.all.foldl (fun r kind => r.insert kind.code (.builtin kind)) empty

/-- The point with exactly this code. -/
def get? (r : Registry) (code : String) : Option InjectionPoint := List.lookup code r.entries

/-- The point that an annotation names. White space around the name means nothing. -/
def lookup? (r : Registry) (name : String) : Option InjectionPoint := r.get? (Blank.strip name)

def codes (r : Registry) : List String := r.entries.map (·.1)

end Registry

end Injection
