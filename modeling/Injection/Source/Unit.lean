import Injection.Source.Lambda
import Injection.Source.Nesting

/-!
Units: the parts of source that are compiled to a method each, and the steps of their code.
-/

namespace Injection.Source

/-- The body of a method, or of a lambda expression in it. -/
structure SourceUnit where
  owner : SourceClass
  method : SourceMethod
  body : Body
  root : WalkRoot
  /-- The lambda expression, if it is the body of one. -/
  lambda : Option ExprId
deriving DecidableEq, Inhabited

/-- A step of the code compiled from a unit. -/
inductive Step where
  | event (e : Event)
  /-- The call of the constructor of the superclass where none is written. -/
  | implicitSuper
  /-- The initializer of a field, by the place of its declaration. -/
  | fieldInit (position : Nat)
deriving DecidableEq, Inhabited

namespace SourceUnit

/-- The unit of a method; an abstract or native one has none. -/
def ofMethod? (owner : SourceClass) (method : SourceMethod) : Option SourceUnit :=
  method.body.map fun body => ⟨owner, method, body, .stmt body.root, none⟩

def ofLambda? (owner : SourceClass) (l : LambdaSource) : Option SourceUnit := do
  let body ← l.method.body
  let root ← l.root?
  return ⟨owner, l.method, body, root, some l.lambda⟩

def isConstructor (u : SourceUnit) : Bool := u.lambda.isNone && u.method.isConstructor

def isInstance (u : SourceUnit) : Bool := u.lambda.isNone && !u.method.isStatic

def form (u : SourceUnit) (e : ExprId) : ExprForm := (u.body.expr e).form

def span (u : SourceUnit) : Span :=
  match u.root with
  | .stmt s => (u.body.stmt s).span
  | .expr e => (u.body.expr e).span

/-- Tells whether control can reach the end. -/
def completes (u : SourceUnit) : Bool :=
  match u.root with
  | .stmt s => u.body.completes s
  | .expr _ => true

def rootStmt? (u : SourceUnit) : Option StmtId :=
  match u.root with
  | .stmt s => some s
  | .expr _ => none

def events (u : SourceUnit) : List Event := u.body.events u.root

def nesting (u : SourceUnit) : Nesting := .of u.body u.root

/-- The form of the expression that a given one is an operand of. -/
def parentForm? (u : SourceUnit) (e : ExprId) : Option ExprForm := (u.body.parent? e).map u.form

/-- The parameters, of the lambda expression if the unit is one. -/
def params (u : SourceUnit) : List LocalId :=
  match u.lambda.map u.form with
  | some (.lambda params _) => params
  | _ => u.body.params

/-- The call of a constructor that an event stands for. -/
def constructorCall? (u : SourceUnit) : Event → Option ExprId
  | .expr e =>
    match u.form e with
    | .call _ _ name .. => if name = "<init>" then some e else none
    | _ => none
  | _ => none

/-- The written call of another constructor with which a constructor begins. -/
def delegate? (u : SourceUnit) : Option ExprId :=
  if u.isConstructor then u.events.findSome? u.constructorCall? else none

/-- Tells a constructor that calls another one of its own class. -/
def delegatesToOwn (u : SourceUnit) : Bool :=
  match u.delegate?.map u.form with
  | some (.call _ owner ..) => owner = u.owner.name
  | _ => false

/-- The places of the fields that the constructor initializes. -/
def fieldInits (u : SourceUnit) : List Nat :=
  if u.isConstructor && !u.delegatesToOwn then
    u.owner.fields.zipIdx.filterMap fun (f, i) => if f.isCopied then some i else none
  else []

def initSteps (u : SourceUnit) : List Step := u.fieldInits.map .fieldInit

/-- The steps in the order of the code. Fields are initialized after the call of the constructor
of the superclass. -/
def steps (u : SourceUnit) : List Step :=
  let delegate := u.delegate?.map Event.expr
  (if u.isConstructor && delegate.isNone then .implicitSuper :: u.initSteps else []) ++
    u.events.flatMap fun e => .event e :: if some e = delegate then u.initSteps else []

end SourceUnit

end Injection.Source
