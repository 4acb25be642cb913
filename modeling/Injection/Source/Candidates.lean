import Injection.Point.Registry
import Injection.Source.Unit

/-!
The candidates of a kind of point as source shows them.

They come in the order in which a walk over the compiled method offers its candidates, before any
of them is rejected; the number of a candidate is thus the same on both sides. What has no source
of its own is shown at the declaration of a field, at the whole body, or at its end.
-/

namespace Injection.Source

inductive SourceElement where
  | body
  /-- The end of a body that control can reach. -/
  | finish
  | stmt (s : StmtId)
  | expr (e : ExprId)
  /-- The declaration of a field, by its place. -/
  | field (position : Nat)
deriving DecidableEq, Inhabited

/-- A candidate in source: its number, where it is shown, and the text that selects it. -/
structure SourceMatch where
  index : Nat
  element : SourceElement
  span : Span
  label : Option String
deriving DecidableEq, Inhabited

/-- A candidate without its number. -/
structure Sighting where
  element : SourceElement
  span : Span
  label : Option String
deriving DecidableEq, Inhabited

namespace Sighting

def number (l : List Sighting) : List SourceMatch :=
  l.zipIdx.map fun (s, i) => ⟨i, s.element, s.span, s.label⟩

end Sighting

namespace Literal

/-- The constant that the code for a literal loads. The class of a primitive type is none. -/
def constant? : Literal → Option ConstantValue
  | null => some .null
  | bool value => some (.int (if value then 1 else 0))
  | char code => some (.int (Int32.ofNat code.toNat))
  | int value => some (.int value)
  | long value => some (.long value)
  | float bits => some (.float bits)
  | double bits => some (.double bits)
  | string text => some (.string text)
  | classOf desc =>
    match AllocationTarget.unquote? desc.toList with
    | some name => some (.classOf (String.ofList name))
    | none => if desc.startsWith "[" then some (.classOf desc) else none

/-- Tells the literals that stand for the integer zero. -/
def isZero : Literal → Bool
  | int value => value = 0
  | char code => code = 0
  | _ => false

end Literal

namespace SourceUnit

def atExpr (u : SourceUnit) (e : ExprId) (label : Option String) : Sighting :=
  ⟨.expr e, (u.body.expr e).span, label⟩

def atStmt (u : SourceUnit) (s : StmtId) (label : Option String) : Sighting :=
  ⟨.stmt s, (u.body.stmt s).span, label⟩

def atBody (u : SourceUnit) : Sighting := ⟨.body, u.span, none⟩

def field (u : SourceUnit) (position : Nat) : SourceField := u.owner.fields.getD position default

def atField (u : SourceUnit) (position : Nat) (label : Option String) : Sighting :=
  ⟨.field position, (u.field position).span, label⟩

/-! ### Returns -/

def returns (u : SourceUnit) : List Sighting :=
  (u.steps.filterMap fun
    | .event (.result s) => some (u.atStmt s none)
    | _ => none) ++
    if u.completes then [⟨.finish, u.span.endPoint, none⟩] else []

/-! ### Calls -/

/-- A call in source, with its one argument if that is a literal text. -/
structure SourceCall where
  owner : String
  name : String
  desc : String
  text : Option String
deriving DecidableEq, Inhabited

def literalText? (u : SourceUnit) : List ExprId → Option String
  | [arg] =>
    match u.form arg with
    | .literal (.string text) => some text
    | _ => none
  | _ => none

/-- A call on the iterator of a loop. -/
def iteratorCall (name desc : String) : SourceCall := ⟨"java/util/Iterator", name, desc, none⟩

/-- The call that an event stands for, and where it is shown. -/
def call? (u : SourceUnit) (event : Event) : Option (SourceCall × (Option String → Sighting)) :=
  let ofLoop := fun s (call : String → SourceCall) =>
    match (u.body.stmt s).form with
    | .loopOver _ _ (.iterable owner) _ => some (call owner, u.atStmt s)
    | _ => none
  match event with
  | .expr e =>
    match u.form e with
    | .call _ owner name desc _ args => some (⟨owner, name, desc, u.literalText? args⟩, u.atExpr e)
    | _ => none
  | .iterator s => ofLoop s fun owner => ⟨owner, "iterator", "()Ljava/util/Iterator;", none⟩
  | .hasNext s => ofLoop s fun _ => iteratorCall "hasNext" "()Z"
  | .next s => ofLoop s fun _ => iteratorCall "next" "()Ljava/lang/Object;"
  | _ => none

/-- The calls of selected methods that pass a test. Calls of constructors are none of them. -/
def calls (u : SourceUnit) (selector : Option Selector) (wanted : SourceCall → Bool) :
    List Sighting :=
  u.steps.filterMap fun
    | .event event =>
      match u.call? event with
      | some (call, show?) =>
        if call.name ≠ "<init>" && Selector.allows selector call.owner call.name call.desc &&
            wanted call then
          some (show? (Element.method call.owner call.name call.desc).label?)
        else none
      | none => none
    | _ => none

def givesValue (call : SourceCall) : Bool := !call.desc.endsWith ")V"

/-- Tells a call that takes a literal text, and a given one if there is one. -/
def takesText (wanted : Option String) (call : SourceCall) : Bool :=
  call.desc = Invocation.textConsumer && call.text.any fun text => wanted.all (· = text)

/-! ### Fields -/

/-- The opcode with which a field is accessed, and the field. -/
def fieldAccess? : ExprForm → Option (Opcode × String × String × String)
  | .readField _ owner name desc isStatic =>
    some (if isStatic then .getstatic else .getfield, owner, name, desc)
  | .writeField _ owner name desc isStatic _ =>
    some (if isStatic then .putstatic else .putfield, owner, name, desc)
  | _ => none

/-- Tells whether the array read by an expression is used as wanted. -/
def usesArray (u : SourceUnit) (use : ArrayUse) (e : ExprId) : Bool :=
  match use, u.parentForm? e with
  | .length, some (.arrayLength array) => array = e
  | .get, some (.readArray array _) => array = e
  | .set, some (.writeArray array ..) => array = e
  | _, _ => false

def fieldStep? (u : SourceUnit) (wanted : Opcode → String → String → String → Bool)
    (use? : Option ArrayUse) : Step → Option Sighting
  | .event (.expr e) => do
    let (op, owner, name, desc) ← fieldAccess? (u.form e)
    let used := use?.all fun use =>
      PointContext.isFieldRead op && desc.startsWith "[" && u.usesArray use e
    if wanted op owner name desc && used then
      return u.atExpr e (Element.field owner name desc).label?
    else none
  | .fieldInit position =>
    let f := u.field position
    if use?.isNone && wanted .putfield u.owner.name f.name f.desc then
      some (u.atField position (Element.field u.owner.name f.name f.desc).label?)
    else none
  | _ => none

def fields (u : SourceUnit) (c : Criteria) (selector : Option Selector)
    (use? : Option ArrayUse) : List Sighting :=
  let wanted := fun op owner name desc =>
    Selector.allows selector owner name desc && c.opcode?.all (· = op)
  u.steps.filterMap (u.fieldStep? wanted use?)

/-! ### Allocations -/

/-- The allocations wanted. An anonymous class is allocated under its own name, with a
constructor that source does not show. -/
def allocations (u : SourceUnit) (target : AllocationTarget) : List Sighting :=
  u.steps.filterMap fun
    | .event (.allocate e) =>
      match u.form e with
      | .create className desc _ anonymous =>
        let (className, desc?) := match anonymous with
          | some own => (own, none)
          | none => (className, some desc)
        if target.accepts className desc? then
          some (u.atExpr e (Element.allocation className desc?).label?)
        else none
      | _ => none
    | _ => none

/-! ### Constants -/

/-- Tells a literal that is not loaded, since the jump that depends on it knows it: zero on the
right of a comparison of integers, null in a test for equality, and a truth value that is a
condition. -/
def isFolded (u : SourceUnit) (e : ExprId) (value : Literal) : Bool :=
  let parent? := u.parentForm? e
  match value with
  | .null =>
    match parent? with
    | some (.binary op ..) => op = .equal || op = .notEqual
    | _ => false
  | .bool _ =>
    u.nesting.isCondition e ||
      match parent? with
      | some (.binary op ..) => op = .and || op = .or
      | some (.unary op _) => op = .not
      | some (.conditional condition ..) => condition = e
      | _ => false
  | value =>
    value.isZero &&
      match parent? with
      | some (.binary op _ right operands) =>
        operands = .int && op.isComparison && right = e
      | _ => false

/-- The jump that a comparison with zero is compiled to. -/
def zeroJump? : BinaryOp → Option Opcode
  | .less | .greaterEqual => some .iflt
  | .lessEqual | .greater => some .ifle
  | _ => none

def isZero (u : SourceUnit) (e : ExprId) : Bool :=
  match u.form e with
  | .literal value => value.isZero
  | _ => false

def constant? (u : SourceUnit) (query : ConstantQuery) (e : ExprId) : Option ConstantValue :=
  match u.form e with
  | .literal value => do
    let constant ← value.constant?
    if !u.isFolded e value && query.accepts constant then some constant else none
  | .binary op _ right .int => do
    let jump ← if u.isZero right then zeroJump? op else none
    if query.expands jump then some (.int 0) else none
  | _ => none

def constants (u : SourceUnit) (query : ConstantQuery) : List Sighting :=
  u.steps.filterMap fun
    | .event (.expr e) =>
      (u.constant? query e).map fun value => u.atExpr e (Element.constant value).label?
    | _ => none

/-! ### Locals -/

/-- A use of a local: which one (the receiver if none), where it is shown, and the statement at
which it stands. -/
structure LocalTouch where
  subject : Option LocalId
  sighting : Option String → Sighting
  at? : Option StmtId

def stored? (u : SourceUnit) : Step → Option LocalId
  | .event (.store s) =>
    match (u.body.stmt s).form with
    | .declare l _ | .loopOver l .. => some l
    | _ => none
  | .event (.expr e) =>
    match u.form e with
    | .writeLocal l _ => some l
    | _ => none
  | _ => none

def loaded? (u : SourceUnit) : Step → Option LocalTouch
  | .implicitSuper => some ⟨none, fun label => { u.atBody with label }, u.rootStmt?⟩
  | .fieldInit position => some ⟨none, u.atField position, u.rootStmt?⟩
  | .event (.expr e) =>
    match u.form e with
    | .this => some ⟨none, u.atExpr e, u.nesting.owner? e⟩
    | .readLocal l => some ⟨some l, u.atExpr e, u.nesting.owner? e⟩
    | _ => none
  | _ => none

/-- The use of a local in a step, if it is of the given kind. -/
def touch? (u : SourceUnit) (use : LocalUse) (step : Step) : Option LocalTouch :=
  match use, step with
  | .load, step => u.loaded? step
  | .store, .event (.store s) => (u.stored? step).map fun l => ⟨some l, u.atStmt s, some s⟩
  | .store, .event (.expr e) =>
    (u.stored? step).map fun l => ⟨some l, u.atExpr e, u.nesting.owner? e⟩
  | .store, _ => none

def receiver (u : SourceUnit) : VisibleLocal :=
  ⟨"this", "L" ++ u.owner.name ++ ";", some 0, false⟩

def visibleLocal (u : SourceUnit) (isArg : Bool) (l : LocalId) : VisibleLocal :=
  let v := u.body.local l
  ⟨v.name, v.desc, v.slot, isArg⟩

/-- Tells whether a local that was stored is known at a statement. -/
def inScope (u : SourceUnit) (at? : Option StmtId) (l : LocalId) : Bool :=
  let kind := (u.body.local l).kind
  kind ≠ .param && kind ≠ .lambdaParam &&
    match u.nesting.scope? l, at? with
    | some scope, some s => u.nesting.encloses scope s
    | _, _ => false

/-- What is known at a statement: the receiver, the parameters, and those of the locals stored so
far whose scope it lies in, in the order in which they were stored first. -/
def visible (u : SourceUnit) (stored : List LocalId) (at? : Option StmtId) : List VisibleLocal :=
  (if u.isInstance then [u.receiver] else []) ++ u.params.map (u.visibleLocal true) ++
    (stored.filter (u.inScope at?)).map (u.visibleLocal false)

/-- The entry of a local among those known. -/
def subject? (u : SourceUnit) (visible : List VisibleLocal) :
    Option LocalId → Option VisibleLocal
  | none => visible.find? fun v => v.name = "this" && v.slot = some 0
  | some l =>
    let known := u.body.local l
    visible.find? fun v => v.name = known.name && v.desc = known.desc

/-- The uses of wanted locals, given the locals stored so far. -/
def localUses (u : SourceUnit) (use : LocalUse) (d : LocalDiscriminator) :
    (stored : List LocalId) → List Step → List Sighting
  | _, [] => []
  | stored, step :: rest =>
    let stored := match u.stored? step with
      | some l => if stored.contains l then stored else stored ++ [l]
      | none => stored
    let found? := do
      let touch ← u.touch? use step
      let visible := u.visible stored touch.at?
      let subject ← u.subject? visible touch.subject
      if d.accepts subject visible then some (touch.sighting (some subject.name)) else none
    found?.toList ++ localUses u use d stored rest

/-! ### The head of an initialized object -/

/-- The write to a field of the object under construction in a step. -/
def ownWrite? (u : SourceUnit) : Step → Option Sighting
  | .event (.expr e) =>
    match u.form e with
    | .writeField _ owner _ _ false _ =>
      if owner = u.owner.name then some (u.atExpr e none) else none
    | _ => none
  | .fieldInit position => some (u.atField position none)
  | _ => none

def constructorHead (u : SourceUnit) (enforce : Enforce) : Sighting :=
  let delegate := u.delegate?.map fun e => u.atExpr e none
  if !u.isConstructor then u.atBody
  else if enforce = .afterDelegate || u.delegatesToOwn then delegate.getD u.atBody
  else ((u.steps.filterMap u.ownWrite?).getLast? <|> delegate).getD u.atBody

/-! ### All kinds -/

/-- The candidates of a kind, or `none` for a kind that source does not show. -/
def sightings (u : SourceUnit) (kind : PointKind) (c : Criteria) (selector : Option Selector) :
    Except ResolveError (Option (List Sighting)) :=
  match kind with
  | .head => .ok (some [u.atBody])
  | .return => .ok (some u.returns)
  | .tail => .ok (some u.returns.getLast?.toList)
  | .invoke => .ok (some (u.calls selector fun _ => true))
  | .invokeAssign => .ok (some (u.calls selector givesValue))
  | .invokeString => .ok (some (u.calls selector (takesText (c.arg? "ldc"))))
  | .field => do
    let use? ← ArrayUse.parse (c.arg? "array")
    return some (u.fields c selector use?)
  | .new => do
    let target ← AllocationTarget.parse c.target
    return some (u.allocations target)
  | .constant => do
    let query ← ConstantQuery.parse c
    return some (u.constants query)
  | .load => .ok (some (u.localUses .load (c.local?.getD .empty) [] u.steps))
  | .store => .ok (some (u.localUses .store (c.local?.getD .empty) [] u.steps))
  | .constructorHead => do
    let enforce ← Enforce.parse (c.arg? "enforce")
    return some [u.constructorHead enforce]
  | .jump => .ok none

/-- The numbered candidates of a point. Points of the host are not shown in source. -/
def candidates (u : SourceUnit) (point : InjectionPoint) (c : Criteria)
    (selector : Option Selector) : Except ResolveError (Option (List SourceMatch)) :=
  match point with
  | .builtin kind => (u.sightings kind c selector).map fun found => found.map Sighting.number
  | .custom _ => .ok none

end SourceUnit

end Injection.Source
