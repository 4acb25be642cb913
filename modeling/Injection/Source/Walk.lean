import Injection.Source.Tree

/-!
The walk over a body in the order of evaluation.

A walk lists one event for every place at which the compiler emits an instruction that may
matter. It stays inside one compiled unit: the bodies of lambda expressions, anonymous classes
and local classes are compiled to other methods and are not entered. Operands come in front of
the expression that has them, and the allocation of a new object comes in front of the arguments
of its constructor.
-/

namespace Injection.Source

/-- Where a walk starts: at a statement, or at the value of a lambda expression. -/
inductive WalkRoot where
  | stmt (root : StmtId)
  | expr (root : ExprId)
deriving DecidableEq, Inhabited

inductive Event where
  /-- The allocation of a new object. -/
  | allocate (e : ExprId)
  /-- An expression whose operands have been evaluated. -/
  | expr (e : ExprId)
  /-- The store into a local that is declared with a value, or into the variable of a loop. -/
  | store (s : StmtId)
  | result (s : StmtId)
  | throw (s : StmtId)
  /-- The call that gets the iterator of a loop. -/
  | iterator (s : StmtId)
  | hasNext (s : StmtId)
  | next (s : StmtId)
deriving DecidableEq, Inhabited

/-- Goes on with a walk unless the visitor has stopped it. -/
def andThen {σ : Type} (shown : σ × Bool) (next : σ → σ × Bool) : σ × Bool :=
  if shown.2 then shown else next shown.1

/-- What a walk does next at a node: it tells an event, or goes into a part. -/
inductive WalkItem where
  | event (e : Event)
  | part (n : WalkRoot)
deriving DecidableEq, Inhabited

namespace Body

/-- What a walk does at a node, in order. -/
def outline (b : Body) : WalkRoot → List WalkItem
  | .expr e =>
    let form := (b.expr e).form
    let allocation := match form with
      | .create .. => [WalkItem.event (.allocate e)]
      | _ => []
    allocation ++ form.children.map (fun c => .part (.expr c)) ++ [.event (.expr e)]
  | .stmt s =>
    match (b.stmt s).form with
    | .block statements => statements.map fun t => .part (.stmt t)
    | .declare _ (some value) => [.part (.expr value), .event (.store s)]
    | .declare _ none | .localClass _ | .empty => []
    | .expr value => [.part (.expr value)]
    | .branch condition yes no =>
      .part (.expr condition) :: .part (.stmt yes) :: no.toList.map fun t => .part (.stmt t)
    | .loop condition body => [.part (.expr condition), .part (.stmt body)]
    | .loopOver _ collection kind body =>
      let calls := match kind with
        | .iterable _ => [WalkItem.event (.iterator s), .event (.hasNext s), .event (.next s)]
        | .array => []
      .part (.expr collection) :: calls ++ [.event (.store s), .part (.stmt body)]
    | .result value => value.toList.map (fun e => .part (.expr e)) ++ [.event (.result s)]
    | .throw value => [.part (.expr value), .event (.throw s)]

/-- The number of nodes. A walk that goes down further than that comes back to a node it is in, and
has no end. -/
def size (b : Body) : Nat := b.stmts.size + b.exprs.size

/-- The events of a walk that goes down `depth` nodes. -/
def eventsWithin (b : Body) : (depth : Nat) → WalkRoot → List Event
  | 0, _ => []
  | depth + 1, n => (b.outline n).flatMap fun
    | .event e => [e]
    | .part m => b.eventsWithin depth m

/-- The events of a unit. Below the nodes of a path that ends there is at most one without parts
that stands in no table. -/
def events (b : Body) (root : WalkRoot) : List Event := b.eventsWithin (b.size + 1) root

/-- Shows the events of a walk that goes down `depth` nodes to a visitor. Nothing more is shown once
the visitor asks to stop. -/
def walkWithin {σ : Type} (b : Body) (visit : σ → Event → σ × Bool) :
    (depth : Nat) → WalkRoot → σ → σ × Bool
  | 0, _, state => (state, false)
  | depth + 1, n, state =>
    (b.outline n).foldl (fun shown item => andThen shown fun state =>
      match item with
      | .event e => visit state e
      | .part m => walkWithin b visit depth m state) (state, false)

/-- Shows a unit to a visitor. Answers the state of the visitor and whether it stopped the walk. -/
def walk {σ : Type} (b : Body) (root : WalkRoot) (visit : σ → Event → σ × Bool) (start : σ) :
    σ × Bool :=
  b.walkWithin visit (b.size + 1) root start

/-- The root of the unit that a lambda expression is compiled to. -/
def lambdaRoot? (b : Body) (e : ExprId) : Option WalkRoot :=
  match (b.expr e).form with
  | .lambda _ (.block s) => some (.stmt s)
  | .lambda _ (.expr v) => some (.expr v)
  | _ => none

/-- The lambda expression of an event, if it is one. -/
def eventLambda? (b : Body) : Event → Option ExprId
  | .expr e => if (b.expr e).form.isLambda then some e else none
  | _ => none

/-- The lambda expressions of a unit, in the order in which their call sites are emitted. Those
inside other lambda expressions belong to other units. -/
def lambdas (b : Body) (root : WalkRoot) : List ExprId := (b.events root).filterMap b.eventLambda?

/-- Tells whether control can reach the end of a statement, as far as `depth` statements go into
each other. There are no statements that leave a loop, so one whose condition is the literal `true`
is not left. -/
def completesWithin (b : Body) : (depth : Nat) → StmtId → Bool
  | 0, _ => true
  | depth + 1, s =>
    match (b.stmt s).form with
    | .block statements => statements.all (b.completesWithin depth)
    | .result _ | .throw _ => false
    | .branch _ yes (some no) => b.completesWithin depth yes || b.completesWithin depth no
    | .loop condition _ => (b.expr condition).form != .literal (.bool true)
    | _ => true

def completes (b : Body) (s : StmtId) : Bool := b.completesWithin (b.size + 1) s

end Body

end Injection.Source
