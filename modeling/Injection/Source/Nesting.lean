import Injection.Source.Walk

/-!
How the statements of a unit lie inside each other, and in which of them a local is known.
-/

namespace Injection.Source

/-- A fact about the place of a node. -/
inductive Placement where
  /-- A statement evaluates an expression itself. -/
  | evaluates (s : StmtId) (e : ExprId)
  /-- A statement lies directly inside another. -/
  | inside (outer inner : StmtId)
  /-- A local is known inside a statement. -/
  | scope (l : LocalId) (s : StmtId)
  /-- An expression decides on the way through a branch or loop. -/
  | condition (e : ExprId)
deriving DecidableEq, Inhabited

namespace Body

/-- An expression and its operands, `depth` expressions down. -/
def subexprsWithin (b : Body) : (depth : Nat) → ExprId → List ExprId
  | 0, _ => []
  | depth + 1, e => e :: (b.expr e).form.children.flatMap (b.subexprsWithin depth)

def subexprs (b : Body) (e : ExprId) : List ExprId := b.subexprsWithin (b.size + 1) e

def evaluated (b : Body) (s : StmtId) (e : ExprId) : List Placement :=
  (b.subexprs e).map (.evaluates s)

/-- The places of the nodes of a statement that lies inside `outer`, `depth` statements down. -/
def placementsWithin (b : Body) : (depth : Nat) → Option StmtId → StmtId → List Placement
  | 0, _, _ => []
  | depth + 1, outer, s =>
    (outer.map fun o => Placement.inside o s).toList ++
      match (b.stmt s).form with
      | .block statements => statements.flatMap (b.placementsWithin depth (some s))
      | .declare l value => .scope l (outer.getD s) :: (value.map (b.evaluated s)).getD []
      | .expr value | .throw value => b.evaluated s value
      | .result value => (value.map (b.evaluated s)).getD []
      | .branch condition yes no =>
        .condition condition :: b.evaluated s condition ++
          b.placementsWithin depth (some s) yes ++
          (no.map (b.placementsWithin depth (some s))).getD []
      | .loop condition body =>
        .condition condition :: b.evaluated s condition ++ b.placementsWithin depth (some s) body
      | .loopOver item collection _ body =>
        .scope item s :: b.evaluated s collection ++ b.placementsWithin depth (some s) body
      | .localClass _ | .empty => []

def placements (b : Body) (s : StmtId) : List Placement := b.placementsWithin (b.size + 1) none s

end Body

/-- The facts about a unit, the latest last. Of several facts of one kind about a node the last
one counts. -/
structure Nesting where
  facts : List Placement
deriving DecidableEq, Inhabited

namespace Nesting

/-- The nesting of a unit. The value of a lambda expression has no statements. -/
def of (b : Body) : WalkRoot → Nesting
  | .stmt s => ⟨b.placements s⟩
  | .expr _ => ⟨[]⟩

def owner? (n : Nesting) (e : ExprId) : Option StmtId :=
  n.facts.reverse.findSome? fun
    | .evaluates s x => if x = e then some s else none
    | _ => none

def parent? (n : Nesting) (s : StmtId) : Option StmtId :=
  n.facts.reverse.findSome? fun
    | .inside outer inner => if inner = s then some outer else none
    | _ => none

/-- The statement in which a local is known. -/
def scope? (n : Nesting) (l : LocalId) : Option StmtId :=
  n.facts.reverse.findSome? fun
    | .scope x s => if x = l then some s else none
    | _ => none

def isCondition (n : Nesting) (e : ExprId) : Bool := n.facts.contains (.condition e)

/-- Tells whether a statement is another or lies inside it, at most `fuel` levels deep. -/
def enclosesWithin (n : Nesting) (outer : StmtId) : (fuel : Nat) → (s : StmtId) → Bool
  | 0, s => s = outer
  | fuel + 1, s => s = outer || (n.parent? s).any (n.enclosesWithin outer fuel)

/-- Tells whether a statement is another or lies inside it. -/
def encloses (n : Nesting) (outer s : StmtId) : Bool := n.enclosesWithin outer n.facts.length s

end Nesting

end Injection.Source
