import Injection.Source.Tree

/-!
Building bodies node by node, from the leaves up. A node that is given no span gets the next span
of one character.
-/

namespace Injection.Source

structure BodyBuilder where
  stmts : Array Stmt
  exprs : Array Expr
  locals : Array Local
  params : List LocalId
  /-- The slot of the next local. -/
  nextSlot : Nat
  cursor : Nat
  /-- The span given for the next node. -/
  pending : Option Span
deriving DecidableEq, Inhabited

inductive BuildStep where
  /-- Gives the next node its span. -/
  | spanning (span : Span)
  | declare (kind : LocalKind) (name desc : String)
  | expr (form : ExprForm)
  | stmt (form : StmtForm)
deriving DecidableEq, Inhabited

namespace BodyBuilder

/-- Starts a body whose first free slot is given. -/
def withSlot (slot : Nat) : BodyBuilder := ⟨#[], #[], #[], [], slot, 0, none⟩

def forStatic : BodyBuilder := withSlot 0

/-- The body of an instance method, in which slot 0 holds the receiver. -/
def forInstance : BodyBuilder := withSlot 1

def nextSpan (b : BodyBuilder) : Span := b.pending.getD ⟨b.cursor, b.cursor + 1⟩

/-- Uses up the span of the next node. -/
def advance (b : BodyBuilder) : BodyBuilder :=
  match b.pending with
  | some _ => { b with pending := none }
  | none => { b with cursor := b.cursor + 1 }

def width (desc : String) : Nat := if desc = "J" || desc = "D" then 2 else 1

/-- Adds a local. A parameter of a lambda expression lives in another method and takes no slot;
slots end at 65535. -/
def declare (b : BodyBuilder) (kind : LocalKind) (name desc : String) : BodyBuilder :=
  let slot := if kind = .lambdaParam then none else some b.nextSlot
  { b.advance with
    locals := b.locals.push ⟨name, desc, kind, slot, b.nextSpan⟩
    params := if kind = .param then b.params ++ [b.locals.size] else b.params
    nextSlot := if kind = .lambdaParam then b.nextSlot else min 65535 (b.nextSlot + width desc) }

def expr (b : BodyBuilder) (form : ExprForm) : BodyBuilder :=
  { b.advance with exprs := b.exprs.push ⟨form, b.nextSpan⟩ }

def stmt (b : BodyBuilder) (form : StmtForm) : BodyBuilder :=
  { b.advance with stmts := b.stmts.push ⟨form, b.nextSpan⟩ }

def apply (b : BodyBuilder) : BuildStep → BodyBuilder
  | .spanning span => { b with pending := some span }
  | .declare kind name desc => b.declare kind name desc
  | .expr form => b.expr form
  | .stmt form => b.stmt form

/-- Puts statements into the root block and ends. -/
def finish (b : BodyBuilder) (statements : List StmtId) : Body :=
  let root := b.stmts.size
  let b := b.stmt (.block statements)
  ⟨root, b.params, b.stmts, b.exprs, b.locals⟩

end BodyBuilder

namespace Body

def build (start : BodyBuilder) (steps : List BuildStep) (statements : List StmtId) : Body :=
  (steps.foldl .apply start).finish statements

end Body

end Injection.Source
