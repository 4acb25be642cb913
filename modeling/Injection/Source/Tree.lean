import Injection.Span

/-!
Method bodies as the compiler saw them after it resolved every name.

A body keeps its expressions, statements and locals in three tables and refers to them by their
place there. A well-formed body is built from the leaves up, so that every node refers to nodes
in front of it only.
-/

namespace Injection.Source

abbrev ExprId := Nat

abbrev StmtId := Nat

abbrev LocalId := Nat

inductive LocalKind where
  | param
  | plain
  /-- The variable of a loop over a collection. -/
  | loop
  /-- A parameter of a lambda expression. -/
  | lambdaParam
deriving DecidableEq, Inhabited

/-- A local with the descriptor of its type and, if it is known, the slot the compiler gave it. -/
structure Local where
  name : String
  desc : String
  kind : LocalKind
  slot : Option Nat
  span : Span
deriving DecidableEq, Inhabited

/-- A constant as it is written in source. A character is given by its UTF-16 unit, a
floating-point number by its bits, and a class literal by a field descriptor. -/
inductive Literal where
  | null
  | bool (value : Bool)
  | char (code : UInt16)
  | int (value : Int32)
  | long (value : Int64)
  | float (bits : UInt32)
  | double (bits : UInt64)
  | string (text : String)
  | classOf (desc : String)
deriving DecidableEq, Inhabited

/-- The way in which a method is called. -/
inductive CallKind where
  | virtual
  | static
  | special
  | interface
deriving DecidableEq, Inhabited

namespace CallKind

def name : CallKind → String
  | virtual => "virtual"
  | static => "static"
  | special => "special"
  | interface => "interface"

def ofName? (text : String) : Option CallKind :=
  [virtual, static, special, interface].find? (·.name = text)

end CallKind

inductive OperandType where
  | int
  | long
  | float
  | double
  | boolean
  | reference
deriving DecidableEq, Inhabited

namespace OperandType

def name : OperandType → String
  | int => "int"
  | long => "long"
  | float => "float"
  | double => "double"
  | boolean => "boolean"
  | reference => "ref"

def ofName? (text : String) : Option OperandType :=
  [int, long, float, double, boolean, reference].find? (·.name = text)

end OperandType

inductive BinaryOp where
  | add | sub | mul | div | rem
  | bitAnd | bitOr | bitXor
  | shiftLeft | shiftRight | shiftRightUnsigned
  | less | lessEqual | greater | greaterEqual | equal | notEqual
  | and | or
deriving DecidableEq, Inhabited

namespace BinaryOp

def isOrdering : BinaryOp → Bool
  | less | lessEqual | greater | greaterEqual => true
  | _ => false

def isComparison : BinaryOp → Bool
  | equal | notEqual => true
  | op => op.isOrdering

def spellings : List (String × BinaryOp) :=
  [("+", add), ("-", sub), ("*", mul), ("/", div), ("%", rem), ("&", bitAnd), ("|", bitOr),
    ("^", bitXor), ("<<", shiftLeft), (">>", shiftRight), (">>>", shiftRightUnsigned),
    ("<", less), ("<=", lessEqual), (">", greater), (">=", greaterEqual), ("==", equal),
    ("!=", notEqual), ("&&", and), ("||", or)]

def ofText? (text : String) : Option BinaryOp := List.lookup text spellings

end BinaryOp

inductive UnaryOp where
  | negate
  | not
  | complement
deriving DecidableEq, Inhabited

namespace UnaryOp

def ofText? : String → Option UnaryOp
  | "-" => some negate
  | "!" => some not
  | "~" => some complement
  | _ => none

end UnaryOp

inductive LambdaBody where
  | expr (value : ExprId)
  | block (body : StmtId)
deriving DecidableEq, Inhabited

inductive ExprForm where
  | literal (value : Literal)
  | this
  | readLocal (source : LocalId)
  | writeLocal (target : LocalId) (value : ExprId)
  | readField (receiver : Option ExprId) (owner name desc : String) (isStatic : Bool)
  | writeField (receiver : Option ExprId) (owner name desc : String) (isStatic : Bool)
      (value : ExprId)
  | arrayLength (array : ExprId)
  | readArray (array index : ExprId)
  | writeArray (array index value : ExprId)
  | call (receiver : Option ExprId) (owner name desc : String) (kind : CallKind)
      (args : List ExprId)
  /-- An allocation; one that declares an anonymous class names it. -/
  | create (className constructorDesc : String) (args : List ExprId) (anonymous : Option String)
  | createArray (elementDesc : String) (sizes : List ExprId)
  | binary (op : BinaryOp) (left right : ExprId) (operands : OperandType)
  | unary (op : UnaryOp) (operand : ExprId)
  | conditional (condition yes no : ExprId)
  | cast (value : ExprId) (desc : String)
  | instanceOf (value : ExprId) (className : String)
  | lambda (params : List LocalId) (body : LambdaBody)
  | methodRef (receiver : Option ExprId) (owner name desc : String)
  /-- Stands where the source could not be understood. -/
  | missing
deriving DecidableEq, Inhabited

structure Expr where
  form : ExprForm
  span : Span
deriving DecidableEq, Inhabited

namespace ExprForm

/-- The operands, in the order of their evaluation. The body of a lambda expression is none. -/
def children : ExprForm → List ExprId
  | literal _ | this | readLocal _ | lambda .. | missing => []
  | writeLocal _ value => [value]
  | readField receiver .. | methodRef receiver .. => receiver.toList
  | writeField receiver _ _ _ _ value => receiver.toList ++ [value]
  | arrayLength array => [array]
  | readArray array index => [array, index]
  | writeArray array index value => [array, index, value]
  | call receiver _ _ _ _ args => receiver.toList ++ args
  | create _ _ args _ => args
  | createArray _ sizes => sizes
  | binary _ left right _ => [left, right]
  | unary _ operand => [operand]
  | conditional condition yes no => [condition, yes, no]
  | cast value _ | instanceOf value _ => [value]

def isVoidCall : ExprForm → Bool
  | call _ _ _ desc .. => desc.endsWith ")V"
  | _ => false

def isLambda : ExprForm → Bool
  | lambda .. => true
  | _ => false

end ExprForm

/-- The ways in which a loop goes over a collection: by index over an array, or through the
iterator of a class or interface. -/
inductive LoopKind where
  | array
  | iterable (owner : String)
deriving DecidableEq, Inhabited

inductive StmtForm where
  | block (statements : List StmtId)
  | declare (name : LocalId) (value : Option ExprId)
  | expr (value : ExprId)
  | branch (condition : ExprId) (yes : StmtId) (no : Option StmtId)
  | loop (condition : ExprId) (body : StmtId)
  | loopOver (item : LocalId) (collection : ExprId) (kind : LoopKind) (body : StmtId)
  | result (value : Option ExprId)
  | throw (value : ExprId)
  /-- A class declared inside the body, whose members are compiled on their own. -/
  | localClass (name : String)
  | empty
deriving DecidableEq, Inhabited

structure Stmt where
  form : StmtForm
  span : Span
deriving DecidableEq, Inhabited

/-- The body of a method: its root statement, its parameters and its tables. -/
structure Body where
  root : StmtId
  params : List LocalId
  stmts : Array Stmt
  exprs : Array Expr
  locals : Array Local
deriving DecidableEq, Inhabited

namespace Body

def empty (span : Span) : Body := ⟨0, [], #[⟨.block [], span⟩], #[], #[]⟩

def expr (b : Body) (e : ExprId) : Expr := b.exprs.getD e ⟨.missing, .zero⟩

def stmt (b : Body) (s : StmtId) : Stmt := b.stmts.getD s ⟨.empty, .zero⟩

def «local» (b : Body) (l : LocalId) : Local := b.locals.getD l ⟨"", "", .plain, none, .zero⟩

def span (b : Body) : Span := (b.stmt b.root).span

/-- The expression that has a given one as an operand; of several, the one that was made last. -/
def parent? (b : Body) (e : ExprId) : Option ExprId :=
  (List.range b.exprs.size).reverse.find? fun p => (b.expr p).form.children.contains e

def parents (b : Body) : List (Option ExprId) := (List.range b.exprs.size).map b.parent?

end Body

end Injection.Source
