import Injection.Method
import Injection.Source.Class
import Injection.Source.Walk

/-!
The lambda expressions that methods were compiled from.

A lambda expression becomes a method whose name says nothing about its place. Its place is told
by the instruction that captures the method: that instruction stands in the method compiled from
the enclosing unit, and the captured methods come in the order of the lambda expressions there.
-/

namespace Injection.Source

/-- Tells the name of a method compiled from a lambda expression. -/
def isLambdaName (name : String) : Bool := name.startsWith "lambda$"

/-- A lambda expression and the method in whose body it is written. -/
structure LambdaSource where
  method : SourceMethod
  lambda : ExprId
deriving DecidableEq, Inhabited

namespace LambdaSource

/-- The unit that the lambda expression is compiled to. -/
def root? (l : LambdaSource) : Option WalkRoot := l.method.body.bind (·.lambdaRoot? l.lambda)

end LambdaSource

/-- The owner of the bootstrap method of lambda expressions. -/
def metafactoryOwner : String := "java/lang/invoke/LambdaMetafactory"

def captured? : Instruction → Option Handle
  | .invokeDynamic _ _ bootstrap (_ :: .methodHandle handle :: _) =>
    if bootstrap.owner = metafactoryOwner then some handle else none
  | _ => none

/-- The lambda methods of a class that one of its methods captures, in order. -/
def capturedLambdas (c : Class) (m : Method) : List (String × String) :=
  (m.instructions.nodes.toList.filterMap captured?).filterMap fun h =>
    if h.owner = c.name && isLambdaName h.name then some (h.name, h.desc) else none

/-- The first method that captures a method, and the place among those it captures. -/
def capturing? (c : Class) (name desc : String) : Option (Method × Nat) :=
  c.methods.findSome? fun m => ((capturedLambdas c m).idxOf? (name, desc)).map fun i => (m, i)

namespace LambdaSource

/-- The method and the unit of its body that a method was compiled from, given how the lambda
expressions around it are found. -/
def enclosing? (source : SourceClass) (find? : String → String → Option LambdaSource)
    (m : Method) : Option (SourceMethod × Body × WalkRoot) := do
  if isLambdaName m.name then
    let outer ← find? m.name m.desc
    return (outer.method, ← outer.method.body, ← outer.root?)
  else
    let method ← source.findMethod? m.name m.desc
    let body ← method.body
    return (method, body, .stmt body.root)

/-- Finds the lambda expression of a method. A method that was visited on the way captures
itself, and has none. -/
def locate? (c : Class) (source : SourceClass) :
    (fuel : Nat) → (visited : List (String × String)) → (name desc : String) → Option LambdaSource
  | 0, _, _, _ => none
  | fuel + 1, visited, name, desc =>
    if visited.contains (name, desc) then none
    else do
      let (capturing, place) ← capturing? c name desc
      let (method, body, root) ←
        enclosing? source (locate? c source fuel ((name, desc) :: visited)) capturing
      let lambda ← (body.lambdas root)[place]?
      return ⟨method, lambda⟩

/-- Finds the lambda expression that a method was compiled from. Every step but the first leads
to another method of the class, so there are at most two steps more than methods. -/
def find? (c : Class) (source : SourceClass) (name desc : String) : Option LambdaSource :=
  locate? c source (c.methods.length + 2) [] name desc

end LambdaSource

end Injection.Source
