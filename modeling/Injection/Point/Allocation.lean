import Injection.Point.Position

/-!
Allocations of objects. The call of the constructor on an object follows its allocation like a
closing bracket; objects allocated for the arguments lie in between.
-/

namespace Injection

/-- The allocations that are wanted: of a class, and with a constructor. What is left out is
open. -/
structure AllocationTarget where
  className : Option String
  constructorDesc : Option String
deriving DecidableEq, Inhabited

namespace AllocationTarget

def isClassName (cs : List Char) : Bool :=
  (Name.parts cs).all fun p => !p.isEmpty && p.all Letter.isIdentifierPart

/-- What stands between `L` and `;`, if a text has this form. -/
def unquote? : List Char → Option (List Char)
  | 'L' :: cs => if cs.getLast? = some ';' then some cs.dropLast else none
  | _ => none

/-- Reads parameters and the class they make: `(I)Ljava/lang/Foo;`. -/
def readShorthand? (cs : List Char) : Option AllocationTarget := do
  let params := cs.takeWhile (· ≠ ')')
  let className ← unquote? ((cs.dropWhile (· ≠ ')')).drop 1)
  if !isClassName className then none
  let desc := String.ofList (params ++ [')', 'V'])
  let _ ← (MethodDescriptor.parse desc).toOption
  return ⟨some (String.ofList className), some desc⟩

def readSelector? (cs : List Char) : Option AllocationTarget := do
  let s ← Selector.parse? (String.ofList cs)
  if s.owner.isSome && s.name.name? = some "<init>" then return ⟨s.owner, s.desc⟩ else none

/-- Reads the name of a class, in any of its forms. -/
def readClass? (cs : List Char) : Option AllocationTarget :=
  let name := Name.internal (String.ofList ((unquote? cs).getD cs))
  if isClassName name.toList then some ⟨some name, none⟩ else none

/-- Reads a target. White space means nothing. -/
def parse : Option String → Except ResolveError AllocationTarget
  | none => .ok ⟨none, none⟩
  | some text =>
    let cs := text.toList.filter (!Blank.isBlank ·)
    let read? :=
      if cs.head? = some '(' then readShorthand? cs else readSelector? cs <|> readClass? cs
    match read? with
    | some target => .ok target
    | none => .error (.invalidSelector text)

def accepts (t : AllocationTarget) (className : String) (constructorDesc : Option String) : Bool :=
  t.className.all (· = className) &&
    t.constructorDesc.all fun wanted => constructorDesc = some wanted

end AllocationTarget

namespace PointContext

/-- The call of the constructor on the object that is allocated at a position. -/
def constructorOf? (ctx : PointContext) (position : Nat) : Option ConstructorCall :=
  ConstructorCall.firstUnpaired 0 (ctx.positioned.drop (position + 1))

def allocationCandidate? (ctx : PointContext) (target : AllocationTarget) :
    Instruction → Nat → Option Candidate
  | .type .newObject className, position =>
    let call? := ctx.constructorOf? position
    let desc? := call?.map (·.desc)
    if target.accepts className desc? then
      some ⟨position, .allocation className desc?, none,
        call?.toList.map fun call => .constructorCall call.position⟩
    else none
  | _, _ => none

def allocationVisits (ctx : PointContext) : Except ResolveError (List Visit) := do
  let target ← AllocationTarget.parse ctx.criteria.target
  return visits ctx.positioned fun i position => pure (ctx.allocationCandidate? target i position)

end PointContext

end Injection
