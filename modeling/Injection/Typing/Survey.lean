import Injection.ClassIndex
import Injection.Typing.Analysis

/-!
The analysis of a method while its classes may change.

An `Inquiry` is a computation that asks for one class after the other and goes on with what it is
told. Each question goes to the classes as they are at that moment; with classes that do not change
an inquiry has the same answer as the computation over their hierarchy. A `Survey` also looks at a
token and may fail.

The analysis is a survey that starts it and one more for every position that is carried on. Each of
them ends, but there may be no last one.
-/

namespace Injection

/-- A computation that asks for classes by name. -/
inductive Inquiry (α : Type) where
  | done (a : α)
  | ask (name : String) (next : Option Class → Inquiry α)

namespace Inquiry

def bind {α β : Type} : Inquiry α → (α → Inquiry β) → Inquiry β
  | done a, f => f a
  | ask name next, f => ask name fun found => (next found).bind f

instance : Monad Inquiry where
  pure := done
  bind := bind

def lookup (name : String) : Inquiry (Option Class) := ask name done

/-- The answer over classes that do not change. -/
def against {α : Type} (class? : String → Option Class) : Inquiry α → α
  | done a => a
  | ask name next => (next (class? name)).against class?

def superClass (name : String) : Inquiry (Option String) := do
  return (← lookup name).bind (·.superName)

def isInterface (name : String) : Inquiry Bool := do
  return (← lookup name).any (·.isInterface)

/-- Follows superclasses from `current` for at most `room` steps and stops before a class that
was seen already. -/
def chainFrom : (room : Nat) → (seen : List String) → (current : String) → Inquiry (List String)
  | 0, _, current => return [current]
  | room + 1, seen, current => do
    match ← superClass current with
    | some parent =>
      if (current :: seen).contains parent then return [current]
      else return current :: (← chainFrom room (current :: seen) parent)
    | none => return [current]

/-- A class and its superclasses, the nearest first. -/
def chain (name : String) : Inquiry (List String) := chainFrom (Hierarchy.maxDepth - 1) [] name

/-- The nearest common superclass. No superclass is asked for if one of the two is an interface,
and nothing is asked for two that are the same. -/
def commonSuperClass (a b : String) : Inquiry String := do
  if a = b then return a
  else if ← isInterface a then return TypeValue.objectClass
  else if ← isInterface b then return TypeValue.objectClass
  else
    let ancestors ← chain a
    let candidates ← chain b
    return (candidates.find? ancestors.contains).getD TypeValue.objectClass

def mergeDescriptors : (a b : List Char) → Inquiry (List Char)
  | '[' :: a, '[' :: b => do
    if a = b then return '[' :: a
    else if Hierarchy.startsReference a && Hierarchy.startsReference b then
      return '[' :: (← mergeDescriptors a b)
    else return Hierarchy.topDescriptor
  | a, b => do
    if a = b then return a
    else if a.head? = some '[' || b.head? = some '[' then return Hierarchy.topDescriptor
    else
      match Hierarchy.classNameOf? a, Hierarchy.classNameOf? b with
      | some a, some b => return 'L' :: (← commonSuperClass a b).toList ++ [';']
      | _, _ => return Hierarchy.topDescriptor

/-- Merges two values: null gives way to any reference. -/
def merge (a b : TypeValue) : Inquiry TypeValue := do
  if a = b then return a
  else
    match a, b with
    | .null, .reference _ => return b
    | .reference _, .null => return a
    | .reference x, .reference y =>
      return .reference (String.ofList (← mergeDescriptors x.toList y.toList))
    | _, _ => return .unset

def mergeAll : (known incoming : List TypeValue) → Inquiry (List TypeValue)
  | v :: known, w :: incoming => do
    let merged ← merge v w
    return merged :: (← mergeAll known incoming)
  | _, _ => return []

/-- Merges a frame into another: the locals, then the stack from its bottom up. -/
def mergeFrames (known incoming : TypeFrame) : Inquiry TypeFrame := do
  let locals ← mergeAll known.locals incoming.locals
  let stack ← mergeAll known.stack.reverse incoming.stack.reverse
  return ⟨locals, stack.reverse⟩

end Inquiry

/-- An inquiry that looks at a token on its way and may fail. -/
abbrev Survey (ε α : Type) := ExceptT ε (StateT Watch Inquiry) α

namespace Survey

variable {ε ε' α : Type}

def ofInquiry (q : Inquiry α) : Survey ε α := fun w => do return (.ok (← q), w)

def ofQuery (q : Query ε α) : Survey ε α := fun w => return q.run.run w

def ofExcept (r : Except ε α) : Survey ε α := ofQuery (Query.ofExcept r)

/-- Merges a frame into that of a position, which becomes pending when its frame changes. -/
def mergeInto (m : Machine) (position : Nat) (incoming : TypeFrame) : Survey AnalyzeError Machine :=
  match m.frameAt? position with
  | none => return m.put position incoming
  | some known =>
    if known.stack.length ≠ incoming.stack.length then throw (.stackMismatch position)
    else do
      let merged ← ofInquiry (Inquiry.mergeFrames known incoming)
      return if merged = known then m else m.put position merged

section

variable (owner : String) (is : InstructionList) (guarded : List GuardedRange)

/-- Carries the frame of a position on along every edge. -/
def propagate (m : Machine) (position : Nat) (i : Instruction) (before : TypeFrame) :
    Survey AnalyzeError Machine := do
  let handlers := guarded.filter (·.covers position)
  let m ← handlers.foldlM (fun m g => mergeInto m g.handler { before with stack := [g.caught] }) m
  let after ← ofExcept (Typing.execute owner position i before)
  let m ← i.targets.foldlM (fun m l => do
    mergeInto m (← ofExcept (Machine.positionOf is l)) after) m
  if i.isTransfer then return m
  else
    match is.next? position with
    | some next => mergeInto m next after
    | none => return m

/-- Takes the first pending position and carries its frame on. -/
def step (m : Machine) : Survey AnalyzeError Machine :=
  match m.pending with
  | [] => return m
  | position :: pending =>
    let m := { m with pending }
    match m.frameAt? position, is.get? position with
    | some before, some i => propagate owner is guarded m position i before
    | _, _ => return m

end

end Survey

/-- An analysis between two positions. -/
structure Progress where
  guarded : List GuardedRange
  machine : Machine
  /-- The number of positions carried on. -/
  taken : Nat
deriving DecidableEq, Inhabited

namespace Survey

/-- Starts the analysis of a method of the class `owner`. -/
def start (owner : String) (m : Method) : Survey AnalyzeError Progress := do
  if m.instructions.isEmpty then return ⟨[], .initial 0, 0⟩
  else
    let entry ← ofExcept (TypeFrame.entry owner m)
    let guarded ← ofExcept (m.handlers.mapM (Analysis.guardedRange m.instructions))
    let machine ← mergeInto (Machine.initial m.instructions.size) 0 entry
    return ⟨guarded, machine, 0⟩

/-- Carries the first pending position on, with a look at the token at every 64th. -/
def turn (owner : String) (is : InstructionList) (p : Progress) :
    Survey AnalyzeError Progress := do
  if (p.taken + 1) % Machine.lookInterval = 0 then ofQuery (Query.checkpoint .cancelled)
  let machine ← step owner is p.guarded p.machine
  return { p with machine, taken := p.taken + 1 }

end Survey

end Injection
