import Injection.Typing.Execute
import Injection.Typing.Hierarchy

/-!
The types before every instruction of a method, found by following all paths until nothing
changes any more.

A `Machine` holds the frames found so far and the positions whose frame has changed since it was
last carried on. `Machine.step` takes the first of these positions, merges its frame into the
handlers that guard it, executes its instruction and merges the result into the nodes to which
control may go. A position without a frame is never reached.
-/

namespace Injection

/-- A guarded range of positions, with its handler and the type of the exceptions it takes. -/
structure GuardedRange where
  start : Nat
  stop : Nat
  handler : Nat
  caught : TypeValue
deriving DecidableEq, Inhabited

namespace GuardedRange

def covers (g : GuardedRange) (position : Nat) : Bool := g.start ≤ position && position < g.stop

end GuardedRange

structure AnalysisContext where
  owner : String
  instructions : InstructionList
  hierarchy : Hierarchy
  guarded : List GuardedRange

/-- The frames found so far, one for each position, and the positions still to be carried on. -/
structure Machine where
  frames : Array (Option TypeFrame)
  pending : List Nat
deriving DecidableEq, Inhabited

namespace Machine

/-- No position is reached yet. -/
def initial (size : Nat) : Machine := ⟨Array.replicate size none, []⟩

/-- The frame found so far at a position. -/
def frameAt? (m : Machine) (position : Nat) : Option TypeFrame := (m.frames[position]?).join

/-- Gives a position another frame and makes it pending. -/
def put (m : Machine) (position : Nat) (frame : TypeFrame) : Machine :=
  ⟨m.frames.setIfInBounds position (some frame),
    if m.pending.contains position then m.pending else m.pending ++ [position]⟩

/-- Merges a frame into another, slot by slot and entry by entry. -/
def mergeFrames (h : Hierarchy) (known incoming : TypeFrame) : TypeFrame :=
  ⟨known.locals.zipWith h.merge incoming.locals, known.stack.zipWith h.merge incoming.stack⟩

/-- Merges a frame into that of a position, which becomes pending when its frame changes. -/
def mergeInto (h : Hierarchy) (m : Machine) (position : Nat) (incoming : TypeFrame) :
    Except AnalyzeError Machine :=
  match m.frameAt? position with
  | none => .ok (m.put position incoming)
  | some known =>
    if known.stack.length ≠ incoming.stack.length then .error (.stackMismatch position)
    else
      let merged := mergeFrames h known incoming
      .ok (if merged = known then m else m.put position merged)

/-- The position of a label, which has to be placed. -/
def positionOf (is : InstructionList) (l : Label) : Except AnalyzeError Nat :=
  match is.labelPosition? l with
  | some position => .ok position
  | none => .error (.missingLabel l)

/-- Carries the frame of a position on along every edge. -/
def propagate (c : AnalysisContext) (m : Machine) (position : Nat) (i : Instruction)
    (before : TypeFrame) : Except AnalyzeError Machine := do
  let handlers := c.guarded.filter (·.covers position)
  let m ← handlers.foldlM (fun m g =>
    m.mergeInto c.hierarchy g.handler { before with stack := [g.caught] }) m
  let after ← Typing.execute c.owner position i before
  let m ← i.targets.foldlM (fun m l => do
    m.mergeInto c.hierarchy (← positionOf c.instructions l) after) m
  if i.isTransfer then return m
  else
    match c.instructions.next? position with
    | some next => m.mergeInto c.hierarchy next after
    | none => return m

/-- Takes the first pending position and carries its frame on. -/
def step (c : AnalysisContext) (m : Machine) : Except AnalyzeError Machine :=
  match m.pending with
  | [] => .ok m
  | position :: pending =>
    let m := { m with pending }
    match m.frameAt? position, c.instructions.get? position with
    | some before, some i => m.propagate c position i before
    | _, _ => .ok m

/-- The number of steps between two looks at the token. -/
def lookInterval : Nat := 64

/-- Steps until nothing is pending, looking at the token after every 64th position taken. The
count is that of the steps so far. -/
def run (c : AnalysisContext) : (fuel : Nat) → (count : Nat) → Machine →
    Query AnalyzeError Machine
  | 0, _, m => if m.pending.isEmpty then return m else throw .unsettled
  | fuel + 1, count, m => do
    if m.pending.isEmpty then return m
    else
      if (count + 1) % lookInterval = 0 then Query.checkpoint .cancelled
      let m ← Query.ofExcept (m.step c)
      run c fuel (count + 1) m

end Machine

/-- The types before every node of a method; nodes that are never reached have none. -/
abbrev Frames := Array (Option TypeFrame)

namespace Frames

def at? (frames : Frames) (position : Nat) : Option TypeFrame := (frames[position]?).join

end Frames

namespace Analysis

/-- The positions of a handler and of the range it guards. Without a type it takes everything
that can be thrown. -/
def guardedRange (is : InstructionList) (h : ExceptionHandler) :
    Except AnalyzeError GuardedRange := do
  let start ← Machine.positionOf is h.start
  let stop ← Machine.positionOf is h.stop
  let handler ← Machine.positionOf is h.handler
  return ⟨start, stop, handler, .object (h.catchType.getD "java/lang/Throwable")⟩

def context (owner : String) (m : Method) (h : Hierarchy) : Except AnalyzeError AnalysisContext :=
  do return ⟨owner, m.instructions, h, ← m.handlers.mapM (guardedRange m.instructions)⟩

/-- A bound on the array nesting of the types that an analysis meets: the length of every text
that may name one. -/
def nestingLimit (owner : String) (m : Method) : Nat :=
  (m.instructions.nodes.toList.map (·.text.length)).sum + m.desc.length +
    (m.handlers.map fun h => (h.catchType.getD "").length).sum + owner.length + 2

/-- A bound on the number of steps that no analysis over a well-founded hierarchy reaches. Every
step but the first of a position follows a change of its frame; a frame has a slot for each local
and at most two stack entries for each node, and a slot changes at most 66 times for each level
of array nesting. -/
def stepLimit (owner : String) (m : Method) (frame : TypeFrame) : Nat :=
  let nodes := m.instructions.size
  2 ^ 64 + nodes *
    ((frame.locals.length + 2 * nodes + 1) * (66 * nestingLimit owner m + 4) + 2)

def analyze (owner : String) (m : Method) (h : Hierarchy) : Query AnalyzeError Frames := do
  if m.instructions.isEmpty then return #[]
  else
    let entry ← Query.ofExcept (TypeFrame.entry owner m)
    let c ← Query.ofExcept (context owner m h)
    let machine ← Query.ofExcept ((Machine.initial m.instructions.size).mergeInto h 0 entry)
    let machine ← machine.run c (stepLimit owner m entry) 0
    return machine.frames

end Analysis

end Injection
