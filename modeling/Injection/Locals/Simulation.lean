import Injection.Locals.Settings
import Injection.Locals.Variable

/-!
The local variables that hold before an instruction.

The method is gone through from its start, and each slot is live, unknown, or holds a zombie: a
variable that a frame removed and that may return for a while. A store takes effect at the node
after it, so that the state at an instruction is the one the instruction sees.
-/

namespace Injection

inductive LocalsError where
  | unavailable (reason : String)
  | cancelled
deriving DecidableEq, Inhabited

namespace LocalsError

def message : LocalsError → String
  | unavailable reason => "local variable information unavailable: " ++ reason
  | cancelled => Cancelled.message .cancelled

end LocalsError

/-- Why a variable was removed: by a frame that drops the last locals, or because a frame that
describes the locals anew leaves it out. -/
inductive ZombieCause where
  | chop
  | trim
deriving DecidableEq, Inhabited

/-- A removed variable, and the nodes and frames passed since then. -/
structure Zombie where
  ancestor : LocalVariable
  cause : ZombieCause
  lifetime : Nat
  frames : Nat
deriving DecidableEq, Inhabited

namespace Zombie

/-- The limits on nodes and frames for a cause. -/
def limits (s : LocalsSettings) : ZombieCause → Option Nat × Option Nat
  | .chop => (s.choppedInstructions, s.choppedFrames)
  | .trim => (s.trimmedInstructions, s.trimmedFrames)

/-- Tells whether a zombie is within its limits. -/
def canReturn (z : Zombie) (s : LocalsSettings) : Bool :=
  let (instructions, frames) := limits s z.cause
  instructions.all (z.lifetime ≤ ·) && frames.all (z.frames ≤ ·)

end Zombie

inductive Slot where
  | live (v : LocalVariable)
  | zombie (z : Zombie)
  | unknown
deriving DecidableEq, Inhabited

namespace Slot

/-- A slot with the variable found for it, if any. -/
def ofVariable : Option LocalVariable → Slot
  | some v => live v
  | none => unknown

def kill (cause : ZombieCause) : Slot → Slot
  | live v => zombie ⟨v, cause, 0, 0⟩
  | s => s

def age (isFrame : Bool) : Slot → Slot
  | zombie z =>
    zombie { z with lifetime := z.lifetime + 1, frames := z.frames + if isFrame then 1 else 0 }
  | s => s

/-- Brings back a zombie that is within its limits. -/
def revive (settings : LocalsSettings) : Slot → Slot
  | zombie z => if z.canReturn settings then live z.ancestor else zombie z
  | s => s

/-- What is reported at the end: a live variable, or one removed at the last node or the one
before it. -/
def report : Slot → Option LocalVariable
  | live v => some v
  | zombie z => if z.lifetime ≤ 1 then some z.ancestor else none
  | unknown => none

end Slot

/-- A method and all that is known of its variables. -/
structure LocalsContext where
  owner : String
  method : Method
  declared : List LocalVariable
  generated : Option (List LocalVariable)
  settings : LocalsSettings
deriving Inhabited

namespace LocalsContext

/-- The context of a method with its declared variables. -/
def new (owner : String) (m : Method) (generated : Option (List LocalVariable))
    (settings : LocalsSettings) : LocalsContext :=
  ⟨owner, m, LocalVariable.declared m, generated, settings⟩

/-- The variables that are answered from: the declared ones or, without any, the made-up ones. -/
def table (c : LocalsContext) : List LocalVariable :=
  if c.declared.isEmpty then c.generated.getD [] else c.declared

/-- The variables of a slot that hold at a position, the one with the shortest stretch. -/
def narrowest (table : List LocalVariable) (position : Nat) (slot : UInt16) :
    Option LocalVariable :=
  LocalVariable.leastBy LocalVariable.extent
    (table.filter fun v => v.slot = slot && v.contains position)

/-- The variable of a slot at a position. A declared one that holds there comes first, then a
made-up one; failing both, it is the closest one declared for the slot. -/
def variableAt (c : LocalsContext) (position : Nat) (slot : UInt16) : Option LocalVariable :=
  let madeUp := c.generated.bind fun table => narrowest table position slot
  if c.declared.isEmpty then madeUp
  else
    narrowest c.declared position slot <|> madeUp <|>
      LocalVariable.leastBy (·.distance position) (c.declared.filter (·.slot = slot))

end LocalsContext

/-- The state of every slot, and the number of slots that the frame is known to have now and had
at the last frame that spoke of locals. -/
structure Simulation where
  slots : List Slot
  frameSize : Nat
  lastFrameSize : Nat
deriving DecidableEq, Inhabited

namespace Simulation

variable (c : LocalsContext)

/-- A variable on entry: the one known for the slot, or one that holds all over the method. -/
def entryVariable (slot : Nat) (name desc : String) : LocalVariable :=
  let slot := UInt16.ofNat slot
  (c.variableAt 0 slot).getD ⟨name, desc, slot, 0, c.method.instructions.size⟩

/-- The slots and variables of the parameters from a slot on; the first has the given number. -/
def paramVariables (slot number : Nat) : List FieldType → List (Nat × LocalVariable)
  | [] => []
  | p :: rest =>
    (slot, entryVariable c slot ("arg" ++ toString number) p.descriptor) ::
      paramVariables (slot + p.slots) (number + 1) rest

/-- The slots that the receiver and the parameters take. -/
def entrySize (m : Method) (params : List FieldType) : Nat :=
  (if m.isStatic then 0 else 1) + (params.map FieldType.slots).sum

/-- The state on entry: the receiver and the parameters are live. -/
def seed (params : List FieldType) : Simulation :=
  let receiver :=
    if c.method.isStatic then []
    else [(0, entryVariable c 0 "this" ("L" ++ c.owner ++ ";"))]
  let size := entrySize c.method params
  let slots := List.replicate (max c.method.maxLocals.toNat size) Slot.unknown
  let entries := receiver ++ paramVariables c receiver.length 0 params
  ⟨entries.foldl (fun slots (slot, v) => slots.set slot (.live v)) slots, size, size⟩

/-- Puts the variable known at a position into its slot. -/
def retype (position slot : Nat) (slots : List Slot) : List Slot :=
  slots.set slot (.ofVariable (c.variableAt position (UInt16.ofNat slot)))

/-- Brings a slot that a frame names unset back, if it was trimmed. -/
def reviveTrimmed (settings : LocalsSettings) : Slot → Slot
  | .zombie z =>
    if settings.bogusTop && z.cause = .trim then .live z.ancestor else .zombie z
  | s => s

/-- Describes the slots from `slot` on by the locals of a frame. A slot that the frame leaves out
loses its variable; `entrySize` and `frameSize` are the sizes below which none is lost, and
`previousSize` tells apart what was dropped from what was left out. -/
def describe (position entrySize previousSize frameSize : Nat) (locals : List FrameValue) :
    (count slot : Nat) → List Slot → List Slot
  | 0, _, slots => slots
  | count + 1, slot, slots =>
    let next := describe position entrySize previousSize frameSize locals count
    if slots.length ≤ slot then slots
    else
      match locals[slot]? with
      | some (.object _) | some .int | some .float => next (slot + 1) (retype c position slot slots)
      | some .long | some .double =>
        next (slot + 2) ((retype c position slot slots).set (slot + 1) .unknown)
      | some .top =>
        next (slot + 1) (slots.modify slot (reviveTrimmed c.settings))
      | some .null | some .uninitializedThis => next (slot + 1) (slots.set slot .unknown)
      | some (.uninitialized _) => next (slot + 1) slots
      | none =>
        if entrySize ≤ slot && frameSize ≤ slot && 0 < frameSize then
          let cause := if slot < previousSize then ZombieCause.chop else .trim
          next (slot + 1) (slots.modify slot (Slot.kill cause))
        else next (slot + 1) slots

def killFrom (slot : Nat) (slots : List Slot) : List Slot :=
  slots.take slot ++ (slots.drop slot).map (Slot.kill .chop)

/-- Passes a frame. One that does not speak of locals changes nothing. -/
def applyFrame (entrySize position : Nat) (f : Frame) (s : Simulation) : Simulation :=
  let frameSize := max entrySize f.locals.length
  let describeFrom := fun slot =>
    Simulation.mk
      (describe c position entrySize s.lastFrameSize frameSize f.locals s.slots.length slot s.slots)
      frameSize frameSize
  match f.kind with
  | .same | .same1 => s
  | .chop _ | .expanded => ⟨killFrom frameSize s.slots, frameSize, frameSize⟩
  | .append _ => describeFrom s.lastFrameSize
  | .full => describeFrom 0

/-- Brings back the zombies inside the frame. -/
def revive (settings : LocalsSettings) (s : Simulation) : Simulation :=
  { s with
    slots := (s.slots.take s.frameSize).map (Slot.revive settings) ++ s.slots.drop s.frameSize }

/-- The slot that a load sees: the variable known there, or a zombie that returns. -/
def loaded (position : Nat) (slot : UInt16) (current : Slot) : Slot :=
  match c.variableAt position slot with
  | some v => .live v
  | none =>
    match current with
    | .zombie z =>
      if c.settings.exposedOnLoad && z.canReturn c.settings then .live z.ancestor else .unknown
    | _ => .unknown

def load (position : Nat) (op : Opcode) (slot : UInt16) (s : Simulation) : Simulation :=
  match s.slots[slot.toNat]? with
  | none => s
  | some current =>
    let found := loaded c position slot current
    let size := match found with
      | .live v => v.size
      | _ => Opcode.accessWidth op
    let s := { s with
      slots := s.slots.set slot.toNat found
      frameSize := max s.frameSize (slot.toNat + size) }
    if c.settings.exposedOnLoad then s.revive c.settings else s

/-- Passes a store, which is known to widen the frame. -/
def store (op : Opcode) (slot : UInt16) (s : Simulation) : Simulation :=
  if c.settings.exposedOnStore then
    { s with frameSize := max s.frameSize (slot.toNat + Opcode.accessWidth op) }.revive
      c.settings
  else s

/-- Carries out the store before a position. -/
def settle (position : Nat) (pending : Option UInt16) (s : Simulation) : Simulation :=
  match pending with
  | some slot =>
    { s with slots := s.slots.set slot.toNat (.ofVariable (c.variableAt position slot)) }
  | none => s

/-- Passes a node; a store is left pending. -/
def step (entrySize position : Nat) (i : Instruction) (pending : Option UInt16)
    (s : Simulation) : Option UInt16 × Simulation :=
  let s := { s with slots := s.slots.map (Slot.age i.isFrame) }
  let s := s.settle c position pending
  match i with
  | .frame f => (none, s.applyFrame c entrySize position f)
  | .var op slot =>
    if Opcode.isLocalLoad op then (none, s.load c position op slot)
    else if Opcode.isLocalStore op then (some slot, s.store c op slot)
    else (none, s)
  | _ => (none, s)

/-- The number of nodes between two looks at the token. -/
def lookInterval : Nat := 64

/-- Passes nodes from a position up to and with the one asked for, looking at the token at every
64th. -/
def run (entrySize query : Nat) : (position : Nat) → List Instruction → Option UInt16 →
    Simulation → Query LocalsError Simulation
  | _, [], _, s => return s
  | position, i :: rest, pending, s => do
    if position % lookInterval = 0 then Query.checkpoint .cancelled
    let (pending, s) := s.step c entrySize position i pending
    if position = query then return s
    else run entrySize query (position + 1) rest pending s

end Simulation

namespace LocalsContext

/-- How far a query on a label or a line number may move forward. -/
def maxSkip : Nat := 3

/-- The position asked for: a query on a label or a line number moves to the instruction after
it, but never to a frame. -/
def queryPosition (is : InstructionList) : (skips position : Nat) → Nat
  | 0, position => position
  | skips + 1, position =>
    match is.get? position with
    | some (.label _) | some (.line ..) =>
      match is.get? (position + 1) with
      | some next => if next.isFrame then position else queryPosition is skips (position + 1)
      | none => position
    | _ => position

/-- The variables that hold before the instruction at a position. -/
def localsAt (c : LocalsContext) (position : Nat) : Query LocalsError LocalTable := do
  if c.declared.isEmpty && c.generated.isNone then
    throw (.unavailable (c.owner ++ "." ++ c.method.name ++ c.method.desc ++
      " has no local variable table and could not be analysed"))
  if c.method.instructions.size ≤ position then
    throw (.unavailable (AnalyzeError.place position ++ " is outside the method"))
  match MethodDescriptor.parse c.method.desc with
  | .error e => throw (.unavailable e.message)
  | .ok desc =>
    let query := queryPosition c.method.instructions maxSkip position
    let s ← Simulation.run c (Simulation.entrySize c.method desc.params) query 0
      c.method.instructions.nodes.toList none (.seed c desc.params)
    return s.slots.map Slot.report

end LocalsContext

end Injection
