import Injection.Typing.Analysis

/-!
Local variables and the stretches of code in which they hold: those that the compiler declared,
and those made up from the types that an analysis found.
-/

namespace Injection

/-- A variable in a slot, valid from the position `start` up to the position `stop`. -/
structure LocalVariable where
  name : String
  desc : String
  slot : UInt16
  start : Nat
  stop : Nat
deriving DecidableEq, Inhabited

namespace LocalVariable

def contains (v : LocalVariable) (position : Nat) : Bool :=
  v.start ≤ position && position < v.stop

def isWide (v : LocalVariable) : Bool := v.desc = "J" || v.desc = "D"

def size (v : LocalVariable) : Nat := if v.isWide then 2 else 1

def extent (v : LocalVariable) : Nat := v.stop - v.start

/-- How far a position is from the closer end of the stretch; zero inside it. -/
def distance (v : LocalVariable) (position : Nat) : Nat :=
  if position < v.start then v.start - position
  else if v.stop ≤ position then position + 1 - v.stop
  else 0

/-- The first of the variables with the least key. -/
def leastBy (key : LocalVariable → Nat) : List LocalVariable → Option LocalVariable
  | [] => none
  | v :: rest =>
    match leastBy key rest with
    | none => some v
    | some w => if key w < key v then some w else some v

/-- The variables that the compiler declared, without those whose labels are not placed. -/
def declared (m : Method) : List LocalVariable :=
  m.declaredLocals.filterMap fun l => do
    let start ← m.instructions.labelPosition? l.start
    let stop ← m.instructions.labelPosition? l.stop
    return ⟨l.name, l.desc, l.slot, start, stop⟩

/-! ### Variables made up from types -/

/-- What a scan over the types of one slot remembers: the stretch that is open, with its start
and descriptor, the value seen last, and the last descriptor known. -/
structure SlotScan where
  opened : Option (Nat × String)
  current : Option TypeValue
  lastKnown : Option String
deriving DecidableEq, Inhabited

/-- A made-up variable is named after its slot. -/
def generatedIn (slot start stop : Nat) (desc : String) : LocalVariable :=
  ⟨"var" ++ toString slot, desc, UInt16.ofNat slot, start, stop⟩

namespace SlotScan

def start : SlotScan := ⟨none, none, none⟩

/-- The stretch that is open, closed at a position. -/
def close (s : SlotScan) (slot stop : Nat) : List LocalVariable :=
  (s.opened.map fun (start, desc) => generatedIn slot start stop desc).toList

/-- Goes on to the next value, which differs from the one before. A value without a descriptor of
its own has the last one known. -/
def next (s : SlotScan) (position : Nat) (value : Option TypeValue) : SlotScan :=
  match value.bind fun v => v.descriptor? <|> s.lastKnown with
  | some desc => ⟨some (position, desc), value, some desc⟩
  | none => ⟨none, value, s.lastKnown⟩

/-- The variables of a slot, from the values it holds at given positions up to the end of the
method. An unset slot holds no value. -/
def stretches (slot stop : Nat) : SlotScan → List (Nat × TypeValue) → List LocalVariable
  | s, [] => s.close slot stop
  | s, (position, v) :: rest =>
    let value := if v = .unset then none else some v
    if value = s.current then stretches slot stop s rest
    else s.close slot position ++ stretches slot stop (s.next position value) rest

end SlotScan

/-- The values of a slot at every position that has a frame. -/
def slotHistory (frames : Frames) (slot : Nat) : List (Nat × TypeValue) :=
  frames.toList.zipIdx.filterMap fun (frame, position) => do
    let frame ← frame
    let v ← frame.locals[slot]?
    return (position, v)

/-- The order of a made-up table: by start, then by slot. -/
def startsBefore (a b : LocalVariable) : Bool :=
  a.start < b.start || (a.start = b.start && a.slot ≤ b.slot)

/-- The variables made up from the types of a method. -/
def generated (m : Method) (frames : Frames) : List LocalVariable :=
  let ofSlot := fun slot =>
    SlotScan.start.stretches slot m.instructions.size (slotHistory frames slot)
  ((List.range m.maxLocals.toNat).flatMap ofSlot).mergeSort startsBefore

end LocalVariable

/-- The variables that hold at one position, slot by slot. -/
abbrev LocalTable := List (Option LocalVariable)

namespace LocalTable

def slot? (t : LocalTable) (slot : Nat) : Option LocalVariable := t[slot]?.join

def holdsNone (t : LocalTable) : Bool := t.all Option.isNone

def present (t : LocalTable) : List LocalVariable := t.filterMap id

def findByName? (t : LocalTable) (name : String) : Option LocalVariable :=
  t.present.find? (·.name = name)

end LocalTable

end Injection
