import Injection.ClassFile.Checked
import Injection.ClassFile.ConstantPool
import Injection.Method

/-!
Decoding the code of a method.

The instructions are read one after the other, with every label named by the byte offset it
stands for. Then the tables beside the code are read, in the same way. A label is placed at each
offset that is mentioned anywhere, together with its line numbers and its frame, and last the
labels are numbered in the order of their offsets.
-/

namespace Injection

namespace Bytecode

/-- The label at the given distance from an instruction, which must lie in the code. -/
def branch (codeLength offset : Nat) (distance : Int32) : Reader Label := do
  let target ← Reader.ofExcept (Checked.signedLong (offset + distance.toInt))
  if target < 0 || codeLength ≤ target then throw (.invalidBranchTarget offset target)
  else return ⟨target.toNat⟩

/-- Skips to an offset that is a multiple of four. -/
def skipPadding : Reader Unit := do
  let position := (← get).position
  let _ ← Reader.bytes ((4 - position % 4) % 4)

/-- The instruction of an opcode that tells its slot by itself. -/
def impliedSlot (op first base : Opcode) : Except ClassFileError Instruction := do
  let index ← Checked.sub op.toNat first.toNat
  let op ← Checked.byte (base.toNat + index / 4)
  return .var op (UInt16.ofNat (index % 4))

def instruction (pool : ConstantPool) (codeLength : Nat) : Reader Instruction := do
  let offset := (← get).position
  let op ← Reader.u1
  let near : Reader Label := do branch codeLength offset (← Reader.i2).toInt32
  let far : Reader Label := do branch codeLength offset (← Reader.i4)
  match Opcode.operandForm op with
  | .plain => return .plain op
  | .byte => return .int op (← Reader.i1).toInt32
  | .short => return .int op (← Reader.i2).toInt32
  | .element => return .int op (← Reader.u1).toUInt32.toInt32
  | .constant => return .ldc (← Reader.ofExcept (pool.constant (← Reader.u1).toUInt16))
  | .wideConstant => return .ldc (← Reader.ofExcept (pool.constant (← Reader.u2)))
  | .slot => return .var op (← Reader.u1).toUInt16
  | .impliedSlot first base => Reader.ofExcept (impliedSlot op first base)
  | .increment =>
    let slot ← Reader.u1
    return .iinc slot.toUInt16 (← Reader.i1).toInt16
  | .branch => return .jump op (← near)
  | .wideBranch base => return .jump base (← far)
  | .tableSwitch =>
    skipPadding
    let default ← far
    let lo ← Reader.i4
    let hi ← Reader.i4
    if hi < lo then throw (.malformedAttribute "Code")
    else
      let count ← Reader.ofExcept (Checked.signedLong (hi.toInt - lo.toInt + 1))
      return .tableSwitch lo hi default (← far.times count.toNat)
  | .lookupSwitch =>
    skipPadding
    let default ← far
    let count ← Reader.i4
    if count < 0 then throw (.malformedAttribute "Code")
    else
      let pair : Reader (Int32 × Label) := do return (← Reader.i4, ← far)
      let pairs ← pair.times count.toInt.toNat
      return .lookupSwitch default (pairs.map (·.1)) (pairs.map (·.2))
  | .field =>
    let m ← Reader.ofExcept (pool.memberRef (← Reader.u2))
    return .field op m.owner m.name m.desc
  | .invoke =>
    let m ← Reader.ofExcept (pool.memberRef (← Reader.u2))
    if op = Opcode.invokeinterface then
      let _ ← Reader.bytes 2
    return .method op m.owner m.name m.desc m.interface
  | .invokeDynamic =>
    let (name, desc, bootstrap, args) ← Reader.ofExcept (pool.invokeDynamic (← Reader.u2))
    let _ ← Reader.u2
    return .invokeDynamic name desc bootstrap args
  | .type => return .type op (← Reader.ofExcept (pool.className (← Reader.u2)))
  | .multiArray =>
    let desc ← Reader.ofExcept (pool.className (← Reader.u2))
    return .newMultiArray desc (← Reader.u1)
  | .wide =>
    let inner ← Reader.u1
    let slot ← Reader.u2
    match Opcode.operandForm inner with
    | .increment => return .iinc slot (← Reader.i2)
    | .slot => return .var inner slot
    | _ => throw (.invalidOpcode inner offset)
  | .undefined => throw (.invalidOpcode op offset)

/-- Reads instructions, each with its offset, until the bytes are used up. As each takes at least
one byte, the number of bytes bounds their number. -/
def sequence (pool : ConstantPool) (codeLength : Nat) :
    (bound : Nat) → Reader (List (Nat × Instruction))
  | 0 => return []
  | bound + 1 => do
    let c ← get
    if c.rest.isEmpty then return []
    else
      let i ← instruction pool codeLength
      let rest ← sequence pool codeLength bound
      return (c.position, i) :: rest

/-- Every branch goes to the start of an instruction. -/
def checkTargets (decoded : List (Nat × Instruction)) : Except ClassFileError Unit :=
  let starts := decoded.map (·.1)
  decoded.forM fun (offset, i) =>
    i.targets.forM fun l =>
      if starts.contains l.id then .ok () else .error (.invalidBranchTarget offset l.id)

def handler (pool : ConstantPool) : Reader ExceptionHandler := do
  let start ← Reader.u2
  let stop ← Reader.u2
  let handler ← Reader.u2
  let catchType ← Reader.u2
  let catchType ←
    if catchType = 0 then pure none
    else some <$> Reader.ofExcept (pool.className catchType)
  return ⟨⟨start.toNat⟩, ⟨stop.toNat⟩, ⟨handler.toNat⟩, catchType⟩

/-- A line number and the offset from which it holds. -/
def lineEntry : Reader (Nat × UInt32) := do
  let start ← Reader.u2
  let line ← Reader.u2
  return (start.toNat, line.toUInt32)

def localEntry (pool : ConstantPool) (codeLength : Nat) : Reader DeclaredLocal := do
  let start ← Reader.u2
  let length ← Reader.u2
  let name ← Reader.ofExcept (pool.utf8 (← Reader.u2))
  let desc ← Reader.ofExcept (pool.utf8 (← Reader.u2))
  let slot ← Reader.u2
  let stop ← Reader.ofExcept (Checked.word (start.toNat + length.toNat))
  if codeLength < stop then throw (.malformedAttribute "LocalVariableTable")
  else return ⟨name, desc, ⟨start.toNat⟩, ⟨stop⟩, slot⟩

/-- The type of a value in an encoded frame. -/
def verification (pool : ConstantPool) : Reader FrameValue := do
  let tag ← Reader.u1
  match tag.toNat with
  | 0 => return .top
  | 1 => return .int
  | 2 => return .float
  | 3 => return .double
  | 4 => return .long
  | 5 => return .null
  | 6 => return .uninitializedThis
  | 7 => return .object (← Reader.ofExcept (pool.className (← Reader.u2)))
  | 8 => return .uninitialized ⟨(← Reader.u2).toNat⟩
  | _ => throw (.malformedAttribute "StackMapTable")

/-- A frame as encoded: its locals are those added, or all of them if it is written in full. -/
structure FrameEntry where
  kind : FrameKind
  locals : List FrameValue
  stack : List FrameValue
deriving DecidableEq, Inhabited

/-- Reads a frame and its distance from the one before it. -/
def frameEntry (pool : ConstantPool) : Reader (Nat × FrameEntry) := do
  let tag := (← Reader.u1).toNat
  if tag ≤ 63 then return (tag, ⟨.same, [], []⟩)
  else if tag ≤ 127 then return (tag - 64, ⟨.same1, [], [← verification pool]⟩)
  else if tag ≤ 246 then throw (.malformedAttribute "StackMapTable")
  else
    let delta := (← Reader.u2).toNat
    if tag = 247 then return (delta, ⟨.same1, [], [← verification pool]⟩)
    else if tag ≤ 250 then return (delta, ⟨.chop (251 - tag), [], []⟩)
    else if tag = 251 then return (delta, ⟨.same, [], []⟩)
    else if tag ≤ 254 then
      return (delta, ⟨.append (tag - 251), ← (verification pool).times (tag - 251), []⟩)
    else
      let locals ← Reader.counted (verification pool)
      let stack ← Reader.counted (verification pool)
      return (delta, ⟨.full, locals, stack⟩)

/-- Reads a number of frames, each with its offset: the first distance counts from the start of
the code, every other from the offset after the previous frame. -/
def frameEntries (pool : ConstantPool) :
    (count : Nat) → (previous : Option Nat) → Reader (List (Nat × FrameEntry))
  | 0, _ => return []
  | count + 1, previous => do
    let (delta, entry) ← frameEntry pool
    let offset ← match previous with
      | none => pure delta
      | some p => Reader.ofExcept (Checked.word (p + delta + 1))
    let rest ← frameEntries pool count (some offset)
    return (offset, entry) :: rest

/-- What the tables beside the code say, and the offsets they mention. -/
structure Tables where
  lines : List (Nat × UInt32)
  locals : List DeclaredLocal
  frames : List (Nat × FrameEntry)
  mentioned : List Nat
deriving Inhabited

/-- The offsets of the fresh objects in a frame. -/
def FrameEntry.mentioned (e : FrameEntry) : List Nat :=
  (e.locals ++ e.stack).filterMap fun
    | .uninitialized l => some l.id
    | _ => none

/-- Reads a table and adds it to those before it; a second stack map takes the place of the
first. Tables of other names are skipped. -/
def table (pool : ConstantPool) (codeLength : Nat) (t : Tables) : Reader Tables := do
  let name ← Reader.u2
  let length ← Reader.u4
  let info ← Reader.bytes length.toNat
  match ← Reader.ofExcept (pool.utf8 name) with
  | "LineNumberTable" => Reader.within info do
    let lines ← Reader.counted lineEntry
    Reader.ensureEnd "LineNumberTable"
    return { t with lines := t.lines ++ lines, mentioned := t.mentioned ++ lines.map (·.1) }
  | "LocalVariableTable" => Reader.within info do
    let locals ← Reader.counted (localEntry pool codeLength)
    Reader.ensureEnd "LocalVariableTable"
    return { t with
      locals := t.locals ++ locals
      mentioned := t.mentioned ++ locals.flatMap fun l => [l.start.id, l.stop.id] }
  | "StackMapTable" => Reader.within info do
    let count ← Reader.u2
    let frames ← frameEntries pool count.toNat none
    Reader.ensureEnd "StackMapTable"
    return { t with
      frames
      mentioned := t.mentioned ++ frames.flatMap fun (_, e) => e.mentioned }
  | _ => return t

def tables (pool : ConstantPool) (codeLength : Nat) : (count : Nat) → Tables → Reader Tables
  | 0, t => return t
  | count + 1, t => do tables pool codeLength count (← table pool codeLength t)

/-- The locals after a frame, one for each value. -/
def FrameEntry.localsAfter (e : FrameEntry) (current : List FrameValue) :
    Except ClassFileError (List FrameValue) :=
  match e.kind with
  | .append _ => .ok (current ++ e.locals)
  | .chop count =>
    if current.length < count then .error (.malformedAttribute "StackMapTable")
    else .ok (current.take (current.length - count))
  | .full => .ok e.locals
  | .same | .same1 | .expanded => .ok current

/-- The complete frames, from the locals on entry on. -/
def frames (current : List FrameValue) :
    List (Nat × FrameEntry) → Except ClassFileError (List (Nat × Frame))
  | [] => .ok []
  | (offset, e) :: rest => do
    let current ← e.localsAfter current
    let rest ← frames current rest
    return (offset, .ofValues e.kind current e.stack) :: rest

/-- The marks at an offset: its label, its line numbers and its frame. -/
def marks (labels : List Nat) (t : Tables) (frames : List (Nat × Frame)) (offset : Nat) :
    List Instruction :=
  let line := fun (start, n) => if start = offset then some (.line n ⟨offset⟩) else none
  let frame := fun (place, f) => if place = offset then some (.frame f) else none
  (if labels.contains offset then .label ⟨offset⟩ :: t.lines.filterMap line else []) ++
    frames.filterMap frame

/-- The number of a label: its place among all labels. -/
def number (labels : List Nat) (l : Label) : Label := ⟨labels.idxOf l.id⟩

def renumberHandler (labels : List Nat) (h : ExceptionHandler) : ExceptionHandler :=
  ⟨number labels h.start, number labels h.stop, number labels h.handler, h.catchType⟩

def renumberLocal (labels : List Nat) (l : DeclaredLocal) : DeclaredLocal :=
  { l with start := number labels l.start, stop := number labels l.stop }

end Bytecode

structure Code where
  maxStack : UInt16
  maxLocals : UInt16
  instructions : InstructionList
  handlers : List ExceptionHandler
  declaredLocals : List DeclaredLocal
deriving Inhabited

open Bytecode in
/-- Reads the code of a method of a class. -/
def Code.read (pool : ConstantPool) (owner : String) (access : Access) (name desc : String) :
    Reader Code := do
  let maxStack ← Reader.u2
  let maxLocals ← Reader.u2
  let codeLength := (← Reader.u4).toNat
  let bytes ← Reader.bytes codeLength
  let decoded ← Reader.within bytes (sequence pool codeLength codeLength)
  Reader.ofExcept (checkTargets decoded)
  let handlers ← Reader.counted (handler pool)
  let targets := decoded.flatMap fun (_, i) => i.targets.map (·.id)
  let guarded := handlers.flatMap fun h => [h.start.id, h.stop.id, h.handler.id]
  let count ← Reader.u2
  let t ← tables pool codeLength count.toNat ⟨[], [], [], targets ++ guarded⟩
  Reader.ensureEnd "Code"
  let places := decoded.map (·.1) ++ [codeLength]
  if (t.mentioned ++ t.frames.map (·.1)).any (!places.contains ·) then
    throw (.malformedAttribute "Code")
  else
    let labels := places.filter t.mentioned.contains
    let entry ← Reader.ofExcept (Frame.entryLocals owner access name desc)
    let frames ← Reader.ofExcept (frames entry t.frames)
    let nodes := (decoded.flatMap fun (offset, i) => marks labels t frames offset ++ [i]) ++
      marks labels t frames codeLength
    return {
      maxStack, maxLocals
      instructions := .ofList (nodes.map (·.relabel (number labels)))
      handlers := handlers.map (renumberHandler labels)
      declaredLocals := t.locals.map (renumberLocal labels) }

end Injection
