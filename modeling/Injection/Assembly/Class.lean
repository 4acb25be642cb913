import Injection.Assembly.StackMap

/-!
Writing a class as a class file.
-/

namespace Injection

namespace Assembler

/-- An attribute: its name, its length and its bytes. -/
def namedBytes (name : String) (bytes : List UInt8) : Assembler (List UInt8) := do
  let index ← utf8 name
  return Bytes.u2 index.toNat ++ Bytes.u4 bytes.length ++ bytes

def counted (items : List (List UInt8)) : List UInt8 := Bytes.u2 items.length ++ items.flatten

/-- A named table of items, left out when there are none. -/
def tableBytes (name : String) (items : List (List UInt8)) : Assembler (List (List UInt8)) := do
  if items.isEmpty then return [] else return [← namedBytes name (counted items)]

/-- A table that is left out when its count is 0, also where the count has wrapped. -/
def countedTable (name : String) (items : List (List UInt8)) : Assembler (List (List UInt8)) := do
  if UInt16.ofNat items.length = 0 then return []
  else return [← namedBytes name (counted items)]

/-- The code of a method: the instructions, the handlers, and the tables of frames, line numbers
and declared locals. -/
def code (m : Method) : Assembler (List UInt8) := do
  let nodes := m.instructions.nodes.toList
  let indices ← nodes.mapM Instruction.poolIndex
  let placed := PlacedNode.place 0 (nodes.zip indices)
  if 0xffff < PlacedNode.endOffset placed then throw (.codeTooLarge m.name)
  let labelOffset := PlacedNode.labelOffset placed
  let offsetBytes := fun (l : Label) => do return Bytes.u2 (← ofExcept (labelOffset l))
  let bytes ← ofExcept (PlacedNode.encodeAll placed)
  let frames ← StackMap.frames labelOffset none placed
  let frameTable ← countedTable "StackMapTable" frames
  let lines ← nodes.filterMapM fun
    | .line n start => do return some ((← offsetBytes start) ++ Bytes.u2 n.toNat)
    | _ => return none
  let lineTable ← countedTable "LineNumberTable" lines
  let locals ← m.declaredLocals.mapM fun l => do
    let start ← ofExcept (labelOffset l.start)
    let stop ← ofExcept (labelOffset l.stop)
    let name ← utf8 l.name
    let desc ← utf8 l.desc
    return Bytes.u2 start ++ Bytes.u2 (stop - start) ++ Bytes.u2 name.toNat ++
      Bytes.u2 desc.toNat ++ Bytes.u2 l.slot.toNat
  let localTable ← tableBytes "LocalVariableTable" locals
  let handlers ← m.handlers.mapM fun h => do
    let start ← offsetBytes h.start
    let stop ← offsetBytes h.stop
    let handler ← offsetBytes h.handler
    let catchType ← match h.catchType with
      | some name => classRef name
      | none => pure 0
    return start ++ stop ++ handler ++ Bytes.u2 catchType.toNat
  return Bytes.u2 m.maxStack.toNat ++ Bytes.u2 m.maxLocals.toNat ++ Bytes.u4 bytes.length ++
    bytes ++ counted handlers ++ counted (frameTable ++ lineTable ++ localTable)

def memberHead (access : Access) (name desc : String) : Assembler (List UInt8) := do
  let name ← utf8 name
  let desc ← utf8 desc
  return Bytes.u2 access.toNat ++ Bytes.u2 name.toNat ++ Bytes.u2 desc.toNat

def methodBytes (m : Method) : Assembler (List UInt8) := do
  let head ← memberHead m.access m.name m.desc
  if m.hasCode then
    let code ← code m
    return head ++ counted [← namedBytes "Code" code]
  else return head ++ counted []

def fieldBytes (f : Field) : Assembler (List UInt8) := do
  return (← memberHead f.access f.name f.desc) ++ counted []

def bootstrapBytes (m : BootstrapMethod) : List UInt8 :=
  Bytes.u2 m.handle.toNat ++ counted (m.args.map fun a => Bytes.u2 a.toNat)

/-- The attributes of a class: its source file, and how dynamic calls are linked. -/
def classAttributes (c : Class) : Assembler (List (List UInt8)) := do
  let source ← match c.sourceFile with
    | some file => do
      let name ← utf8 "SourceFile"
      let file ← utf8 file
      pure [Bytes.u2 name.toNat ++ Bytes.u4 2 ++ Bytes.u2 file.toNat]
    | none => pure []
  let methods := (← get).bootstrapMethods
  let bootstrap ← tableBytes "BootstrapMethods" (methods.map bootstrapBytes)
  return source ++ bootstrap

def classBody (c : Class) : Assembler (List UInt8) := do
  let thisClass ← classRef c.name
  let superClass ← match c.superName with
    | some name => classRef name
    | none => pure 0
  let interfaces ← c.interfaces.mapM classRef
  let fields ← c.fields.mapM fieldBytes
  let methods ← c.methods.mapM methodBytes
  let attributes ← classAttributes c
  return Bytes.u2 c.access.toNat ++ Bytes.u2 thisClass.toNat ++ Bytes.u2 superClass.toNat ++
    counted (interfaces.map fun i => Bytes.u2 i.toNat) ++ counted fields ++ counted methods ++
    counted attributes

end Assembler

/-- The bytes of the class file of a class. -/
def Class.assemble (c : Class) : Except AssembleError (List UInt8) := do
  let (body, pool) ← Assembler.classBody c PoolTable.empty
  return Bytes.u4 0xcafebabe ++ Bytes.u2 c.minorVersion.toNat ++ Bytes.u2 c.majorVersion.toNat ++
    pool.bytes ++ body

end Injection
