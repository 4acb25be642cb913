import Injection.ClassFile.Code

/-!
Reading a class file. The code of the methods is decoded last, because a dynamic call is linked
through a table that stands at the end of the file.
-/

namespace Injection

namespace ClassFile

/-- A field or a method as read, with its code still encoded. -/
structure Member where
  access : Access
  name : String
  desc : String
  code : Option (List UInt8)
deriving Inhabited

/-- Reads an attribute: its name, by pool index, and its bytes. -/
def attributeBytes : Reader (UInt16 × List UInt8) := do
  let name ← Reader.u2
  let length ← Reader.u4
  let info ← Reader.bytes length.toNat
  return (name, info)

/-- Reads the attributes of a member; the last code counts. -/
def memberAttributes (pool : ConstantPool) :
    (count : Nat) → (code : Option (List UInt8)) → Reader (Option (List UInt8))
  | 0, code => return code
  | count + 1, code => do
    let (name, info) ← attributeBytes
    let name ← Reader.ofExcept (pool.utf8 name)
    memberAttributes pool count (if name = "Code" then some info else code)

def member (pool : ConstantPool) : Reader Member := do
  let access ← Reader.u2
  let name ← Reader.ofExcept (pool.utf8 (← Reader.u2))
  let desc ← Reader.ofExcept (pool.utf8 (← Reader.u2))
  let count ← Reader.u2
  let code ← memberAttributes pool count.toNat none
  return ⟨access, name, desc, code⟩

structure Attributes where
  sourceFile : Option String
  bootstrapMethods : List BootstrapMethod
deriving Inhabited

def bootstrapMethod : Reader BootstrapMethod := do
  let handle ← Reader.u2
  let args ← Reader.counted Reader.u2
  return ⟨handle, args⟩

/-- Reads one attribute of a class. A later one of the same name takes the place of the former. -/
def classAttribute (pool : ConstantPool) (a : Attributes) : Reader Attributes := do
  let (name, info) ← attributeBytes
  match ← Reader.ofExcept (pool.utf8 name) with
  | "SourceFile" => Reader.within info do
    let file ← Reader.ofExcept (pool.utf8 (← Reader.u2))
    Reader.ensureEnd "SourceFile"
    return { a with sourceFile := some file }
  | "BootstrapMethods" => Reader.within info do
    let methods ← Reader.counted bootstrapMethod
    Reader.ensureEnd "BootstrapMethods"
    return { a with bootstrapMethods := methods }
  | _ => return a

def classAttributes (pool : ConstantPool) : (count : Nat) → Attributes → Reader Attributes
  | 0, a => return a
  | count + 1, a => do classAttributes pool count (← classAttribute pool a)

/-- Decodes the code of a method, if it has any. -/
def method (pool : ConstantPool) (owner : String) (m : Member) : Except ClassFileError Method :=
  match m.code with
  | none => .ok ⟨m.access, m.name, m.desc, 0, 0, .empty, [], []⟩
  | some bytes => do
    let (code, _) ← Code.read pool owner m.access m.name m.desc (.ofBytes bytes)
    return ⟨m.access, m.name, m.desc, code.maxStack, code.maxLocals, code.instructions,
      code.handlers, code.declaredLocals⟩

/-- The first four bytes of a class file. -/
def magic : UInt32 := 0xcafebabe

/-- A class file as it stands, before any code is decoded. -/
structure Layout where
  minorVersion : UInt16
  majorVersion : UInt16
  pool : ConstantPool
  access : Access
  name : String
  superName : Option String
  interfaces : List String
  fields : List Member
  methods : List Member
  attributes : Attributes
deriving Inhabited

def layout : Reader Layout := do
  let found ← Reader.u4
  if found ≠ magic then throw (.invalidMagic found)
  let minorVersion ← Reader.u2
  let majorVersion ← Reader.u2
  let pool ← ConstantPool.read
  let access ← Reader.u2
  let name ← Reader.ofExcept (pool.className (← Reader.u2))
  let superIndex ← Reader.u2
  let superName ←
    if superIndex = 0 then pure none
    else some <$> Reader.ofExcept (pool.className superIndex)
  let interfaces ← Reader.counted do Reader.ofExcept (pool.className (← Reader.u2))
  let fields ← Reader.counted (member pool)
  let methods ← Reader.counted (member pool)
  let count ← Reader.u2
  let attributes ← classAttributes pool count.toNat ⟨none, []⟩
  Reader.ensureEnd "class file"
  return {
    minorVersion, majorVersion, pool, access, name, superName, interfaces, fields, methods
    attributes }

def Layout.toClass (l : Layout) : Except ClassFileError Class := do
  let pool := { l.pool with bootstrapMethods := l.attributes.bootstrapMethods }
  let methods ← l.methods.mapM (method pool l.name)
  return {
    minorVersion := l.minorVersion
    majorVersion := l.majorVersion
    access := l.access
    name := l.name
    superName := l.superName
    interfaces := l.interfaces
    sourceFile := l.attributes.sourceFile
    fields := l.fields.map fun f => ⟨f.access, f.name, f.desc⟩
    methods }

end ClassFile

def Class.parse (bytes : List UInt8) : Except ClassFileError Class := do
  let (layout, _) ← ClassFile.layout (.ofBytes bytes)
  layout.toClass

end Injection
