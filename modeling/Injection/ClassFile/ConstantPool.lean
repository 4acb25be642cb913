import Injection.ClassFile.Reader
import Injection.Constant
import Injection.Text.ModifiedUtf8

/-!
The constant pool of a class file: its entries as they stand, and the strings, members and
constants that an index stands for.
-/

namespace Injection

/-- An entry of the pool. The slot 0 and the second slot of an eight-byte number are unusable. -/
inductive PoolEntry where
  | unusable
  | utf8 (text : String)
  | integer (value : Int32)
  | float (bits : UInt32)
  | long (value : Int64)
  | double (bits : UInt64)
  | classRef (name : UInt16)
  | string (text : UInt16)
  | fieldRef (owner nameAndType : UInt16)
  | methodRef (owner nameAndType : UInt16)
  | interfaceMethodRef (owner nameAndType : UInt16)
  | nameAndType (name desc : UInt16)
  | methodHandle (kind : UInt8) (reference : UInt16)
  | methodType (desc : UInt16)
  | dynamic (bootstrap nameAndType : UInt16)
  | invokeDynamic (bootstrap nameAndType : UInt16)
  | moduleRef (name : UInt16)
  | packageRef (name : UInt16)
deriving DecidableEq, Inhabited

namespace PoolEntry

/-- The name of the kind of an entry. -/
def kind : PoolEntry → String
  | unusable => "unusable"
  | utf8 _ => "Utf8"
  | integer _ => "Integer"
  | float _ => "Float"
  | long _ => "Long"
  | double _ => "Double"
  | classRef _ => "Class"
  | string _ => "String"
  | fieldRef .. => "Fieldref"
  | methodRef .. => "Methodref"
  | interfaceMethodRef .. => "InterfaceMethodref"
  | nameAndType .. => "NameAndType"
  | methodHandle .. => "MethodHandle"
  | methodType _ => "MethodType"
  | dynamic .. => "Dynamic"
  | invokeDynamic .. => "InvokeDynamic"
  | moduleRef _ => "Module"
  | packageRef _ => "Package"

/-- Entries that take two slots. -/
def isWide : PoolEntry → Bool
  | long _ | double _ => true
  | _ => false

def read : Reader PoolEntry := do
  let tag ← Reader.u1
  match tag.toNat with
  | 1 =>
    let length ← Reader.u2
    let bytes ← Reader.bytes length.toNat
    match ModifiedUtf8.decode? bytes with
    | some text => return utf8 text
    | none => throw .invalidText
  | 3 => return integer (← Reader.i4)
  | 4 => return float (← Reader.u4)
  | 5 => return long (← Reader.u8).toInt64
  | 6 => return double (← Reader.u8)
  | 7 => return classRef (← Reader.u2)
  | 8 => return string (← Reader.u2)
  | 9 => return fieldRef (← Reader.u2) (← Reader.u2)
  | 10 => return methodRef (← Reader.u2) (← Reader.u2)
  | 11 => return interfaceMethodRef (← Reader.u2) (← Reader.u2)
  | 12 => return nameAndType (← Reader.u2) (← Reader.u2)
  | 15 => return methodHandle (← Reader.u1) (← Reader.u2)
  | 16 => return methodType (← Reader.u2)
  | 17 => return dynamic (← Reader.u2) (← Reader.u2)
  | 18 => return invokeDynamic (← Reader.u2) (← Reader.u2)
  | 19 => return moduleRef (← Reader.u2)
  | 20 => return packageRef (← Reader.u2)
  | _ => throw (.invalidPoolTag tag)

/-- Reads entries until `slots` more slots are filled. -/
def readSlots : (slots : Nat) → Reader (List PoolEntry)
  | 0 => pure []
  | 1 => do
    let entry ← read
    if entry.isWide then throw (.malformedAttribute "constant pool") else return [entry]
  | slots + 2 => do
    let entry ← read
    if entry.isWide then return entry :: unusable :: (← readSlots slots)
    else return entry :: (← readSlots (slots + 1))

end PoolEntry

/-- A field or method that the pool refers to. -/
structure MemberRef where
  owner : String
  name : String
  desc : String
  interface : Bool
deriving DecidableEq, Inhabited

/-- How a dynamic constant or call is linked: the handle to call and its static arguments, both
as pool indices. -/
structure BootstrapMethod where
  handle : UInt16
  args : List UInt16
deriving DecidableEq, Inhabited

structure ConstantPool where
  entries : Array PoolEntry
  bootstrapMethods : List BootstrapMethod
deriving Inhabited

namespace ConstantPool

/-- The depth to which dynamic constants may have dynamic constants as arguments. -/
def dynamicDepth : Nat := 16

/-- Reads the pool. Its count of slots includes the unusable slot 0, and a count of zero is
refused. -/
def read : Reader ConstantPool := do
  let count ← Reader.u2
  match count.toNat with
  | 0 => throw (.malformedAttribute "constant pool")
  | slots + 1 =>
    let entries ← PoolEntry.readSlots slots
    return ⟨(PoolEntry.unusable :: entries).toArray, []⟩

variable (pool : ConstantPool)

/-- The entry at an index, if it can be used. -/
def entry (index : UInt16) : Except ClassFileError PoolEntry :=
  match pool.entries[index.toNat]? with
  | none | some .unusable => .error (.invalidPoolIndex index)
  | some e => .ok e

/-- The error for an entry of another kind than expected. -/
def mismatch {α : Type} (index : UInt16) (expected : String) : Except ClassFileError α :=
  .error (.poolTypeMismatch index expected
    ((pool.entries[index.toNat]?.map PoolEntry.kind).getD "missing"))

def utf8 (index : UInt16) : Except ClassFileError String := do
  match ← pool.entry index with
  | .utf8 text => return text
  | _ => pool.mismatch index "Utf8"

def className (index : UInt16) : Except ClassFileError String := do
  match ← pool.entry index with
  | .classRef name => pool.utf8 name
  | _ => pool.mismatch index "Class"

def nameAndType (index : UInt16) : Except ClassFileError (String × String) := do
  match ← pool.entry index with
  | .nameAndType name desc => return (← pool.utf8 name, ← pool.utf8 desc)
  | _ => pool.mismatch index "NameAndType"

/-- The member with a given owner and a given name and type. -/
def member (owner nameAndType : UInt16) (interface : Bool) : Except ClassFileError MemberRef := do
  let owner ← pool.className owner
  let (name, desc) ← pool.nameAndType nameAndType
  return ⟨owner, name, desc, interface⟩

def memberRef (index : UInt16) : Except ClassFileError MemberRef := do
  match ← pool.entry index with
  | .fieldRef owner nt | .methodRef owner nt => pool.member owner nt false
  | .interfaceMethodRef owner nt => pool.member owner nt true
  | _ => pool.mismatch index "member reference"

def handle (index : UInt16) : Except ClassFileError Handle := do
  match ← pool.entry index with
  | .methodHandle kind reference =>
    let m ← pool.memberRef reference
    return ⟨kind, m.owner, m.name, m.desc, m.interface⟩
  | _ => pool.mismatch index "MethodHandle"

/-- The handle and the arguments of a bootstrap method, with constants looked up by `constant`. -/
def bootstrapWith (constant : UInt16 → Except ClassFileError Constant) (index : UInt16) :
    Except ClassFileError (Handle × List Constant) := do
  match pool.bootstrapMethods[index.toNat]? with
  | none => throw (.malformedAttribute "BootstrapMethods")
  | some method =>
    let handle ← pool.handle method.handle
    let args ← method.args.mapM constant
    return (handle, args)

/-- The constant at an index, with dynamic constants nested at most `depth` deep. -/
def constantWithin : (depth : Nat) → (index : UInt16) → Except ClassFileError Constant
  | depth, index => do
    match ← pool.entry index with
    | .integer value => return .int value
    | .float bits => return .float bits
    | .long value => return .long value
    | .double bits => return .double bits
    | .string text => return .string (← pool.utf8 text)
    | .classRef name => return .classRef (← pool.utf8 name)
    | .methodType desc => return .methodType (← pool.utf8 desc)
    | .methodHandle .. => return .methodHandle (← pool.handle index)
    | .dynamic bootstrap nt =>
      match depth with
      | 0 => throw (.malformedAttribute "BootstrapMethods")
      | depth + 1 =>
        let (name, desc) ← pool.nameAndType nt
        let (handle, args) ← pool.bootstrapWith (constantWithin depth) bootstrap
        return .dynamic name desc handle args
    | _ => pool.mismatch index "loadable constant"

def constant (index : UInt16) : Except ClassFileError Constant :=
  pool.constantWithin dynamicDepth index

/-- The name, type, handle and arguments of a dynamic call. -/
def invokeDynamic (index : UInt16) :
    Except ClassFileError (String × String × Handle × List Constant) := do
  match ← pool.entry index with
  | .invokeDynamic bootstrap nt =>
    let (name, desc) ← pool.nameAndType nt
    let (handle, args) ← pool.bootstrapWith pool.constant bootstrap
    return (name, desc, handle, args)
  | _ => pool.mismatch index "InvokeDynamic"

end ConstantPool

end Injection
