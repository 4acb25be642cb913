import Injection.Assembly.Bytes
import Injection.Assembly.Error
import Injection.ClassFile.ConstantPool

/-!
Collecting a constant pool. An entry that is there already is used again, so that each stands in
the pool once; the strings and members an entry refers to are entered before it.
-/

namespace Injection

/-- The encoded form of a pool entry. A second slot takes no bytes. -/
def PoolEntry.bytes : PoolEntry → List UInt8
  | .unusable => []
  | .utf8 text =>
    let encoded := ModifiedUtf8.encode text
    1 :: Bytes.u2 encoded.length ++ encoded
  | .integer value => 3 :: Bytes.i4 value.toInt
  | .float bits => 4 :: Bytes.u4 bits.toNat
  | .long value => 5 :: Bytes.u8 (value.toInt % 2 ^ 64).toNat
  | .double bits => 6 :: Bytes.u8 bits.toNat
  | .classRef name => 7 :: Bytes.u2 name.toNat
  | .string text => 8 :: Bytes.u2 text.toNat
  | .fieldRef owner nt => 9 :: Bytes.u2 owner.toNat ++ Bytes.u2 nt.toNat
  | .methodRef owner nt => 10 :: Bytes.u2 owner.toNat ++ Bytes.u2 nt.toNat
  | .interfaceMethodRef owner nt => 11 :: Bytes.u2 owner.toNat ++ Bytes.u2 nt.toNat
  | .nameAndType name desc => 12 :: Bytes.u2 name.toNat ++ Bytes.u2 desc.toNat
  | .methodHandle kind reference => 15 :: kind :: Bytes.u2 reference.toNat
  | .methodType desc => 16 :: Bytes.u2 desc.toNat
  | .dynamic bootstrap nt => 17 :: Bytes.u2 bootstrap.toNat ++ Bytes.u2 nt.toNat
  | .invokeDynamic bootstrap nt => 18 :: Bytes.u2 bootstrap.toNat ++ Bytes.u2 nt.toNat
  | .moduleRef name => 19 :: Bytes.u2 name.toNat
  | .packageRef name => 20 :: Bytes.u2 name.toNat

/-- The pool collected so far, slot by slot, and the bootstrap methods. -/
structure PoolTable where
  slots : List PoolEntry
  bootstrapMethods : List BootstrapMethod
deriving Inhabited

namespace PoolTable

/-- Only the unusable slot 0. -/
def empty : PoolTable := ⟨[.unusable], []⟩

/-- The encoded pool, its count of slots first. -/
def bytes (t : PoolTable) : List UInt8 :=
  Bytes.u2 t.slots.length ++ t.slots.flatMap PoolEntry.bytes

end PoolTable

/-- A computation that enters constants into a pool and may fail. -/
abbrev Assembler := StateT PoolTable (Except AssembleError)

namespace Assembler

def ofExcept {α : Type} (r : Except AssembleError α) : Assembler α := fun t =>
  match r with
  | .ok a => .ok (a, t)
  | .error e => .error e

/-- The index of an entry, which is added if it is not there. The count of slots must fit 16
bits. -/
def intern (entry : PoolEntry) : Assembler UInt16 := fun t =>
  match t.slots.idxOf? entry with
  | some index => .ok (UInt16.ofNat index, t)
  | none =>
    let added := if entry.isWide then [entry, .unusable] else [entry]
    if 65535 < t.slots.length + added.length then .error .poolOverflow
    else .ok (UInt16.ofNat t.slots.length, { t with slots := t.slots ++ added })

def utf8 (text : String) : Assembler UInt16 := intern (.utf8 text)

def classRef (name : String) : Assembler UInt16 := do intern (.classRef (← utf8 name))

def nameAndType (name desc : String) : Assembler UInt16 := do
  let name ← utf8 name
  let desc ← utf8 desc
  intern (.nameAndType name desc)

/-- Enters a member reference of the kind given by `entry`. -/
def member (entry : UInt16 → UInt16 → PoolEntry) (owner name desc : String) :
    Assembler UInt16 := do
  let owner ← classRef owner
  let nt ← nameAndType name desc
  intern (entry owner nt)

def method (owner name desc : String) (interface : Bool) : Assembler UInt16 :=
  member (if interface then .interfaceMethodRef else .methodRef) owner name desc

/-- Enters a handle. The kinds 1 to 4 refer to a field, and 9 always to an interface method. -/
def handle (h : Handle) : Assembler UInt16 := do
  let kind := h.kind.toNat
  let reference ←
    if 1 ≤ kind && kind ≤ 4 then member .fieldRef h.owner h.name h.desc
    else method h.owner h.name h.desc (kind = 9 || h.interface)
  intern (.methodHandle h.kind reference)

/-- The index of a bootstrap method, which is added if it is not there. -/
def internBootstrap (m : BootstrapMethod) : Assembler UInt16 := fun t =>
  match t.bootstrapMethods.idxOf? m with
  | some index => .ok (UInt16.ofNat index, t)
  | none =>
    .ok (UInt16.ofNat t.bootstrapMethods.length,
      { t with bootstrapMethods := t.bootstrapMethods ++ [m] })

mutual

def constant : Constant → Assembler UInt16
  | .int value => intern (.integer value)
  | .float bits => intern (.float bits)
  | .long value => intern (.long value)
  | .double bits => intern (.double bits)
  | .string text => do intern (.string (← utf8 text))
  | .classRef name => classRef name
  | .methodType desc => do intern (.methodType (← utf8 desc))
  | .methodHandle h => handle h
  | .dynamic name desc bootstrap args => do
    let handle ← handle bootstrap
    let args ← constants args
    let bootstrap ← internBootstrap ⟨handle, args⟩
    let nt ← nameAndType name desc
    intern (.dynamic bootstrap nt)

def constants : List Constant → Assembler (List UInt16)
  | [] => return []
  | c :: cs => do
    let index ← constant c
    let rest ← constants cs
    return index :: rest

end

def invokeDynamic (name desc : String) (bootstrap : Handle) (args : List Constant) :
    Assembler UInt16 := do
  let handle ← handle bootstrap
  let args ← constants args
  let bootstrap ← internBootstrap ⟨handle, args⟩
  let nt ← nameAndType name desc
  intern (.invokeDynamic bootstrap nt)

end Assembler

end Injection
