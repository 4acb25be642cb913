import Injection.ClassFile.Parse
import Injection.Source.Class
import Injection.Stamp
import Injection.Typing.Hierarchy

/-!
The classes of a project: compiled, and in source form where the host has it.
-/

namespace Injection

open Source

/-- What can be asked about the classes of a project. The stamp changes whenever an answer may
have changed. -/
structure ClassIndex where
  bytes? : String → Option (List UInt8)
  class? : String → Option Class
  source? : String → Option SourceClass
  stamp : Stamp

namespace ClassIndex

/-- The class of a class file. One that cannot be read counts as missing. -/
def parsed? (bytes : Option (List UInt8)) : Option Class :=
  bytes.bind fun b => (Class.parse b).toOption

/-- An index that knows its classes by their class files alone. -/
def ofBytes (bytes? : String → Option (List UInt8)) (source? : String → Option SourceClass)
    (stamp : Stamp) : ClassIndex :=
  ⟨bytes?, fun name => parsed? (bytes? name), source?, stamp⟩

/-- The hierarchy of the compiled classes. -/
def hierarchy (index : ClassIndex) : Hierarchy :=
  ⟨fun name => (index.class? name).bind (·.superName),
    fun name => (index.class? name).any (·.isInterface)⟩

end ClassIndex

/-- Classes held in memory, under the names they declare. Every insertion moves the stamp on. -/
structure MemoryIndex where
  bytes : List (String × List UInt8)
  classes : List (String × Class)
  sources : List (String × SourceClass)
  stamp : Stamp
deriving Inhabited

namespace MemoryIndex

def empty : MemoryIndex := ⟨[], [], [], 0⟩

def without {α : Type} (name : String) (entries : List (String × α)) : List (String × α) :=
  entries.filter (·.1 ≠ name)

/-- Puts an entry in the place of the one before it. -/
def put {α : Type} (name : String) (value : α) (entries : List (String × α)) :
    List (String × α) :=
  (name, value) :: without name entries

/-- Adds a class that has no class file. -/
def addClass (m : MemoryIndex) (c : Class) : MemoryIndex :=
  { m with
    bytes := without c.name m.bytes
    classes := put c.name c m.classes
    stamp := m.stamp + 1 }

/-- Reads a class file and adds its class. -/
def addBytes (m : MemoryIndex) (bytes : List UInt8) :
    Except ClassFileError (Class × MemoryIndex) := do
  let c ← Class.parse bytes
  return (c, { m with
    bytes := put c.name bytes m.bytes
    classes := put c.name c m.classes
    stamp := m.stamp + 1 })

def addSource (m : MemoryIndex) (c : SourceClass) : MemoryIndex :=
  { m with sources := put c.name c m.sources, stamp := m.stamp + 1 }

def index (m : MemoryIndex) : ClassIndex :=
  ⟨fun name => List.lookup name m.bytes, fun name => List.lookup name m.classes,
    fun name => List.lookup name m.sources, m.stamp⟩

end MemoryIndex

end Injection
