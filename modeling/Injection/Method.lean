import Injection.Instruction

/-!
Compiled classes and their members.
-/

namespace Injection

/-- A range of code guarded by a handler; without a type the handler takes every exception. -/
structure ExceptionHandler where
  start : Label
  stop : Label
  handler : Label
  catchType : Option String
deriving DecidableEq, Inhabited

/-- A local variable as the compiler declared it, valid from its start up to its end. -/
structure DeclaredLocal where
  name : String
  desc : String
  start : Label
  stop : Label
  slot : UInt16
deriving DecidableEq, Inhabited

structure Method where
  access : Access
  name : String
  desc : String
  maxStack : UInt16
  maxLocals : UInt16
  instructions : InstructionList
  handlers : List ExceptionHandler
  declaredLocals : List DeclaredLocal
deriving DecidableEq, Inhabited

namespace Method

def isStatic (m : Method) : Bool := m.access.isStatic

def isConstructor (m : Method) : Bool := m.name = "<init>"

def isSynthetic (m : Method) : Bool := m.access.isSynthetic

/-- Abstract and native methods have no code. -/
def hasCode (m : Method) : Bool := !m.access.has 0x0500 && !m.instructions.isEmpty

end Method

structure Field where
  access : Access
  name : String
  desc : String
deriving DecidableEq, Inhabited

structure Class where
  minorVersion : UInt16
  majorVersion : UInt16
  access : Access
  name : String
  superName : Option String
  interfaces : List String
  sourceFile : Option String
  fields : List Field
  methods : List Method
deriving DecidableEq, Inhabited

namespace Class

def isInterface (c : Class) : Bool := c.access.isInterface

/-- The first method of a name and, if one is given, a descriptor. -/
def findMethod? (c : Class) (name : String) (desc : Option String) : Option Method :=
  c.methods.find? fun m => m.name = name && desc.all (m.desc = ·)

def findField? (c : Class) (name : String) : Option Field :=
  c.fields.find? fun f => f.name = name

end Class

end Injection
