/-!
Access flags of classes, fields and methods.
-/

namespace Injection

abbrev Access := UInt16

namespace Access

def staticFlag : Access := 0x0008

def interfaceFlag : Access := 0x0200

def syntheticFlag : Access := 0x1000

def has (a flag : Access) : Bool := a &&& flag ≠ 0

def isStatic (a : Access) : Bool := a.has staticFlag

def isInterface (a : Access) : Bool := a.has interfaceFlag

def isSynthetic (a : Access) : Bool := a.has syntheticFlag

end Access

end Injection
