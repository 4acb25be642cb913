import Injection.Access
import Injection.Source.Tree

/-!
Classes in source form.
-/

namespace Injection.Source

structure SourceField where
  name : String
  desc : String
  isStatic : Bool
  hasInitializer : Bool
  span : Span
deriving DecidableEq, Inhabited

namespace SourceField

/-- Tells a field whose initializer the compiler copies into constructors. -/
def isCopied (f : SourceField) : Bool := f.hasInitializer && !f.isStatic

end SourceField

/-- A method; an abstract or native one has no body. -/
structure SourceMethod where
  name : String
  desc : String
  access : Access
  body : Option Body
  span : Span
deriving DecidableEq, Inhabited

namespace SourceMethod

def isStatic (m : SourceMethod) : Bool := Access.isStatic m.access

def isSynthetic (m : SourceMethod) : Bool := Access.isSynthetic m.access

def isConstructor (m : SourceMethod) : Bool := m.name = "<init>"

end SourceMethod

structure SourceClass where
  name : String
  superName : Option String
  fields : List SourceField
  methods : List SourceMethod
  span : Span
deriving DecidableEq, Inhabited

namespace SourceClass

def findMethod? (c : SourceClass) (name desc : String) : Option SourceMethod :=
  c.methods.find? fun m => m.name = name && m.desc = desc

/-- The fields that are initialized in constructors, in the order of their declaration. -/
def copiedFields (c : SourceClass) : List SourceField := c.fields.filter (·.isCopied)

end SourceClass

end Injection.Source
