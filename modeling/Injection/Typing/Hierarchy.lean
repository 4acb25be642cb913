import Injection.Typing.Value

/-!
Merging types where paths meet. Two classes merge to their nearest common superclass, arrays item
by item, and a value that fits neither way is unset. A hierarchy answers what it knows of classes;
for unknown ones merging goes to the top class.
-/

namespace Injection

/-- What is known of classes, by internal name: the direct superclass, and whether a name is that
of an interface. -/
structure Hierarchy where
  superClass : String → Option String
  isInterface : String → Bool

namespace Hierarchy

def unknown : Hierarchy := ⟨fun _ => none, fun _ => false⟩

/-- What a list of classes tells, each with its superclass and whether it is an interface. The
last entry for a name holds. -/
def ofList (classes : List (String × Option String × Bool)) : Hierarchy :=
  let entry := fun name => classes.reverse.lookup name
  ⟨fun name => (entry name).bind (·.1), fun name => (entry name).any (·.2)⟩

/-- The number of classes that a chain of superclasses may hold. -/
def maxDepth : Nat := 64

/-- Follows superclasses from `current` for at most `room` steps and stops before a class that
was seen already. -/
def chainFrom (h : Hierarchy) : (room : Nat) → (seen : List String) → (current : String) →
    List String
  | 0, _, current => [current]
  | room + 1, seen, current =>
    match h.superClass current with
    | some parent =>
      if (current :: seen).contains parent then [current]
      else current :: h.chainFrom room (current :: seen) parent
    | none => [current]

/-- A class and its superclasses, the nearest first. -/
def chain (h : Hierarchy) (name : String) : List String := h.chainFrom (maxDepth - 1) [] name

/-- The nearest common superclass. An interface has only the top class in common with others. -/
def commonSuperClass (h : Hierarchy) (a b : String) : String :=
  if a = b then a
  else if h.isInterface a || h.isInterface b then TypeValue.objectClass
  else ((h.chain b).find? (h.chain a).contains).getD TypeValue.objectClass

/-- The name in a descriptor of the form `Lname;`. -/
def classNameOf? : List Char → Option String
  | 'L' :: rest =>
    match rest.reverse with
    | ';' :: name => some (String.ofList name.reverse)
    | _ => none
  | _ => none

def topDescriptor : List Char := "Ljava/lang/Object;".toList

def startsReference : List Char → Bool
  | c :: _ => c = 'L' || c = '['
  | [] => false

def mergeDescriptors (h : Hierarchy) : (a b : List Char) → List Char
  | '[' :: a, '[' :: b =>
    if a = b then '[' :: a
    else if startsReference a && startsReference b then '[' :: h.mergeDescriptors a b
    else topDescriptor
  | a, b =>
    if a = b then a
    else if a.head? = some '[' || b.head? = some '[' then topDescriptor
    else
      match classNameOf? a, classNameOf? b with
      | some a, some b => 'L' :: (h.commonSuperClass a b).toList ++ [';']
      | _, _ => topDescriptor

/-- Merges two values: null gives way to any reference. -/
def merge (h : Hierarchy) (a b : TypeValue) : TypeValue :=
  if a = b then a
  else
    match a, b with
    | .null, .reference _ => b
    | .reference _, .null => a
    | .reference x, .reference y =>
      .reference (String.ofList (h.mergeDescriptors x.toList y.toList))
    | _, _ => .unset

end Hierarchy

end Injection
