import Injection.Descriptor
import Injection.Name
import Injection.Text.Blank
import Injection.Text.Letter

/-!
Selectors of members: an owner, a name and a descriptor, each of which may be left open.

In text the owner is written `Lcom/Foo;` or `com.Foo.` in front of the name. The name is `*` for
any name, or a name with `*` after it for every overload of it. The descriptor of a method stands
directly after the name, that of a field after a colon. White space means nothing anywhere.
-/

namespace Injection

/-- The names a selector accepts. `overloads` also says that the descriptor is left open. -/
inductive NamePattern where
  | any
  | exact (name : String)
  | overloads (name : String)
deriving DecidableEq, Inhabited

namespace NamePattern

def isOverloads : NamePattern → Bool
  | overloads _ => true
  | _ => false

def name? : NamePattern → Option String
  | any => none
  | exact name | overloads name => some name

def accepts (p : NamePattern) (name : String) : Bool := p.name?.all (· = name)

def chars : NamePattern → List Char
  | any => ['*']
  | exact name => name.toList
  | overloads name => name.toList ++ ['*']

/-- Tells the name of a member: an identifier or the name of an initializer. -/
def isMemberName (cs : List Char) : Bool :=
  cs = "<init>".toList || cs = "<clinit>".toList ||
    (!cs.isEmpty && cs.all Letter.isIdentifierPart)

def ofChars? (cs : List Char) : Option NamePattern :=
  if cs = ['*'] then some any
  else if cs.getLast? = some '*' then
    if isMemberName cs.dropLast then some (overloads (String.ofList cs.dropLast)) else none
  else if isMemberName cs then some (exact (String.ofList cs)) else none

end NamePattern

/-- A reference to members. The owner is an internal name; the descriptor is that of a method or
of a field, and without it either is accepted. -/
structure Selector where
  owner : Option String
  name : NamePattern
  desc : Option String
deriving DecidableEq, Inhabited

namespace Selector

/-- Accepts every member. -/
def any : Selector := ⟨none, .any, none⟩

def accepts (s : Selector) (owner name desc : String) : Bool :=
  s.owner.all (· = owner) && s.name.accepts name && s.desc.all (· = desc)

/-- The members that an optional selector accepts: all of them without one. -/
def allows (s : Option Selector) (owner name desc : String) : Bool :=
  s.all (·.accepts owner name desc)

def matchesAllNames (s : Selector) : Bool := s.name = .any

def matchesAllDescs (s : Selector) : Bool :=
  s.name.isOverloads || (s.matchesAllNames && s.desc.isNone)

def isMethodDesc (desc : List Char) : Bool := desc.head? = some '('

def isField (s : Selector) : Bool := s.desc.any fun desc => !isMethodDesc desc.toList

/-! ### Text -/

def descChars (desc : String) : List Char :=
  if isMethodDesc desc.toList then desc.toList else ':' :: desc.toList

def chars (s : Selector) : List Char :=
  (s.owner.map fun owner => 'L' :: owner.toList ++ [';']).getD [] ++ s.name.chars ++
    (s.desc.map descChars).getD []

/-- The one text that stands for a selector. -/
def text (s : Selector) : String := String.ofList s.chars

/-- Tells the characters with which a descriptor begins. -/
def startsDesc (c : Char) : Bool := c = '(' || c = ':'

/-- Reads an owner, written with dots or slashes. -/
def readOwner? (cs : List Char) : Option String :=
  let owner := Name.internal (String.ofList cs)
  if (Name.parts owner.toList).all fun p => !p.isEmpty && p.all Letter.isIdentifierPart then
    some owner
  else none

/-- Separates the owner from the name in what stands in front of the descriptor. -/
def splitOwner? (head : List Char) : Option (Option String × List Char) :=
  let quoted := (head.drop 1).takeWhile (· ≠ ';')
  let afterQuoted := (head.drop 1).dropWhile (· ≠ ';')
  if head.head? = some 'L' && !afterQuoted.isEmpty then
    (readOwner? quoted).map fun owner => (some owner, afterQuoted.drop 1)
  else
    let name := (head.reverse.takeWhile (· ≠ '.')).reverse
    let dotted := head.reverse.dropWhile (· ≠ '.')
    if dotted.isEmpty then some (none, name)
    else (readOwner? (dotted.drop 1).reverse).map fun owner => (some owner, name)

/-- Reads what stands from the descriptor on; nothing there leaves it open. -/
def readDesc? : List Char → Option (Option String)
  | [] => some none
  | ':' :: cs =>
    let desc := String.ofList cs
    (FieldType.parse desc).toOption.map fun _ => some desc
  | cs =>
    let desc := String.ofList cs
    (MethodDescriptor.parse desc).toOption.map fun _ => some desc

def parse? (text : String) : Option Selector := do
  let cs := text.toList.filter (!Blank.isBlank ·)
  let (owner, name) ← splitOwner? (cs.takeWhile (!startsDesc ·))
  let name ← NamePattern.ofChars? name
  let desc ← readDesc? (cs.dropWhile (!startsDesc ·))
  if name.isOverloads && desc.isSome then none else return ⟨owner, name, desc⟩

end Selector

end Injection
