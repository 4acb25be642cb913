import Injection.Pattern.Single

/-!
Classes of characters, in brackets. A class has characters, ranges, named classes and other
classes as its members, and two sets of members may be joined by an operator. What is read of a
class is how deep it is nested.
-/

namespace Injection.Pattern

/-- How deep parts that stand side by side are nested. Two or more of them count as one part more
around them. -/
def depthOfAll : List Nat → Nat
  | [] => 0
  | [depth] => depth
  | depths => depths.foldl max 0 + 1

/-- The names of classes in brackets and colons. -/
def classNames : List String :=
  ["alnum", "alpha", "ascii", "blank", "cntrl", "digit", "graph", "lower", "print", "punct",
    "space", "upper", "word", "xdigit"]

/-- Reads a named class after its bracket; `true` is negated. -/
def readNamed : List Char → Option (Bool × List Char)
  | ':' :: cs =>
    let negated := cs.head? = some '^'
    let cs := if negated then cs.drop 1 else cs
    match cs.dropWhile (· ≠ ':') with
    | ':' :: ']' :: rest =>
      if classNames.contains (String.ofList (cs.takeWhile (· ≠ ':'))) then some (negated, rest)
      else none
    | _ => none
  | _ => none

/-- Tells whether a named class can be had. -/
def allowsNamed (m : Mode) (negated : Bool) : Bool :=
  if m.unicode then !m.caseless else !negated

def passRange (m : Mode) (cs : List Char) : Option (List Char) := do
  let (first, cs) ← readClassSingle m cs
  guard (first.isAllowedInClass m)
  match m.skip cs with
  | [] => none
  | '-' :: rest =>
    if [some ']', some '-'].contains (m.following? rest) then some ('-' :: rest)
    else
      let (last, rest) ← readClassSingle m (m.skip rest)
      guard (last.isAllowedInClass m)
      match first, last with
      | .literal c _, .literal d _ => if c ≤ d then some rest else none
      | _, _ => none
  | rest => some rest

/-- Passes an operator between two sets of members. -/
def passOperator? : List Char → Option (List Char)
  | '&' :: '&' :: cs => some cs
  | '-' :: '-' :: cs => some cs
  | '~' :: '~' :: cs => some cs
  | _ => none

/-- A set of members while it is read: what stands before its last operator, if it has one, and
the members after that. -/
structure ClassSet where
  left : Option Nat
  members : List Nat
deriving DecidableEq, Inhabited

namespace ClassSet

def empty : ClassSet := ⟨none, []⟩

def add (s : ClassSet) (depth : Nat) : ClassSet := { s with members := depth :: s.members }

def depth (s : ClassSet) : Nat :=
  match s.left with
  | none => depthOfAll s.members
  | some left => max left (depthOfAll s.members) + 1

end ClassSet

/-- Passes the caret after the bracket of a negated class, and tells whether there is one. -/
def openClass (m : Mode) (cs : List Char) : Option (Bool × List Char) :=
  match m.skip cs with
  | '^' :: cs => if m.unicode then some (true, cs) else none
  | cs => some (false, cs)

/-- Reads a class up to its closing bracket, after the members in `s`. As long as `first` holds, a
hyphen is a member, and a closing bracket if it is the very first. -/
def readClass (m : Mode) : (bound : Nat) → (first : Bool) → (s : ClassSet) → List Char →
    Option (Nat × List Char)
  | 0, _, _, _ => none
  | bound + 1, first, s, cs =>
    let member := (Single.literal '-' false).isAllowedInClass m
    match m.skip cs with
    | [] => none
    | '[' :: cs =>
      match readNamed cs with
      | some (negated, rest) =>
        if allowsNamed m negated then readClass m bound false (s.add 0) rest else none
      | none => do
        let (_, cs) ← openClass m cs
        let (depth, rest) ← readClass m bound true .empty cs
        readClass m bound false (s.add depth) rest
    | ']' :: cs =>
      if first && s.members.isEmpty then
        if member then readClass m bound false (s.add 0) cs else none
      else some (s.depth + 1, cs)
    | c :: cs =>
      if first && c = '-' then
        if member then readClass m bound true (s.add 0) cs else none
      else
        match passOperator? (c :: cs) with
        | some rest => readClass m bound false ⟨some s.depth, []⟩ rest
        | none => (passRange m (c :: cs)).bind fun rest => readClass m bound false (s.add 0) rest

end Injection.Pattern
