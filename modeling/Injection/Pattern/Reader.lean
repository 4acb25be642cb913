import Injection.Pattern.Class
import Injection.Text.Letter

/-!
Whole patterns: branches of parts with repetition marks, in groups. A pattern is read from left
to right; what is kept of it are the groups that are still open. `isWellFormed` says which texts
are patterns.
-/

namespace Injection.Pattern

/-- A part of a branch: how deep it is nested, and whether it can be repeated. -/
structure Part where
  depth : Nat
  repeatable : Bool
deriving DecidableEq, Inhabited

/-- What was read after an opening parenthesis: the depths of its finished branches, and the parts
of the current branch, the last one first. -/
structure Group where
  mode : Mode
  branches : List Nat
  parts : List Part
deriving DecidableEq, Inhabited

namespace Group

def empty (mode : Mode) : Group := ⟨mode, [], []⟩

def add (g : Group) (p : Part) : Group := { g with parts := p :: g.parts }

def branch (g : Group) : Group :=
  { g with branches := depthOfAll (g.parts.map (·.depth)) :: g.branches, parts := [] }

def depth (g : Group) : Nat := depthOfAll g.branch.branches

def repeatLast (g : Group) : Option Group :=
  match g.parts with
  | ⟨depth, true⟩ :: parts => some { g with parts := ⟨depth + 1, true⟩ :: parts }
  | _ => none

end Group

structure Progress where
  current : Group
  /-- The groups around the current one, the innermost first. -/
  outer : List Group
  /-- The names given to groups. -/
  names : List String
deriving DecidableEq, Inhabited

/-- Changes a mode by letters: those after a hyphen take something back. -/
def Mode.change (m : Mode) (letters : List Char) : Mode :=
  let on := letters.takeWhile (· ≠ '-')
  let off := letters.dropWhile (· ≠ '-')
  let value := fun letter now => (now || on.contains letter) && !off.contains letter
  ⟨value 'i' m.caseless, value 'u' m.unicode, value 'x' m.spaced⟩

/-- Tells letters that change a mode: each of them once, and something after the hyphen. -/
def isModeChange (letters : List Char) : Bool :=
  letters.all ['i', 'm', 's', 'U', 'u', 'R', 'x', '-'].contains && letters.Nodup &&
    letters.getLast? ≠ some '-'

def isGroupName : List Char → Bool
  | [] => false
  | c :: cs =>
    (c = '_' || Letter.isLetter c) &&
      cs.all fun c => ['_', '.', '[', ']'].contains c || Letter.isLetterOrDigit c

namespace Progress

def start : Progress := ⟨.empty .standard, [], []⟩

def add (p : Progress) (part : Part) : Progress := { p with current := p.current.add part }

def enter (p : Progress) (mode : Mode) : Progress :=
  { p with current := .empty mode, outer := p.current :: p.outer }

/-- Opens a group with the name at the front of the text. -/
def enterNamed (p : Progress) (cs : List Char) : Option (Progress × List Char) :=
  let name := cs.takeWhile (· ≠ '>')
  match cs.dropWhile (· ≠ '>') with
  | _ :: rest =>
    if isGroupName name && !p.names.contains (String.ofList name) then
      some ({ p.enter p.current.mode with names := String.ofList name :: p.names }, rest)
    else none
  | [] => none

/-- Opens a group in a changed mode, or changes the mode for the rest of the current one. -/
def changeMode (p : Progress) (cs : List Char) : Option (Progress × List Char) :=
  let ends := fun c => c = ':' || c = ')'
  let letters := cs.takeWhile (!ends ·)
  let mode := p.current.mode.change letters
  if !isModeChange letters then none
  else
    match cs.dropWhile (!ends ·) with
    | ':' :: rest => some (p.enter mode, rest)
    | _ :: rest =>
      if letters.isEmpty then none
      else some ({ p with current := { p.current.add ⟨0, false⟩ with mode } }, rest)
    | [] => none

/-- Reads what follows an opening parenthesis up to the parts of the group. -/
def openGroup (p : Progress) (cs : List Char) : Option (Progress × List Char) :=
  match p.current.mode.skip cs with
  | '?' :: 'P' :: '<' :: cs => p.enterNamed cs
  | '?' :: '<' :: cs => p.enterNamed cs
  | '?' :: cs => p.changeMode cs
  | cs => some (p.enter p.current.mode, cs)

def closeGroup (p : Progress) : Option Progress :=
  match p.outer with
  | [] => none
  | g :: outer => some { p with current := g.add ⟨p.current.depth + 1, true⟩, outer }

/-- Reads the next part, or the next mark between parts. -/
def step (p : Progress) (cs : List Char) : Option (Progress × List Char) :=
  let mode := p.current.mode
  match cs with
  | '(' :: cs => p.openGroup cs
  | ')' :: cs => p.closeGroup.map (·, cs)
  | '|' :: cs => some ({ p with current := p.current.branch }, cs)
  | '[' :: cs => do
    let (_, cs) ← openClass mode cs
    let (depth, rest) ← readClass mode (cs.length + 1) true .empty cs
    return (p.add ⟨depth, true⟩, rest)
  | '\x7b' :: _ => none
  | c :: cs =>
    if c = '?' || c = '*' || c = '+' then
      p.current.repeatLast.map fun current =>
        ({ p with current }, if cs.head? = some '?' then cs.drop 1 else cs)
    else do
      let (single, rest) ← readSingle mode (c :: cs)
      guard (single.isAllowed mode)
      return (p.add ⟨0, true⟩, rest)
  | [] => none

def readAll : (bound : Nat) → Progress → List Char → Option Progress
  | bound, p, cs =>
    match bound, p.current.mode.skip cs with
    | _, [] => some p
    | 0, _ => none
    | bound + 1, cs => (p.step cs).bind fun (p, cs) => readAll bound p cs

end Progress

/-- The depth to which a pattern may be nested. -/
def maxDepth : Nat := 250

def isWellFormed (text : String) : Bool :=
  match Progress.start.readAll text.length text.toList with
  | some p => p.outer.isEmpty && p.current.depth ≤ maxDepth
  | none => false

end Injection.Pattern
