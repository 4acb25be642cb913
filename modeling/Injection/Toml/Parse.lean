import Injection.Toml.Scalar
import Injection.Toml.Value

/-!
Reading a TOML document. Every nested value uses at least one character, so twice the length of
the text bounds the recursion.
-/

namespace Injection.Toml

/-- The depth to which arrays and tables in braces may be nested. -/
def maxDepth : Nat := 79

/-- Drops a word from the front of a text. -/
def dropWord (word : String) (cs : List Char) : Option (List Char) :=
  if word.toList.isPrefixOf cs then some (cs.drop word.length) else none

def readScalar (cs : List Char) : Option (Value × List Char) :=
  match cs with
  | [] => none
  | c :: _ =>
    if c = '"' || c = '\'' then (readString cs).map fun (text, cs) => (.string text, cs)
    else if c = 't' then (dropWord "true" cs).map (.bool true, ·)
    else if c = 'f' then (dropWord "false" cs).map (.bool false, ·)
    else
      ((readTime cs).map fun (text, cs) => (.time text, cs)) <|>
      ((readDecimal cs).map fun (text, cs) => (.decimal text, cs)) <|>
      ((readInteger cs).map fun (i, cs) => (.int i, cs))

mutual

/-- Reads a value in which arrays and tables are nested no more than `depth` deep. -/
def readValue (depth : Nat) : (bound : Nat) → List Char → Option (Value × List Char)
  | 0, _ => none
  | bound + 1, cs =>
    match depth, cs with
    | 0, '[' :: _ => none
    | 0, '\x7b' :: _ => none
    | depth + 1, '[' :: cs => do
      let (items, cs) ← readItems depth bound cs
      return (.array items, cs)
    | depth + 1, '\x7b' :: cs =>
      match skipBlanks cs with
      | '\x7d' :: cs => some (.table .braces [], cs)
      | cs => do
        let (members, cs) ← readMembers depth bound [] cs
        return (.table .braces members, cs)
    | _, cs => readScalar cs

/-- Reads the items of an array up to its closing bracket. A comma may follow the last. -/
def readItems (depth : Nat) : (bound : Nat) → List Char → Option (List Value × List Char)
  | 0, _ => none
  | bound + 1, cs => do
    match ← skipLines cs.length cs with
    | ']' :: cs => return ([], cs)
    | cs =>
      let (item, cs) ← readValue depth bound cs
      match ← skipLines cs.length cs with
      | ',' :: cs =>
        let (items, cs) ← readItems depth bound cs
        return (item :: items, cs)
      | ']' :: cs => return ([item], cs)
      | _ => none

/-- Reads the members of a table in braces up to the closing brace, after those in `before`. -/
def readMembers (depth : Nat) : (bound : Nat) → (before : Members) → List Char →
    Option (Members × List Char)
  | 0, _, _ => none
  | bound + 1, before, cs => do
    let (path, cs) ← readPath cs
    match cs with
    | '=' :: cs =>
      let (value, cs) ← readValue depth bound (skipBlanks cs)
      let members ← Members.insert path.dropLast (path.getLastD "") value before
      match skipBlanks cs with
      | ',' :: cs => readMembers depth bound members cs
      | '\x7d' :: cs => return (members, cs)
      | _ => none
    | _ => none

end

/-- A document while it is read: its tables, and the path of the last header. -/
structure Document where
  root : Members
  current : Path

namespace Document

def empty : Document := ⟨[], []⟩

/-- Begins the table of a header; `item` tells a double header. -/
def start (d : Document) (item : Bool) (path : Path) : Option Document := do
  let name := path.getLastD ""
  let change := if item then Members.openItem name else Members.openTable name
  return ⟨← d.root.modifyAt change path.dropLast, path⟩

/-- Adds a member to the table of the last header. -/
def add (d : Document) (path : Path) (value : Value) : Option Document := do
  let change := Members.insert path.dropLast (path.getLastD "") value
  return { d with root := ← d.root.modifyAt change d.current }

/-- Reads a header, or a member, up to the end of its line. -/
def readLine (d : Document) (cs : List Char) : Option (Document × List Char) := do
  match cs with
  | '[' :: '[' :: cs =>
    let (path, cs) ← readPath cs
    return (← d.start true path, ← finishLine (← dropWord "]]" cs))
  | '[' :: cs =>
    let (path, cs) ← readPath cs
    return (← d.start false path, ← finishLine (← dropWord "]" cs))
  | cs =>
    let (path, cs) ← readPath cs
    let cs := skipBlanks (← dropWord "=" cs)
    let (value, cs) ← readValue maxDepth (2 * cs.length + 2) cs
    return (← d.add path value, ← finishLine cs)

def readLines : (bound : Nat) → Document → List Char → Option Document
  | 0, d, _ => some d
  | bound + 1, d, cs => do
    match skipBlanks cs with
    | [] => return d
    | cs =>
      match finishLine cs with
      | some rest => readLines bound d rest
      | none =>
        let (d, cs) ← d.readLine cs
        readLines bound d cs

end Document

/-- Reads the members of a whole document. A byte order mark may stand before it. -/
def parse? (text : String) : Option Members :=
  let cs := match text.toList with
    | '\ufeff' :: cs => cs
    | cs => cs
  (Document.empty.readLines (cs.length + 1) cs).map (·.root)

end Injection.Toml
