import Injection.Text.Hex

/-!
JSON values and their text, on one line or indented.
-/

namespace Injection

/-- A JSON value. A number that is not an integer is kept as it was written. The members of an
object stand in order, and a name may come twice. -/
inductive Json where
  | null
  | bool (value : Bool)
  | int (value : Int)
  | decimal (text : String)
  | string (text : String)
  | array (items : List Json)
  | object (members : List (String × Json))
deriving Inhabited

namespace Json

/-- The form of a character inside a string: quotes, backslashes and controls are marked by a
backslash, controls without a letter of their own by number. -/
def escape (c : Char) : List Char :=
  if c = '"' then ['\\', '"']
  else if c = '\\' then ['\\', '\\']
  else if c = '\n' then ['\\', 'n']
  else if c = '\r' then ['\\', 'r']
  else if c = '\t' then ['\\', 't']
  else if c = '\x08' then ['\\', 'b']
  else if c = '\x0c' then ['\\', 'f']
  else if c.toNat < 0x20 then ['\\', 'u'] ++ Hex.digits 4 c.toNat
  else [c]

def quote (text : String) : String :=
  String.ofList ('"' :: text.toList.flatMap escape ++ ['"'])

def bracket (left right : String) (items : List String) : String :=
  left ++ ",".intercalate items ++ right

mutual

def compact : Json → String
  | null => "null"
  | bool b => if b then "true" else "false"
  | int i => toString i
  | decimal text => text
  | string text => quote text
  | array items => bracket "[" "]" (compactItems items)
  | object members => bracket "\x7b" "\x7d" (compactMembers members)

def compactItems : List Json → List String
  | [] => []
  | j :: rest => compact j :: compactItems rest

def compactMembers : List (String × Json) → List String
  | [] => []
  | (name, j) :: rest => (quote name ++ ":" ++ compact j) :: compactMembers rest

end

/-- A line break and two blanks for every level. -/
def lineBreak (level : Nat) : String := "\n" ++ "".pushn ' ' (2 * level)

/-- A bracketed list with an item on every line; an empty one stays on its line. -/
def bracketLines (left right : String) (level : Nat) (items : List String) : String :=
  if items.isEmpty then left ++ right
  else
    left ++ ",".intercalate (items.map (lineBreak (level + 1) ++ ·)) ++ lineBreak level ++ right

mutual

/-- The text with every item on a line of its own, indented by its level. -/
def indented (level : Nat) : Json → String
  | array items => bracketLines "[" "]" level (indentedItems (level + 1) items)
  | object members => bracketLines "\x7b" "\x7d" level (indentedMembers (level + 1) members)
  | null => "null"
  | bool b => if b then "true" else "false"
  | int i => toString i
  | decimal text => text
  | string text => quote text

def indentedItems (level : Nat) : List Json → List String
  | [] => []
  | j :: rest => indented level j :: indentedItems level rest

def indentedMembers (level : Nat) : List (String × Json) → List String
  | [] => []
  | (name, j) :: rest => (quote name ++ ": " ++ indented level j) :: indentedMembers level rest

end

def pretty (j : Json) : String := j.indented 0

/-- The form of a value that may be missing. -/
def option {α : Type} (f : α → Json) : Option α → Json
  | none => null
  | some a => f a

def nat (n : Nat) : Json := int n

def list {α : Type} (f : α → Json) (items : List α) : Json := array (items.map f)

end Json

end Injection
