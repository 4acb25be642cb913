/-!
TOML values, and how the lines of a document build its tables.

A table may be given once. What counts as giving it depends on how it came to be: a table that
was only passed through by a longer header may still get its own header, one made by dotted keys
may get more dotted keys, and one written in braces is closed.
-/

namespace Injection.Toml

inductive Origin where
  /-- By a header of its own. -/
  | header
  /-- By a longer header that passes through it. -/
  | passed
  /-- By a dotted key. -/
  | dotted
  /-- Written in braces. -/
  | braces
deriving DecidableEq

/-- A value. Numbers that are not integers, and points in time, are kept as they were written;
a list of tables is one made by double headers. -/
inductive Value where
  | string (text : String)
  | int (value : Int)
  | decimal (text : String)
  | bool (value : Bool)
  | time (text : String)
  | array (items : List Value)
  | tables (items : List (List (String × Value)))
  | table (origin : Origin) (members : List (String × Value))
deriving Inhabited

/-- The members of a table, in the order in which they came. -/
abbrev Members := List (String × Value)

/-- A path of names from one table to another. -/
abbrev Path := List String

namespace Members

/-- Puts a value in the place of the member of that name, or at the end if there is none. -/
def put (ms : Members) (name : String) (value : Value) : Members :=
  if ms.any (·.1 = name) then ms.map fun m => if m.1 = name then (name, value) else m
  else ms ++ [(name, value)]

def modifyLast (change : Members → Option Members) (tables : List Members) :
    Option (List Members) :=
  match tables.reverse with
  | [] => none
  | last :: before => (change last).map fun last => (last :: before).reverse

/-- Adds a member below a dotted key. The tables on the way are made by dotted keys, old or
new; others can only be passed through. -/
def insert : (path : Path) → (name : String) → Value → Members → Option Members
  | [], name, value, ms => if ms.any (·.1 = name) then none else some (ms ++ [(name, value)])
  | step :: path, name, value, ms =>
    match List.lookup step ms with
    | none => (insert path name value []).map fun inner => ms.put step (.table .dotted inner)
    | some (.table .dotted inner) =>
      (insert path name value inner).map fun inner => ms.put step (.table .dotted inner)
    | some (.table .passed inner) =>
      if path.isEmpty then none
      else (insert path name value inner).map fun inner => ms.put step (.table .passed inner)
    | some (.tables items) =>
      if path.isEmpty then none
      else (modifyLast (insert path name value) items).map fun items => ms.put step (.tables items)
    | some _ => none

/-- Changes the table that a header's path leads to. Tables missing on the way are passed; the
way through a list of tables goes through its last one. -/
def modifyAt (change : Members → Option Members) : Path → Members → Option Members
  | [], ms => change ms
  | step :: path, ms =>
    match List.lookup step ms with
    | none => (modifyAt change path []).map fun inner => ms.put step (.table .passed inner)
    | some (.table .braces _) => none
    | some (.table origin inner) =>
      (modifyAt change path inner).map fun inner => ms.put step (.table origin inner)
    | some (.tables items) =>
      (modifyLast (modifyAt change path) items).map fun items => ms.put step (.tables items)
    | some _ => none

def openTable (name : String) (ms : Members) : Option Members :=
  match List.lookup name ms with
  | none => some (ms.put name (.table .header []))
  | some (.table .passed inner) => some (ms.put name (.table .header inner))
  | some _ => none

def openItem (name : String) (ms : Members) : Option Members :=
  match List.lookup name ms with
  | none => some (ms.put name (.tables [[]]))
  | some (.tables items) => some (ms.put name (.tables (items ++ [[]])))
  | some _ => none

end Members

end Injection.Toml
