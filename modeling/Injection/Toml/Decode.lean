import Injection.Toml.Value

/-!
Reading records out of TOML values. A record is a table with known names, or an array with its
fields in order; what such an array holds beyond them is not looked at.
-/

namespace Injection.Toml.Value

/-- The fields of a record with the given names. -/
def fields? (names : List String) : Value → Option (List (Option Value))
  | table _ members =>
    if members.all fun m => names.contains m.1 then
      some (names.map fun name => List.lookup name members)
    else none
  | array items => some ((List.range names.length).map (items[·]?))
  | _ => none

def fieldOr {α : Type} (default : α) (read : Value → Option α) (fields : List (Option Value))
    (index : Nat) : Option α :=
  match fields[index]?.join with
  | none => some default
  | some v => read v

def toBool? : Value → Option Bool
  | bool b => some b
  | _ => none

def toText? : Value → Option String
  | string text => some text
  | _ => none

def toNat? (bound : Nat) : Value → Option Nat
  | int i => if 0 ≤ i ∧ i < bound then some i.toNat else none
  | _ => none

def isEmpty : Value → Bool
  | array items => items.isEmpty
  | table _ members => members.isEmpty
  | _ => false

/-- One of a number of names: a text, or a table with that name and nothing in it. -/
def toName? : Value → Option String
  | string text => some text
  | table _ [(name, value)] => if value.isEmpty then some name else none
  | _ => none

end Injection.Toml.Value
