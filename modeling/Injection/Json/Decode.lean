import Injection.Json.Basic

/-!
Reading records out of JSON values.

A record is an object with known names, each at most once, or an array with its fields in order;
fields at the end of such an array may be left out. Every reader is strict: a number is not taken
for a text or the other way round.
-/

namespace Injection.Json

/-- The fields of a record with the given names. -/
def fields? (names : List String) : Json → Option (List (Option Json))
  | object members =>
    let found := members.map (·.1)
    if found.all names.contains && found.eraseDups.length = found.length then
      some (names.map fun name => List.lookup name members)
    else none
  | array items =>
    if items.length ≤ names.length then
      some (items.map some ++ List.replicate (names.length - items.length) none)
    else none
  | _ => none

def fieldOr {α : Type} (default : α) (read : Json → Option α) (fields : List (Option Json))
    (index : Nat) : Option α :=
  match fields[index]?.join with
  | none => some default
  | some j => read j

def toBool? : Json → Option Bool
  | bool b => some b
  | _ => none

def toText? : Json → Option String
  | string text => some text
  | _ => none

/-- An integer from `low` up to but not with `high`. -/
def toInt? (low high : Int) : Json → Option Int
  | int i => if low ≤ i ∧ i < high then some i else none
  | _ => none

def toNat? (bound : Nat) (j : Json) : Option Nat := (toInt? 0 bound j).map Int.toNat

/-- A value or null. -/
def toOption? {α : Type} (read : Json → Option α) : Json → Option (Option α)
  | null => some none
  | j => (read j).map some

def toList? {α : Type} (read : Json → Option α) : Json → Option (List α)
  | array items => items.mapM read
  | _ => none

end Injection.Json
