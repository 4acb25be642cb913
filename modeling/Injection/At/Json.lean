import Injection.At.Spec
import Injection.Json.Parse

/-!
Annotations as JSON records. The place in the document is not part of the record.
-/

namespace Injection

namespace Shift

/-- A shift is a word, a record with that word for its only name, or a record of a distance. -/
def ofJson? : Json → Option Shift
  | .string "NONE" | .object [("NONE", .null)] => some .none
  | .string "BEFORE" | .object [("BEFORE", .null)] => some .before
  | .string "AFTER" | .object [("AFTER", .null)] => some .after
  | .object [("BY", j)] => (Json.toInt? (-2 ^ 31) (2 ^ 31) j).map fun d => .moved (Int32.ofInt d)
  | _ => Option.none

def toJson : Shift → Json
  | .none => .string "NONE"
  | .before => .string "BEFORE"
  | .after => .string "AFTER"
  | .moved d => .object [("BY", .int d.toInt)]

end Shift

namespace Slice

def fieldNames : List String := ["id", "from", "to"]

def ofJson? {α : Type} (read : Json → Option α) (j : Json) : Option (Slice α) := do
  let fields ← j.fields? fieldNames
  return {
    id := ← Json.fieldOr "" Json.toText? fields 0
    lower := ← Json.fieldOr none (Json.toOption? read) fields 1
    upper := ← Json.fieldOr none (Json.toOption? read) fields 2 }

end Slice

namespace AtSpec

def fieldNames : List String :=
  ["value", "target", "ordinal", "opcode", "slice", "shift", "args", "local"]

/-- Reads an annotation whose slices are nested less than `depth` deep. -/
def read? : (depth : Nat) → Json → Option AtSpec
  | 0, _ => none
  | depth + 1, j => do
    let fields ← j.fields? fieldNames
    let number := fun i => (Json.fieldOr (-1) (Json.toInt? (-2 ^ 31) (2 ^ 31)) fields i).map
      Int32.ofInt
    let criteria : Criteria := {
      value := ← Json.fieldOr "" Json.toText? fields 0
      target := ← Json.fieldOr none (Json.toOption? Json.toText?) fields 1
      ordinal := ← number 2
      opcode := ← number 3
      shift := ← Json.fieldOr .none Shift.ofJson? fields 5
      args := ← Json.fieldOr [] (Json.toList? Json.toText?) fields 6
      local? := ← Json.fieldOr none (Json.toOption? LocalDiscriminator.ofJson?) fields 7
      span := none }
    let slice ← Json.fieldOr none (Json.toOption? (Slice.ofJson? (read? depth))) fields 4
    return mk criteria slice

/-- Reads an annotation. What is left out is open. -/
def ofJson? (j : Json) : Option AtSpec := read? (Json.maxDepth + 1) j

mutual

def toJson : AtSpec → Json
  | mk c slice =>
    .object (fieldNames.zip
      [.string c.value, Json.option .string c.target, .int c.ordinal.toInt, .int c.opcode.toInt,
        sliceToJson slice, c.shift.toJson, .array (c.args.map .string),
        Json.option LocalDiscriminator.toJson c.local?])

def sliceToJson : Option (Slice AtSpec) → Json
  | none => .null
  | some ⟨id, lower, upper⟩ =>
    .object (Slice.fieldNames.zip [.string id, boundToJson lower, boundToJson upper])

def boundToJson : Option AtSpec → Json
  | none => .null
  | some a => toJson a

end

end AtSpec

end Injection
