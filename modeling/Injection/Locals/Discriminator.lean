import Injection.Json.Decode
import Injection.Locals.Variable

/-!
Descriptions that pick out one local variable among those that hold at a place.

A description by slot comes first, then one by name, then one by type with an optional place in
the order of the variables of that type. A type without a place is only accepted if it is the
type of a single variable. An empty description accepts every variable.
-/

namespace Injection

/-- A variable as a description sees it, from compiled code or from source. -/
structure VisibleLocal where
  name : String
  desc : String
  slot : Option Nat
  isArg : Bool
deriving DecidableEq, Inhabited

structure LocalDiscriminator where
  desc : Option String
  /-- The slot. -/
  index : Option UInt16
  /-- The place among the variables of the type, in the order of their slots. -/
  ordinal : Option Nat
  names : List String
  /-- Accepts parameters only, which the receiver is not. -/
  argsOnly : Bool
deriving DecidableEq, Inhabited

namespace LocalDiscriminator

def empty : LocalDiscriminator := ⟨none, none, none, [], false⟩

def isEmpty (d : LocalDiscriminator) : Bool := d = empty

/-- Tells a variable that counts for the place in the order. -/
def counts (d : LocalDiscriminator) (v : VisibleLocal) : Bool :=
  d.desc.all (· = v.desc) && (!d.argsOnly || v.isArg)

/-- Tells whether a variable is the one described, among those visible. -/
def accepts (d : LocalDiscriminator) (subject : VisibleLocal) (visible : List VisibleLocal) :
    Bool :=
  d.counts subject &&
    match d.index, d.names, d.desc, d.ordinal with
    | some index, _, _, _ => subject.slot = some index.toNat
    | none, name :: names, _, _ => (name :: names).contains subject.name
    | none, [], none, none => true
    | none, [], _, some ordinal => (visible.filter d.counts)[ordinal]? = some subject
    | none, [], some _, none => (visible.filter d.counts).length = 1

/-- The variables of a table; the parameters lie in the slots from `argsStart` up to
`argsStop`. -/
def visibleIn (table : LocalTable) (argsStart argsStop : Nat) : List VisibleLocal :=
  table.present.map fun v =>
    ⟨v.name, v.desc, some v.slot.toNat, argsStart ≤ v.slot.toNat && v.slot.toNat < argsStop⟩

/-- Tells whether the variable in a slot is the one described. A slot without a variable counts as
one without name and type. -/
def acceptsSlot (d : LocalDiscriminator) (table : LocalTable) (slot argsStart argsStop : Nat) :
    Bool :=
  let visible := visibleIn table argsStart argsStop
  let subject := (visible.find? (·.slot = some slot)).getD
    ⟨"", "", some slot, argsStart ≤ slot && slot < argsStop⟩
  d.accepts subject visible

def fieldNames : List String := ["desc", "index", "ordinal", "names", "args_only"]

def ofJson? (j : Json) : Option LocalDiscriminator := do
  let fields ← j.fields? fieldNames
  let index ← Json.fieldOr none (Json.toOption? (Json.toNat? (2 ^ 16))) fields 1
  return {
    desc := ← Json.fieldOr none (Json.toOption? Json.toText?) fields 0
    index := index.map UInt16.ofNat
    ordinal := ← Json.fieldOr none (Json.toOption? (Json.toNat? (2 ^ 64))) fields 2
    names := ← Json.fieldOr [] (Json.toList? Json.toText?) fields 3
    argsOnly := ← Json.fieldOr false Json.toBool? fields 4 }

def toJson (d : LocalDiscriminator) : Json :=
  .object (fieldNames.zip
    [Json.option .string d.desc, Json.option (fun i => .nat i.toNat) d.index,
      Json.option .nat d.ordinal, .array (d.names.map .string), .bool d.argsOnly])

end LocalDiscriminator

end Injection
