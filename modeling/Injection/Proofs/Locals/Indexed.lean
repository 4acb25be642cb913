import Injection.Proofs.Locals.Overlap
import Injection.Proofs.Locals.Picking

/-!
Tables of variables are indexed by slot.

A query answers with one entry for each slot of the method, and what it has in a slot is a variable
of that slot: the tables answer for a slot with a variable of the slot, no node puts a variable into
a slot other than its own, and a variable that was removed returns to where it was. A slot number
has sixteen bits, so this needs a method whose parameters leave no slot without a number.
-/

namespace Injection

namespace LocalsContext

open Simulation

variable {c : LocalsContext} {params : List FieldType} {position slot : Nat} {v : LocalVariable}

/-- Putting variables into slots adds no slot. -/
theorem length_foldl_set (entries : List (Nat × LocalVariable)) (slots : List Slot) :
    (entries.foldl (fun slots e => slots.set e.1 (.live e.2)) slots).length = slots.length := by
  induction entries generalizing slots with
  | nil => rfl
  | cons e entries ih => rw [List.foldl_cons, ih, List.length_set]

/-- Every state of a run has the slots of the method, and those of its receiver and parameters. -/
theorem length_passed (c : LocalsContext) (params : List FieldType) (position : Nat) :
    (c.passed params position).2.slots.length =
      max c.method.maxLocals.toNat (entrySize c.method params) := by
  induction position with
  | zero => exact (length_foldl_set _ _).trans (List.length_replicate ..)
  | succ position ih =>
      rw [passed]
      cases c.method.instructions.get? position with
      | none => exact ih
      | some i => exact (length_step _ _).trans ih

/-- A variable that was put into a slot is one of the slot, if the slot has a number. -/
theorem IntroducedBefore.toNat_slot (h : c.IntroducedBefore params position slot v)
    (hslot : slot < 65536) : v.slot.toNat = slot := by
  have hv : v.slot = .ofNat slot := by
    rcases h with hentry | ⟨r, -, hknown⟩
    · exact slot_of_mem_entries hentry
    · exact slot_of_variableAt hknown
  rw [hv, UInt16.toNat_ofNat']
  exact Nat.mod_eq_of_lt hslot

/-- A query answers with an entry for each slot, which is empty or holds a variable of the slot. -/
theorem localsAt_isIndexed {w : Watch} {desc : MethodDescriptor} {table : LocalTable}
    (hdesc : MethodDescriptor.parse c.method.desc = .ok desc)
    (hfits : entrySize c.method desc.params ≤ 65536)
    (hanswer : (c.localsAt position).answer w = .ok table) :
    table.length = max c.method.maxLocals.toNat (entrySize c.method desc.params) ∧
      table.IsIndexed := by
  have hlength : table.length = max c.method.maxLocals.toNat (entrySize c.method desc.params) := by
    obtain ⟨-, desc', hdesc', rfl⟩ := localsAt_eq_passed hanswer
    cases hdesc.symm.trans hdesc'
    rw [List.length_map, length_passed]
  refine ⟨hlength, fun slot v hv => ?_⟩
  obtain ⟨desc', -, hintroduced⟩ := introducedBefore_of_localsAt hanswer
  have hslot := LocalTable.lt_length_of_slot? hv
  have hmax := c.method.maxLocals.toNat_lt
  exact (hintroduced slot v hv).toNat_slot (by omega)

/-- Two variables of one slot that overlap, in front of one that ends before it starts. The receiver
and a long take the first three slots. -/
def wideParameter : LocalsContext where
  owner := "a/A"
  method := {
    access := 0
    name := "m"
    desc := "(JI)V"
    maxStack := 1
    maxLocals := 5
    instructions := .ofList [.var .iload 3, .var .istore 4, .frame ⟨.same, [], []⟩, .var .iload 4,
      .plain .returnVoid]
    handlers := []
    declaredLocals := [] }
  declared := [⟨"y", "F", 4, 0, 5⟩, ⟨"x", "I", 4, 1, 4⟩, ⟨"i", "I", 3, 4, 1⟩]
  generated := none
  settings := .standard

def wideParameterTable : LocalTable :=
  [some ⟨"this", "La/A;", 0, 0, 5⟩, some ⟨"arg0", "J", 1, 0, 5⟩, none, some ⟨"i", "I", 3, 4, 1⟩,
    some ⟨"x", "I", 4, 1, 4⟩]

theorem localsAt_isIndexed_wideParameter :
    MethodDescriptor.parse wideParameter.method.desc = .ok ⟨[.base .long, .base .int], .void⟩ ∧
      entrySize wideParameter.method [.base .long, .base .int] ≤ 65536 ∧
      (wideParameter.localsAt 3).answer .live = .ok wideParameterTable ∧
      wideParameterTable.length = 5 ∧ wideParameterTable.IsIndexed := by
  have hdesc : MethodDescriptor.parse wideParameter.method.desc =
      .ok ⟨[.base .long, .base .int], .void⟩ := by decide +kernel
  have hfits : entrySize wideParameter.method [.base .long, .base .int] ≤ 65536 := by decide
  have hanswer : (wideParameter.localsAt 3).answer .live = .ok wideParameterTable := by
    decide +kernel
  obtain ⟨hlength, hindexed⟩ := localsAt_isIndexed hdesc hfits hanswer
  exact ⟨hdesc, hfits, hanswer, hlength, hindexed⟩

end LocalsContext

end Injection
