import Injection.Proofs.Locals.Loads
import Injection.Proofs.Locals.MadeUp
import Injection.Proofs.Typing.Pairing

/-!
A variable of two words and the variable in its second slot.

The stretches of the made-up table keep clear of each other: where a slot holds a long or a double,
the frame leaves the next slot unset. The simulation changes one slot at a time, though, so that an
answer may have both: then the slots have changed hands, and one of the two variables had ended
before the other began.
-/

namespace Injection

/-! ### What a slot has held -/

namespace Slot

def occupant? : Slot → Option LocalVariable
  | live v => some v
  | zombie z => some z.ancestor
  | unknown => none

@[simp] theorem occupant?_age (isFrame : Bool) (s : Slot) :
    (s.age isFrame).occupant? = s.occupant? := by
  cases s <;> rfl

theorem occupant?_of_report {s : Slot} {v : LocalVariable} (h : s.report = some v) :
    s.occupant? = some v := by
  cases s with
  | live w => exact h
  | zombie z =>
      rw [report] at h
      split at h
      · exact h
      · cases h
  | unknown => cases h

end Slot

/-- A node gives a slot no variable but what the tables know there. -/
theorem SlotChange.occupant?_cases {c : LocalsContext} {position slot : Nat} {i : Instruction}
    {old new : Slot} {v : LocalVariable} (h : SlotChange c position i slot old new)
    (hv : new.occupant? = some v) :
    old.occupant? = some v ∨ c.variableAt position (.ofNat slot) = some v := by
  cases h with
  | kept => exact .inl hv
  | found known =>
      cases hv
      exact .inr known
  | lost => cases hv
  | removed _ held =>
      cases hv
      rcases held with rfl | known
      · exact .inl rfl
      · exact .inr known
  | returned => exact .inl hv
  | unmasked => exact .inl hv

namespace LocalsContext

variable {c : LocalsContext} {params : List FieldType} {position slot : Nat} {v : LocalVariable}

/-- A variable was in a slot on entry, or the tables knew it for the slot at an earlier node. -/
def IntroducedBefore (c : LocalsContext) (params : List FieldType) (position slot : Nat)
    (v : LocalVariable) : Prop :=
  (slot, v) ∈ c.entries params ∨ ∃ r < position, c.variableAt r (.ofNat slot) = some v

theorem mem_entries_of_slotAt? {s : Slot} (hs : c.slotAt? params 0 slot = some s)
    (hv : s.occupant? = some v) : (slot, v) ∈ c.entries params := by
  have hslots : (c.passed params 0).2.slots = (c.entries params).foldl
      (fun slots e => slots.set e.1 (.live e.2)) (List.replicate (max c.method.maxLocals.toNat
        (Simulation.entrySize c.method params)) Slot.unknown) := by
    rw [passed, Simulation.seed, entries]
    cases c.method.isStatic <;> rfl
  rw [slotAt?, hslots] at hs
  by_cases hentry : ∃ e ∈ c.entries params, e.1 = slot
  · obtain ⟨e, he, rfl⟩ := hentry
    rw [getElem?_foldl_set (pairwise_entries c params) he] at hs
    · cases hs
      cases hv
      exact he
    · rw [List.length_replicate]
      exact (entries_lt he).trans_le (Nat.le_max_right _ _)
  · rw [getElem?_foldl_set_of_ne _ fun e he heq => hentry ⟨e, he, heq⟩, List.getElem?_replicate] at hs
    split at hs
    · cases hs
      cases hv
    · cases hs

theorem introducedBefore_of_slotAt? {s : Slot} (hs : c.slotAt? params position slot = some s)
    (hv : s.occupant? = some v) : c.IntroducedBefore params position slot v := by
  induction position generalizing s with
  | zero => exact .inl (mem_entries_of_slotAt? hs hv)
  | succ position ih =>
      have later {s : Slot} (hs : c.slotAt? params position slot = some s)
          (hv : s.occupant? = some v) : c.IntroducedBefore params (position + 1) slot v :=
        (ih hs hv).imp_right fun ⟨r, hr, hknown⟩ => ⟨r, hr.trans (Nat.lt_succ_self _), hknown⟩
      cases hi : c.method.instructions.get? position with
      | none =>
          rw [slotAt?, passed, hi] at hs
          exact later hs hv
      | some i =>
          obtain ⟨old, hold, hchange⟩ := exists_slotChange hi hs
          rcases hchange.occupant?_cases hv with hkept | hknown
          · exact later hold (by rwa [Slot.occupant?_age] at hkept)
          · exact .inr ⟨position, Nat.lt_succ_self _, hknown⟩

/-- What an answer has in a slot was in the slot on entry, or the tables knew it at a node passed. -/
theorem introducedBefore_of_localsAt {w : Watch} {table : LocalTable}
    (h : (c.localsAt position).answer w = .ok table) :
    ∃ desc, MethodDescriptor.parse c.method.desc = .ok desc ∧
      ∀ slot v, table.slot? slot = some v → c.IntroducedBefore desc.params
        (queryPosition c.method.instructions maxSkip position + 1) slot v := by
  obtain ⟨-, desc, hdesc, rfl⟩ := localsAt_eq_passed h
  refine ⟨desc, hdesc, fun slot v hv => ?_⟩
  have hreported := Option.join_eq_some_iff.mp hv
  rw [List.getElem?_map, Option.map_eq_some_iff] at hreported
  obtain ⟨s, hs, hreport⟩ := hreported
  exact introducedBefore_of_slotAt? hs (Slot.occupant?_of_report hreport)

theorem slot_of_narrowest {table : List LocalVariable} {slot : UInt16}
    (h : narrowest table position slot = some v) : v.slot = slot := by
  have hv := (List.mem_filter.mp (LocalVariable.mem_of_leastBy h)).2
  simp only [Bool.and_eq_true, decide_eq_true_eq] at hv
  exact hv.1

/-- The tables answer for a slot with a variable of the slot. -/
theorem slot_of_variableAt {slot : UInt16} (h : c.variableAt position slot = some v) :
    v.slot = slot := by
  have hmadeUp {w : LocalVariable}
      (hw : (c.generated.bind fun table => narrowest table position slot) = some w) :
      w.slot = slot := by
    obtain ⟨table, -, hnarrowest⟩ := Option.bind_eq_some_iff.mp hw
    exact slot_of_narrowest hnarrowest
  rw [variableAt] at h
  split at h
  · exact hmadeUp h
  · simp only [Option.orElse_eq_orElse, ← Option.or_eq_orElse, Option.or_eq_some_iff] at h
    rcases h with hdeclared | ⟨-, hgenerated | ⟨-, hclosest⟩⟩
    · exact slot_of_narrowest hdeclared
    · exact hmadeUp hgenerated
    · exact of_decide_eq_true (List.mem_filter.mp (LocalVariable.mem_of_leastBy hclosest)).2

theorem slot_entryVariable (slot : Nat) (name desc : String) :
    (Simulation.entryVariable c slot name desc).slot = .ofNat slot := by
  rw [Simulation.entryVariable]
  cases hv : c.variableAt 0 (.ofNat slot) with
  | none => rfl
  | some v => exact slot_of_variableAt hv

theorem slot_of_mem_paramVariables {number : Nat} {e : Nat × LocalVariable}
    (he : e ∈ Simulation.paramVariables c slot number params) : e.2.slot = .ofNat e.1 := by
  induction params generalizing slot number with
  | nil => cases he
  | cons p params ih =>
      rcases List.mem_cons.mp he with rfl | he
      · exact slot_entryVariable slot _ _
      · exact ih he

/-- The receiver and the parameters are variables of their slots. -/
theorem slot_of_mem_entries {e : Nat × LocalVariable} (he : e ∈ c.entries params) :
    e.2.slot = .ofNat e.1 := by
  rw [entries] at he
  rcases List.mem_append.mp he with he | he
  · split at he
    · cases he
    · obtain rfl := List.mem_singleton.mp he
      exact slot_entryVariable 0 _ _
  · exact slot_of_mem_paramVariables he

/-- Without declared variables the tables know only made-up ones, where they hold. -/
theorem mem_of_variableAt {table : List LocalVariable} {slot : UInt16} (hdeclared : c.declared = [])
    (hgenerated : c.generated = some table) (hv : c.variableAt position slot = some v) :
    v ∈ table ∧ v.slot = slot ∧ v.contains position = true := by
  rw [variableAt, hdeclared, hgenerated] at hv
  have hmem := LocalVariable.mem_of_leastBy (show narrowest table position slot = some v from hv)
  simpa using hmem

end LocalsContext

/-! ### The made-up table -/

namespace Frames

/-- A made-up variable of a long or a double: of a value that takes two words, and not of one that
only has such a descriptor. -/
def TellsWide (frames : Frames) (v : LocalVariable) : Prop :=
  ∃ u, frames.valueAt? v.slot.toNat v.start = some u ∧ u.size = 2

end Frames

namespace LocalVariable

open SlotScan

variable {m : Method} {frames : Frames} {v w : LocalVariable}

theorem contains_iff {position : Nat} :
    v.contains position = true ↔ v.start ≤ position ∧ position < v.stop := by
  rw [contains, Bool.and_eq_true, decide_eq_true_eq, decide_eq_true_eq]

/-- A made-up variable is of one value, which its slot holds where the variable starts and at every
node with a frame where it holds. -/
theorem exists_value_of_mem_generated (hsize : frames.size = m.instructions.size)
    (hv : v ∈ generated m frames) :
    v.slot.toNat < m.maxLocals.toNat ∧ v.start < v.stop ∧
      ∃ u, u ≠ .unset ∧ frames.valueAt? v.slot.toNat v.start = some u ∧
        ∀ i u', v.contains i = true → frames.valueAt? v.slot.toNat i = some u' → u' = u := by
  rw [generated, List.mem_mergeSort, List.mem_flatMap] at hv
  obtain ⟨slot, hslot, hv⟩ := hv
  have hslot := List.mem_range.mp hslot
  have hv : v ∈ slotStretches m frames slot := hv
  obtain rfl := (slot_of_mem_slotStretches hslot hv).1
  have hordered := Frames.slotHistory_ordered frames v.slot.toNat
  rw [hsize] at hordered
  have hextent := ((stretches_separate _ tracks_start hordered (Nat.zero_le _)).1 v hv).1
  obtain ⟨u, -, hstart, hall⟩ := exists_value_of_mem tracks_start hordered hv
  have hmem := hstart (Nat.zero_le _)
  have hset := hall _ hmem (contains_iff.mpr ⟨Nat.le_refl _, hextent⟩)
  refine ⟨hslot, hextent, u, ?_, Frames.mem_slotHistory.mp hmem, fun i u' hcontains hu' => ?_⟩
  · rintro rfl
    cases hset
  · exact valueOf_eq_some (hall (i, u') (Frames.mem_slotHistory.mpr hu') hcontains)

/-- Where one slot holds a value of two words, the stretches of the next keep clear of it. -/
theorem separate_of_wide (hsize : frames.size = m.instructions.size)
    (hlocals : ∀ i f, frames.at? i = some f → m.maxLocals.toNat ≤ f.locals.length)
    (hpairs : ∀ i f, frames.at? i = some f → PairedBy (· = .unset) f.locals)
    (hv : v ∈ generated m frames) (hw : w ∈ generated m frames)
    (hnext : w.slot.toNat = v.slot.toNat + 1) (hwide : frames.TellsWide v) :
    v.stop ≤ w.start ∨ w.stop ≤ v.start := by
  obtain ⟨hslot, hvlt, u, -, hu, hvalue⟩ := exists_value_of_mem_generated hsize hv
  obtain ⟨-, hwlt, u', hset, hu', hvalue'⟩ := exists_value_of_mem_generated hsize hw
  obtain ⟨_, hwide, htwo⟩ := hwide
  cases hu.symm.trans hwide
  -- A node with a frame at which both hold has a value in a second slot.
  have hnever {p : Nat} {f : TypeFrame} (hf : frames.at? p = some f)
      (hp : v.contains p = true) (hp' : w.contains p = true) : False := by
    have hlt := hslot.trans_le (hlocals p f hf)
    have hfirst : f.locals[v.slot.toNat]? = some u := by
      have hat := List.getElem?_eq_getElem hlt
      exact hat.trans (congrArg some (hvalue p _ hp (by rw [Frames.valueAt?, hf]; exact hat)))
    obtain ⟨second, hsecond, rfl⟩ := hpairs p f hf _ u hfirst htwo
    refine hset (hvalue' p .unset hp' ?_).symm
    rw [Frames.valueAt?, hf, Option.bind_some, hnext, hsecond]
  by_contra hoverlap
  rw [not_or, Nat.not_le, Nat.not_le] at hoverlap
  -- The later of the two starts is such a node.
  rcases Nat.le_total v.start w.start with hle | hle
  · obtain ⟨f, hf, -⟩ := Option.bind_eq_some_iff.mp hu'
    exact hnever hf (contains_iff.mpr ⟨hle, hoverlap.1⟩) (contains_iff.mpr ⟨Nat.le_refl _, hwlt⟩)
  · obtain ⟨f, hf, -⟩ := Option.bind_eq_some_iff.mp hu
    exact hnever hf (contains_iff.mpr ⟨Nat.le_refl _, hvlt⟩) (contains_iff.mpr ⟨hle, hoverlap.2⟩)

end LocalVariable

namespace LocalsContext

section

variable {c : LocalsContext} {params : List FieldType} {position slot : Nat} {v : LocalVariable}
  {table : List LocalVariable}

theorem IntroducedBefore.slot_eq (hdeclared : c.declared = [])
    (hgenerated : c.generated = some table) (h : c.IntroducedBefore params position slot v) :
    v.slot = .ofNat slot := by
  rcases h with hentry | ⟨r, -, hknown⟩
  · exact slot_of_mem_entries hentry
  · exact (mem_of_variableAt hdeclared hgenerated hknown).2.1

end

/-- Without a declared table an answer has a variable after one of two words only where the slots
have changed hands. Each of the two was in its slot on entry, or the made-up table knew it for the
slot at a node up to the one asked for; and when both are made up, the first from a long or a
double, one of them had ended before the other began, so that they never hold at one node. -/
theorem overlap_separate {owner : String} {m : Method} {h : Hierarchy} {w w' : Watch}
    {frames : Frames} {settings : LocalsSettings} {position : Nat} {table : LocalTable}
    (hdeclared : LocalVariable.declared m = [])
    (hanalyze : (Analysis.analyze owner m h).answer w = .ok frames)
    (hreceivers : frames.NoUnsetReceiver m)
    (hlocals : ((LocalsContext.new owner m (some (LocalVariable.generated m frames))
      settings).localsAt position).answer w' = .ok table) :
    let c := LocalsContext.new owner m (some (LocalVariable.generated m frames)) settings
    let query := queryPosition m.instructions maxSkip position
    ∃ desc, MethodDescriptor.parse m.desc = .ok desc ∧ ∀ slot first second,
      table.slot? slot = some first → first.isWide = true →
      table.slot? (slot + 1) = some second →
        c.IntroducedBefore desc.params (query + 1) slot first ∧
        c.IntroducedBefore desc.params (query + 1) (slot + 1) second ∧
        (first ∈ LocalVariable.generated m frames → second ∈ LocalVariable.generated m frames →
          frames.TellsWide first → first.stop ≤ second.start ∨ second.stop ≤ first.start) := by
  intro c query
  obtain ⟨desc, hdesc, hintroduced⟩ := introducedBefore_of_localsAt hlocals
  refine ⟨desc, hdesc, fun slot first second hfirst _ hsecond => ?_⟩
  have hold := hintroduced slot first hfirst
  have hnext := hintroduced (slot + 1) second hsecond
  refine ⟨hold, hnext, fun hmem hmem' hwide => ?_⟩
  obtain ⟨hsize, hlength⟩ := Analysis.analyze_shaped.of_answer hanalyze
  have hpairs (i : Nat) (f : TypeFrame) (hf : frames.at? i = some f) :
      PairedBy (· = .unset) f.locals :=
    (Analysis.analyze_pairedBy.of_answer hanalyze i f hf).2.2 hreceivers
  have hlt := (LocalVariable.exists_value_of_mem_generated hsize hmem).1
  refine LocalVariable.separate_of_wide hsize hlength hpairs hmem hmem' ?_ hwide
  have hmax := m.maxLocals.toNat_lt
  rw [hold.slot_eq hdeclared rfl, UInt16.toNat_ofNat'] at hlt ⊢
  rw [hnext.slot_eq hdeclared rfl, UInt16.toNat_ofNat']
  omega

/-- Stores a number and then a long whose second slot is that of the number. -/
def longOverInt : Method where
  access := 0x0008
  name := "m"
  desc := "()V"
  maxStack := 2
  maxLocals := 2
  instructions := .ofList [.plain .iconst0, .var .istore 1, .plain .lconst0, .var .lstore 0,
    .plain .returnVoid]
  handlers := []
  declaredLocals := []

def longOverIntFrames : Frames :=
  #[some ⟨[.unset, .unset], []⟩, some ⟨[.unset, .unset], [.int]⟩, some ⟨[.unset, .int], []⟩,
    some ⟨[.unset, .int], [.long]⟩, some ⟨[.long, .unset], []⟩]

theorem analyze_longOverInt :
    (Analysis.analyze "a/A" longOverInt .unknown).answer .live = .ok longOverIntFrames := by
  decide +kernel

theorem generated_longOverInt : LocalVariable.generated longOverInt longOverIntFrames =
    [⟨"var1", "I", 1, 2, 4⟩, ⟨"var0", "J", 0, 4, 5⟩] := by
  have hstretches : (List.range longOverInt.maxLocals.toNat).flatMap
      (LocalVariable.slotStretches longOverInt longOverIntFrames) =
      [⟨"var0", "J", 0, 4, 5⟩, ⟨"var1", "I", 1, 2, 4⟩] := by decide +kernel
  rw [LocalVariable.generated]
  change ((List.range longOverInt.maxLocals.toNat).flatMap
    (LocalVariable.slotStretches longOverInt longOverIntFrames)).mergeSort _ = _
  rw [hstretches]
  simp [List.mergeSort, List.MergeSort.Internal.splitInTwo, LocalVariable.startsBefore]

theorem localsAt_longOverInt : ((LocalsContext.new "a/A" longOverInt
    (some (LocalVariable.generated longOverInt longOverIntFrames)) .standard).localsAt
      4).answer .live = .ok [some ⟨"var0", "J", 0, 4, 5⟩, some ⟨"var1", "I", 1, 2, 4⟩] := by
  rw [generated_longOverInt]
  decide +kernel

/-- The number has ended where the long begins. -/
theorem overlap_longOverInt :
    ∃ table : LocalTable,
      ((LocalsContext.new "a/A" longOverInt
        (some (LocalVariable.generated longOverInt longOverIntFrames)) .standard).localsAt
          4).answer .live = .ok table ∧
      LocalVariable.declared longOverInt = [] ∧ longOverIntFrames.NoUnsetReceiver longOverInt ∧
      ∃ first second, table.slot? 0 = some first ∧ first.isWide = true ∧
        table.slot? 1 = some second ∧ longOverIntFrames.TellsWide first ∧
        (first.stop ≤ second.start ∨ second.stop ≤ first.start) := by
  have hreceivers : longOverIntFrames.NoUnsetReceiver longOverInt := by decide +kernel
  obtain ⟨desc, -, hpairs⟩ :=
    overlap_separate (by rfl) analyze_longOverInt hreceivers localsAt_longOverInt
  have hwide : longOverIntFrames.TellsWide ⟨"var0", "J", 0, 4, 5⟩ := ⟨.long, by decide, by decide⟩
  refine ⟨_, localsAt_longOverInt, rfl, hreceivers, _, _, rfl, by decide, rfl, hwide, ?_⟩
  refine (hpairs 0 _ _ rfl (by decide) rfl).2.2 ?_ ?_ hwide <;> simp [generated_longOverInt]

/-- An answer with a long and a number in its second slot. -/
theorem reported_overlap :
    (Analysis.analyze "a/A" longOverInt .unknown).answer .live = .ok longOverIntFrames ∧
      longOverInt.declaredLocals = [] ∧
      ((LocalsContext.new "a/A" longOverInt
        (some (LocalVariable.generated longOverInt longOverIntFrames)) .standard).localsAt
          4).answer .live = .ok [some ⟨"var0", "J", 0, 4, 5⟩, some ⟨"var1", "I", 1, 2, 4⟩] :=
  ⟨analyze_longOverInt, rfl, localsAt_longOverInt⟩

end LocalsContext

end Injection
