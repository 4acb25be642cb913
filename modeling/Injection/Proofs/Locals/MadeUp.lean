import Injection.Proofs.Locals.Stretches
import Injection.Proofs.Typing.Slots

/-!
Made-up variables say what the frames say.

A slot's values at the nodes that have frames are a history in order, so the scan's stretches are
known from `Stretches`; the table is made of them and sorted. What the scan knows when it comes to a
node is the last descriptor that the slot had at an earlier one.
-/

namespace Injection

namespace Frames

variable {frames : Frames} {slot i : Nat} {e : Nat × TypeValue}

def valueAt? (frames : Frames) (slot i : Nat) : Option TypeValue :=
  (frames.at? i).bind (·.locals[slot]?)

def descriptorAt? (frames : Frames) (slot i : Nat) : Option String :=
  (frames.valueAt? slot i).bind TypeValue.descriptor?

def LastBefore (frames : Frames) (slot i : Nat) (desc : String) : Prop :=
  ∃ j < i, frames.descriptorAt? slot j = some desc ∧
    ∀ k, j < k → k < i → frames.descriptorAt? slot k = none

theorem mem_slotHistory :
    e ∈ LocalVariable.slotHistory frames slot ↔ frames.valueAt? slot e.1 = some e.2 := by
  obtain ⟨p, v⟩ := e
  have hplace (frame : Option TypeFrame) : (frame, p) ∈ frames.toList.zipIdx ↔
      frames[p]? = some frame := by
    rw [List.mem_zipIdx_iff_getElem?, Array.getElem?_toList]
  simp only [LocalVariable.slotHistory, List.mem_filterMap, valueAt?, Frames.at?]
  constructor
  · rintro ⟨⟨frame, q⟩, hmem, h⟩
    simp only [Option.bind_eq_bind, Option.bind_eq_some_iff, Option.pure_def, Option.some.injEq,
      Prod.mk.injEq] at h
    obtain ⟨f, rfl, u, hu, rfl, rfl⟩ := h
    rw [(hplace _).mp hmem]
    exact hu
  · intro h
    obtain ⟨f, hf, hv⟩ := Option.bind_eq_some_iff.mp h
    have hp := Option.join_eq_some_iff.mp hf
    exact ⟨(some f, p), (hplace _).mpr hp, by simp [hv]⟩

/-- The values of a slot stand in the order of the nodes. -/
theorem slotHistory_increasing (frames : Frames) (slot : Nat) :
    (LocalVariable.slotHistory frames slot).Pairwise (·.1 < ·.1) := by
  have hplaces : frames.toList.zipIdx.Pairwise (·.2 < ·.2) := by
    rw [← List.pairwise_map, List.zipIdx_map_snd, ← List.range_eq_range']
    exact List.pairwise_lt_range
  refine hplaces.filterMap _ fun a b hlt e he e' he' => ?_
  simp only [Option.bind_eq_bind, Option.bind_eq_some_iff, Option.pure_def,
    Option.some.injEq] at he he'
  obtain ⟨-, -, -, -, rfl⟩ := he
  obtain ⟨-, -, -, -, rfl⟩ := he'
  exact hlt

theorem slotHistory_ordered (frames : Frames) (slot : Nat) :
    LocalVariable.SlotScan.Ordered 0 frames.size (LocalVariable.slotHistory frames slot) := by
  refine ⟨slotHistory_increasing frames slot, fun e he => ⟨Nat.zero_le _, ?_⟩⟩
  obtain ⟨f, hf, -⟩ := Option.bind_eq_some_iff.mp (mem_slotHistory.mp he)
  exact (Array.getElem?_eq_some_iff.mp (Option.join_eq_some_iff.mp hf)).1

section

variable {pre post : List (Nat × TypeValue)} {history : List (Nat × TypeValue)}

/-- Of a history in order, what stands before an entry's position is before the entry. -/
theorem mem_left_of_lt (hincreasing : (pre ++ e :: post).Pairwise (·.1 < ·.1))
    {e' : Nat × TypeValue} (he' : e' ∈ pre ++ e :: post) (hlt : e'.1 < e.1) : e' ∈ pre := by
  obtain ⟨-, hrest, -⟩ := List.pairwise_append.mp hincreasing
  rcases List.mem_append.mp he' with hmem | hmem
  · exact hmem
  · rcases List.mem_cons.mp hmem with rfl | hmem
    · exact absurd hlt (Nat.lt_irrefl _)
    · exact absurd ((List.pairwise_cons.mp hrest).1 e' hmem) hlt.asymm

theorem mem_right_of_lt (hincreasing : (pre ++ e :: post).Pairwise (·.1 < ·.1))
    {e' : Nat × TypeValue} (he' : e' ∈ pre ++ e :: post) (hlt : e.1 < e'.1) : e' ∈ post := by
  obtain ⟨-, -, hacross⟩ := List.pairwise_append.mp hincreasing
  rcases List.mem_append.mp he' with hmem | hmem
  · exact absurd (hacross e' hmem e List.mem_cons_self) hlt.asymm
  · rcases List.mem_cons.mp hmem with rfl | hmem
    · exact absurd hlt (Nat.lt_irrefl _)
    · exact hmem

end

open LocalVariable.SlotScan (knownAfter)

/-- What a scan knows when it comes to a node is the last descriptor before it. -/
theorem lastBefore_of_knownAfter {pre post : List (Nat × TypeValue)} {desc : String}
    (hhistory : LocalVariable.slotHistory frames slot = pre ++ e :: post)
    (h : knownAfter none pre = some desc) : frames.LastBefore slot e.1 desc := by
  have hincreasing := hhistory ▸ slotHistory_increasing frames slot
  obtain ⟨pre, e', between, rfl, hdesc, hnone⟩ := LocalVariable.SlotScan.exists_of_knownAfter h
  obtain ⟨hleft, -, hacross⟩ := List.pairwise_append.mp hincreasing
  have hmem {u : Nat × TypeValue} (hu : u ∈ pre ++ e' :: between) :
      frames.valueAt? slot u.1 = some u.2 :=
    mem_slotHistory.mp (hhistory ▸ List.mem_append_left _ hu)
  have he' : e' ∈ pre ++ e' :: between := by simp
  refine ⟨e'.1, hacross e' he' e List.mem_cons_self, ?_, fun k hlt hk => ?_⟩
  · rw [descriptorAt?, hmem he']
    exact hdesc
  · cases hvalue : frames.valueAt? slot k with
    | none => rw [descriptorAt?, hvalue, Option.bind_none]
    | some u =>
        have hu : (k, u) ∈ LocalVariable.slotHistory frames slot := mem_slotHistory.mpr hvalue
        rw [hhistory] at hu
        rw [descriptorAt?, hvalue]
        exact hnone _ (mem_right_of_lt hleft (mem_left_of_lt hincreasing hu hk) hlt)

theorem descriptorAt?_of_knownAfter_none {pre post : List (Nat × TypeValue)}
    (hhistory : LocalVariable.slotHistory frames slot = pre ++ e :: post)
    (h : knownAfter none pre = none) : ∀ j < e.1, frames.descriptorAt? slot j = none := by
  have hincreasing := hhistory ▸ slotHistory_increasing frames slot
  intro j hj
  cases hvalue : frames.valueAt? slot j with
  | none => rw [descriptorAt?, hvalue, Option.bind_none]
  | some u =>
      have hu : (j, u) ∈ LocalVariable.slotHistory frames slot := mem_slotHistory.mpr hvalue
      rw [hhistory] at hu
      rw [descriptorAt?, hvalue]
      exact LocalVariable.SlotScan.descriptor?_of_knownAfter_none h _
        (mem_left_of_lt hincreasing hu hj)

end Frames

namespace LocalVariable

open SlotScan

variable {m : Method} {frames : Frames} {slot : Nat}

def ofSlot (table : List LocalVariable) (slot : Nat) : List LocalVariable :=
  table.filter (·.slot.toNat = slot)

def slotStretches (m : Method) (frames : Frames) (slot : Nat) : List LocalVariable :=
  SlotScan.start.stretches slot m.instructions.size (slotHistory frames slot)

theorem slot_of_mem_slotStretches (hslot : slot < m.maxLocals.toNat) {v : LocalVariable}
    (hv : v ∈ slotStretches m frames slot) : v.slot.toNat = slot ∧ v.name = "var" ++ toString slot := by
  obtain ⟨first, last, desc, rfl⟩ := exists_generatedIn hv
  exact ⟨UInt16.toNat_ofNat_of_lt' (hslot.trans m.maxLocals.toNat_lt), rfl⟩

/-- Of lists put together only one has anything to contribute. -/
theorem flatMap_eq_of_mem {α β : Type} {l : List α} (hl : l.Nodup) {f : α → List β} {a : α}
    (ha : a ∈ l) (hnil : ∀ b ∈ l, b ≠ a → f b = []) : l.flatMap f = f a := by
  obtain ⟨pre, post, rfl⟩ := List.append_of_mem ha
  obtain ⟨-, hpost, hacross⟩ := List.nodup_append.mp hl
  have hleft : pre.flatMap f = [] := List.flatMap_eq_nil_iff.mpr fun b hb =>
    hnil b (List.mem_append_left _ hb) (hacross b hb a List.mem_cons_self)
  have hright : post.flatMap f = [] := List.flatMap_eq_nil_iff.mpr fun b hb =>
    hnil b (by simp [hb]) fun heq => (List.nodup_cons.mp hpost).1 (heq ▸ hb)
  rw [List.flatMap_append, List.flatMap_cons, hleft, hright, List.nil_append, List.append_nil]

/-- The variables of a slot in the table are its stretches. -/
theorem ofSlot_generated_perm (frames : Frames) (hslot : slot < m.maxLocals.toNat) :
    (ofSlot (generated m frames) slot).Perm (slotStretches m frames slot) := by
  have hall : (slotStretches m frames slot).filter (·.slot.toNat = slot) =
      slotStretches m frames slot :=
    List.filter_eq_self.mpr fun v hv => decide_eq_true (slot_of_mem_slotStretches hslot hv).1
  have hone : ((List.range m.maxLocals.toNat).flatMap (slotStretches m frames)).filter
      (·.slot.toNat = slot) = slotStretches m frames slot := by
    rw [List.filter_flatMap, flatMap_eq_of_mem List.nodup_range (List.mem_range.mpr hslot), hall]
    intro k hk hne
    refine List.filter_eq_nil_iff.mpr fun v hv heq => hne ?_
    exact (slot_of_mem_slotStretches (List.mem_range.mp hk) hv).1.symm.trans (of_decide_eq_true heq)
  rw [← hone]
  exact (List.mergeSort_perm _ _).filter _

theorem startsBefore_iff {a b : LocalVariable} :
    startsBefore a b = true ↔ a.start < b.start ∨ a.start = b.start ∧ a.slot ≤ b.slot := by
  simp [startsBefore]

theorem generated_sorted (m : Method) (frames : Frames) :
    (generated m frames).Pairwise fun a b => a.start < b.start ∨ a.start = b.start ∧ a.slot ≤ b.slot := by
  refine (List.pairwise_mergeSort (fun a b c hab hbc => ?_) (fun a b => ?_) _).imp
    startsBefore_iff.mp
  · rw [startsBefore_iff] at hab hbc ⊢
    rcases hab with hab | ⟨hab, hslot⟩
    · rcases hbc with hbc | ⟨hbc, -⟩
      · exact .inl (hab.trans hbc)
      · exact .inl (hbc ▸ hab)
    · rcases hbc with hbc | ⟨hbc, hslot'⟩
      · exact .inl (hab ▸ hbc)
      · exact .inr ⟨hab.trans hbc, UInt16.le_trans hslot hslot'⟩
  · rw [Bool.or_eq_true, startsBefore_iff, startsBefore_iff]
    rcases Nat.lt_trichotomy a.start b.start with hlt | heq | hlt
    · exact .inl (.inl hlt)
    · rcases UInt16.le_total a.slot b.slot with hle | hle
      · exact .inl (.inr ⟨heq, hle⟩)
      · exact .inr (.inr ⟨heq.symm, hle⟩)
    · exact .inr (.inl hlt)

/-- The stretches of one slot in the order of the table. -/
theorem ofSlot_separate (frames : Frames) (hslot : slot < m.maxLocals.toNat)
    (hsize : frames.size = m.instructions.size) :
    (∀ v ∈ ofSlot (generated m frames) slot, v.name = "var" ++ toString slot ∧
        v.start < v.stop ∧ v.stop ≤ m.instructions.size) ∧
      (ofSlot (generated m frames) slot).Pairwise (·.stop ≤ ·.start) := by
  have hperm := ofSlot_generated_perm frames hslot
  have hordered := Frames.slotHistory_ordered frames slot
  rw [hsize] at hordered
  obtain ⟨hranges, hpairs⟩ := stretches_separate slot tracks_start hordered (Nat.zero_le _)
  have hrange {v} (hv : v ∈ ofSlot (generated m frames) slot) :
      v.start < v.stop ∧ v.stop ≤ m.instructions.size :=
    hranges v (hperm.mem_iff.mp hv)
  refine ⟨fun v hv => ⟨(slot_of_mem_slotStretches hslot (hperm.mem_iff.mp hv)).2, hrange hv⟩, ?_⟩
  -- Disjoint in either order by the scan, and in this order because the table is sorted.
  have hdisjoint : (ofSlot (generated m frames) slot).Pairwise
      fun a b => a.stop ≤ b.start ∨ b.stop ≤ a.start :=
    (hpairs.imp Or.inl).perm hperm.symm fun h => h.symm
  have hsorted := (generated_sorted m frames).filter (·.slot.toNat = slot)
  refine (hdisjoint.and hsorted).imp_of_mem fun {a b} _ hb ⟨hsep, hord⟩ => ?_
  have hlt := (hrange hb).1
  have hle : a.start ≤ b.start := hord.elim (·.le) (·.1.le)
  omega

/-- The variables that hold at a node, told by the frame there. -/
theorem covering_ofSlot (hslot : slot < m.maxLocals.toNat)
    (hsize : frames.size = m.instructions.size) {i : Nat} {pre post : List (Nat × TypeValue)}
    {value : TypeValue} (hhistory : slotHistory frames slot = pre ++ (i, value) :: post) :
    covering i (ofSlot (generated m frames) slot) =
      (descriptorOf (knownAfter none pre) value).toList := by
  have hordered := Frames.slotHistory_ordered frames slot
  rw [hsize, hhistory] at hordered
  have hcovering : covering i (slotStretches m frames slot) =
      (descriptorOf (knownAfter none pre) value).toList := by
    rw [slotStretches, hhistory]
    exact covering_of_mem slot tracks_start hordered
  have hperm : (covering i (ofSlot (generated m frames) slot)).Perm
      (covering i (slotStretches m frames slot)) :=
    ((ofSlot_generated_perm frames hslot).filter _).map _
  rw [hcovering] at hperm
  cases hd : descriptorOf (knownAfter none pre) value with
  | none =>
      rw [hd] at hperm
      exact List.perm_nil.mp hperm
  | some d =>
      rw [hd] at hperm
      exact List.perm_singleton.mp hperm

section

variable {i : Nat} {pre post : List (Nat × TypeValue)} {value : TypeValue}

theorem of_descriptorOf_some {desc : String}
    (hhistory : slotHistory frames slot = pre ++ (i, value) :: post)
    (hd : descriptorOf (knownAfter none pre) value = some desc) :
    value ≠ .unset ∧ (value.descriptor? = some desc ∨
      value.descriptor? = none ∧ frames.LastBefore slot i desc) := by
  rw [descriptorOf, valueOf] at hd
  split at hd
  · cases hd
  · rename_i hset
    rw [Option.bind_some] at hd
    refine ⟨hset, ?_⟩
    cases hown : value.descriptor? with
    | some d =>
        rw [hown] at hd
        exact .inl hd
    | none =>
        rw [hown] at hd
        exact .inr ⟨rfl, Frames.lastBefore_of_knownAfter hhistory hd⟩

theorem of_descriptorOf_none (hhistory : slotHistory frames slot = pre ++ (i, value) :: post)
    (hd : descriptorOf (knownAfter none pre) value = none) :
    value = .unset ∨
      value.descriptor? = none ∧ ∀ j < i, frames.descriptorAt? slot j = none := by
  by_cases hset : value = .unset
  · exact .inl hset
  · rw [descriptorOf, valueOf, if_neg hset, Option.bind_some] at hd
    cases hown : value.descriptor? with
    | some d =>
        rw [hown] at hd
        cases hd
    | none =>
        rw [hown] at hd
        exact .inr ⟨rfl, Frames.descriptorAt?_of_knownAfter_none hhistory hd⟩

end

/-- The made-up table says what the frames of an analysis say. It is sorted by start and slot; the
variables of a slot are not empty, end within the method and lie one after the other; and at every
node that has a frame exactly one of them holds if the slot is set there and its value has a
descriptor or some value before had one, and otherwise none. Its descriptor is that of the value, or
the last one that the slot had before. -/
theorem generated_tells_frames {owner : String} {m : Method} {h : Hierarchy} {w : Watch}
    {frames : Frames} (hanalyze : (Analysis.analyze owner m h).answer w = .ok frames) :
    ((generated m frames).Pairwise fun a b =>
        a.start < b.start ∨ a.start = b.start ∧ a.slot ≤ b.slot) ∧
      ∀ slot < m.maxLocals.toNat,
        (∀ v ∈ ofSlot (generated m frames) slot, v.name = "var" ++ toString slot ∧
          v.start < v.stop ∧ v.stop ≤ m.instructions.size) ∧
        (ofSlot (generated m frames) slot).Pairwise (·.stop ≤ ·.start) ∧
        ∀ i f, frames.at? i = some f → ∃ value, f.locals[slot]? = some value ∧
          let described := value ≠ .unset ∧
            (value.descriptor?.isSome = true ∨
              ∃ j < i, (frames.descriptorAt? slot j).isSome = true)
          (described → ∃ v, (ofSlot (generated m frames) slot).filter (·.contains i) = [v] ∧
            (value.descriptor? = some v.desc ∨
              value.descriptor? = none ∧ frames.LastBefore slot i v.desc)) ∧
          (¬described → (ofSlot (generated m frames) slot).filter (·.contains i) = []) := by
  obtain ⟨hsize, hlocals⟩ := Analysis.analyze_shaped.of_answer hanalyze
  refine ⟨generated_sorted m frames, fun slot hslot => ?_⟩
  obtain ⟨hranges, hpairs⟩ := ofSlot_separate frames hslot hsize
  refine ⟨hranges, hpairs, fun i f hf => ?_⟩
  obtain ⟨value, hvalue⟩ : ∃ value, f.locals[slot]? = some value :=
    ⟨_, List.getElem?_eq_getElem (hslot.trans_le (hlocals i f hf))⟩
  refine ⟨value, hvalue, ?_⟩
  have hmem : (i, value) ∈ slotHistory frames slot :=
    Frames.mem_slotHistory.mpr (by rw [Frames.valueAt?, hf, Option.bind_some, hvalue])
  obtain ⟨pre, post, hhistory⟩ := List.append_of_mem hmem
  have hcovering := covering_ofSlot hslot hsize hhistory
  cases hd : descriptorOf (knownAfter none pre) value with
  | some desc =>
      rw [hd] at hcovering
      obtain ⟨v, hv, rfl⟩ := List.map_eq_singleton_iff.mp hcovering
      obtain ⟨hset, horigin⟩ := of_descriptorOf_some hhistory hd
      refine ⟨fun _ => ⟨v, hv, horigin⟩, fun hnot => absurd ⟨hset, ?_⟩ hnot⟩
      rcases horigin with hown | ⟨-, j, hj, hdesc, -⟩
      · exact .inl (Option.isSome_of_eq_some hown)
      · exact .inr ⟨j, hj, Option.isSome_of_eq_some hdesc⟩
  | none =>
      rw [hd] at hcovering
      refine ⟨fun ⟨hset, hdescribed⟩ => ?_, fun _ => List.map_eq_nil_iff.mp hcovering⟩
      obtain ⟨hown, hbefore⟩ := (of_descriptorOf_none hhistory hd).resolve_left hset
      rcases hdescribed with hsome | ⟨j, hj, hsome⟩
      · simp [hown] at hsome
      · simp [hbefore j hj] at hsome

/-- A constructor that calls the one above, and stores a number and then an object not yet made. -/
def freshConstructor : Method where
  access := 0
  name := "<init>"
  desc := "()V"
  maxStack := 1
  maxLocals := 2
  instructions := .ofList [.var .aload 0,
    .method .invokespecial "java/lang/Object" "<init>" "()V" false, .plain .iconst1, .var .istore 1,
    .type .newObject "a/B", .var .astore 1, .plain .returnVoid]
  handlers := []
  declaredLocals := []

def freshFrames : Frames :=
  let made := TypeValue.object "a/A"
  #[some ⟨[.uninitializedThis, .unset], []⟩,
    some ⟨[.uninitializedThis, .unset], [.uninitializedThis]⟩,
    some ⟨[made, .unset], []⟩, some ⟨[made, .unset], [.int]⟩, some ⟨[made, .int], []⟩,
    some ⟨[made, .int], [.fresh 4]⟩, some ⟨[made, .fresh 4], []⟩]

/-- The receiver has no variable before it is made, and the object not yet made has the descriptor
of the number. -/
theorem generated_tells_frames_constructor :
    (Analysis.analyze "a/A" freshConstructor .unknown).answer .live =
        .ok freshFrames ∧
      (ofSlot (generated freshConstructor freshFrames) 0).filter (·.contains 0) = [] ∧
      ∃ v, (ofSlot (generated freshConstructor freshFrames) 1).filter (·.contains 6) = [v] ∧
        freshFrames.LastBefore 1 6 v.desc := by
  have hanalyze : (Analysis.analyze "a/A" freshConstructor .unknown).answer .live = .ok freshFrames := by
    decide +kernel
  obtain ⟨-, hslots⟩ := generated_tells_frames hanalyze
  obtain ⟨_, hthis, -, hnone⟩ := (hslots 0 (by decide)).2.2 0 _ rfl
  obtain ⟨_, hobject, hsome, -⟩ := (hslots 1 (by decide)).2.2 6 _ rfl
  cases hthis
  cases hobject
  refine ⟨hanalyze, hnone fun ⟨_, hdescribed⟩ => ?_, ?_⟩
  · rcases hdescribed with hown | ⟨j, hj, -⟩
    · cases hown
    · cases hj
  · obtain ⟨v, hv, hown | ⟨-, hlast⟩⟩ := hsome ⟨by decide, .inr ⟨5, by decide, rfl⟩⟩
    · cases hown
    · exact ⟨v, hv, hlast⟩

end LocalVariable

end Injection
