import Injection.Proofs.Assembly.Encoding

/-!
Where instructions and labels come to stand. The offsets of the instructions rise from the start
of the code to its end, and a label stands at the offset of the instruction after its last mark,
or at the end of the code.
-/

namespace Injection

def ExceptionHandler.relabel (f : Label → Label) (h : ExceptionHandler) : ExceptionHandler :=
  ⟨f h.start, f h.stop, f h.handler, h.catchType⟩

def DeclaredLocal.relabel (f : Label → Label) (d : DeclaredLocal) : DeclaredLocal :=
  { d with start := f d.start, stop := f d.stop }

namespace InstructionList

variable {is : InstructionList} {l : Label}

/-- The number of instructions before a label. -/
def placeOf? (is : InstructionList) (l : Label) : Option Nat :=
  (is.labelPosition? l).map fun i => (is.nodes.toList.take i).countP Instruction.isReal

/-- A mark after which there is no other of its label. -/
theorem labelPosition?_eq_some {front back : List Instruction}
    (hnodes : is.nodes.toList = front ++ .label l :: back) (hback : .label l ∉ back) :
    is.labelPosition? l = some front.length := by
  have hget (k : Nat) : is.get? k = (front ++ .label l :: back)[k]? := by
    rw [← hnodes, Array.getElem?_toList]
    rfl
  have hsize : is.size = front.length + (back.length + 1) := by
    rw [size, ← Array.length_toList, hnodes, List.length_append, List.length_cons]
  refine lastBefore_eq_some_iff.mpr ⟨by omega, ?_, fun k hk hlt => ?_⟩
  · rw [holds, hget, List.getElem?_append_right (Nat.le_refl _), Nat.sub_self]
    simp
  · obtain ⟨d, rfl⟩ : ∃ d, k = front.length + (d + 1) := ⟨k - front.length - 1, by omega⟩
    rw [holds, hget, List.getElem?_append_right (by omega), Nat.add_sub_cancel_left,
      List.getElem?_cons_succ, Option.any_eq_false]
    intro i hi
    refine decide_eq_false fun heq => hback ?_
    rw [← heq]
    exact List.mem_of_getElem? hi

theorem placeOf?_eq_some {front back : List Instruction}
    (hnodes : is.nodes.toList = front ++ .label l :: back) (hback : .label l ∉ back) :
    is.placeOf? l = some (front.countP Instruction.isReal) := by
  rw [placeOf?, labelPosition?_eq_some hnodes hback, Option.map_some, hnodes, List.take_left']
  rfl

end InstructionList

namespace Instruction

def lineMark? : Instruction → Option (UInt32 × Label)
  | line n start => some (n, start)
  | _ => none

variable {index : UInt16} {offset : UInt32}

theorem encodedSize_of_mark {i : Instruction} (h : i.isReal = false) :
    i.encodedSize index offset = 0 := by
  cases i <;> first | rfl | cases h

theorem encodedSize_pos {i : Instruction} (h : i.isReal = true) (hlt : i.widest < 2 ^ 32) :
    0 < (i.encodedSize index offset).toNat := by
  cases i with
  | label | line | frame => cases h
  | int | var | iinc | method | ldc =>
      rw [encodedSize]
      split <;> decide
  | tableSwitch | lookupSwitch =>
      have hpad := toNat_padding offset
      rw [widest] at hlt
      simp only [encodedSize, UInt32.toNat_add, UInt32.toNat_mul, UInt32.toNat_ofNat',
        UInt32.reduceToNat]
      omega
  | _ => exact Nat.succ_pos _

end Instruction

namespace PlacedNode

/-- Nodes that stand one after the other from an offset up to another, as offsets are counted. -/
def Chain : UInt32 → List PlacedNode → UInt32 → Prop
  | start, [], stop => start = stop
  | start, p :: ps, stop => p.offset = start ∧ Chain (start + p.size) ps stop

/-- Nodes of which no size and no offset has wrapped. -/
def Run : Nat → List PlacedNode → Nat → Prop
  | start, [], stop => start = stop
  | start, p :: ps, stop =>
    p.offset.toNat = start ∧ p.node.widest < 2 ^ 32 ∧ Run (start + p.size.toNat) ps stop

/-- Offsets are exact as long as four bytes can hold the sizes of all nodes. -/
theorem Chain.run {start stop : UInt32} {ps : List PlacedNode} (h : Chain start ps stop)
    (hlt : start.toNat + (ps.map (·.node.widest)).sum < 2 ^ 32) :
    Run start.toNat ps stop.toNat := by
  induction ps generalizing start with
  | nil => exact congrArg UInt32.toNat h
  | cons p ps ih =>
      rw [List.map_cons, List.sum_cons] at hlt
      have hsize : p.size.toNat ≤ p.node.widest := Instruction.encodedSize_le_widest ..
      have hnext : (start + p.size).toNat = start.toNat + p.size.toNat := by
        rw [UInt32.toNat_add, Nat.mod_eq_of_lt (by omega)]
      refine ⟨congrArg UInt32.toNat h.1, by omega, ?_⟩
      rw [← hnext]
      exact ih h.2 (by omega)

theorem run_append {start stop : Nat} {ps qs : List PlacedNode} :
    Run start (ps ++ qs) stop ↔ ∃ middle, Run start ps middle ∧ Run middle qs stop := by
  induction ps generalizing start with
  | nil => simp [Run]
  | cons p ps ih =>
      simp only [List.cons_append, Run, ih]
      constructor
      · rintro ⟨hp, hlt, middle, hps, hqs⟩
        exact ⟨middle, ⟨hp, hlt, hps⟩, hqs⟩
      · rintro ⟨middle, ⟨hp, hlt, hps⟩, hqs⟩
        exact ⟨hp, hlt, middle, hps, hqs⟩

theorem place_chain (start : UInt32) (nodes : List (Instruction × UInt16)) :
    ∃ stop, Chain start (place start nodes) stop := by
  induction nodes generalizing start with
  | nil => exact ⟨start, rfl⟩
  | cons node nodes ih =>
      obtain ⟨stop, hstop⟩ := ih (start + node.1.encodedSize node.2 start)
      exact ⟨stop, rfl, hstop⟩

theorem place_map_node (start : UInt32) (nodes : List (Instruction × UInt16)) :
    (place start nodes).map (·.node) = nodes.map (·.1) := by
  induction nodes generalizing start with
  | nil => rfl
  | cons node nodes ih => rw [place, List.map_cons, ih, List.map_cons]

theorem mem_of_mem_place {start : UInt32} {nodes : List (Instruction × UInt16)} {p : PlacedNode}
    (h : p ∈ place start nodes) : (p.node, p.index) ∈ nodes := by
  induction nodes generalizing start with
  | nil => cases h
  | cons node nodes ih =>
      rcases List.mem_cons.mp h with rfl | h
      · exact List.mem_cons_self
      · exact List.mem_cons_of_mem _ (ih h)

theorem end_of_chain {start stop : UInt32} {ps : List PlacedNode} (h : Chain start ps stop) :
    (ps.getLast?.map fun p => p.offset + p.size).getD start = stop := by
  induction ps generalizing start with
  | nil => exact h
  | cons p ps ih =>
      obtain ⟨rfl, hps⟩ := h
      cases ps with
      | nil => exact hps
      | cons q qs =>
          rw [List.getLast?_cons_cons, List.getLast?_cons]
          have := ih hps
          rwa [List.getLast?_cons] at this

theorem endOffset_of_chain {ps : List PlacedNode} {stop : UInt32} (h : Chain 0 ps stop) :
    endOffset ps = stop :=
  end_of_chain h

theorem place_run {placed : List PlacedNode} {nodes : List (Instruction × UInt16)}
    (hplaced : placed = place 0 nodes) (hlt : (placed.map (·.node.widest)).sum < 2 ^ 32) :
    Run 0 placed (endOffset placed).toNat := by
  obtain ⟨stop, h⟩ := place_chain 0 nodes
  rw [← hplaced] at h
  rw [endOffset_of_chain h]
  exact h.run (by rwa [UInt32.toNat_zero, Nat.zero_add])

def starts (ps : List PlacedNode) : List Nat := (ps.filter (·.node.isReal)).map (·.offset.toNat)

def bounds (ps : List PlacedNode) (stop : Nat) : List Nat := starts ps ++ [stop]

variable {start middle stop : Nat} {p : PlacedNode} {ps qs : List PlacedNode}

theorem length_starts : (starts ps).length = ps.countP (·.node.isReal) := by
  rw [starts, List.length_map, List.countP_eq_length_filter]

theorem bounds_append : bounds (ps ++ qs) stop = starts ps ++ bounds qs stop := by
  simp only [bounds, starts, List.filter_append, List.map_append, List.append_assoc]

theorem bounds_cons_real (hp : p.node.isReal = true) :
    bounds (p :: ps) stop = p.offset.toNat :: bounds ps stop := by
  simp [bounds, starts, hp]

theorem bounds_cons_mark (hp : p.node.isReal = false) :
    bounds (p :: ps) stop = bounds ps stop := by
  simp [bounds, starts, hp]

theorem Run.of_mark (hp : p.node.isReal = false) (h : Run start (p :: ps) stop) :
    Run start ps stop := by
  have hsize : p.size = 0 := Instruction.encodedSize_of_mark hp
  have hrest := h.2.2
  rwa [hsize, UInt32.toNat_zero, Nat.add_zero] at hrest

theorem head_bounds (h : Run start ps stop) : (bounds ps stop)[0]? = some start := by
  induction ps generalizing start with
  | nil =>
      cases h
      rfl
  | cons p ps ih =>
      cases hp : p.node.isReal with
      | true =>
          rw [bounds_cons_real hp, h.1]
          rfl
      | false =>
          rw [bounds_cons_mark hp]
          exact ih (h.of_mark hp)

/-- Where a run goes on stands the instruction that comes next, or the end. -/
theorem getElem?_bounds (h : Run middle qs stop) :
    (bounds (ps ++ qs) stop)[ps.countP (·.node.isReal)]? = some middle := by
  rw [bounds_append, ← length_starts, List.getElem?_append_right (Nat.le_refl _), Nat.sub_self]
  exact head_bounds h

theorem le_of_mem_bounds (h : Run start ps stop) {b : Nat} (hb : b ∈ bounds ps stop) :
    start ≤ b := by
  induction ps generalizing start with
  | nil =>
      cases h
      exact Nat.le_of_eq (List.mem_singleton.mp hb).symm
  | cons p ps ih =>
      cases hp : p.node.isReal with
      | true =>
          rw [bounds_cons_real hp, h.1] at hb
          rcases List.mem_cons.mp hb with rfl | hb
          · exact Nat.le_refl _
          · exact Nat.le_trans (Nat.le_add_right ..) (ih h.2.2 hb)
      | false =>
          rw [bounds_cons_mark hp] at hb
          exact ih (h.of_mark hp) hb

/-- The offsets rise strictly, since every instruction takes at least one byte. -/
theorem bounds_pairwise (h : Run start ps stop) : (bounds ps stop).Pairwise (· < ·) := by
  induction ps generalizing start with
  | nil => exact List.pairwise_singleton ..
  | cons p ps ih =>
      cases hp : p.node.isReal with
      | true =>
          rw [bounds_cons_real hp]
          refine List.pairwise_cons.mpr ⟨fun b hb => ?_, ih h.2.2⟩
          have hpos : 0 < p.size.toNat := Instruction.encodedSize_pos hp h.2.1
          have hle := le_of_mem_bounds h.2.2 hb
          have hstart := h.1
          omega
      | false =>
          rw [bounds_cons_mark hp]
          exact ih (h.of_mark hp)

theorem getElem?_bounds_mono (h : Run start ps stop) {j k a b : Nat} (hjk : j ≤ k)
    (hj : (bounds ps stop)[j]? = some a) (hk : (bounds ps stop)[k]? = some b) : a ≤ b := by
  rcases Nat.eq_or_lt_of_le hjk with rfl | hlt
  · exact Nat.le_of_eq (Option.some.inj (hj.symm.trans hk))
  · obtain ⟨hjlt, rfl⟩ := List.getElem?_eq_some_iff.mp hj
    obtain ⟨hklt, rfl⟩ := List.getElem?_eq_some_iff.mp hk
    exact Nat.le_of_lt (List.pairwise_iff_getElem.mp (bounds_pairwise h) j k hjlt hklt hlt)

theorem labelOffset_eq_ok {l : Label} {n : Nat} (h : labelOffset ps l = .ok n) :
    ∃ front q back, ps = front ++ q :: back ∧ q.node = .label l ∧
      (∀ p ∈ back, p.node ≠ .label l) ∧ q.offset.toNat = n := by
  rw [labelOffset] at h
  split at h
  · next q hq =>
      cases h
      obtain ⟨hnode, back, front, hps, hback⟩ := List.find?_eq_some_iff_append.mp hq
      refine ⟨front.reverse, q, back.reverse, ?_, of_decide_eq_true hnode, fun p hp => ?_, rfl⟩
      · rw [← List.reverse_reverse ps, hps]
        simp
      · have := hback p (List.mem_reverse.mp hp)
        simpa using this
  · cases h

/-- A label stands where the instruction stands before which it is placed, or at the end. -/
theorem getElem?_bounds_of_labelOffset {is : InstructionList} {l : Label} {n : Nat}
    (hrun : Run start ps stop) (hnodes : is.nodes.toList = ps.map (·.node))
    (h : labelOffset ps l = .ok n) :
    ∃ k, is.placeOf? l = some k ∧ (bounds ps stop)[k]? = some n := by
  obtain ⟨front, q, back, rfl, hq, hback, rfl⟩ := labelOffset_eq_ok h
  obtain ⟨middle, -, hrest⟩ := run_append.mp hrun
  have hplace : is.placeOf? l = some ((front.map (·.node)).countP Instruction.isReal) := by
    have hsplit : is.nodes.toList = front.map (·.node) ++ .label l :: back.map (·.node) := by
      rw [hnodes, List.map_append, List.map_cons, hq]
    refine InstructionList.placeOf?_eq_some hsplit fun hmem => ?_
    obtain ⟨p, hp, hnode⟩ := List.mem_map.mp hmem
    exact hback p hp hnode
  refine ⟨_, hplace, ?_⟩
  rw [List.countP_map, hrest.1]
  exact getElem?_bounds hrest

end PlacedNode

/-- Four bytes can hold the sizes of all instructions, even if each has its longest form. -/
def Method.OffsetsFit (m : Method) : Prop :=
  (m.instructions.nodes.toList.map Instruction.widest).sum < 2 ^ 32

instance (m : Method) : Decidable m.OffsetsFit := inferInstanceAs (Decidable (_ < _))

/-- No offset wraps in such a method. -/
theorem Method.OffsetsFit.run {m : Method} {placed : List PlacedNode}
    {nodes : List (Instruction × UInt16)} (hm : m.OffsetsFit)
    (hplaced : placed = PlacedNode.place 0 nodes)
    (hnodes : m.instructions.nodes.toList = placed.map (·.node)) :
    PlacedNode.Run 0 placed (PlacedNode.endOffset placed).toNat := by
  refine PlacedNode.place_run hplaced ?_
  rwa [OffsetsFit, hnodes, List.map_map] at hm

end Injection
