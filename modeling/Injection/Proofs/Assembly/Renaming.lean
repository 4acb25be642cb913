import Injection.Proofs.Assembly.Code

/-!
What is read of written code is the code itself with its labels renamed: every label that is
mentioned stands before the same instruction under its new name.
-/

namespace Injection

theorem FrameValue.relabel_relabel (f g : Label → Label) (v : FrameValue) :
    (v.relabel g).relabel f = v.relabel (f ∘ g) := by
  cases v <;> rfl

theorem Instruction.relabel_relabel (f g : Label → Label) (i : Instruction) :
    (i.relabel g).relabel f = i.relabel (f ∘ g) := by
  cases i <;> simp [relabel, Frame.relabel, FrameValue.relabel_relabel, Function.comp_def]

def InstructionList.lineTable (is : InstructionList) : List (UInt32 × Option Nat) :=
  (is.nodes.toList.filterMap Instruction.lineMark?).map fun (n, start) => (n, is.placeOf? start)

namespace Method

def realInstructions (m : Method) : List Instruction :=
  m.instructions.nodes.toList.filter (·.isReal)

def Mentions (m : Method) (l : Label) : Prop :=
  (∃ i ∈ m.realInstructions, l ∈ i.targets) ∨
    (∃ h ∈ m.handlers, l = h.start ∨ l = h.stop ∨ l = h.handler) ∨
      ∃ d ∈ m.declaredLocals, l = d.start ∨ l = d.stop

/-- The code of one method is that of another with its labels renamed. A label that is mentioned
stands at the same place under its new name. Line numbers are kept as numbers of two bytes, each
at its place; the marks of different places may change their order. -/
structure SameCode (m : Method) (f : Label → Label) (m' : Method) : Prop where
  instructions : m'.realInstructions = m.realInstructions.map (·.relabel f)
  handlers : m'.handlers = m.handlers.map (·.relabel f)
  declaredLocals : m'.declaredLocals = m.declaredLocals.map (·.relabel f)
  places : ∀ l, m.Mentions l →
    ∃ k, m.instructions.placeOf? l = some k ∧ m'.instructions.placeOf? (f l) = some k
  lines : m'.instructions.lineTable.Perm
    (m.instructions.lineTable.map fun (n, place) => (n.toUInt16.toUInt32, place))

end Method

namespace CodeParts

open PlacedNode

variable {w : CodeParts} {pool : ConstantPool} {m : Method} {bytes : List UInt8} {l : Label}
  {n : Nat} {entries : List (Nat × Bytecode.FrameEntry)} {frames : List (Nat × Frame)}

def rename (w : CodeParts) (m : Method) (entries : List (Nat × Bytecode.FrameEntry)) :
    Label → Label :=
  Bytecode.number (w.labels m entries) ∘ w.offsetOf

theorem isReal_of_mem_decoded {d : Nat × Instruction} (hd : d ∈ w.decoded) :
    d.2.isReal = true := by
  obtain ⟨p, -, hreal, rfl⟩ := mem_decoded hd
  rw [Instruction.isReal_relabel]
  exact hreal

theorem bounds_eq : w.decoded.map (·.1) ++ [w.stop] = bounds w.placed w.stop := by
  rw [decoded_map_fst, bounds]

theorem IsOf.realInstructions (hw : w.IsOf pool m bytes) :
    (w.result m entries frames).instructions.nodes.toList.filter (·.isReal) =
      m.realInstructions.map (·.relabel (w.rename m entries)) := by
  rw [result, InstructionList.ofList, List.toList_toArray, Instruction.filter_isReal_relabel,
    Bytecode.filter_nodes fun d hd => isReal_of_mem_decoded hd]
  rw [Method.realInstructions, hw.nodes, List.filter_map, decoded, PlacedNode.decoded]
  simp only [List.map_map]
  refine List.map_congr_left fun p _ => ?_
  exact Instruction.relabel_relabel _ _ p.node

/-- An offset that is mentioned has a label, which stands at its place. -/
theorem IsOf.placeOf?_rename (hw : w.IsOf pool m bytes) {k : Nat}
    (hmentioned : (w.offsetOf l).id ∈ (w.tables m entries).mentioned)
    (hk : (bounds w.placed w.stop)[k]? = some (w.offsetOf l).id) :
    (w.result m entries frames).instructions.placeOf? (w.rename m entries l) = some k := by
  have hlabel : (w.offsetOf l).id ∈ w.labels m entries :=
    List.mem_filter.mpr ⟨List.mem_of_getElem? hk, List.contains_iff_mem.mpr hmentioned⟩
  refine Bytecode.placeOf?_number (fun d hd => isReal_of_mem_decoded hd) ?_ hlabel ?_
  · rw [bounds_eq]
    exact bounds_pairwise hw.run
  · rw [bounds_eq]
    exact hk

theorem IsOf.mentions (hw : w.IsOf pool m bytes) (hm : m.Fits)
    (entries : List (Nat × Bytecode.FrameEntry)) (hl : m.Mentions l) :
    ∃ n, labelOffset w.placed l = .ok n ∧ n ∈ (w.tables m entries).mentioned := by
  simp only [tables, List.mem_append]
  rcases hl with ⟨i, hi, hl⟩ | ⟨h, hh, hl⟩ | ⟨d, hd, hl⟩
  · rw [Method.realInstructions, hw.nodes, List.filter_map] at hi
    obtain ⟨p, hp, rfl⟩ := List.mem_map.mp hi
    obtain ⟨n, hn, -⟩ := hw.target hm (List.mem_filter.mp hp).1 hl
    refine ⟨n, hn, .inl (.inl (.inl (.inl (List.mem_flatMap.mpr ?_))))⟩
    refine ⟨_, List.mem_map.mpr ⟨p, hp, rfl⟩, List.mem_map.mpr ⟨⟨n⟩, ?_, rfl⟩⟩
    rw [Instruction.targets_relabel, ← offsetOf_eq hn]
    exact List.mem_map.mpr ⟨l, hl, rfl⟩
  · obtain ⟨item, -, start, stop, handler, hstart, hstop, hhandler, -⟩ :=
      (forall₂_exists hw.handlers).1 h hh
    have hmem {n : Nat} (hn : n ∈ [start, stop, handler]) :
        n ∈ (m.handlers.map (·.relabel w.offsetOf)).flatMap
          fun h => [h.start.id, h.stop.id, h.handler.id] := by
      refine List.mem_flatMap.mpr ⟨_, List.mem_map.mpr ⟨h, hh, rfl⟩, ?_⟩
      rwa [ExceptionHandler.relabel, offsetOf_eq hstart, offsetOf_eq hstop, offsetOf_eq hhandler]
    rcases hl with rfl | rfl | rfl
    · exact ⟨start, hstart, .inl (.inl (.inl (.inr (hmem (by simp)))))⟩
    · exact ⟨stop, hstop, .inl (.inl (.inl (.inr (hmem (by simp)))))⟩
    · exact ⟨handler, hhandler, .inl (.inl (.inl (.inr (hmem (by simp)))))⟩
  · obtain ⟨item, -, start, stop, hstart, hstop, -⟩ := (forall₂_exists hw.locals).1 d hd
    have hmem {n : Nat} (hn : n ∈ [start, stop]) :
        n ∈ (m.declaredLocals.map (·.relabel w.offsetOf)).flatMap
          fun d => [d.start.id, d.stop.id] := by
      refine List.mem_flatMap.mpr ⟨_, List.mem_map.mpr ⟨d, hd, rfl⟩, ?_⟩
      rwa [DeclaredLocal.relabel, offsetOf_eq hstart, offsetOf_eq hstop]
    rcases hl with rfl | rfl
    · exact ⟨start, hstart, .inr (hmem (by simp))⟩
    · exact ⟨stop, hstop, .inr (hmem (by simp))⟩

theorem IsOf.places (hw : w.IsOf pool m bytes) (hm : m.Fits) (hl : m.Mentions l) :
    ∃ k, m.instructions.placeOf? l = some k ∧
      (w.result m entries frames).instructions.placeOf? (w.rename m entries l) = some k := by
  obtain ⟨n, hn, hmentioned⟩ := hw.mentions hm entries hl
  obtain ⟨k, hk, hget⟩ := hw.place hn
  rw [← show (w.offsetOf l).id = n by rw [offsetOf_eq hn]] at hget hmentioned
  exact ⟨k, hk, hw.placeOf?_rename hmentioned hget⟩

theorem filterMap_lineMark?_relabel (f : Label → Label) (is : List Instruction) :
    (is.map (·.relabel f)).filterMap Instruction.lineMark? =
      (is.filterMap Instruction.lineMark?).map fun (n, l) => (n, f l) := by
  rw [List.filterMap_map, List.map_filterMap]
  refine List.filterMap_congr fun i _ => ?_
  cases i <;> rfl

/-- A line number is read with the place at which its label stands. -/
theorem IsOf.line_place (hw : w.IsOf pool m bytes) {e : Nat × UInt32} (he : e ∈ w.lines)
    (hl : labelOffset w.placed l = .ok e.1) :
    (w.result m entries frames).instructions.placeOf?
      (Bytecode.number (w.labels m entries) ⟨e.1⟩) = m.instructions.placeOf? l := by
  obtain ⟨k, hk, hget⟩ := hw.place hl
  have hoffset := offsetOf_eq hl
  have hmentioned : (w.offsetOf l).id ∈ (w.tables m entries).mentioned := by
    rw [hoffset]
    simp only [tables, List.mem_append]
    exact .inl (.inr (List.mem_map.mpr ⟨e, he, rfl⟩))
  rw [← show (w.offsetOf l).id = e.1 by rw [hoffset]] at hget
  rw [← hoffset, hk]
  exact hw.placeOf?_rename hmentioned hget

/-- The line numbers that are read are those of the table, in the order of their offsets. -/
theorem IsOf.lines_perm (hw : w.IsOf pool m bytes) :
    (w.result m entries frames).instructions.lineTable.Perm
      (m.instructions.lineTable.map fun (n, place) => (n.toUInt16.toUInt32, place)) := by
  have hmem : ∀ e ∈ (w.tables m entries).lines, e.1 ∈ bounds w.placed w.stop ∧
      e.1 ∈ w.labels m entries := by
    intro e he
    obtain ⟨e', he', rfl⟩ := List.mem_map.mp he
    obtain ⟨mark, -, hmark, -⟩ := (forall₂_exists hw.lines).2 e' he'
    refine ⟨hw.mem_bounds hmark, List.mem_filter.mpr ⟨hw.mem_bounds hmark, ?_⟩⟩
    rw [List.contains_iff_mem]
    simp only [tables, List.mem_append]
    exact .inl (.inr (List.mem_map.mpr ⟨e', he', rfl⟩))
  have hnodup : (bounds w.placed w.stop).Nodup :=
    (bounds_pairwise hw.run).imp fun h => Nat.ne_of_lt h
  -- The marks come back offset by offset; within one offset they keep their order.
  have hperm := Bytecode.flatMap_filter_perm hnodup fun e he => (hmem e he).1
  have heq : (w.tables m entries).lines.map (fun e => (e.2,
      (w.result m entries frames).instructions.placeOf?
        (Bytecode.number (w.labels m entries) ⟨e.1⟩))) =
      m.instructions.lineTable.map fun (n, place) => (n.toUInt16.toUInt32, place) := by
    have hpairs : List.Forall₂ (fun mark e => e ∈ w.lines ∧
        labelOffset w.placed mark.2 = .ok e.1 ∧ e.2 = mark.1)
        (m.instructions.nodes.toList.filterMap Instruction.lineMark?) w.lines :=
      ((List.forall₂_and_left ..).mpr ⟨fun _ => id, hw.lines.flip⟩).flip
    rw [InstructionList.lineTable, tables, List.map_map, List.map_map, ← List.forall₂_eq_eq_eq,
      List.forall₂_map_left_iff, List.forall₂_map_right_iff]
    refine hpairs.flip.imp ?_
    rintro e mark ⟨he, hl, hn⟩
    simp only [Function.comp_apply]
    rw [hw.line_place he hl, hn]
  rw [← heq]
  have hlines := filterMap_lineMark?_relabel (Bytecode.number (w.labels m entries))
    (Bytecode.nodes (w.labels m entries) (w.tables m entries) frames w.decoded w.stop)
  rw [Bytecode.lineMarks_nodes (fun d hd => isReal_of_mem_decoded hd) fun e he => (hmem e he).2,
    bounds_eq, List.map_map] at hlines
  rw [InstructionList.lineTable, result, InstructionList.ofList, List.toList_toArray, hlines,
    List.map_map]
  exact hperm.map _

theorem IsOf.sameCode (hw : w.IsOf pool m bytes) (hm : m.Fits) {m' : Method}
    (hinstructions : m'.instructions = (w.result m entries frames).instructions)
    (hhandlers : m'.handlers = (w.result m entries frames).handlers)
    (hlocals : m'.declaredLocals = (w.result m entries frames).declaredLocals) :
    m.SameCode (w.rename m entries) m' where
  instructions := by
    rw [Method.realInstructions, hinstructions]
    exact hw.realInstructions
  handlers := by
    rw [hhandlers]
    exact List.map_map
  declaredLocals := by
    rw [hlocals]
    exact List.map_map
  places l hl := by
    rw [hinstructions]
    exact hw.places hm hl
  lines := by
    rw [hinstructions]
    exact hw.lines_perm

end CodeParts

end Injection
