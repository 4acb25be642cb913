import Injection.Proofs.Assembly.StackMap
import Injection.Proofs.ClassFile.Marks

/-!
Where frames stand. A frame is known by the number of instructions before it, among the nodes of
a method as well as among placed nodes and among those that are decoded.
-/

namespace Injection

namespace InstructionList

def framesFrom : (k : Nat) → List Instruction → List (Nat × Frame)
  | _, [] => []
  | k, .frame f :: rest => (k, f) :: framesFrom k rest
  | k, i :: rest => framesFrom (if i.isReal then k + 1 else k) rest

def frameTable (is : InstructionList) : List (Nat × Frame) := framesFrom 0 is.nodes.toList

variable {k : Nat} {i : Instruction} {is js : List Instruction}

theorem framesFrom_cons_real (hi : i.isReal = true) :
    framesFrom k (i :: is) = framesFrom (k + 1) is := by
  cases i with
  | frame | label | line => cases hi
  | _ => rfl

theorem framesFrom_cons_mark (hi : i.isReal = false) :
    framesFrom k (i :: is) = (i.frame?.toList.map (k, ·)) ++ framesFrom k is := by
  cases i with
  | frame | label | line => rfl
  | _ => cases hi

theorem framesFrom_append :
    framesFrom k (is ++ js) = framesFrom k is ++ framesFrom (k + is.countP (·.isReal)) js := by
  induction is generalizing k with
  | nil => rfl
  | cons i is ih =>
      cases hi : i.isReal with
      | true =>
          rw [List.cons_append, framesFrom_cons_real hi, framesFrom_cons_real hi, ih,
            List.countP_cons_of_pos hi, Nat.add_assoc, Nat.add_comm 1]
      | false =>
          rw [List.cons_append, framesFrom_cons_mark hi, framesFrom_cons_mark hi, ih,
            List.countP_cons_of_neg (hi ▸ Bool.false_ne_true), List.append_assoc]

theorem framesFrom_of_marks (h : ∀ i ∈ is, i.isReal = false) :
    framesFrom k is = (is.filterMap Instruction.frame?).map (k, ·) := by
  induction is with
  | nil => rfl
  | cons i is ih =>
      rw [framesFrom_cons_mark (h i List.mem_cons_self),
        ih fun j hj => h j (List.mem_cons_of_mem _ hj), List.filterMap_cons]
      cases i.frame? <;> rfl

theorem framesFrom_relabel (g : Label → Label) :
    framesFrom k (is.map (·.relabel g)) = (framesFrom k is).map fun (k, f) => (k, f.relabel g) := by
  induction is generalizing k with
  | nil => rfl
  | cons i is ih =>
      rw [List.map_cons]
      cases i with
      | frame f => exact congrArg ((k, f.relabel g) :: ·) ih
      | _ => exact ih

theorem frameTable_map_snd (is : InstructionList) :
    is.frameTable.map (·.2) = is.nodes.toList.filterMap Instruction.frame? := by
  have hframes (k : Nat) (is : List Instruction) :
      (framesFrom k is).map (·.2) = is.filterMap Instruction.frame? := by
    induction is generalizing k with
    | nil => rfl
    | cons i is ih =>
        cases i with
        | frame f => exact congrArg (f :: ·) (ih k)
        | _ => exact ih _
  exact hframes 0 _

end InstructionList

theorem idxOf_of_getElem? {xs : List Nat} {k a : Nat} (h : xs.Nodup) (hk : xs[k]? = some a) :
    xs.idxOf a = k := by
  obtain ⟨hlt, rfl⟩ := List.getElem?_eq_some_iff.mp hk
  exact h.idxOf_getElem k hlt

namespace PlacedNode

variable {start stop : Nat} {ps : List PlacedNode}

/-- A placed frame stands before the instruction at its offset, or at the end. -/
theorem framesFrom_placed (front : List Nat) (hrun : Run start ps stop)
    (hnodup : (front ++ bounds ps stop).Nodup) :
    InstructionList.framesFrom front.length (ps.map (·.node)) =
      (frameMarks ps).map fun m => ((front ++ bounds ps stop).idxOf m.1, m.2) := by
  induction ps generalizing start front with
  | nil => rfl
  | cons p ps ih =>
      rw [List.map_cons]
      cases hp : p.node.isReal with
      | true =>
          have hnone := Instruction.frame?_of_isReal hp
          have hrest := ih (front ++ [p.offset.toNat]) hrun.2.2
          rw [bounds_cons_real hp] at hnodup ⊢
          rw [List.length_append, List.append_assoc] at hrest
          rw [InstructionList.framesFrom_cons_real hp, frameMarks,
            List.filterMap_cons_none (by simp [hnone])]
          exact hrest hnodup
      | false =>
          have hrest := hrun.of_mark hp
          rw [bounds_cons_mark hp] at hnodup ⊢
          rw [InstructionList.framesFrom_cons_mark hp, ih front hrest hnodup]
          cases hframe : p.node.frame? with
          | none => rw [frameMarks, frameMarks, List.filterMap_cons_none (by simp [hframe])]; rfl
          | some f =>
              have hindex : (front ++ bounds ps stop).idxOf p.offset.toNat = front.length := by
                refine idxOf_of_getElem? hnodup ?_
                rw [List.getElem?_append_right (Nat.le_refl _), Nat.sub_self, head_bounds hrest,
                  hrun.1]
              have hmarks : frameMarks (p :: ps) = (p.offset.toNat, f) :: frameMarks ps :=
                List.filterMap_cons_some (by rw [hframe]; rfl)
              rw [hmarks, List.map_cons, hindex]
              rfl

end PlacedNode

namespace Bytecode

variable {labels : List Nat} {t : Tables} {frames : List (Nat × Frame)}
  {decoded : List (Nat × Instruction)} {stop offset : Nat}

theorem filterMap_frame?_frames :
    (frames.filterMap fun (place, f) =>
      if place = offset then some (Instruction.frame f) else none).filterMap Instruction.frame? =
      (frames.filter (·.1 = offset)).map (·.2) := by
  induction frames with
  | nil => rfl
  | cons m frames ih =>
      by_cases h : m.1 = offset
      · simp only [List.filterMap_cons, List.filter_cons, h, if_true, decide_true,
          Instruction.frame?, List.map_cons, ih]
      · simp only [List.filterMap_cons, List.filter_cons, h, if_false, decide_false,
          Bool.false_eq_true, ih]

theorem filterMap_frame?_marks :
    (marks labels t frames offset).filterMap Instruction.frame? =
      (frames.filter (·.1 = offset)).map (·.2) := by
  rw [marks, List.filterMap_append, filterMap_frame?_frames]
  refine (congrArg (· ++ _) (List.filterMap_eq_nil_iff.mpr fun i hi => ?_)).trans
    (List.nil_append _)
  -- Before the frames stand the label and the line numbers.
  split at hi
  · rcases List.mem_cons.mp hi with rfl | hi
    · rfl
    · obtain ⟨⟨place, n⟩, -, hi⟩ := List.mem_filterMap.mp hi
      change (if place = offset then _ else _) = _ at hi
      split at hi <;> cases hi
      rfl
  · cases hi

theorem framesFrom_marks {front places : List Nat} (hnodup : (front ++ offset :: places).Nodup) :
    InstructionList.framesFrom front.length (marks labels t frames offset) =
      (frames.filter (·.1 = offset)).map
        fun m => ((front ++ offset :: places).idxOf m.1, m.2) := by
  have hindex : (front ++ offset :: places).idxOf offset = front.length := by
    refine idxOf_of_getElem? hnodup ?_
    rw [List.getElem?_append_right (Nat.le_refl _), Nat.sub_self]
    rfl
  rw [InstructionList.framesFrom_of_marks fun i hi => isReal_of_mem_marks hi,
    filterMap_frame?_marks, List.map_map]
  refine List.map_congr_left fun m hm => ?_
  rw [Function.comp_apply, of_decide_eq_true (List.mem_filter.mp hm).2, hindex]

/-- A decoded frame stands before the instruction at its offset, or at the end. -/
theorem framesFrom_nodes (front : List Nat) (hreal : ∀ d ∈ decoded, d.2.isReal = true)
    (hnodup : (front ++ (decoded.map (·.1) ++ [stop])).Nodup) :
    InstructionList.framesFrom front.length (nodes labels t frames decoded stop) =
      ((decoded.map (·.1) ++ [stop]).flatMap fun o => frames.filter (·.1 = o)).map
        fun m => ((front ++ (decoded.map (·.1) ++ [stop])).idxOf m.1, m.2) := by
  induction decoded generalizing front with
  | nil =>
      rw [List.map_nil, List.nil_append, List.flatMap_singleton]
      exact framesFrom_marks hnodup
  | cons d decoded ih =>
      have hcount : (marks labels t frames d.1).countP (·.isReal) = 0 := by
        rw [List.countP_eq_length_filter, filter_marks]
        rfl
      have hrest := ih (front ++ [d.1]) (fun d hd => hreal d (List.mem_cons_of_mem _ hd))
      rw [List.length_append, List.append_assoc] at hrest
      rw [nodes_cons, InstructionList.framesFrom_append, hcount, Nat.add_zero,
        InstructionList.framesFrom_cons_real (hreal d List.mem_cons_self), List.map_cons,
        List.cons_append, List.flatMap_cons, List.map_append]
      rw [List.map_cons, List.cons_append] at hnodup
      exact congrArg₂ (· ++ ·) (framesFrom_marks hnodup) (hrest hnodup)

/-- Items that are sorted by their places are taken in order, place by place. -/
theorem flatMap_filter_eq {β : Type} {places : List Nat} {items : List (Nat × β)}
    (hplaces : places.Pairwise (· < ·)) (hitems : items.Pairwise (·.1 < ·.1))
    (hmem : ∀ e ∈ items, e.1 ∈ places) :
    (places.flatMap fun o => items.filter (·.1 = o)) = items := by
  have hnodup : places.Nodup := hplaces.imp Nat.ne_of_lt
  refine (flatMap_filter_perm hnodup hmem).eq_of_pairwise ?_ ?_ hitems
  · exact fun a b _ _ hab hba => absurd hab (Nat.lt_asymm hba)
  · refine List.pairwise_flatMap.mpr ⟨fun o _ => hitems.filter _, hplaces.imp ?_⟩
    intro o o' hlt a ha b hb
    rwa [of_decide_eq_true (List.mem_filter.mp ha).2, of_decide_eq_true (List.mem_filter.mp hb).2]

end Bytecode

end Injection
