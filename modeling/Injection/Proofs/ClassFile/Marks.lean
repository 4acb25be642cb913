import Injection.ClassFile.Code
import Injection.Proofs.Assembly.Decoding

/-!
Decoded code as a list of nodes. The marks of an offset stand before the instruction of that
offset, there is one label for each offset that is mentioned, and numbering the labels keeps them
apart.
-/

namespace Injection.Bytecode

variable {labels : List Nat} {t : Tables} {frames : List (Nat × Frame)}
  {decoded : List (Nat × Instruction)} {stop offset : Nat}

/-- The instructions with the marks before them, and the marks at the end. -/
def nodes (labels : List Nat) (t : Tables) (frames : List (Nat × Frame))
    (decoded : List (Nat × Instruction)) (stop : Nat) : List Instruction :=
  (decoded.flatMap fun (offset, i) => marks labels t frames offset ++ [i]) ++
    marks labels t frames stop

theorem nodes_cons (d : Nat × Instruction) :
    nodes labels t frames (d :: decoded) stop =
      marks labels t frames d.1 ++ d.2 :: nodes labels t frames decoded stop := by
  simp [nodes]

/-- A mark is a label at a mentioned offset, a line number that holds from there, or a frame. -/
theorem mem_marks {i : Instruction} (h : i ∈ marks labels t frames offset) :
    i = .label ⟨offset⟩ ∧ offset ∈ labels ∨
      (∃ n, i = .line n ⟨offset⟩ ∧ offset ∈ labels) ∨ ∃ f ∈ frames, i = .frame f.2 := by
  rw [marks, List.mem_append] at h
  rcases h with h | h
  · split at h
    · next hlabel =>
        rw [List.contains_iff_mem] at hlabel
        rcases List.mem_cons.mp h with rfl | h
        · exact .inl ⟨rfl, hlabel⟩
        · obtain ⟨⟨place, n⟩, -, hi⟩ := List.mem_filterMap.mp h
          change (if place = offset then _ else _) = _ at hi
          split at hi
          · exact .inr (.inl ⟨n, (Option.some.inj hi).symm, hlabel⟩)
          · cases hi
    · cases h
  · obtain ⟨⟨place, f⟩, hf, hi⟩ := List.mem_filterMap.mp h
    change (if place = offset then _ else _) = _ at hi
    split at hi
    · exact .inr (.inr ⟨_, hf, (Option.some.inj hi).symm⟩)
    · cases hi

theorem isReal_of_mem_marks {i : Instruction} (h : i ∈ marks labels t frames offset) :
    i.isReal = false := by
  rcases mem_marks h with ⟨rfl, -⟩ | ⟨n, rfl, -⟩ | ⟨f, -, rfl⟩ <;> rfl

theorem filter_marks : (marks labels t frames offset).filter (·.isReal) = [] := by
  rw [List.filter_eq_nil_iff]
  intro i hi
  rw [isReal_of_mem_marks hi]
  exact Bool.false_ne_true

/-- The instructions among the nodes are those that were decoded. -/
theorem filter_nodes (hreal : ∀ d ∈ decoded, d.2.isReal = true) :
    (nodes labels t frames decoded stop).filter (·.isReal) = decoded.map (·.2) := by
  induction decoded with
  | nil => exact filter_marks
  | cons d decoded ih =>
      rw [nodes_cons, List.filter_append, filter_marks, List.nil_append,
        List.filter_cons_of_pos (hreal d List.mem_cons_self),
        ih fun d hd => hreal d (List.mem_cons_of_mem _ hd), List.map_cons]

/-- A node is an instruction or a mark. -/
theorem mem_nodes {i : Instruction} (h : i ∈ nodes labels t frames decoded stop) :
    (∃ d ∈ decoded, i = d.2) ∨ ∃ offset, i ∈ marks labels t frames offset := by
  rcases List.mem_append.mp h with h | h
  · obtain ⟨d, hd, h⟩ := List.mem_flatMap.mp h
    rcases List.mem_append.mp h with h | h
    · exact .inr ⟨d.1, h⟩
    · exact .inl ⟨d, hd, List.mem_singleton.mp h⟩
  · exact .inr ⟨stop, h⟩

theorem mem_labels_of_mem_nodes {l : Label} (hreal : ∀ d ∈ decoded, d.2.isReal = true)
    (h : .label l ∈ nodes labels t frames decoded stop) :
    l.id ∈ labels ∧ (l.id ∈ decoded.map (·.1) ∨ l.id = stop) := by
  have hmark {offset : Nat} (h : .label l ∈ marks labels t frames offset) :
      l.id ∈ labels ∧ l.id = offset := by
    rcases mem_marks h with ⟨hl, hmem⟩ | ⟨n, hl, -⟩ | ⟨f, -, hl⟩
    · cases hl
      exact ⟨hmem, rfl⟩
    · cases hl
    · cases hl
  induction decoded with
  | nil => exact ⟨(hmark h).1, .inr (hmark h).2⟩
  | cons d decoded ih =>
      rw [nodes_cons, List.mem_append, List.mem_cons] at h
      rcases h with h | h | h
      · exact ⟨(hmark h).1, .inl (List.mem_map.mpr ⟨d, List.mem_cons_self, (hmark h).2.symm⟩)⟩
      · have hd := hreal d List.mem_cons_self
        rw [← h] at hd
        cases hd
      · obtain ⟨hl, hplace⟩ := ih (fun d hd => hreal d (List.mem_cons_of_mem _ hd)) h
        exact ⟨hl, hplace.imp_left (List.mem_cons_of_mem _)⟩

variable (t frames) in
theorem marks_eq_label_cons (hlabel : offset ∈ labels) :
    ∃ back, marks labels t frames offset = .label ⟨offset⟩ :: back ∧ ∀ l, .label l ∉ back := by
  rw [marks, if_pos (List.contains_iff_mem.mpr hlabel), List.cons_append]
  refine ⟨_, rfl, fun l hl => ?_⟩
  rcases List.mem_append.mp hl with hl | hl
  · obtain ⟨⟨place, n⟩, -, hi⟩ := List.mem_filterMap.mp hl
    change (if place = offset then _ else _) = _ at hi
    split at hi <;> cases hi
  · obtain ⟨⟨place, f⟩, -, hi⟩ := List.mem_filterMap.mp hl
    change (if place = offset then _ else _) = _ at hi
    split at hi <;> cases hi

variable (t frames) in
/-- The label of a mentioned offset has one mark, before the instruction of the offset or at the
end. -/
theorem exists_mark {k : Nat} (hreal : ∀ d ∈ decoded, d.2.isReal = true)
    (hsorted : (decoded.map (·.1) ++ [stop]).Pairwise (· < ·)) (hlabel : offset ∈ labels)
    (hk : (decoded.map (·.1) ++ [stop])[k]? = some offset) :
    ∃ front back, nodes labels t frames decoded stop = front ++ .label ⟨offset⟩ :: back ∧
      .label ⟨offset⟩ ∉ back ∧ front.countP (·.isReal) = k := by
  obtain ⟨back, hmarks, hback⟩ := marks_eq_label_cons t frames hlabel
  induction decoded generalizing k with
  | nil =>
      cases k with
      | zero =>
          cases hk
          exact ⟨[], back, hmarks, hback _, rfl⟩
      | succ k => cases hk
  | cons d decoded ih =>
      rw [List.map_cons, List.cons_append] at hsorted hk
      obtain ⟨hfirst, hsorted⟩ := List.pairwise_cons.mp hsorted
      have hreals : ∀ d ∈ decoded, d.2.isReal = true := fun d hd =>
        hreal d (List.mem_cons_of_mem _ hd)
      rw [nodes_cons]
      cases k with
      | zero =>
          cases hk
          refine ⟨[], _, congrArg (· ++ _) hmarks, fun hmem => ?_, rfl⟩
          -- The offsets after this one are greater.
          rcases List.mem_append.mp hmem with hmem | hmem
          · exact hback _ hmem
          · rcases List.mem_cons.mp hmem with hmem | hmem
            · have hd := hreal d List.mem_cons_self
              rw [← hmem] at hd
              cases hd
            · have hplace := (mem_labels_of_mem_nodes hreals hmem).2
              have hlt := hfirst d.1 (by
                rw [List.mem_append, List.mem_singleton]
                exact hplace)
              exact Nat.lt_irrefl _ hlt
      | succ k =>
          obtain ⟨front, back', hnodes, hback', hcount⟩ := ih hreals hsorted hk
          refine ⟨marks labels t frames d.1 ++ d.2 :: front, back', ?_, hback', ?_⟩
          · rw [hnodes, List.append_assoc, List.cons_append]
          · have hmark : (marks labels t frames d.1).countP (·.isReal) = 0 := by
              rw [List.countP_eq_length_filter, filter_marks]
              rfl
            rw [List.countP_append, hmark, List.countP_cons_of_pos (hreal d List.mem_cons_self),
              hcount, Nat.zero_add]

theorem eq_label_of_relabel {f : Label → Label} {i : Instruction} {l : Label}
    (h : i.relabel f = .label l) : ∃ l', i = .label l' ∧ f l' = l := by
  cases i with
  | label l' => exact ⟨l', rfl, Instruction.label.inj h⟩
  | _ => cases h

variable (t frames) in
/-- Numbering keeps the marks apart. -/
theorem exists_mark_number {k : Nat} (hreal : ∀ d ∈ decoded, d.2.isReal = true)
    (hsorted : (decoded.map (·.1) ++ [stop]).Pairwise (· < ·)) (hlabel : offset ∈ labels)
    (hk : (decoded.map (·.1) ++ [stop])[k]? = some offset) :
    ∃ front back,
      (nodes labels t frames decoded stop).map (·.relabel (number labels)) =
        front ++ .label (number labels ⟨offset⟩) :: back ∧
      .label (number labels ⟨offset⟩) ∉ back ∧ front.countP (·.isReal) = k := by
  obtain ⟨front, back, hnodes, hback, hcount⟩ := exists_mark t frames hreal hsorted hlabel hk
  refine ⟨front.map (·.relabel (number labels)), back.map (·.relabel (number labels)), ?_, ?_, ?_⟩
  · simp only [hnodes, List.map_append, List.map_cons, Instruction.relabel]
  · intro hmem
    obtain ⟨i, hi, hlabeled⟩ := List.mem_map.mp hmem
    obtain ⟨l, rfl, hl⟩ := eq_label_of_relabel hlabeled
    have hmark : .label l ∈ nodes labels t frames decoded stop := by
      rw [hnodes]
      simp [hi]
    have hmentioned := (mem_labels_of_mem_nodes hreal hmark).1
    have hoffset : l.id = offset := (List.idxOf_inj hmentioned).mp (congrArg Label.id hl)
    exact hback (hoffset ▸ hi)
  · rw [← hcount, List.countP_map]
    congr 1
    funext i
    exact Instruction.isReal_relabel _ i

/-- After numbering a label is placed where its offset stands. -/
theorem placeOf?_number {k : Nat} (hreal : ∀ d ∈ decoded, d.2.isReal = true)
    (hsorted : (decoded.map (·.1) ++ [stop]).Pairwise (· < ·)) (hlabel : offset ∈ labels)
    (hk : (decoded.map (·.1) ++ [stop])[k]? = some offset) :
    (InstructionList.ofList ((nodes labels t frames decoded stop).map
      (·.relabel (number labels)))).placeOf? (number labels ⟨offset⟩) = some k := by
  obtain ⟨front, back, hsplit, hlater, hcount⟩ :=
    exists_mark_number t frames hreal hsorted hlabel hk
  rw [InstructionList.placeOf?_eq_some hsplit hlater, hcount]

/-- Items sorted by the place they belong to. -/
theorem flatMap_filter_perm {β : Type} {places : List Nat} {items : List (Nat × β)}
    (hnodup : places.Nodup) (hmem : ∀ e ∈ items, e.1 ∈ places) :
    (places.flatMap fun o => items.filter (·.1 = o)).Perm items := by
  induction places generalizing items with
  | nil =>
      rw [List.eq_nil_iff_forall_not_mem.mpr fun e he => List.not_mem_nil (hmem e he)]
      exact .nil
  | cons o places ih =>
      obtain ⟨ho, hnodup⟩ := List.nodup_cons.mp hnodup
      have hrest : (places.flatMap fun o' => items.filter (·.1 = o')) =
          places.flatMap fun o' => (items.filter fun e => ¬ e.1 = o).filter (·.1 = o') := by
        refine List.flatMap_congr fun o' ho' => ?_
        rw [List.filter_filter]
        refine List.filter_congr fun e _ => ?_
        have hne : o' ≠ o := fun h => ho (h ▸ ho')
        by_cases he : e.1 = o' <;> simp [he, hne]
      have hlater : ∀ e ∈ items.filter fun e => ¬ e.1 = o, e.1 ∈ places := by
        intro e he
        obtain ⟨he, hne⟩ := List.mem_filter.mp he
        exact (List.mem_cons.mp (hmem e he)).resolve_left (of_decide_eq_true hne)
      have hperm := ih hnodup hlater
      rw [List.flatMap_cons, hrest]
      refine (hperm.append_left _).trans ?_
      have hsplit := List.filter_append_perm (fun e : Nat × β => decide (e.1 = o)) items
      simpa using hsplit

theorem filterMap_lineMark?_frames :
    (frames.filterMap fun (place, f) =>
      if place = offset then some (Instruction.frame f) else none).filterMap
        Instruction.lineMark? = [] := by
  rw [List.filterMap_filterMap, List.filterMap_eq_nil_iff]
  rintro ⟨place, f⟩ -
  by_cases h : place = offset <;> simp [h, Instruction.lineMark?]

theorem filterMap_lineMark?_lines (lines : List (Nat × UInt32)) :
    (lines.filterMap fun (start, n) =>
      if start = offset then some (Instruction.line n ⟨offset⟩) else none).filterMap
        Instruction.lineMark? =
      (lines.filter (·.1 = offset)).map fun e => (e.2, ⟨e.1⟩) := by
  induction lines with
  | nil => rfl
  | cons e lines ih =>
      by_cases h : e.1 = offset
      · simp only [List.filterMap_cons, List.filter_cons, h, if_true, decide_true,
          Instruction.lineMark?, List.map_cons, ih]
      · simp only [List.filterMap_cons, List.filter_cons, h, if_false, decide_false,
          Bool.false_eq_true, ih]

theorem filterMap_lineMark?_marks (h : ∀ e ∈ t.lines, e.1 ∈ labels) :
    (marks labels t frames offset).filterMap Instruction.lineMark? =
      (t.lines.filter (·.1 = offset)).map fun e => (e.2, ⟨e.1⟩) := by
  rw [marks, List.filterMap_append, filterMap_lineMark?_frames, List.append_nil]
  by_cases hlabel : offset ∈ labels
  · rw [if_pos (List.contains_iff_mem.mpr hlabel), List.filterMap_cons]
    exact filterMap_lineMark?_lines t.lines
  · have hnone : t.lines.filter (·.1 = offset) = [] := by
      rw [List.filter_eq_nil_iff]
      intro e he heq
      exact hlabel (of_decide_eq_true heq ▸ h e he)
    rw [if_neg (by rwa [List.contains_iff_mem]), hnone]
    rfl

/-- The line numbers among the nodes are those of the table, sorted by their offsets. -/
theorem lineMarks_nodes (hreal : ∀ d ∈ decoded, d.2.isReal = true)
    (hlabels : ∀ e ∈ t.lines, e.1 ∈ labels) :
    (nodes labels t frames decoded stop).filterMap Instruction.lineMark? =
      ((decoded.map (·.1) ++ [stop]).flatMap fun o => t.lines.filter (·.1 = o)).map
        fun e => (e.2, ⟨e.1⟩) := by
  induction decoded with
  | nil =>
      rw [List.map_nil, List.nil_append, List.flatMap_singleton]
      exact filterMap_lineMark?_marks hlabels
  | cons d decoded ih =>
      have hd : Instruction.lineMark? d.2 = none := by
        have hd := hreal d List.mem_cons_self
        cases hi : d.2 <;> first | rfl | (rw [hi] at hd; cases hd)
      rw [nodes_cons, List.filterMap_append, List.filterMap_cons, hd,
        filterMap_lineMark?_marks hlabels, ih fun d hd => hreal d (List.mem_cons_of_mem _ hd),
        List.map_cons, List.cons_append, List.flatMap_cons, List.map_append]

end Injection.Bytecode
