import Injection.ClassFile.Parse
import Injection.Proofs.Assembly.Framing
import Injection.Proofs.ClassFile.Scanning
import Injection.Proofs.Typing.Errors
import Mathlib.Data.List.Nodup

/-!
Decoded code is closed under its labels. Every offset that is mentioned anywhere is seen to be that
of an instruction or the end, and has one label, which stands before what is encoded there. So no
label that the code of a method refers to is missing, and nothing that refers to labels is lost.
-/

namespace Injection

namespace Instruction

def mark? : Instruction → Option Label
  | label l => some l
  | _ => none

theorem count_label (is : List Instruction) (l : Label) :
    is.count (.label l) = (is.filterMap mark?).count l := by
  induction is with
  | nil => rfl
  | cons i is ih =>
      cases i with
      | label l' => simp [List.count_cons, mark?, ih]
      | _ =>
          rw [List.filterMap_cons_none rfl, List.count_cons_of_ne (by simp)]
          exact ih

theorem filterMap_mark?_relabel (f : Label → Label) (is : List Instruction) :
    (is.map (·.relabel f)).filterMap mark? = (is.filterMap mark?).map f := by
  rw [List.filterMap_map, List.map_filterMap]
  refine List.filterMap_congr fun i _ => ?_
  cases i <;> rfl

end Instruction

namespace InstructionList

variable {is : InstructionList} {p : Instruction → Bool}

theorem firstFrom_eq_some {i j count : Nat} (hle : i ≤ j) (hlt : j < i + count)
    (hj : is.holds p j = true) (hbefore : ∀ k, i ≤ k → k < j → is.holds p k = false) :
    is.firstFrom p i count = some j := by
  induction count generalizing i with
  | zero => omega
  | succ count ih =>
      rw [firstFrom]
      rcases Nat.eq_or_lt_of_le hle with rfl | hij
      · rw [if_pos hj]
      · rw [hbefore i (Nat.le_refl i) hij]
        exact ih hij (by omega) fun k hk => hbefore k (by omega)

def IsNth (is : InstructionList) (position k : Nat) : Prop :=
  is.holds (·.isReal) position = true ∧ (is.nodes.toList.take position).countP (·.isReal) = k

theorem IsNth.get?_eq_filter {position k : Nat} (h : is.IsNth position k) :
    is.get? position = (is.nodes.toList.filter (·.isReal))[k]? := by
  obtain ⟨i, hi, hreal⟩ := (Option.any_eq_true _ _).mp h.1
  have hget : is.nodes.toList[position]? = some i := by
    rw [Array.getElem?_toList]
    exact hi
  obtain ⟨hlt, hat⟩ := List.getElem?_eq_some_iff.mp hget
  have hsplit : is.nodes.toList =
      is.nodes.toList.take position ++ i :: is.nodes.toList.drop (position + 1) := by
    rw [← hat, ← List.drop_eq_getElem_cons hlt, List.take_append_drop]
  have hlen : ((is.nodes.toList.take position).filter (·.isReal)).length = k := by
    rw [← List.countP_eq_length_filter, h.2]
  rw [hi, hsplit, List.filter_append, List.filter_cons_of_pos hreal,
    List.getElem?_append_right (Nat.le_of_eq hlen), hlen, Nat.sub_self]
  rfl

/-- If there are instructions after a mark, the next one has as many before it as the mark. -/
theorem exists_nextReal? {front back : List Instruction} {i : Instruction}
    (hnodes : is.nodes.toList = front ++ i :: back) (hi : i.isReal = false)
    (hback : 0 < back.countP (·.isReal)) :
    ∃ next, is.nextReal? front.length = some next ∧ is.IsNth next (front.countP (·.isReal)) := by
  obtain ⟨j, hj, hreal⟩ := List.countP_pos_iff.mp hback
  obtain ⟨real, hfind⟩ := Option.isSome_iff_exists.mp (List.find?_isSome.mpr ⟨j, hj, hreal⟩)
  obtain ⟨hreal, marks, rest, rfl, hmarks⟩ := List.find?_eq_some_iff_append.mp hfind
  have hnodes : is.nodes.toList = (front ++ [i]) ++ (marks ++ real :: rest) := by
    rw [hnodes, List.append_assoc, List.singleton_append]
  have hget (d : Nat) : is.get? (front.length + 1 + d) = (marks ++ real :: rest)[d]? := by
    have hlen : (front ++ [i]).length = front.length + 1 := List.length_append
    rw [get?, ← Array.getElem?_toList, hnodes, List.getElem?_append_right (by omega), hlen,
      Nat.add_sub_cancel_left]
  have hsize : is.size = front.length + 1 + (marks.length + (rest.length + 1)) := by
    rw [size, ← Array.length_toList, hnodes]
    simp only [List.length_append, List.length_cons, List.length_nil]
  have hnext : is.holds (·.isReal) (front.length + 1 + marks.length) = true := by
    rw [holds, hget, List.getElem?_append_right (Nat.le_refl _), Nat.sub_self]
    simpa using hreal
  refine ⟨front.length + 1 + marks.length, firstFrom_eq_some (by omega) (by omega) hnext ?_, hnext, ?_⟩
  · intro k hk hlt
    obtain ⟨d, rfl⟩ := Nat.exists_eq_add_of_le hk
    rw [holds, hget, List.getElem?_append_left (by omega), Option.any_eq_false]
    intro a ha
    simpa using hmarks a (List.mem_of_getElem? ha)
  · have hzero : marks.countP (·.isReal) = 0 := by
      rw [List.countP_eq_zero]
      intro a ha
      simpa using hmarks a ha
    have htake : is.nodes.toList.take (front.length + 1 + marks.length) = front ++ [i] ++ marks := by
      rw [hnodes, ← List.append_assoc, List.take_left']
      simp only [List.length_append, List.length_cons, List.length_nil]
    rw [htake, List.countP_append, List.countP_append, hzero, List.countP_singleton, hi]
    rfl

end InstructionList

namespace Bytecode

variable {pool : ConstantPool} {len : Nat} {labels : List Nat} {t : Tables}
  {frames : List (Nat × Frame)} {decoded : List (Nat × Instruction)} {stop offset : Nat}

theorem filterMap_mark?_marks :
    (marks labels t frames offset).filterMap Instruction.mark? =
      if offset ∈ labels then [⟨offset⟩] else [] := by
  split
  · next hlabel =>
      obtain ⟨back, hmarks, hback⟩ := marks_eq_label_cons t frames hlabel
      have hnone : back.filterMap Instruction.mark? = [] := by
        rw [List.filterMap_eq_nil_iff]
        intro i hi
        cases i with
        | label l => exact absurd hi (hback l)
        | _ => rfl
      rw [hmarks, List.filterMap_cons, hnone]
      rfl
  · next hlabel =>
      rw [List.filterMap_eq_nil_iff]
      intro i hi
      rcases mem_marks hi with ⟨-, hmem⟩ | ⟨n, rfl, -⟩ | ⟨f, -, rfl⟩
      · exact absurd hmem hlabel
      · rfl
      · rfl

theorem filterMap_mark?_nodes (hreal : ∀ d ∈ decoded, d.2.isReal = true) :
    (nodes labels t frames decoded stop).filterMap Instruction.mark? =
      ((decoded.map (·.1) ++ [stop]).filter (· ∈ labels)).map Label.mk := by
  induction decoded with
  | nil =>
      rw [List.map_nil, List.nil_append, List.filter_singleton]
      refine filterMap_mark?_marks.trans ?_
      by_cases h : stop ∈ labels <;> simp [h]
  | cons d decoded ih =>
      have hd : Instruction.mark? d.2 = none := by
        have hd := hreal d List.mem_cons_self
        cases hi : d.2 <;> first | rfl | (rw [hi] at hd; cases hd)
      rw [nodes_cons, List.filterMap_append, List.filterMap_cons_none hd, filterMap_mark?_marks,
        ih fun d hd => hreal d (List.mem_cons_of_mem _ hd), List.map_cons, List.cons_append,
        List.filter_cons]
      by_cases h : d.1 ∈ labels <;> simp [h]

theorem map_number (hnodup : labels.Nodup) :
    labels.map (fun o => number labels ⟨o⟩) = (List.range labels.length).map Label.mk := by
  refine List.ext_getElem (by simp) fun k hk _ => ?_
  simp only [List.getElem_map, List.getElem_range, number, Label.mk.injEq]
  exact hnodup.idxOf_getElem k (by simpa using hk)

/-- Every label has one mark: they are numbered in the order in which they stand. -/
theorem marks_numbered {q : Nat → Bool} (hreal : ∀ d ∈ decoded, d.2.isReal = true)
    (hnodup : (decoded.map (·.1) ++ [stop]).Nodup)
    (hlabels : labels = (decoded.map (·.1) ++ [stop]).filter q) :
    ((nodes labels t frames decoded stop).map (·.relabel (number labels))).filterMap
      Instruction.mark? = (List.range labels.length).map Label.mk := by
  have hfilter : (decoded.map (·.1) ++ [stop]).filter (· ∈ labels) = labels := by
    rw [hlabels]
    refine List.filter_congr fun o ho => ?_
    simp only [List.mem_filter, ho, true_and, Bool.decide_eq_true]
  have hlabels_nodup : labels.Nodup := hlabels ▸ hnodup.filter q
  rw [Instruction.filterMap_mark?_relabel, filterMap_mark?_nodes hreal, hfilter, List.map_map]
  exact map_number hlabels_nodup

theorem count_label_number {q : Nat → Bool} (hreal : ∀ d ∈ decoded, d.2.isReal = true)
    (hnodup : (decoded.map (·.1) ++ [stop]).Nodup)
    (hlabels : labels = (decoded.map (·.1) ++ [stop]).filter q) (hoffset : offset ∈ labels) :
    ((nodes labels t frames decoded stop).map (·.relabel (number labels))).count
      (.label (number labels ⟨offset⟩)) = 1 := by
  rw [Instruction.count_label, marks_numbered hreal hnodup hlabels]
  have hplace : labels.idxOf offset ∈ List.range labels.length :=
    List.mem_range.mpr (List.idxOf_lt_length_of_mem hoffset)
  have hmem := List.mem_map_of_mem (f := Label.mk) hplace
  exact List.count_eq_one_of_mem (List.nodup_range.map fun a b h => Label.mk.inj h) hmem

/-! ### What is mentioned -/

/-- The tables mention every offset that their entries have. -/
structure Tables.Complete (t : Tables) : Prop where
  lines : ∀ e ∈ t.lines, e.1 ∈ t.mentioned
  locals : ∀ d ∈ t.locals, d.start.id ∈ t.mentioned ∧ d.stop.id ∈ t.mentioned
  frames : ∀ e ∈ t.frames, ∀ o ∈ e.2.mentioned, o ∈ t.mentioned

/-- A table leaves the tables complete, and nothing that was mentioned is forgotten. -/
theorem table_gives (ht : t.Complete) {c : Cursor} :
    Reader.Gives (table pool len t) c fun next =>
      next.Complete ∧ ∀ o ∈ t.mentioned, o ∈ next.mentioned := by
  refine .skip fun name c => .skip fun length c => .skip fun info c => .skip fun text c => ?_
  split
  · refine .within (.skip fun lines c => .skip fun _ c => .pure ⟨⟨?_, ?_, ?_⟩, ?_⟩)
    all_goals dsimp only
    · intro e he
      rcases List.mem_append.mp he with he | he
      · exact List.mem_append_left _ (ht.lines e he)
      · exact List.mem_append_right _ (List.mem_map.mpr ⟨e, he, rfl⟩)
    · exact fun d hd => (ht.locals d hd).imp (List.mem_append_left _) (List.mem_append_left _)
    · exact fun e he o ho => List.mem_append_left _ (ht.frames e he o ho)
    · exact fun o ho => List.mem_append_left _ ho
  · refine .within (.skip fun locals c => .skip fun _ c => .pure ⟨⟨?_, ?_, ?_⟩, ?_⟩)
    all_goals dsimp only
    · exact fun e he => List.mem_append_left _ (ht.lines e he)
    · intro d hd
      rcases List.mem_append.mp hd with hd | hd
      · exact (ht.locals d hd).imp (List.mem_append_left _) (List.mem_append_left _)
      · have hmem {o : Nat} (ho : o ∈ [d.start.id, d.stop.id]) :
            o ∈ t.mentioned ++ locals.flatMap fun l => [l.start.id, l.stop.id] :=
          List.mem_append_right _ (List.mem_flatMap.mpr ⟨d, hd, ho⟩)
        exact ⟨hmem (by simp), hmem (by simp)⟩
    · exact fun e he o ho => List.mem_append_left _ (ht.frames e he o ho)
    · exact fun o ho => List.mem_append_left _ ho
  · refine .within (.skip fun count c => .skip fun frames c => .skip fun _ c =>
      .pure ⟨⟨?_, ?_, ?_⟩, ?_⟩)
    all_goals dsimp only
    · exact fun e he => List.mem_append_left _ (ht.lines e he)
    · exact fun d hd => (ht.locals d hd).imp (List.mem_append_left _) (List.mem_append_left _)
    · exact fun e he o ho => List.mem_append_right _ (List.mem_flatMap.mpr ⟨e, he, ho⟩)
    · exact fun o ho => List.mem_append_left _ ho
  · exact .pure ⟨ht, fun _ => id⟩

theorem tables_gives (ht : t.Complete) (count : Nat) {c : Cursor} :
    Reader.Gives (tables pool len count t) c fun last =>
      last.Complete ∧ ∀ o ∈ t.mentioned, o ∈ last.mentioned := by
  induction count generalizing t c with
  | zero => exact .pure ⟨ht, fun _ => id⟩
  | succ count ih =>
      refine .bind fun c next after hnext => ?_
      obtain ⟨hcomplete, hkeep⟩ := table_gives ht next after hnext
      intro last after hlast
      obtain ⟨hcomplete, hkeep'⟩ := ih hcomplete last after hlast
      exact ⟨hcomplete, fun o ho => hkeep' o (hkeep o ho)⟩

theorem mem_localsAfter {e : FrameEntry} {current next : List FrameValue}
    (h : e.localsAfter current = .ok next) {v : FrameValue} (hv : v ∈ next) :
    v ∈ current ∨ v ∈ e.locals := by
  rw [FrameEntry.localsAfter] at h
  split at h
  · cases h
    exact List.mem_append.mp hv
  · split at h
    · cases h
    · cases h
      exact .inl (List.mem_of_mem_take hv)
  · cases h
    exact .inr hv
  all_goals
    cases h
    exact .inl hv

/-- Every fresh object in a frame was there on entry or comes from an entry of the table. -/
theorem fresh_of_frames {current : List FrameValue} {entries : List (Nat × FrameEntry)}
    (h : Bytecode.frames current entries = .ok frames) {f : Nat × Frame} (hf : f ∈ frames)
    {l : Label} (hl : .uninitialized l ∈ f.2.locals ++ f.2.stack) :
    .uninitialized l ∈ current ∨ ∃ e ∈ entries, l.id ∈ e.2.mentioned := by
  induction entries generalizing current frames with
  | nil =>
      cases h
      cases hf
  | cons e entries ih =>
      obtain ⟨next, hnext, h⟩ := bind_eq_ok.mp h
      obtain ⟨rest, hrest, h⟩ := bind_eq_ok.mp h
      cases h
      have hentry (hv : .uninitialized l ∈ e.2.values) : ∃ e' ∈ e :: entries, l.id ∈ e'.2.mentioned :=
        ⟨e, List.mem_cons_self, FrameEntry.mem_mentioned.mpr hv⟩
      have hlocals (hv : .uninitialized l ∈ next) :
          .uninitialized l ∈ current ∨ ∃ e' ∈ e :: entries, l.id ∈ e'.2.mentioned :=
        (mem_localsAfter hnext hv).imp_right fun hv => hentry (List.mem_append_left _ hv)
      rcases List.mem_cons.mp hf with rfl | hf
      · rcases List.mem_append.mp hl with hl | hl
        · exact hlocals ((Frame.mem_expand hl).resolve_right (by simp))
        · exact .inr (hentry (List.mem_append_right _ hl))
      · rcases ih hrest hf with hv | ⟨e', he', hmem⟩
        · exact hlocals hv
        · exact .inr ⟨e', List.mem_cons_of_mem _ he', hmem⟩

theorem eq_ok_of_forM {α ε : Type} {f : α → Except ε Unit} {xs : List α}
    (h : xs.forM f = .ok ()) : ∀ a ∈ xs, f a = .ok () := by
  induction xs with
  | nil => simp
  | cons a xs ih =>
      obtain ⟨_, ha, hxs⟩ := bind_eq_ok.mp (show (f a >>= fun _ => xs.forM f) = .ok () from h)
      intro b hb
      rcases List.mem_cons.mp hb with rfl | hb
      · exact ha
      · exact ih hxs b hb

theorem mem_starts_of_checkTargets (h : checkTargets decoded = .ok ()) :
    ∀ d ∈ decoded, ∀ l ∈ d.2.targets, l.id ∈ decoded.map (·.1) := by
  intro d hd l hl
  have hl := eq_ok_of_forM (eq_ok_of_forM h d hd) l hl
  split at hl
  · next hmem => exact List.contains_iff_mem.mp hmem
  · cases hl

end Bytecode

def Code.array (bytes : List UInt8) : List UInt8 :=
  (bytes.drop 8).take (UInt32.ofNat (Reader.numberAt bytes 4 4)).toNat

structure DecodedCode where
  instructions : List (Nat × Instruction)
  handlers : List ExceptionHandler
  tables : Bytecode.Tables
  frames : List (Nat × Frame)
  stop : Nat

namespace DecodedCode

open Bytecode

def places (w : DecodedCode) : List Nat := w.instructions.map (·.1) ++ [w.stop]

def labels (w : DecodedCode) : List Nat := w.places.filter w.tables.mentioned.contains

def name (w : DecodedCode) : Label → Label := number w.labels

/-- The code was decoded in this way, and every offset in it is mentioned and is a place. -/
structure IsOf (w : DecodedCode) (pool : ConstantPool) (array : List UInt8) (code : Code) :
    Prop where
  stop : w.stop = array.length
  decodes : Decodes pool array 0 w.instructions
  branches : ∀ d ∈ w.instructions, ∀ l ∈ d.2.targets,
    l.id ∈ w.instructions.map (·.1) ∧ l.id ∈ w.tables.mentioned
  guarded : ∀ h ∈ w.handlers, h.start.id ∈ w.tables.mentioned ∧
    h.stop.id ∈ w.tables.mentioned ∧ h.handler.id ∈ w.tables.mentioned
  complete : w.tables.Complete
  fresh : ∀ f ∈ w.frames, ∀ l, .uninitialized l ∈ f.2.locals ++ f.2.stack →
    l.id ∈ w.tables.mentioned
  placed : ∀ o ∈ w.tables.mentioned, o ∈ w.places
  nodes : code.instructions = .ofList
    ((Bytecode.nodes w.labels w.tables w.frames w.instructions w.stop).map (·.relabel w.name))
  handlers : code.handlers = w.handlers.map (renumberHandler w.labels)
  locals : code.declaredLocals = w.tables.locals.map (renumberLocal w.labels)

end DecodedCode

/-- Code that is read was decoded from its array of instructions. -/
theorem Code.read_gives {pool : ConstantPool} {owner : String} {access : Access}
    {name desc : String} {bytes : List UInt8} :
    Reader.Gives (Code.read pool owner access name desc) (.ofBytes bytes) fun code =>
      ∃ w : DecodedCode, w.IsOf pool (Code.array bytes) code := by
  change Reader.Gives _ (.at bytes 0) _
  refine Reader.Scans.gives_bind (Nat.zero_le _) (.u2 fun h2 => ?_)
  refine Reader.Scans.gives_bind h2 (.u2 fun h4 => ?_)
  refine Reader.Scans.gives_bind h4 (.u4 fun h8 => ?_)
  refine Reader.Scans.gives_bind h8 (.bytes fun hlen _ => ?_)
  have hlen : 8 + (UInt32.ofNat (Reader.numberAt bytes 4 4)).toNat ≤ bytes.length := hlen
  have hstop : (UInt32.ofNat (Reader.numberAt bytes 4 4)).toNat = (Code.array bytes).length := by
    rw [Code.array, List.length_take, List.length_drop]
    omega
  -- From here on the instructions are read from the array alone, the tables from what follows it.
  refine .bind fun c => .within fun decoded after hdecoded => ?_
  change Bytecode.sequence pool _ _ (.at (Code.array bytes) 0) = _ at hdecoded
  rw [hstop] at hdecoded ⊢
  have hdecodes := Bytecode.decodes_sequence (Nat.zero_le _) (Nat.le_of_eq (Nat.zero_add _).symm)
    hdecoded
  refine .bind fun c => .ofExcept fun _ htargets => ?_
  refine .skip fun handlers c => .skip fun count c => .bind fun c t after ht => ?_
  obtain ⟨hcomplete, hkeep⟩ := Bytecode.tables_gives ⟨by simp, by simp, by simp⟩ count.toNat t after ht
  refine .skip fun _ c => ?_
  dsimp only
  split
  · exact .throw _
  · next hplaces =>
      refine .bind fun c => .ofExcept fun entry hentry => ?_
      refine .bind fun c => .ofExcept fun frames hframes => .pure ?_
      refine ⟨⟨decoded, handlers, t, frames, (Code.array bytes).length⟩, ?_⟩
      exact {
        stop := rfl
        decodes := hdecodes
        branches d hd l hl := by
          refine ⟨Bytecode.mem_starts_of_checkTargets htargets d hd l hl, hkeep _ ?_⟩
          refine List.mem_append_left _ (List.mem_flatMap.mpr ⟨d, hd, ?_⟩)
          exact List.mem_map.mpr ⟨l, hl, rfl⟩
        guarded h hh := by
          have hmem {o : Nat} (ho : o ∈ [h.start.id, h.stop.id, h.handler.id]) : o ∈ t.mentioned :=
            hkeep o (List.mem_append_right _ (List.mem_flatMap.mpr ⟨h, hh, ho⟩))
          exact ⟨hmem (by simp), hmem (by simp), hmem (by simp)⟩
        complete := hcomplete
        fresh f hf l hl := by
          rcases Bytecode.fresh_of_frames hframes hf hl with hl | ⟨e, he, hmem⟩
          · -- No object on entry is a fresh one: renaming labels would change it.
            have hsame := Frame.relabel_entryLocals hentry hl fun _ => ⟨l.id + 1⟩
            have hid := congrArg Label.id (FrameValue.uninitialized.inj hsame)
            exact absurd hid (Nat.succ_ne_self _)
          · exact hcomplete.frames e he l.id hmem
        placed o ho := by
          by_contra hmissing
          refine hplaces (List.any_eq_true.mpr ⟨o, List.mem_append_left _ ho, ?_⟩)
          rw [Bool.not_eq_true', ← Bool.not_eq_true, List.contains_iff_mem]
          exact hmissing
        nodes := rfl
        handlers := rfl
        locals := rfl }

/-! ### The labels of a decoded method -/

namespace DecodedCode

open Bytecode

variable {w : DecodedCode} {pool : ConstantPool} {array : List UInt8} {code : Code} {o : Nat}

theorem IsOf.isReal (hw : w.IsOf pool array code) : ∀ d ∈ w.instructions, d.2.isReal = true :=
  fun _ hd => (hw.decodes.of_mem hd).1

theorem IsOf.pairwise_places (hw : w.IsOf pool array code) : w.places.Pairwise (· < ·) := by
  rw [places, hw.stop]
  exact hw.decodes.pairwise

theorem IsOf.mem_labels (hw : w.IsOf pool array code) (ho : o ∈ w.tables.mentioned) :
    o ∈ w.labels :=
  List.mem_filter.mpr ⟨hw.placed o ho, List.contains_iff_mem.mpr ho⟩

theorem IsOf.realInstructions (hw : w.IsOf pool array code) :
    code.instructions.nodes.toList.filter (·.isReal) =
      w.instructions.map fun d => d.2.relabel w.name := by
  rw [hw.nodes, InstructionList.ofList, List.toList_toArray, Instruction.filter_isReal_relabel,
    filter_nodes hw.isReal, List.map_map]
  rfl

/-- Every offset that is mentioned has one label. -/
theorem IsOf.count_name (hw : w.IsOf pool array code) (ho : o ∈ w.tables.mentioned) :
    code.instructions.nodes.toList.count (.label (w.name ⟨o⟩)) = 1 := by
  have hnodup : w.places.Nodup := hw.pairwise_places.imp fun h => Nat.ne_of_lt h
  rw [hw.nodes]
  exact count_label_number hw.isReal hnodup rfl (hw.mem_labels ho)

/-- After the label of an offset comes the instruction of that offset. -/
theorem IsOf.exists_next (hw : w.IsOf pool array code) {d : Nat × Instruction}
    (hd : d ∈ w.instructions) (ho : d.1 ∈ w.tables.mentioned) :
    ∃ k position next, w.instructions[k]? = some d ∧
      code.instructions.labelPosition? (w.name ⟨d.1⟩) = some position ∧
        code.instructions.nextReal? position = some next ∧ code.instructions.IsNth next k := by
  obtain ⟨k, hk⟩ := List.getElem?_of_mem hd
  have hplace : w.places[k]? = some d.1 := by
    rw [places, List.getElem?_append_left, List.getElem?_map, hk]
    · rfl
    · rw [List.length_map]
      exact (List.getElem?_eq_some_iff.mp hk).1
  obtain ⟨front, back, hnodes, hback, hcount⟩ := exists_mark_number w.tables w.frames hw.isReal
    hw.pairwise_places (hw.mem_labels ho) hplace
  have hnodes : code.instructions.nodes.toList = front ++ .label (w.name ⟨d.1⟩) :: back := by
    rw [hw.nodes]
    exact hnodes
  have hpos : 0 < back.countP (·.isReal) := by
    have hreals := congrArg List.length hw.realInstructions
    rw [hnodes, ← List.countP_eq_length_filter, List.countP_append, hcount, List.length_map,
      List.countP_cons_of_neg (by simp [Instruction.isReal, Instruction.opcode?])] at hreals
    have hlt := (List.getElem?_eq_some_iff.mp hk).1
    omega
  obtain ⟨next, hnext, hnth⟩ := InstructionList.exists_nextReal? hnodes rfl hpos
  exact ⟨k, front.length, next, hk, InstructionList.labelPosition?_eq_some hnodes hback, hnext,
    hcount ▸ hnth⟩

end DecodedCode

end Injection
