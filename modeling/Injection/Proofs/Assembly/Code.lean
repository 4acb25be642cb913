import Injection.Proofs.Assembly.Tables
import Injection.Proofs.ClassFile.Marks

/-!
The code of a method is read back. The instructions, handlers and declared locals are the same up
to the names of labels, and every label keeps its place among the instructions.
-/

namespace Injection

/-- Offsets that do not wrap, counts of two bytes, labels of branches that stand before some instruction, and locals that do
not end before they start. -/
structure Method.WithinLimits (m : Method) : Prop where
  offsets : m.OffsetsFit
  handlers_lt : m.handlers.length < 2 ^ 16
  locals_lt : m.declaredLocals.length < 2 ^ 16
  lines_lt : (m.instructions.nodes.toList.filterMap Instruction.lineMark?).length < 2 ^ 16
  targets : ∀ i ∈ m.instructions.nodes.toList, ∀ l ∈ i.targets, ∀ k,
    m.instructions.placeOf? l = some k → k < m.instructions.nodes.toList.countP (·.isReal)
  ranges : ∀ d ∈ m.declaredLocals, ∀ j k, m.instructions.placeOf? d.start = some j →
    m.instructions.placeOf? d.stop = some k → j ≤ k

structure Method.Fits (m : Method) : Prop extends m.WithinLimits where
  nodes : ∀ i ∈ m.instructions.nodes.toList, i.Fits
  catchTypes : ∀ h ∈ m.handlers, ∀ name ∈ h.catchType, ModifiedUtf8.Fits name
  locals : ∀ d ∈ m.declaredLocals, ModifiedUtf8.Fits d.name ∧ ModifiedUtf8.Fits d.desc

/-- The parts of written code: its nodes in their places, the offset after them, and the items of
the tables beside it. -/
structure CodeParts where
  placed : List PlacedNode
  stop : Nat
  code : List UInt8
  frames : List (List UInt8)
  lines : List (Nat × UInt32)
  locals : List (List UInt8)
  handlers : List (List UInt8)
  frameTable : List (List UInt8)
  lineTable : List (List UInt8)
  localTable : List (List UInt8)

namespace CodeParts

def offsetOf (w : CodeParts) : Label → Label :=
  Instruction.offsetLabel (PlacedNode.labelOffset w.placed)

structure IsOf (w : CodeParts) (pool : ConstantPool) (m : Method) (bytes : List UInt8) : Prop where
  run : PlacedNode.Run 0 w.placed w.stop
  nodes : m.instructions.nodes.toList = w.placed.map (·.node)
  holds : ∀ p ∈ w.placed, p.Holds pool
  stop_le : w.stop ≤ 0xffff
  code : PlacedNode.encodeAll w.placed = .ok w.code
  lines : List.Forall₂
    (fun mark e => PlacedNode.labelOffset w.placed mark.2 = .ok e.1 ∧ e.2 = mark.1)
    (m.instructions.nodes.toList.filterMap Instruction.lineMark?) w.lines
  locals : List.Forall₂ (fun d item => ∃ start stop,
    PlacedNode.labelOffset w.placed d.start = .ok start ∧
      PlacedNode.labelOffset w.placed d.stop = .ok stop ∧
        Bytecode.IsLocalItem pool { d with start := ⟨start⟩, stop := ⟨stop⟩ } item)
    m.declaredLocals w.locals
  handlers : List.Forall₂ (fun h item => ∃ start stop handler,
    PlacedNode.labelOffset w.placed h.start = .ok start ∧
      PlacedNode.labelOffset w.placed h.stop = .ok stop ∧
        PlacedNode.labelOffset w.placed h.handler = .ok handler ∧
          Bytecode.IsHandlerItem pool ⟨⟨start⟩, ⟨stop⟩, ⟨handler⟩, h.catchType⟩ item)
    m.handlers w.handlers
  frameTable : Assembler.IsCountedTable pool "StackMapTable" w.frames w.frameTable
  lineTable : Assembler.IsTable pool "LineNumberTable" (w.lines.map Bytecode.lineItem) w.lineTable
  localTable : Assembler.IsTable pool "LocalVariableTable" w.locals w.localTable
  bytes : bytes = Bytes.u2 m.maxStack.toNat ++ Bytes.u2 m.maxLocals.toNat ++
    Bytes.u4 w.code.length ++ w.code ++ Assembler.counted w.handlers ++
      Assembler.counted (w.frameTable ++ w.lineTable ++ w.localTable)

end CodeParts

namespace Assembler

variable {u : PoolTable} {m : Method} {F : List PlacedNode → List (List UInt8) → Prop}

/-- The code of a method is written in parts. What is known of its frames is given by `F`. -/
theorem enters_code (hu : u.bootstrapMethods.length < 2 ^ 16) (hm : m.Fits)
    (hF : ∀ placed : List PlacedNode, (∀ p ∈ placed, p.node ∈ m.instructions.nodes.toList) →
      Enters u (StackMap.frames (PlacedNode.labelOffset placed) none placed) (F placed)) :
    Enters u (code m) fun bytes =>
      ∃ w : CodeParts, w.IsOf u.pool m bytes ∧ F w.placed w.frames := by
  refine (Enters.mapM fun i hi => Instruction.enters_poolIndex hu (hm.nodes i hi)).bind
    fun indices => ?_
  dsimp only
  have hmem : ∀ p ∈ PlacedNode.place 0 (m.instructions.nodes.toList.zip indices),
      p.node ∈ m.instructions.nodes.toList := fun p hp =>
    (List.of_mem_zip (PlacedNode.mem_of_mem_place hp)).1
  split
  · exact .throw_bind _ _
  · next hle =>
      refine (Enters.ofExcept _).bind fun bytes => (hF _ hmem).bind fun frames => ?_
      refine (enters_countedTable (by decide)).bind fun frameTable => ?_
      refine (enters_lines _).bind fun lines => ?_
      refine (enters_countedTable (by decide)).bind fun lineTable => ?_
      refine (Enters.mapM fun d hd => enters_localItem (hm.locals d hd).1 (hm.locals d hd).2).bind
        fun locals => ?_
      refine (enters_tableBytes (by decide)).bind fun localTable => ?_
      refine (Enters.mapM fun h hh => enters_handlerItem (hm.catchTypes h hh)).bind
        fun handlers => .pure ?_
      -- The facts come in the opposite order, each about the final pool.
      rintro hhandlers hlocalTable hlocals hlineTable ⟨entries, rfl, hlines⟩ hframeTable hframes
        hcode hfound
      have hzip : (m.instructions.nodes.toList.zip indices).map (·.1) =
          m.instructions.nodes.toList := List.map_fst_zip (Nat.le_of_eq hfound.length_eq)
      have hnodes : m.instructions.nodes.toList =
          (PlacedNode.place 0 (m.instructions.nodes.toList.zip indices)).map (·.node) := by
        rw [PlacedNode.place_map_node, hzip]
      have hcount : (entries.map Bytecode.lineItem).length < 2 ^ 16 := by
        rw [List.length_map, ← hlines.length_eq]
        exact hm.lines_lt
      refine ⟨⟨_, _, bytes, frames, entries, locals, handlers, frameTable, lineTable,
        localTable⟩, ⟨hm.offsets.run rfl hnodes, hnodes, fun p hp => ?_,
          UInt32.le_iff_toNat_le.mp (UInt32.not_lt.mp hle), hcode, hlines, hlocals, hhandlers,
          hframeTable, hlineTable.isTable hcount, hlocalTable, rfl⟩, hframes⟩
      · have hpair := PlacedNode.mem_of_mem_place hp
        exact ⟨hm.nodes _ (hmem p hp), List.forall₂_zip hfound hpair⟩

end Assembler

namespace CodeParts

open Reader PlacedNode

variable {w : CodeParts} {pool : ConstantPool} {m : Method} {bytes : List UInt8} {l : Label}
  {n : Nat}

theorem offsetOf_eq (h : labelOffset w.placed l = .ok n) : w.offsetOf l = ⟨n⟩ :=
  Instruction.offsetLabel_eq h

theorem IsOf.place (hw : w.IsOf pool m bytes) (h : labelOffset w.placed l = .ok n) :
    ∃ k, m.instructions.placeOf? l = some k ∧ (bounds w.placed w.stop)[k]? = some n :=
  getElem?_bounds_of_labelOffset hw.run hw.nodes h

theorem IsOf.mem_bounds (hw : w.IsOf pool m bytes) (h : labelOffset w.placed l = .ok n) :
    n ∈ bounds w.placed w.stop := by
  obtain ⟨k, -, hk⟩ := hw.place h
  exact List.mem_of_getElem? hk

theorem IsOf.length_code (hw : w.IsOf pool m bytes) : w.code.length = w.stop := by
  obtain ⟨parts, hparts, hcode⟩ := encodeAll_eq_ok hw.code
  have h := length_parts hw.run hparts fun p hp => (hw.holds p hp).1.keysHaveTargets
  rw [hcode]
  omega

/-- The label of a branch stands at the start of an instruction. -/
theorem IsOf.target (hw : w.IsOf pool m bytes) (hm : m.Fits) {p : PlacedNode} (hp : p ∈ w.placed)
    (hl : l ∈ p.node.targets) : ∃ n, labelOffset w.placed l = .ok n ∧ n ∈ starts w.placed := by
  obtain ⟨parts, hparts, -⟩ := encodeAll_eq_ok hw.code
  obtain ⟨part, -, hpart⟩ := (forall₂_exists hparts).1 p hp
  obtain ⟨n, hn⟩ := Instruction.labelOffset_of_encode (hw.holds p hp).1 hpart l hl
  obtain ⟨k, hk, -⟩ := hw.place hn
  have hnode : p.node ∈ m.instructions.nodes.toList := by
    rw [hw.nodes]
    exact List.mem_map.mpr ⟨p, hp, rfl⟩
  have hlt := hm.targets p.node hnode l hl k hk
  rw [hw.nodes, List.countP_map] at hlt
  exact ⟨n, hn, mem_starts_of_labelOffset hw.run hw.nodes hn hk hlt⟩

def decoded (w : CodeParts) : List (Nat × Instruction) :=
  PlacedNode.decoded (labelOffset w.placed) w.placed

theorem IsOf.reads_sequence (hw : w.IsOf pool m bytes) (hm : m.Fits) :
    Reads (Bytecode.sequence pool w.stop w.stop) 0 w.code [] w.decoded := by
  obtain ⟨parts, hparts, hcode⟩ := encodeAll_eq_ok hw.code
  have hlen := hw.length_code
  rw [hcode] at hlen ⊢
  refine PlacedNode.reads_sequence hw.run hparts hw.holds hw.stop_le hw.stop_le ?_
    (Nat.le_of_eq hlen)
  intro p hp l hl n hn
  obtain ⟨n', hn', hstart⟩ := hw.target hm hp hl
  cases hn.symm.trans hn'
  exact lt_stop_of_mem_starts hw.run hstart

theorem mem_decoded {d : Nat × Instruction} (h : d ∈ w.decoded) :
    ∃ p ∈ w.placed, p.node.isReal = true ∧ d = (p.offset.toNat, p.node.relabel w.offsetOf) := by
  obtain ⟨p, hp, rfl⟩ := List.mem_map.mp h
  obtain ⟨hp, hreal⟩ := List.mem_filter.mp hp
  exact ⟨p, hp, hreal, rfl⟩

theorem decoded_map_fst : w.decoded.map (·.1) = starts w.placed :=
  PlacedNode.decoded_map_fst

theorem IsOf.checkTargets (hw : w.IsOf pool m bytes) (hm : m.Fits) :
    Bytecode.checkTargets w.decoded = .ok () := by
  refine Bytecode.checkTargets_eq_ok fun d hd l hl => ?_
  obtain ⟨p, hp, -, rfl⟩ := mem_decoded hd
  rw [Instruction.targets_relabel] at hl
  obtain ⟨l', hl', rfl⟩ := List.mem_map.mp hl
  obtain ⟨n, hn, hstart⟩ := hw.target hm hp hl'
  rw [offsetOf_eq hn, decoded_map_fst]
  exact hstart

theorem IsOf.handlerItems (hw : w.IsOf pool m bytes) :
    List.Forall₂ (fun h item => (h.start.id ∈ bounds w.placed w.stop ∧
        h.stop.id ∈ bounds w.placed w.stop ∧ h.handler.id ∈ bounds w.placed w.stop) ∧
      Bytecode.IsHandlerItem pool h item)
      (m.handlers.map (·.relabel w.offsetOf)) w.handlers := by
  rw [List.forall₂_map_left_iff]
  refine hw.handlers.imp ?_
  rintro h item ⟨start, stop, handler, hstart, hstop, hhandler, hitem⟩
  rw [ExceptionHandler.relabel, offsetOf_eq hstart, offsetOf_eq hstop, offsetOf_eq hhandler]
  exact ⟨⟨hw.mem_bounds hstart, hw.mem_bounds hstop, hw.mem_bounds hhandler⟩, hitem⟩

theorem IsOf.localItems (hw : w.IsOf pool m bytes) (hm : m.Fits) :
    List.Forall₂ (fun d item => (d.start.id ∈ bounds w.placed w.stop ∧
        d.stop.id ∈ bounds w.placed w.stop ∧ d.start.id ≤ d.stop.id) ∧
      Bytecode.IsLocalItem pool d item)
      (m.declaredLocals.map (·.relabel w.offsetOf)) w.locals := by
  rw [List.forall₂_map_left_iff]
  have hranges := (List.forall₂_and_left ..).mpr ⟨hm.ranges, hw.locals⟩
  refine hranges.imp ?_
  rintro d item ⟨hrange, start, stop, hstart, hstop, hitem⟩
  rw [DeclaredLocal.relabel, offsetOf_eq hstart, offsetOf_eq hstop]
  refine ⟨⟨hw.mem_bounds hstart, hw.mem_bounds hstop, ?_⟩, hitem⟩
  obtain ⟨j, hj, hjget⟩ := hw.place hstart
  obtain ⟨k, hk, hkget⟩ := hw.place hstop
  exact getElem?_bounds_mono hw.run (hrange j k hj hk) hjget hkget

def tables (w : CodeParts) (m : Method) (frames : List (Nat × Bytecode.FrameEntry)) :
    Bytecode.Tables where
  lines := w.lines.map fun e => (e.1, e.2.toUInt16.toUInt32)
  locals := m.declaredLocals.map (·.relabel w.offsetOf)
  frames := frames
  mentioned :=
    (w.decoded.flatMap fun (_, i) => i.targets.map (·.id)) ++
      ((m.handlers.map (·.relabel w.offsetOf)).flatMap
        fun h => [h.start.id, h.stop.id, h.handler.id]) ++
      (frames.flatMap fun (_, e) => e.mentioned) ++ w.lines.map (·.1) ++
      (m.declaredLocals.map (·.relabel w.offsetOf)).flatMap fun d => [d.start.id, d.stop.id]

def labels (w : CodeParts) (m : Method) (frames : List (Nat × Bytecode.FrameEntry)) : List Nat :=
  (bounds w.placed w.stop).filter (w.tables m frames).mentioned.contains

def result (w : CodeParts) (m : Method) (entries : List (Nat × Bytecode.FrameEntry))
    (frames : List (Nat × Frame)) : Code where
  maxStack := m.maxStack
  maxLocals := m.maxLocals
  instructions := .ofList ((Bytecode.nodes (w.labels m entries) (w.tables m entries) frames
    w.decoded w.stop).map (·.relabel (Bytecode.number (w.labels m entries))))
  handlers := (m.handlers.map (·.relabel w.offsetOf)).map
    (Bytecode.renumberHandler (w.labels m entries))
  declaredLocals := (m.declaredLocals.map (·.relabel w.offsetOf)).map
    (Bytecode.renumberLocal (w.labels m entries))

/-- A stack map that was written is read as these frames, if there is one. -/
def FramesRead (w : CodeParts) (pool : ConstantPool)
    (frames : List (Nat × Bytecode.FrameEntry)) : Prop :=
  ∀ t p rest, t.frames = [] → Reads (iterate (Bytecode.table pool w.stop) w.frameTable.length t) p
    w.frameTable.flatten rest
    { t with frames, mentioned := t.mentioned ++ frames.flatMap fun (_, e) => e.mentioned }

theorem IsOf.changes_lines (hw : w.IsOf pool m bytes) (hm : m.Fits) :
    Changes (Bytecode.table pool w.stop) w.lineTable fun t =>
      { t with
        lines := t.lines ++ w.lines.map fun e => (e.1, e.2.toUInt16.toUInt32)
        mentioned := t.mentioned ++ w.lines.map (·.1) } := by
  have hcount : w.lines.length < 2 ^ 16 := hw.lines.length_eq ▸ hm.lines_lt
  have hle : ∀ e ∈ w.lines, e.1 ≤ 0xffff := by
    intro e he
    obtain ⟨mark, -, hmark⟩ := (forall₂_exists hw.lines).2 e he
    exact Nat.le_trans (le_stop_of_mem_bounds hw.run (hw.mem_bounds hmark.1)) hw.stop_le
  rcases hw.lineTable with ⟨hitems, htable⟩ | ⟨-, out, ⟨index, hname, rfl⟩, htable⟩
  · rw [List.map_eq_nil_iff.mp hitems, htable]
    intro t p rest
    simpa using changes_nil t p rest
  · rw [htable]
    exact changes_singleton fun t p rest =>
      Bytecode.reads_lineTable hname hcount hle

theorem IsOf.changes_locals (hw : w.IsOf pool m bytes) (hm : m.Fits) :
    Changes (Bytecode.table pool w.stop) w.localTable fun t =>
      { t with
        locals := t.locals ++ m.declaredLocals.map (·.relabel w.offsetOf)
        mentioned := t.mentioned ++ (m.declaredLocals.map (·.relabel w.offsetOf)).flatMap
          fun d => [d.start.id, d.stop.id] } := by
  have hitems := hw.localItems hm
  have hlocals : ∀ d ∈ m.declaredLocals.map (·.relabel w.offsetOf),
      d.start.id ≤ d.stop.id ∧ d.stop.id ≤ w.stop := by
    intro d hd
    obtain ⟨item, -, ⟨-, hstop, hle⟩, -⟩ := (forall₂_exists hitems).1 d hd
    exact ⟨hle, le_stop_of_mem_bounds hw.run hstop⟩
  rcases hw.localTable with ⟨hnone, htable⟩ | ⟨-, out, ⟨index, hname, rfl⟩, htable⟩
  · have hlen := hitems.length_eq
    rw [hnone, List.length_nil, List.length_eq_zero_iff] at hlen
    rw [hlen, htable]
    intro t p rest
    simpa using changes_nil t p rest
  · rw [htable]
    refine changes_singleton fun t p rest => ?_
    refine Bytecode.reads_localTable hname ?_ (hitems.imp fun _ _ h => h.2) hlocals hw.stop_le
    rw [List.length_map]
    exact hm.locals_lt

/-- All tables one after the other. -/
theorem IsOf.reads_tables (hw : w.IsOf pool m bytes) (hm : m.Fits)
    {frames : List (Nat × Bytecode.FrameEntry)} (hframes : w.FramesRead pool frames) {p : Nat}
    {rest : List UInt8} :
    Reads (Bytecode.tables pool w.stop (w.frameTable ++ w.lineTable ++ w.localTable).length
      ⟨[], [], [], (w.decoded.flatMap fun (_, i) => i.targets.map (·.id)) ++
        (m.handlers.map (·.relabel w.offsetOf)).flatMap
          fun h => [h.start.id, h.stop.id, h.handler.id]⟩) p
      (w.frameTable ++ w.lineTable ++ w.localTable).flatten rest (w.tables m frames) := by
  have hrest := (hw.changes_lines hm).append (hw.changes_locals hm)
  rw [Bytecode.tables_eq_iterate, List.append_assoc, List.length_append, iterate_add,
    List.flatten_append]
  exact (hframes _ p _ rfl).bind (hrest _ _ rest)

/-- Every offset that is mentioned is that of an instruction or the end. -/
theorem IsOf.mentioned (hw : w.IsOf pool m bytes) (hm : m.Fits)
    {frames : List (Nat × Bytecode.FrameEntry)}
    (hframes : ∀ o ∈ frames.flatMap (fun (_, e) => e.mentioned), o ∈ bounds w.placed w.stop) :
    ∀ o ∈ (w.tables m frames).mentioned, o ∈ bounds w.placed w.stop := by
  intro o ho
  -- Branches, handlers, frames, line numbers and declared locals mention offsets, in this order.
  simp only [tables, List.mem_append] at ho
  rcases ho with (((ho | ho) | ho) | ho) | ho
  · obtain ⟨d, hd, ho⟩ := List.mem_flatMap.mp ho
    obtain ⟨l, hl, rfl⟩ := List.mem_map.mp ho
    obtain ⟨p, hp, -, rfl⟩ := mem_decoded hd
    rw [Instruction.targets_relabel] at hl
    obtain ⟨l', hl', rfl⟩ := List.mem_map.mp hl
    obtain ⟨n, hn, hstart⟩ := hw.target hm hp hl'
    rw [offsetOf_eq hn]
    exact PlacedNode.mem_bounds.mpr (.inl hstart)
  · obtain ⟨h, hh, ho⟩ := List.mem_flatMap.mp ho
    obtain ⟨item, -, ⟨hstart, hstop, hhandler⟩, -⟩ := (forall₂_exists hw.handlerItems).1 h hh
    simp only [List.mem_cons, List.not_mem_nil, or_false] at ho
    rcases ho with rfl | rfl | rfl
    · exact hstart
    · exact hstop
    · exact hhandler
  · exact hframes o ho
  · obtain ⟨e, he, rfl⟩ := List.mem_map.mp ho
    obtain ⟨mark, -, hmark⟩ := (forall₂_exists hw.lines).2 e he
    exact hw.mem_bounds hmark.1
  · obtain ⟨d, hd, ho⟩ := List.mem_flatMap.mp ho
    obtain ⟨item, -, ⟨hstart, hstop, -⟩, -⟩ := (forall₂_exists (hw.localItems hm)).1 d hd
    simp only [List.mem_cons, List.not_mem_nil, or_false] at ho
    rcases ho with rfl | rfl
    · exact hstart
    · exact hstop

theorem IsOf.reads_handlers (hw : w.IsOf pool m bytes) (hm : m.Fits)
    (hzero : ∀ name, pool.className 0 ≠ .ok name) {p : Nat} {rest : List UInt8} :
    Reads (Reader.counted (Bytecode.handler pool)) p (Assembler.counted w.handlers) rest
      (m.handlers.map (·.relabel w.offsetOf)) := by
  have hlt : w.handlers.length < 2 ^ 16 := hw.handlers.length_eq ▸ hm.handlers_lt
  refine Reads.counted hlt (hw.handlerItems.flip.imp ?_)
  rintro item h ⟨⟨hstart, hstop, hhandler⟩, hitem⟩ p rest
  have hle {n : Nat} (hn : n ∈ bounds w.placed w.stop) : n ≤ 0xffff :=
    Nat.le_trans (le_stop_of_mem_bounds hw.run hn) hw.stop_le
  exact Bytecode.reads_handler hitem hzero (hle hstart) (hle hstop) (hle hhandler)

/-- There are three kinds of tables. -/
theorem IsOf.length_tables (hw : w.IsOf pool m bytes) :
    (w.frameTable ++ w.lineTable ++ w.localTable).length ≤ 3 := by
  have hone {name : String} {items out : List (List UInt8)}
      (h : Assembler.IsTable pool name items out) : out.length ≤ 1 := by
    rcases h with ⟨-, rfl⟩ | ⟨-, bytes, -, rfl⟩
    · exact Nat.zero_le _
    · exact Nat.le_refl _
  have hframes : w.frameTable.length ≤ 1 := by
    rcases hw.frameTable with h | ⟨-, hnone⟩
    · exact hone h
    · rw [hnone]
      exact Nat.zero_le _
  have hlines := hone hw.lineTable
  have hlocals := hone hw.localTable
  rw [List.length_append, List.length_append]
  omega

/-- Written code is read back, with the frames that its stack map is read as. -/
theorem IsOf.reads_code (hw : w.IsOf pool m bytes) (hm : m.Fits)
    (hzero : ∀ name, pool.className 0 ≠ .ok name) {owner : String} {access : Access}
    {name desc : String} {entries : List (Nat × Bytecode.FrameEntry)}
    {entry : List FrameValue} {frames : List (Nat × Frame)} (hread : w.FramesRead pool entries)
    (hentries : ∀ o ∈ entries.map (·.1) ++ entries.flatMap (fun (_, e) => e.mentioned),
      o ∈ bounds w.placed w.stop)
    (hentry : Frame.entryLocals owner access name desc = .ok entry)
    (hframes : Bytecode.frames entry entries = .ok frames) :
    Reads (Code.read pool owner access name desc) 0 bytes [] (w.result m entries frames) := by
  have hlen := hw.length_code
  have hstop := hw.stop_le
  have hcode : (UInt32.ofNat w.code.length).toNat = w.stop := by
    rw [UInt32.toNat_ofNat', hlen, Nat.mod_eq_of_lt (by omega)]
  rw [hw.bytes]
  simp only [List.append_assoc]
  refine (reads_index m.maxStack).bind ((reads_index m.maxLocals).bind ?_)
  refine (reads_u4 w.code.length).bind ?_
  rw [hcode]
  refine (reads_bytes hlen).bind (.bind_nil (.within (hw.reads_sequence hm)) ?_)
  refine .bind_nil (.ofExcept (hw.checkTargets hm)) ?_
  refine (hw.reads_handlers hm hzero).bind ?_
  have hcount : (UInt16.ofNat (w.frameTable ++ w.lineTable ++ w.localTable).length).toNat =
      (w.frameTable ++ w.lineTable ++ w.localTable).length :=
    UInt16.toNat_ofNat_of_lt' (Nat.lt_of_le_of_lt hw.length_tables (by decide))
  rw [Assembler.counted]
  simp only [← List.append_assoc w.frameTable]
  refine (reads_u2 _).bind ?_
  rw [hcount]
  refine (hw.reads_tables hm hread).bind_last (.bind_nil (.ensureEnd _) ?_)
  have hplaces : w.decoded.map (·.1) ++ [w.stop] = bounds w.placed w.stop := by
    rw [decoded_map_fst, bounds]
  -- The last check finds every offset among those of the instructions or at the end.
  have hany : ((w.tables m entries).mentioned ++ (w.tables m entries).frames.map (·.1)).any
      (!(w.decoded.map (·.1) ++ [w.stop]).contains ·) = false := by
    rw [List.any_eq_false, hplaces]
    intro o ho
    have hmem : o ∈ bounds w.placed w.stop := by
      rcases List.mem_append.mp ho with ho | ho
      · exact hw.mentioned hm (fun o ho => hentries o (List.mem_append_right _ ho)) o ho
      · exact hentries o (List.mem_append_left _ ho)
    rw [List.contains_iff_mem.mpr hmem]
    decide
  rw [hany]
  refine .bind_nil (.ofExcept hentry) (.bind_nil (.ofExcept hframes) ?_)
  rw [hplaces]
  exact .pure _

end CodeParts

end Injection
