import Injection.Proofs.Assembly.Members
import Injection.Proofs.ClassFile.FrameTable

/-!
The frames of a method are read back. Each stands before the same instruction as it did, with its
labels renamed like those of the code, if the frames follow on one another from the locals on entry
and no two of them stand before the same instruction.
-/

namespace Injection

theorem Frame.relabel_relabel (f g : Label → Label) (frame : Frame) :
    (frame.relabel g).relabel f = frame.relabel (f ∘ g) := by
  simp [Frame.relabel, FrameValue.relabel_relabel]

namespace Method

/-- No two frames stand before the same instruction or at the end, and there are no more of them
than two bytes can count; there can only be more if one stands at the end of the longest code. -/
structure FrameLimits (m : Method) : Prop where
  apart : (m.instructions.frameTable.map (·.1)).Nodup
  frames_lt : m.instructions.frameTable.length < 2 ^ 16

structure IsFramed (m : Method) (entry : List FrameValue) : Prop extends m.FrameLimits where
  chain : ∃ last, Frame.Chain entry (m.instructions.frameTable.map (·.2)) last

def FrameMentions (m : Method) (l : Label) : Prop :=
  ∃ e ∈ m.instructions.frameTable, .uninitialized l ∈ e.2.locals ++ e.2.stack

/-- The frames of one method are those of another with their labels renamed: as many, each before
the same instruction or at the end, with labels that stand at the same places. -/
structure SameFrames (m : Method) (f : Label → Label) (m' : Method) : Prop where
  frames : m'.instructions.frameTable =
    m.instructions.frameTable.map fun (k, frame) => (k, frame.relabel f)
  places : ∀ l, m.FrameMentions l →
    ∃ k, m.instructions.placeOf? l = some k ∧ m'.instructions.placeOf? (f l) = some k

end Method

namespace PlacedNode

variable {start stop : Nat} {p : PlacedNode} {ps : List PlacedNode}

theorem offset_mem_bounds (hrun : Run start ps stop) (hp : p ∈ ps) :
    p.offset.toNat ∈ bounds ps stop := by
  obtain ⟨front, back, rfl⟩ := List.append_of_mem hp
  obtain ⟨middle, -, hrest⟩ := run_append.mp hrun
  rw [hrest.1]
  exact List.mem_of_getElem? (getElem?_bounds hrest)

theorem le_offset (hrun : Run start ps stop) (hp : p ∈ ps) : start ≤ p.offset.toNat :=
  le_of_mem_bounds hrun (offset_mem_bounds hrun hp)

theorem pairwise_offset (hrun : Run start ps stop) :
    ps.Pairwise (·.offset.toNat ≤ ·.offset.toNat) := by
  induction ps generalizing start with
  | nil => exact .nil
  | cons p ps ih =>
      refine List.pairwise_cons.mpr ⟨fun q hq => ?_, ih hrun.2.2⟩
      rw [hrun.1]
      exact Nat.le_trans (Nat.le_add_right ..) (le_offset hrun.2.2 hq)

theorem mem_frameMarks {m : Nat × Frame} :
    m ∈ frameMarks ps ↔ ∃ p ∈ ps, p.node.frame? = some m.2 ∧ p.offset.toNat = m.1 := by
  rw [frameMarks, List.mem_filterMap]
  refine exists_congr fun p => and_congr_right fun _ => ?_
  rw [Option.map_eq_some_iff]
  constructor
  · rintro ⟨f, hf, rfl⟩
    exact ⟨hf, rfl⟩
  · rintro ⟨hf, ho⟩
    exact ⟨m.2, hf, Prod.ext ho rfl⟩

end PlacedNode

namespace CodeParts

open Reader PlacedNode

variable {w : CodeParts} {pool : ConstantPool} {m : Method} {bytes : List UInt8}
  {entry : List FrameValue}

def frameMarks (w : CodeParts) : List (Nat × Frame) := PlacedNode.frameMarks w.placed

def entries (w : CodeParts) : List (Nat × Bytecode.FrameEntry) :=
  w.frameMarks.map fun (o, f) => (o, f.entry.relabel w.offsetOf)

def decodedFrames (w : CodeParts) : List (Nat × Frame) :=
  w.frameMarks.map fun (o, f) => (o, f.relabel w.offsetOf)

theorem IsOf.nodup_bounds (hw : w.IsOf pool m bytes) : (bounds w.placed w.stop).Nodup :=
  (bounds_pairwise hw.run).imp Nat.ne_of_lt

theorem IsOf.frameTable_eq (hw : w.IsOf pool m bytes) :
    m.instructions.frameTable =
      w.frameMarks.map fun e => ((bounds w.placed w.stop).idxOf e.1, e.2) := by
  rw [InstructionList.frameTable, hw.nodes]
  exact framesFrom_placed [] hw.run hw.nodup_bounds

theorem IsOf.mark_mem_bounds (hw : w.IsOf pool m bytes) {e : Nat × Frame}
    (he : e ∈ w.frameMarks) : e.1 ∈ bounds w.placed w.stop := by
  obtain ⟨p, hp, -, ho⟩ := mem_frameMarks.mp he
  rw [← ho]
  exact offset_mem_bounds hw.run hp

/-- The offsets of the frames rise, as no two frames stand before the same instruction. -/
theorem IsOf.pairwise_marks (hw : w.IsOf pool m bytes) (hm : m.IsFramed entry) :
    w.frameMarks.Pairwise (·.1 < ·.1) := by
  have hle : w.frameMarks.Pairwise (·.1 ≤ ·.1) := by
    refine (pairwise_offset hw.run).filterMap _ ?_
    rintro p q hpq _ hp _ hq
    obtain ⟨f, -, rfl⟩ := Option.map_eq_some_iff.mp hp
    obtain ⟨g, -, rfl⟩ := Option.map_eq_some_iff.mp hq
    exact hpq
  have hne : w.frameMarks.Pairwise (·.1 ≠ ·.1) := by
    have hapart := hm.apart
    rw [hw.frameTable_eq, List.map_map] at hapart
    refine (List.pairwise_map.mp hapart).imp fun hne heq => hne ?_
    exact congrArg (List.idxOf · _) heq
  exact hle.imp₂ (fun a b => Nat.lt_of_le_of_ne) hne

theorem IsOf.rising (hw : w.IsOf pool m bytes) (hm : m.IsFramed entry) :
    StackMap.Rising none w.frameMarks := by
  refine StackMap.rising_of_pairwise nofun (hw.pairwise_marks hm) fun e he => ?_
  exact Nat.le_trans (le_stop_of_mem_bounds hw.run (hw.mark_mem_bounds he)) hw.stop_le

theorem IsOf.inReach (hw : w.IsOf pool m bytes) : StackMap.InReach (labelOffset w.placed) :=
  fun _ _ hn => Nat.le_trans (le_stop_of_mem_bounds hw.run (hw.mem_bounds hn)) hw.stop_le

def HasMap (w : CodeParts) (pool : ConstantPool) : Prop :=
  StackMap.IsMap pool (labelOffset w.placed) none w.frameMarks w.frames

theorem IsOf.framesRead (hw : w.IsOf pool m bytes) (hm : m.IsFramed entry)
    (hmap : w.HasMap pool) (hlen : bytes.length < 2 ^ 32) : w.FramesRead pool w.entries := by
  have hcount : w.frames.length < 2 ^ 16 := by
    have h := hm.frames_lt
    rwa [hw.frameTable_eq, List.length_map, ← hmap.length] at h
  rcases hw.frameTable.isTable hcount with ⟨hnone, htable⟩ | ⟨-, out, ⟨index, hname, rfl⟩, htable⟩
  · have hmarks := hmap.length
    rw [hnone, List.length_nil, eq_comm, List.length_eq_zero_iff] at hmarks
    rw [entries, hmarks]
    exact framesRead_nil htable
  · have hinfo : (Assembler.counted w.frames).length < 2 ^ 32 := by
      rw [hw.bytes, htable] at hlen
      simp only [Assembler.counted, List.flatten_append, List.flatten_singleton,
        List.length_append] at hlen ⊢
      omega
    rintro ⟨lines, locals, frames, mentioned⟩ p rest hframes
    cases hframes
    rw [htable, List.flatten_singleton]
    refine Reads.bind_last ?_ (.pure _)
    refine Bytecode.reads_named hinfo fun p => .bind_nil (.ofExcept hname) (.within ?_)
    have hnat : (UInt16.ofNat w.frames.length).toNat = w.frames.length :=
      UInt16.toNat_ofNat_of_lt' hcount
    refine (reads_u2 w.frames.length).bind ?_
    rw [hnat]
    refine (hmap.reads hw.inReach (hw.rising hm) _ _).bind_last ?_
    exact .bind_nil (.ensureEnd _) (.pure _)

/-- The offsets that the stack map mentions are those of instructions, or the end. -/
theorem IsOf.entries_mem_bounds (hw : w.IsOf pool m bytes) (hmap : w.HasMap pool) :
    ∀ o ∈ w.entries.map (·.1) ++ w.entries.flatMap (fun (_, e) => e.mentioned),
      o ∈ bounds w.placed w.stop := by
  intro o ho
  rcases List.mem_append.mp ho with ho | ho
  · obtain ⟨e, he, rfl⟩ := List.mem_map.mp ho
    obtain ⟨mark, hmark, rfl⟩ := List.mem_map.mp he
    exact hw.mark_mem_bounds hmark
  · obtain ⟨e, he, ho⟩ := List.mem_flatMap.mp ho
    obtain ⟨mark, hmark, rfl⟩ := List.mem_map.mp he
    obtain ⟨l, hl, ho⟩ := Bytecode.FrameEntry.mem_mentioned_relabel.mp ho
    obtain ⟨n, hn⟩ := hmap.placed mark hmark l hl
    rw [offsetOf_eq hn] at ho
    cases ho
    exact hw.mem_bounds hn

theorem IsOf.map_snd_marks (hw : w.IsOf pool m bytes) :
    w.frameMarks.map (·.2) = m.instructions.frameTable.map (·.2) := by
  rw [hw.frameTable_eq, List.map_map]
  rfl

/-- The frames are found again from the locals on entry. -/
theorem IsOf.frames_eq (hw : w.IsOf pool m bytes) (hm : m.IsFramed entry) {owner : String}
    {access : Access} {name desc : String}
    (hentry : Frame.entryLocals owner access name desc = .ok entry) :
    Bytecode.frames entry w.entries = .ok w.decodedFrames := by
  obtain ⟨last, hchain⟩ := hm.chain
  have hsame : entry.map (·.relabel w.offsetOf) = entry :=
    (List.map_congr_left fun v hv => Frame.relabel_entryLocals hentry hv w.offsetOf).trans
      (List.map_id _)
  have hframes := hchain.frames_eq w.offsetOf hw.map_snd_marks
  rwa [hsame] at hframes

/-- The frames of what is read stand where they stood. -/
theorem IsOf.frameTable_result (hw : w.IsOf pool m bytes) (hm : m.IsFramed entry) :
    (w.result m w.entries w.decodedFrames).instructions.frameTable =
      m.instructions.frameTable.map fun (k, f) => (k, f.relabel (w.rename m w.entries)) := by
  have hpairwise : w.decodedFrames.Pairwise (·.1 < ·.1) :=
    List.pairwise_map.mpr (hw.pairwise_marks hm)
  have hmem : ∀ e ∈ w.decodedFrames, e.1 ∈ bounds w.placed w.stop := by
    intro e he
    obtain ⟨mark, hmark, rfl⟩ := List.mem_map.mp he
    exact hw.mark_mem_bounds (e := mark) hmark
  have hnodes : InstructionList.framesFrom 0 (Bytecode.nodes (w.labels m w.entries)
      (w.tables m w.entries) w.decodedFrames w.decoded w.stop) = _ :=
    Bytecode.framesFrom_nodes [] (fun d hd => isReal_of_mem_decoded hd)
      (by rw [List.nil_append, bounds_eq]; exact hw.nodup_bounds)
  rw [List.nil_append, bounds_eq,
    Bytecode.flatMap_filter_eq (bounds_pairwise hw.run) hpairwise hmem] at hnodes
  rw [InstructionList.frameTable, result, InstructionList.ofList, List.toList_toArray,
    InstructionList.framesFrom_relabel, hnodes, hw.frameTable_eq, decodedFrames]
  simp only [List.map_map]
  refine List.map_congr_left fun m _ => ?_
  exact congrArg (_, ·) (Frame.relabel_relabel _ _ m.2)

/-- The label of a fresh object is placed, and its offset is mentioned in the stack map. -/
theorem IsOf.frameMentions (hw : w.IsOf pool m bytes) (hm : m.IsFramed entry)
    (hmap : w.HasMap pool) {owner : String} {access : Access} {name desc : String}
    (hentry : Frame.entryLocals owner access name desc = .ok entry) {l : Label}
    (hl : m.FrameMentions l) :
    ∃ n, labelOffset w.placed l = .ok n ∧ n ∈ (w.tables m w.entries).mentioned := by
  obtain ⟨last, hchain⟩ := hm.chain
  obtain ⟨e, he, hl⟩ := hl
  rcases hchain.mem_entry (List.mem_map.mpr ⟨e, he, rfl⟩) hl nofun with hl | ⟨f, hf, hl⟩
  · -- No fresh object is there on entry.
    have hsame := Frame.relabel_entryLocals hentry hl fun l => ⟨l.id + 1⟩
    have hid : l.id + 1 = l.id := congrArg Label.id (FrameValue.uninitialized.inj hsame)
    omega
  · rw [← hw.map_snd_marks] at hf
    obtain ⟨mark, hmark, rfl⟩ := List.mem_map.mp hf
    obtain ⟨n, hn⟩ := hmap.placed mark hmark l hl
    refine ⟨n, hn, ?_⟩
    simp only [tables, List.mem_append]
    refine .inl (.inl (.inr (List.mem_flatMap.mpr ⟨_, List.mem_map.mpr ⟨mark, hmark, rfl⟩, ?_⟩)))
    exact Bytecode.FrameEntry.mem_mentioned_relabel.mpr ⟨l, hl, offsetOf_eq hn⟩

theorem IsOf.sameFrames (hw : w.IsOf pool m bytes) (hm : m.IsFramed entry) (hmap : w.HasMap pool)
    {owner : String} {access : Access} {name desc : String}
    (hentry : Frame.entryLocals owner access name desc = .ok entry) {m' : Method}
    (hinstructions : m'.instructions = (w.result m w.entries w.decodedFrames).instructions) :
    m.SameFrames (w.rename m w.entries) m' where
  frames := by
    rw [hinstructions]
    exact hw.frameTable_result hm
  places l hl := by
    obtain ⟨n, hn, hmentioned⟩ := hw.frameMentions hm hmap hentry hl
    obtain ⟨k, hk, hget⟩ := hw.place hn
    rw [← show (w.offsetOf l).id = n by rw [offsetOf_eq hn]] at hget hmentioned
    rw [hinstructions]
    exact ⟨k, hk, hw.placeOf?_rename hmentioned hget⟩

end CodeParts

end Injection
