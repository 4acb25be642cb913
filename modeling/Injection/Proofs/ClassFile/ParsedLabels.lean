import Injection.Locals.Variable
import Injection.Proofs.Assembly.FrameTrip
import Injection.Proofs.ClassFile.Closure

/-!
The methods of a parsed class. Their instructions are those of the code arrays in the class file,
and every label that they use stands at one place, so that neither an analysis nor the table of
declared locals misses one.
-/

namespace Injection

namespace Method

variable {m : Method} {l : Label}

/-- A label that is used in a method: by a branch, a handler or a declared local, for a line
number, or by a fresh object in a frame. -/
def Uses (m : Method) (l : Label) : Prop :=
  m.Mentions l ∨ (∃ n, .line n l ∈ m.instructions.nodes.toList) ∨ m.FrameMentions l

structure IsClosed (m : Method) : Prop where
  /-- Every label that is used has one mark. -/
  placed : ∀ l, m.Uses l → m.instructions.nodes.toList.count (.label l) = 1
  /-- No analysis, of whichever class, misses a label. -/
  analyzed : ∀ owner h w l, (Analysis.analyze owner m h).answer w ≠ .error (.missingLabel l)
  /-- There is a variable for every declared local, between its labels. -/
  declared : List.Forall₂ (fun d v => v.name = d.name ∧ v.desc = d.desc ∧ v.slot = d.slot ∧
      m.instructions.labelPosition? d.start = some v.start ∧
        m.instructions.labelPosition? d.stop = some v.stop)
    m.declaredLocals (LocalVariable.declared m)

/-- The instructions of a method are those that a code array encodes, each at its offset, with the
offsets named by labels. After the label of an encoded branch target, the next instruction is that
at the target. -/
structure IsDecodedFrom (m : Method) (pool : ConstantPool) (array : List UInt8)
    (decoded : List (Nat × Instruction)) (name : Label → Label) : Prop where
  decodes : Bytecode.Decodes pool array 0 decoded
  instructions : m.realInstructions = decoded.map fun d => d.2.relabel name
  targets : ∀ d ∈ decoded,
    d.2.targets.map (fun l => (l.id : Int)) = Bytecode.encodedTargets array d.1
  branches : ∀ d ∈ decoded, ∀ l ∈ d.2.targets, ∃ k i position next, decoded[k]? = some (l.id, i) ∧
    m.instructions.labelPosition? (name l) = some position ∧
      m.instructions.nextReal? position = some next ∧ m.instructions.IsNth next k ∧
        m.instructions.get? next = some (i.relabel name)

theorem exists_position (h : m.instructions.nodes.toList.count (.label l) = 1) :
    ∃ position, m.instructions.labelPosition? l = some position := by
  obtain ⟨front, back, hnodes⟩ := List.append_of_mem (List.count_pos_iff.mp (h ▸ Nat.one_pos))
  have hback : .label l ∉ back := by
    rw [hnodes, List.count_append, List.count_cons_self] at h
    exact List.count_eq_zero.mp (by omega)
  exact ⟨_, InstructionList.labelPosition?_eq_some hnodes hback⟩

theorem RefersTo.mentions (h : m.RefersTo l) : m.Mentions l := by
  rcases h with ⟨i, hi, hl⟩ | h
  · have hreal : i.isReal = true := by
      cases i with
      | label | line | frame => cases hl
      | _ => rfl
    exact .inl ⟨i, List.mem_filter.mpr ⟨hi, hreal⟩, hl⟩
  · exact .inr (.inl h)

/-- Where all labels that are used are placed, none is missing. -/
theorem IsClosed.of_placed
    (h : ∀ l, m.Uses l → m.instructions.nodes.toList.count (.label l) = 1) : m.IsClosed where
  placed := h
  analyzed owner hierarchy w l herr := by
    rcases Analysis.analyze_error herr with he | he | he | ⟨l', hl, -, hmissing⟩
    · cases he
    · cases he
    · cases he
    · obtain ⟨position, hposition⟩ := exists_position (h l' (.inl hl.mentions))
      cases hmissing.symm.trans hposition
  declared := by
    have hposition (d : DeclaredLocal) (hd : d ∈ m.declaredLocals) :
        (∃ start, m.instructions.labelPosition? d.start = some start) ∧
          ∃ stop, m.instructions.labelPosition? d.stop = some stop :=
      ⟨exists_position (h _ (.inl (.inr (.inr ⟨d, hd, .inl rfl⟩)))),
        exists_position (h _ (.inl (.inr (.inr ⟨d, hd, .inr rfl⟩))))⟩
    rw [LocalVariable.declared]
    generalize m.declaredLocals = ds at hposition
    induction ds with
    | nil => exact .nil
    | cons d ds ih =>
        obtain ⟨⟨start, hstart⟩, stop, hstop⟩ := hposition d List.mem_cons_self
        rw [List.filterMap_cons_some (by rw [hstart, hstop]; rfl)]
        exact .cons ⟨rfl, rfl, rfl, hstart, hstop⟩
          (ih fun d hd => hposition d (List.mem_cons_of_mem _ hd))

end Method

namespace DecodedCode

open Bytecode

variable {w : DecodedCode} {pool : ConstantPool} {array : List UInt8} {code : Code} {m : Method}
  {l : Label}

/-- Every node is an instruction or a mark of some offset, with its labels named. -/
theorem IsOf.node_cases (hw : w.IsOf pool array code) {i : Instruction}
    (hi : i ∈ code.instructions.nodes.toList) :
    (∃ d ∈ w.instructions, i = d.2.relabel w.name) ∨
      ∃ j offset, j ∈ marks w.labels w.tables w.frames offset ∧ i = j.relabel w.name := by
  rw [hw.nodes] at hi
  obtain ⟨j, hj, rfl⟩ := List.mem_map.mp hi
  rcases mem_nodes hj with ⟨d, hd, rfl⟩ | ⟨offset, hj⟩
  · exact .inl ⟨d, hd, rfl⟩
  · exact .inr ⟨j, offset, hj, rfl⟩

theorem mentioned_of_mem_labels {o : Nat} (ho : o ∈ w.labels) : o ∈ w.tables.mentioned :=
  List.contains_iff_mem.mp (List.mem_filter.mp ho).2

theorem IsOf.line_offset (hw : w.IsOf pool array code) {n : UInt32}
    (h : .line n l ∈ code.instructions.nodes.toList) : ∃ o ∈ w.tables.mentioned, l = w.name ⟨o⟩ := by
  rcases hw.node_cases h with ⟨d, hd, hline⟩ | ⟨j, offset, hj, hline⟩
  · have hreal := congrArg Instruction.isReal hline
    rw [Instruction.isReal_relabel, hw.isReal d hd] at hreal
    cases hreal
  · rcases mem_marks hj with ⟨rfl, -⟩ | ⟨n', rfl, hlabel⟩ | ⟨f, -, rfl⟩
    · cases hline
    · exact ⟨offset, mentioned_of_mem_labels hlabel, (Instruction.line.inj hline).2⟩
    · cases hline

theorem IsOf.frame_offset (hw : w.IsOf pool array code) {f : Frame}
    (h : .frame f ∈ code.instructions.nodes.toList) (hl : .uninitialized l ∈ f.locals ++ f.stack) :
    ∃ o ∈ w.tables.mentioned, l = w.name ⟨o⟩ := by
  rcases hw.node_cases h with ⟨d, hd, hframe⟩ | ⟨j, offset, hj, hframe⟩
  · have hreal := congrArg Instruction.isReal hframe
    rw [Instruction.isReal_relabel, hw.isReal d hd] at hreal
    cases hreal
  · rcases mem_marks hj with ⟨rfl, -⟩ | ⟨n, rfl, -⟩ | ⟨g, hg, rfl⟩
    · cases hframe
    · cases hframe
    · have hvalues : f.locals ++ f.stack = (g.2.locals ++ g.2.stack).map (·.relabel w.name) := by
        rw [Instruction.frame.inj hframe, List.map_append]
        rfl
      rw [hvalues] at hl
      obtain ⟨v, hv, hrenamed⟩ := List.mem_map.mp hl
      obtain ⟨l', rfl, rfl⟩ := FrameValue.eq_uninitialized_of_relabel hrenamed
      exact ⟨l'.id, hw.fresh g hg l' hv, rfl⟩

/-- A label that is used in the method names an offset that is mentioned. -/
theorem IsOf.exists_offset (hw : w.IsOf pool array code)
    (hinstructions : m.instructions = code.instructions) (hhandlers : m.handlers = code.handlers)
    (hlocals : m.declaredLocals = code.declaredLocals) (hl : m.Uses l) :
    ∃ o ∈ w.tables.mentioned, l = w.name ⟨o⟩ := by
  rcases hl with (⟨i, hi, hl⟩ | ⟨b, hb, hl⟩ | ⟨d, hd, hl⟩) | ⟨n, hn⟩ | ⟨e, he, hl⟩
  · rw [Method.realInstructions, hinstructions, hw.realInstructions] at hi
    obtain ⟨d, hd, rfl⟩ := List.mem_map.mp hi
    rw [Instruction.targets_relabel] at hl
    obtain ⟨l', hl', rfl⟩ := List.mem_map.mp hl
    exact ⟨l'.id, (hw.branches d hd l' hl').2, rfl⟩
  · rw [hhandlers, hw.handlers] at hb
    obtain ⟨b', hb', rfl⟩ := List.mem_map.mp hb
    obtain ⟨hstart, hstop, hhandler⟩ := hw.guarded b' hb'
    rcases hl with rfl | rfl | rfl
    · exact ⟨_, hstart, rfl⟩
    · exact ⟨_, hstop, rfl⟩
    · exact ⟨_, hhandler, rfl⟩
  · rw [hlocals, hw.locals] at hd
    obtain ⟨d', hd', rfl⟩ := List.mem_map.mp hd
    obtain ⟨hstart, hstop⟩ := hw.complete.locals d' hd'
    rcases hl with rfl | rfl
    · exact ⟨_, hstart, rfl⟩
    · exact ⟨_, hstop, rfl⟩
  · exact hw.line_offset (hinstructions ▸ hn)
  · have hframe : e.2 ∈ m.instructions.nodes.toList.filterMap Instruction.frame? := by
      rw [← InstructionList.frameTable_map_snd]
      exact List.mem_map_of_mem he
    obtain ⟨i, hi, hframe⟩ := List.mem_filterMap.mp hframe
    rw [Instruction.frame?_eq_some.mp hframe, hinstructions] at hi
    exact hw.frame_offset hi hl

theorem IsOf.isDecodedFrom (hw : w.IsOf pool array code)
    (hinstructions : m.instructions = code.instructions) :
    m.IsDecodedFrom pool array w.instructions w.name where
  decodes := hw.decodes
  instructions := by
    rw [Method.realInstructions, hinstructions]
    exact hw.realInstructions
  targets d hd := (hw.decodes.of_mem hd).2
  branches d hd l hl := by
    obtain ⟨hstart, hmentioned⟩ := hw.branches d hd l hl
    obtain ⟨target, htarget, hoffset⟩ := List.mem_map.mp hstart
    rw [← hoffset] at hmentioned
    obtain ⟨k, position, next, hk, hposition, hnext, hnth⟩ := hw.exists_next htarget hmentioned
    rw [hinstructions]
    refine ⟨k, target.2, position, next, ?_, ?_, hnext, hnth, ?_⟩
    · rw [hk, ← hoffset]
    · rwa [hoffset] at hposition
    · rw [hnth.get?_eq_filter, hw.realInstructions, List.getElem?_map, hk]
      rfl

end DecodedCode

namespace ClassFile

def Layout.linkedPool (l : Layout) : ConstantPool :=
  { l.pool with bootstrapMethods := l.attributes.bootstrapMethods }

def Member.Encodes (pool : ConstantPool) (member : Member) (m : Method) : Prop :=
  match member.code with
  | none => m.instructions = .empty
  | some bytes => ∃ decoded name, m.IsDecodedFrom pool (Code.array bytes) decoded name

theorem method_eq_ok {pool : ConstantPool} {owner : String} {member : Member} {m : Method}
    (h : method pool owner member = .ok m) : m.IsClosed ∧ member.Encodes pool m := by
  rw [method] at h
  split at h
  · next hnone =>
      cases h
      rw [Member.Encodes, hnone]
      refine ⟨.of_placed ?_, rfl⟩
      rintro l ((⟨i, hi, -⟩ | ⟨b, hb, -⟩ | ⟨d, hd, -⟩) | ⟨n, hn⟩ | ⟨e, he, -⟩)
      · cases hi
      · cases hb
      · cases hd
      · cases hn
      · cases he
  · next bytes hcode =>
      obtain ⟨⟨code, rest⟩, hread, h⟩ := bind_eq_ok.mp h
      cases h
      rw [Member.Encodes, hcode]
      obtain ⟨w, hw⟩ := Code.read_gives code rest hread
      refine ⟨.of_placed fun l hl => ?_, w.instructions, w.name, hw.isDecodedFrom rfl⟩
      obtain ⟨o, ho, rfl⟩ := hw.exists_offset rfl rfl rfl hl
      exact hw.count_name ho

end ClassFile

/-- Every method of a parsed class is closed under its labels, and its instructions are those of
its code array in the class file. -/
theorem Class.parse_closed {bytes : List UInt8} {c : Class} (h : Class.parse bytes = .ok c) :
    ∃ layout rest, ClassFile.layout (.ofBytes bytes) = .ok (layout, rest) ∧
      List.Forall₂ (fun member m => m.IsClosed ∧ member.Encodes layout.linkedPool m)
        layout.methods c.methods := by
  obtain ⟨⟨layout, rest⟩, hlayout, h⟩ := bind_eq_ok.mp h
  obtain ⟨methods, hmethods, h⟩ := bind_eq_ok.mp h
  cases h
  exact ⟨layout, rest, hlayout, (mapM_eq_ok hmethods).imp fun member m => ClassFile.method_eq_ok⟩

/-- A class with a branch, line numbers, declared locals and frames with fresh objects. -/
theorem Class.parse_closed_framed :
    ∃ bytes c, (Sample.plainClass [Sample.chooseMethod, Sample.framedMethod]).assemble = .ok bytes ∧
      Class.parse bytes = .ok c ∧
        ∃ layout rest, ClassFile.layout (.ofBytes bytes) = .ok (layout, rest) ∧
          List.Forall₂ (fun member m => m.IsClosed ∧ member.Encodes layout.linkedPool m)
            layout.methods c.methods := by
  have hparsed : ∃ c ∈ (Sample.plainClass
      [Sample.chooseMethod, Sample.framedMethod]).assemble.toOption.bind
        fun bytes => (Class.parse bytes).toOption, c.methods.length = 2 := by
    decide +kernel
  obtain ⟨c, hc, -⟩ := hparsed
  obtain ⟨bytes, hbytes, hparse⟩ := Option.bind_eq_some_iff.mp hc
  have h := mem_toOption.mp hparse
  exact ⟨bytes, c, mem_toOption.mp hbytes, h, Class.parse_closed h⟩

end Injection
