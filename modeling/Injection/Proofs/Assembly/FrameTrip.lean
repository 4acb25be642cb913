import Injection.Proofs.Assembly.FrameBuilding
import Injection.Proofs.Assembly.RoundTrip

/-!
A class is read back with the frames of its methods. Frames are written twice relative to what came
before: by the distance from the last frame, and by what changes of its locals. Either way the
frames that are read are those that were built.
-/

namespace Injection

open Reader

structure Method.ReadFramed (m m' : Method) : Prop extends m.ReadAs m' where
  frames : m.hasCode = true → ∃ f, m.SameCode f m' ∧ m.SameFrames f m'

namespace Assembler

variable {u : PoolTable} {m : Method} {entry : List FrameValue}

/-- The stack map of a method holds the frames that are placed. -/
theorem enters_stackMap (hm : m.Fits) (hframed : m.IsFramed entry) (placed : List PlacedNode)
    (hplaced : ∀ p ∈ placed, p.node ∈ m.instructions.nodes.toList) :
    Enters u (StackMap.frames (PlacedNode.labelOffset placed) none placed)
      (StackMap.IsMap u.pool (PlacedNode.labelOffset placed) none
        (PlacedNode.frameMarks placed)) := by
  obtain ⟨last, hchain⟩ := hframed.chain
  rw [InstructionList.frameTable_map_snd] at hchain
  refine StackMap.enters_frames none fun mark hmark => ?_
  obtain ⟨p, hp, hframe, -⟩ := PlacedNode.mem_frameMarks.mp hmark
  have hnode := hplaced p hp
  refine ⟨?_, hchain.exists_follows (List.mem_filterMap.mpr ⟨p.node, hnode, hframe⟩)⟩
  rw [← Instruction.frame?_eq_some.mp hframe]
  exact hm.nodes p.node hnode

theorem length_codeItem {pool : ConstantPool} {access : Access} {name desc : String}
    {head bytes named : List UInt8} (hhead : ClassFile.IsHead pool access name desc head)
    (hnamed : IsNamed pool "Code" bytes named) :
    (head ++ counted [named]).length = bytes.length + 14 := by
  obtain ⟨n, d, -, -, rfl⟩ := hhead
  obtain ⟨index, -, rfl⟩ := hnamed
  simp only [counted, Bytes.u2, Bytes.u4, List.length_append, Bytes.length_bigEndian,
    List.flatten_singleton]
  omega

/-- A method is written with the stack map of its frames. -/
theorem enters_framedItem (hcount : u.bootstrapMethods.length < 2 ^ 16)
    (hname : ModifiedUtf8.Fits m.name) (hdesc : ModifiedUtf8.Fits m.desc)
    (hfits : m.hasCode = true → m.Fits ∧ ∃ entry, m.IsFramed entry) :
    Enters u (methodBytes m) (ClassFile.IsMethodItem u.pool m fun w => w.HasMap u.pool) := by
  refine enters_methodBytes (F := fun placed items => StackMap.IsMap u.pool
    (PlacedNode.labelOffset placed) none (PlacedNode.frameMarks placed) items) hcount hname hdesc
    fun hhas => ?_
  obtain ⟨hm, entry, hframed⟩ := hfits hhas
  exact ⟨hm, enters_stackMap hm hframed⟩

/-- A method whose builder placed frames is read back, if the length of its code fits four bytes. -/
theorem enters_framedMethod (hu : u.IsSound) (hcount : u.bootstrapMethods.length < 2 ^ 16)
    {owner : String} (howner : ModifiedUtf8.Fits owner) (hname : ModifiedUtf8.Fits m.name)
    (hdesc : ModifiedUtf8.Fits m.desc)
    (hcode : m.hasCode = true → m.IsBuiltFor owner ∧ m.WithinLimits ∧ m.FrameLimits) :
    Enters u (methodBytes m) fun out => out.length < 2 ^ 32 + 14 →
      ∃ m', ClassFile.ReadsMethod u.pool owner out m' ∧ m.ReadFramed m' := by
  have hfits (hhas : m.hasCode = true) := by
    obtain ⟨hbuilt, hlimits, hframes⟩ := hcode hhas
    exact hbuilt.fits howner hdesc hlimits hframes
  refine (enters_framedItem hcount hname hdesc fun hhas => ?_).imp ?_
  · obtain ⟨hm, entry, -, hframed⟩ := hfits hhas
    exact ⟨hm, entry, hframed⟩
  rintro _ (⟨hhas, hhead, hw, hmap, hnamed⟩ | ⟨hhas, hhead⟩) hlen
  · obtain ⟨hm, entry, hentry, hframed⟩ := hfits hhas
    rw [length_codeItem hhead hnamed] at hlen
    have hlt := Nat.lt_of_add_lt_add_right hlen
    obtain ⟨m', hread, hsame, hcode, hinstructions⟩ := ClassFile.reads_codeItem hhas hm hhead hw
      hnamed hlt hu.className_zero (hw.framesRead hframed hmap hlt)
      (hw.entries_mem_bounds hmap) hentry (hw.frames_eq hframed hentry)
    exact ⟨m', hread, { hsame with
      frames := fun _ => ⟨_, hcode, hw.sameFrames hframed hmap hentry hinstructions⟩ }⟩
  · obtain ⟨m', hread, hsame⟩ := ClassFile.reads_noCode hhas hhead
    refine ⟨m', hread, { hsame with frames := fun h => ?_ }⟩
    rw [hhas] at h
    cases h

end Assembler

/-- What the class-file format can hold of a class with frames. Methods with code come from a
builder for the class, and the length of what is written of their code fits four bytes; before the
code a method has fourteen bytes, down to the length itself. -/
structure Class.FitsFramed (c : Class) : Prop extends c.WithinLimits where
  code : ∀ m ∈ c.methods, m.hasCode = true →
    m.IsBuiltFor c.name ∧ m.WithinLimits ∧ m.FrameLimits
  length_lt : ∀ w t, Assembler.classParts c .empty = .ok (w, t) →
    ∀ out ∈ w.methods, out.length < 2 ^ 32 + 14

/-- A class whose layout is read is parsed as the class of that layout. -/
theorem Class.parse_eq_toClass {bytes : List UInt8} {l : ClassFile.Layout}
    (h : Reads ClassFile.layout 0 bytes [] l) : Class.parse bytes = l.toClass := by
  rw [Reads, List.append_nil] at h
  rw [Class.parse, Cursor.ofBytes, h]
  rfl

theorem Class.toClass_layout {c : Class} {u : PoolTable} {members : List ClassFile.Member}
    {methods : List Method} (h : members.mapM (ClassFile.method u.pool c.name) = .ok methods) :
    (c.layout u members).toClass = .ok { c with methods } := by
  change (members.mapM (ClassFile.method u.pool c.name) >>= fun methods => Except.ok _) = _
  rw [h]
  have hfields : (c.fields.map fun f => (⟨f.access, f.name, f.desc, none⟩ : ClassFile.Member)).map
      (fun f => (⟨f.access, f.name, f.desc⟩ : Field)) = c.fields := by
    rw [List.map_map]
    exact List.map_id _
  exact congrArg (fun fields => Except.ok { c with fields, methods }) hfields

/-- A class whose class file can be written is read back with all its frames. -/
theorem Class.parse_assemble_frames {c : Class} {bytes : List UInt8} (hc : c.FitsFramed)
    (h : c.assemble = .ok bytes) :
    ∃ c', Class.parse bytes = .ok c' ∧ c.ReadAs c' ∧
      List.Forall₂ Method.ReadFramed c.methods c'.methods := by
  obtain ⟨u, w, source, bootstrap, hw, ⟨t, hparts⟩, rfl⟩ := c.exists_isWritten hc.toWithinLimits
    (fun u hu hcount m hm => Assembler.enters_framedMethod hu hcount hc.name (hc.methods m hm).1
      (hc.methods m hm).2 (hc.code m hm)) h
  have hall : List.Forall₂ (fun m out => ∃ m', ClassFile.ReadsMethod u.pool c.name out m' ∧
      m.ReadFramed m') c.methods w.methods := by
    have hlengths := (List.forall₂_and_left ..).mpr ⟨hc.length_lt w t hparts, hw.parts.methods.flip⟩
    exact hlengths.flip.imp fun m out h => h.2 h.1
  obtain ⟨members, methods, hmembers, hmethods, hall⟩ := ClassParts.exists_members hall
  refine ⟨{ c with methods }, ?_, ⟨rfl, rfl, rfl, rfl, rfl, rfl, rfl, rfl, ?_⟩, hall⟩
  · rw [Class.parse_eq_toClass (hw.reads_file hc.toWithinLimits hmembers),
      Class.toClass_layout hmethods]
  · exact hall.imp fun m m' h => h.toReadAs

namespace Sample

/-- Calls for frames in every form, the last of them far behind the one before it. -/
def framedCalls : List BuilderCall :=
  [.mark, .type .newObject "a/C", .frameAppend [.uninitialized ⟨0⟩, .double], .plain .nop,
    .frameChop 1, .plain .nop, .frameSame, .plain .nop, .frameSame1 (.object "a/C"), .plain .pop,
    .frameFull [.long, .top, .int] [.null, .uninitialized ⟨0⟩]] ++
  List.replicate 65 (.plain .nop) ++ [.frameSame, .plain .returnVoid]

def framedMethod : Method where
  access := 9
  name := "m"
  desc := "(JI)V"
  maxStack := 16
  maxLocals := 6
  instructions := .ofList <|
    [.label ⟨0⟩, .type .newObject "a/C",
      .frame ⟨.append 2, [.long, .top, .int, .uninitialized ⟨0⟩, .double, .top], []⟩, .plain .nop,
      .frame ⟨.chop 1, [.long, .top, .int, .uninitialized ⟨0⟩], []⟩, .plain .nop,
      .frame ⟨.same, [.long, .top, .int, .uninitialized ⟨0⟩], []⟩, .plain .nop,
      .frame ⟨.same1, [.long, .top, .int, .uninitialized ⟨0⟩], [.object "a/C"]⟩, .plain .pop,
      .frame ⟨.full, [.long, .top, .top, .int], [.null, .uninitialized ⟨0⟩]⟩] ++
    List.replicate 65 (.plain .nop) ++
    [.frame ⟨.same, [.long, .top, .top, .int], []⟩, .plain .returnVoid]
  handlers := []
  declaredLocals := []

theorem framedMethod_isBuiltFor : framedMethod.IsBuiltFor "a/B" := by
  have hname : ModifiedUtf8.Fits "a/C" := by decide
  refine ⟨framedCalls, by decide +kernel, ?_, fun b _ => ?_⟩
  · have hnop : ∀ call ∈ List.replicate 65 (BuilderCall.plain .nop), call.Fits := by
      intro call hcall
      rw [List.eq_of_mem_replicate hcall]
      exact (rfl : Opcode.operandForm .nop = .plain)
    have hsame1 : (BuilderCall.frameSame1 (.object "a/C")).Fits := by
      rintro _ ⟨⟩
      exact hname
    simp only [framedCalls, List.forall_mem_append, List.forall_mem_cons, List.not_mem_nil,
      false_imp_iff, implies_true]
    exact ⟨⟨⟨trivial, ⟨rfl, hname⟩, nofun, rfl, trivial, rfl, trivial, rfl, hsame1, rfl, nofun,
      trivial⟩, hnop⟩, trivial, rfl, trivial⟩
  · -- Of the values that are added one can be dropped again.
    have hpresent : 1 ≤ (b.frameLocals ++ [FrameValue.uninitialized ⟨0⟩, .double]).length := by
      simp
    have hnop : ∀ call ∈ List.replicate 65 (BuilderCall.plain .nop) ++
        [.frameSame, .plain .returnVoid], ∀ b : MethodBuilder, b.Admits call := by
      intro call hcall b
      rcases List.mem_append.mp hcall with hcall | hcall
      · rw [List.eq_of_mem_replicate hcall]
        trivial
      · rcases List.mem_pair.mp hcall with rfl | rfl <;> trivial
    simp only [framedCalls, List.cons_append, List.nil_append, MethodBuilder.AdmitsAll]
    exact ⟨trivial, trivial, ⟨by decide, by decide⟩, trivial, ⟨by decide, by decide, hpresent⟩,
      trivial, trivial, trivial, trivial, trivial, ⟨by decide, by decide⟩, .of_forall hnop⟩

theorem framedMethod_withinLimits : framedMethod.WithinLimits where
  offsets := by decide
  handlers_lt := by decide
  locals_lt := by decide
  lines_lt := by decide
  targets := by
    have htargets : ∀ i ∈ framedMethod.instructions.nodes.toList, i.targets = [] := by
      decide
    intro i hi l hl
    rw [htargets i hi] at hl
    cases hl
  ranges := nofun

theorem framedMethod_frameLimits : framedMethod.FrameLimits where
  apart := by decide
  frames_lt := by decide

theorem framedClass_fits : (plainClass [framedMethod]).FitsFramed where
  toWithinLimits := plainClass_withinLimits (by decide) (by decide) (by decide +kernel)
  code := by
    intro m hm _
    rw [List.mem_singleton.mp hm]
    exact ⟨framedMethod_isBuiltFor, framedMethod_withinLimits, framedMethod_frameLimits⟩
  length_lt w t hparts := by
    have hlt : ∀ r ∈ (Assembler.classParts (plainClass [framedMethod]) .empty).toOption,
        ∀ out ∈ r.1.methods, out.length < 2 ^ 32 + 14 := by
      decide +kernel
    exact hlt (w, t) (mem_toOption.mpr hparts)

end Sample

/-- A class with a method that has frames in every form. -/
theorem Class.parse_assemble_framed :
    ∃ bytes, (Sample.plainClass [Sample.framedMethod]).assemble = .ok bytes ∧
      ∃ c', Class.parse bytes = .ok c' ∧ (Sample.plainClass [Sample.framedMethod]).ReadAs c' ∧
        List.Forall₂ Method.ReadFramed [Sample.framedMethod] c'.methods := by
  have hwritten : ∃ bytes ∈ (Sample.plainClass [Sample.framedMethod]).assemble.toOption, True := by
    decide +kernel
  obtain ⟨bytes, hbytes, -⟩ := hwritten
  have h := mem_toOption.mp hbytes
  exact ⟨bytes, h, Class.parse_assemble_frames Sample.framedClass_fits h⟩

end Injection
