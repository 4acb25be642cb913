import Injection.Proofs.Assembly.Writing
import Injection.Sample.Compiled

/-!
A class file is read back as the class it was written from. What the format has no room for is
lost: the sizes of methods without code, and the names of labels.
-/

namespace Injection

open Reader

structure Class.ReadAs (c c' : Class) : Prop where
  minorVersion : c'.minorVersion = c.minorVersion
  majorVersion : c'.majorVersion = c.majorVersion
  access : c'.access = c.access
  name : c'.name = c.name
  superName : c'.superName = c.superName
  interfaces : c'.interfaces = c.interfaces
  sourceFile : c'.sourceFile = c.sourceFile
  fields : c'.fields = c.fields
  methods : List.Forall₂ Method.ReadAs c.methods c'.methods

abbrev Class.layout (c : Class) (u : PoolTable) (members : List ClassFile.Member) :
    ClassFile.Layout where
  minorVersion := c.minorVersion
  majorVersion := c.majorVersion
  pool := ClassFile.unlinked u.pool
  access := c.access
  name := c.name
  superName := c.superName
  interfaces := c.interfaces
  fields := c.fields.map fun f => ⟨f.access, f.name, f.desc, none⟩
  methods := members
  attributes := ⟨c.sourceFile, u.bootstrapMethods⟩

/-- A written class is laid out as it was. -/
theorem Class.IsWritten.reads_file {c : Class} {u : PoolTable} {P : Method → List UInt8 → Prop}
    {w : ClassParts} {source bootstrap : List (List UInt8)} {members : List ClassFile.Member}
    (hc : c.WithinLimits) (hw : c.IsWritten u P w source bootstrap)
    (hmembers : List.Forall₂ (fun out m => ∀ p rest,
      Reads (ClassFile.member (ClassFile.unlinked u.pool)) p out rest m) w.methods members) :
    Reads ClassFile.layout 0 (w.file c u (source ++ bootstrap)) [] (c.layout u members) := by
  have hinterfaces_lt : (w.interfaces.map fun i => Bytes.u2 i.toNat).length < 2 ^ 16 := by
    rw [List.length_map, ← hw.parts.interfaces.length_eq]
    exact hc.interfaces_lt
  have hfields_lt : w.fields.length < 2 ^ 16 := hw.parts.fields.length_eq ▸ hc.fields_lt
  have hmethods_lt : w.methods.length < 2 ^ 16 := hw.parts.methods.length_eq ▸ hc.methods_lt
  have hattributes_lt := ClassFile.length_classAttributes hw.source hw.bootstrap
  have hnat : (UInt16.ofNat (source ++ bootstrap).length).toNat = (source ++ bootstrap).length :=
    UInt16.toNat_ofNat_of_lt' (Nat.lt_of_le_of_lt hattributes_lt (by decide))
  rw [ClassParts.file, ClassParts.bytes]
  simp only [List.append_assoc]
  refine (reads_u4 _).bind ?_
  rw [if_neg (by decide)]
  refine (reads_index _).bind ((reads_index _).bind ?_)
  refine (PoolTable.reads_pool hw.pool).bind ((reads_index _).bind ((reads_index _).bind ?_))
  refine .bind_nil (.ofExcept hw.parts.name) ((reads_index _).bind ?_)
  refine Bytecode.reads_classIndex hw.parts.superName hw.pool.className_zero ?_
  refine (Reads.counted hinterfaces_lt hw.parts.reads_interfaces).bind ?_
  refine (Reads.counted hfields_lt hw.parts.reads_fields).bind ?_
  refine (Reads.counted hmethods_lt hmembers).bind ((reads_u2 _).bind ?_)
  rw [hnat]
  refine (ClassFile.reads_classAttributes hw.source hw.bootstrap hw.count_lt hw.pool.args_lt
    hw.length_lt).bind_last ?_
  exact .bind_nil (.ensureEnd _) (.pure _)

theorem Class.IsWritten.reads_layout {c : Class} {u : PoolTable}
    {P : Method → List UInt8 → Prop} {w : ClassParts} {source bootstrap : List (List UInt8)}
    {members : List ClassFile.Member} (hc : c.Fits) (hw : c.IsWritten u P w source bootstrap)
    (hmembers : List.Forall₂ (fun out m => ∀ p rest,
      Reads (ClassFile.member (ClassFile.unlinked u.pool)) p out rest m) w.methods members) :
    Reads ClassFile.layout 0 (w.file c u (source ++ bootstrap)) [] (c.layout u members) :=
  hw.reads_file hc.withinLimits hmembers

namespace Sample

/-- A lambda expression behind a branch. -/
def chooseCalls : List BuilderCall :=
  [.mark, .line 7 ⟨0⟩, .newLabel, .var .iload 0, .jump .ifeq ⟨1⟩,
    .invokeDynamic "run" "()Ljava/lang/Runnable;" metafactory [.methodType "()V"],
    .plain .areturn, .label ⟨1⟩, .plain .aconstNull, .plain .areturn, .mark,
    .declareLocal "flag" "Z" ⟨0⟩ ⟨2⟩ 0]

def chooseMethod : Method where
  access := 8
  name := "choose"
  desc := "(Z)Ljava/lang/Runnable;"
  maxStack := 16
  maxLocals := 1
  instructions := .ofList
    [.label ⟨0⟩, .line 7 ⟨0⟩, .var .iload 0, .jump .ifeq ⟨1⟩,
      .invokeDynamic "run" "()Ljava/lang/Runnable;" metafactory [.methodType "()V"],
      .plain .areturn, .label ⟨1⟩, .plain .aconstNull, .plain .areturn, .label ⟨2⟩]
  handlers := []
  declaredLocals := [⟨"flag", "Z", ⟨0⟩, ⟨2⟩, 0⟩]

def abstractMethod : Method := ⟨0x0401, "m", "()V", 16, 1, .empty, [], []⟩

def plainClass (methods : List Method) : Class where
  minorVersion := 0
  majorVersion := 52
  access := 0x21
  name := "a/B"
  superName := some "java/lang/Object"
  interfaces := []
  sourceFile := none
  fields := []
  methods

theorem chooseMethod_isBuilt : chooseMethod.IsBuilt := by
  have hbootstrap : metafactory.Fits := by constructor <;> decide +kernel
  have htype : Constant.AllFit ConstantPool.dynamicDepth [.methodType "()V"] :=
    ⟨show ModifiedUtf8.Fits "()V" by decide, trivial⟩
  have hcall : (BuilderCall.invokeDynamic "run" "()Ljava/lang/Runnable;" metafactory
      [.methodType "()V"]).Fits :=
    ⟨by decide, by decide, hbootstrap, by decide, htype⟩
  have hlocal : (BuilderCall.declareLocal "flag" "Z" ⟨0⟩ ⟨2⟩ 0).Fits :=
    ⟨by decide, by decide⟩
  refine ⟨"a/B", chooseCalls, by decide +kernel, ?_⟩
  simp only [chooseCalls, List.forall_mem_cons, List.not_mem_nil, false_imp_iff, implies_true]
  exact ⟨⟨trivial, rfl⟩, ⟨trivial, rfl⟩, ⟨trivial, rfl⟩, ⟨rfl, rfl⟩, ⟨rfl, rfl⟩, ⟨hcall, rfl⟩,
    ⟨rfl, rfl⟩, ⟨trivial, rfl⟩, ⟨rfl, rfl⟩, ⟨rfl, rfl⟩, ⟨trivial, rfl⟩, ⟨hlocal, rfl⟩, trivial⟩

theorem chooseMethod_withinLimits : chooseMethod.WithinLimits where
  offsets := by decide
  handlers_lt := by decide
  locals_lt := by decide
  lines_lt := by decide
  targets := by
    have htargets : ∀ i ∈ chooseMethod.instructions.nodes.toList, ∀ l ∈ i.targets,
        ∀ k ∈ chooseMethod.instructions.placeOf? l,
          k < chooseMethod.instructions.nodes.toList.countP (·.isReal) := by decide
    exact htargets
  ranges := by
    have hranges : ∀ d ∈ chooseMethod.declaredLocals,
        ∀ j ∈ chooseMethod.instructions.placeOf? d.start,
          ∀ k ∈ chooseMethod.instructions.placeOf? d.stop, j ≤ k := by decide
    exact fun d hd j k hj hk => hranges d hd j hj k hk

theorem plainClass_withinLimits {methods : List Method}
    (hmethods : ∀ m ∈ methods, ModifiedUtf8.Fits m.name ∧ ModifiedUtf8.Fits m.desc)
    (hlt : methods.length < 2 ^ 16)
    (h : ∀ r ∈ (Assembler.classBody (plainClass methods) .empty).toOption,
      r.2.bootstrapMethods.length < 2 ^ 16 ∧
        (Assembler.counted (r.2.bootstrapMethods.map Assembler.bootstrapBytes)).length < 2 ^ 32) :
    (plainClass methods).WithinLimits where
  name := show ModifiedUtf8.Fits "a/B" by decide
  superName := show ∀ name ∈ some "java/lang/Object", ModifiedUtf8.Fits name by decide
  interfaces := by simp [plainClass]
  sourceFile := by simp [plainClass]
  fields := by simp [plainClass]
  methods := hmethods
  interfaces_lt := by simp [plainClass]
  fields_lt := by simp [plainClass]
  methods_lt := hlt
  bootstraps body t hbody := h (body, t) (mem_toOption.mpr hbody)

theorem plainClass_fits {methods : List Method}
    (hmethods : ∀ m ∈ methods, ModifiedUtf8.Fits m.name ∧ ModifiedUtf8.Fits m.desc)
    (hcode : ∀ m ∈ methods, m.hasCode = true → m.IsBuilt ∧ m.WithinLimits)
    (hlt : methods.length < 2 ^ 16)
    (h : ∀ r ∈ (Assembler.classBody (plainClass methods) .empty).toOption,
      r.2.bootstrapMethods.length < 2 ^ 16 ∧
        (Assembler.counted (r.2.bootstrapMethods.map Assembler.bootstrapBytes)).length < 2 ^ 32) :
    (plainClass methods).Fits :=
  { plainClass_withinLimits hmethods hlt h with code := hcode }

theorem chooseClass_fits : (plainClass [chooseMethod, abstractMethod]).Fits := by
  refine plainClass_fits (by decide) ?_ (by decide) (by decide +kernel)
  intro m hm hhas
  rcases List.mem_pair.mp hm with rfl | rfl
  · exact ⟨chooseMethod_isBuilt, chooseMethod_withinLimits⟩
  · cases hhas

theorem abstractClass_fits : (plainClass [abstractMethod]).Fits := by
  refine plainClass_fits (by decide) ?_ (by decide) (by decide)
  intro m hm hhas
  rw [List.mem_singleton.mp hm] at hhas
  cases hhas

end Sample

/-- A class whose class file can be written is read back from it. -/
theorem Class.parse_assemble {c : Class} {bytes : List UInt8} (hc : c.Fits)
    (h : c.assemble = .ok bytes) : ∃ c', Class.parse bytes = .ok c' ∧ c.ReadAs c' := by
  obtain ⟨u, w, source, bootstrap, hw, rfl⟩ := c.assemble_eq_ok hc h
  obtain ⟨members, methods, hmembers, hmethods, hall⟩ :=
    ClassParts.exists_members hw.parts.methods
  have hread := hw.reads_layout hc hmembers
  rw [Reads, List.append_nil] at hread
  refine ⟨{ c with methods }, ?_, rfl, rfl, rfl, rfl, rfl, rfl, rfl, rfl, hall⟩
  rw [Class.parse, Cursor.ofBytes, hread]
  change (members.mapM (ClassFile.method u.pool c.name) >>= fun methods => Except.ok _) = _
  rw [hmethods]
  have hfields : (c.fields.map fun f => (⟨f.access, f.name, f.desc, none⟩ : ClassFile.Member)).map
      (fun f => (⟨f.access, f.name, f.desc⟩ : Field)) = c.fields := by
    rw [List.map_map]
    exact List.map_id _
  change Except.ok { c with fields := _, methods } = _
  rw [hfields]

/-- A class with a branch, a dynamic call and a method without code. -/
theorem Class.parse_assemble_choose :
    ∃ bytes, (Sample.plainClass [Sample.chooseMethod, Sample.abstractMethod]).assemble = .ok bytes ∧
      ∃ c', Class.parse bytes = .ok c' ∧
        (Sample.plainClass [Sample.chooseMethod, Sample.abstractMethod]).ReadAs c' := by
  have hwritten : ∃ bytes ∈ (Sample.plainClass
      [Sample.chooseMethod, Sample.abstractMethod]).assemble.toOption, True := by
    decide +kernel
  obtain ⟨bytes, hbytes, -⟩ := hwritten
  have h := mem_toOption.mp hbytes
  exact ⟨bytes, h, Class.parse_assemble Sample.chooseClass_fits h⟩

/-- The sizes of a method without code are lost, even of one that comes from a builder. -/
theorem Class.parse_assemble_abstract :
    (Sample.plainClass [Sample.abstractMethod]).Fits ∧ Sample.abstractMethod.IsBuilt ∧
      ∃ bytes c', (Sample.plainClass [Sample.abstractMethod]).assemble = .ok bytes ∧
        Class.parse bytes = .ok c' ∧
          c'.methods.map (fun m => (m.maxStack, m.maxLocals)) ≠
            (Sample.plainClass [Sample.abstractMethod]).methods.map
              fun m => (m.maxStack, m.maxLocals) := by
  have hlost : ∃ c' ∈ (Sample.plainClass [Sample.abstractMethod]).assemble.toOption.bind
      fun bytes => (Class.parse bytes).toOption,
        c'.methods.map (fun m => (m.maxStack, m.maxLocals)) ≠
          (Sample.plainClass [Sample.abstractMethod]).methods.map
            fun m => (m.maxStack, m.maxLocals) := by
    decide +kernel
  obtain ⟨c', hc', hsizes⟩ := hlost
  obtain ⟨bytes, hbytes, hparse⟩ := Option.bind_eq_some_iff.mp hc'
  exact ⟨Sample.abstractClass_fits, ⟨"a/B", [], by decide +kernel, by simp⟩, bytes, c',
    mem_toOption.mp hbytes, mem_toOption.mp hparse, hsizes⟩

end Injection
