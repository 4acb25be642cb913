import Injection.Proofs.Assembly.Checking
import Injection.Proofs.Assembly.FrameTrip

/-!
A class is read back with its values cut. Whatever is not told by the format is lost without harm:
large operands and line numbers, labels without a key, ranges that end before they start, and the
class a builder was made for. Beside that, some limits are not checked when a class is assembled,
and a class beyond them is written as something else.
-/

namespace Injection

open Reader

/-! ### Cut calls -/

namespace Opcode

/-- An operand that fits is not cut. -/
theorem cutOperand_of_fits {op : Opcode} {operand : Int32} (h : (Instruction.int op operand).Fits) :
    op.cutOperand operand = operand := by
  refine Int32.toInt.inj ?_
  rcases h with ⟨rfl, hlow, hhigh⟩ | ⟨rfl, hlow, hhigh⟩ | ⟨rfl, hlow, hhigh⟩
  · rw [cutOperand, if_neg (by decide), if_neg (by decide), Int8.toInt_toInt32]
    exact Int8.toInt_ofInt_of_le (by omega) (by omega)
  · rw [cutOperand, if_pos rfl, Int16.toInt_toInt32]
    exact Int16.toInt_ofInt_of_le (by omega) (by omega)
  · rw [cutOperand, if_neg (by decide), if_pos rfl, toInt_cutOperand_type]
    omega

end Opcode

def BuilderCall.cut (is : InstructionList) : BuilderCall → BuilderCall
  | line n start => line n.toUInt16.toUInt32 start
  | int op operand => int op (op.cutOperand operand)
  | invokeDynamic name desc bootstrap args =>
    invokeDynamic name desc bootstrap.cut (Constant.cutAll args)
  | ldc c => ldc c.cut
  | lookupSwitch default keys targets => lookupSwitch default keys (targets.take keys.length)
  | declareLocal name desc start stop slot =>
    declareLocal name desc start (DeclaredLocal.cut is ⟨name, desc, start, stop, slot⟩).stop slot
  | call => call

theorem DeclaredLocal.cut_eq (is : InstructionList) (name desc : String) (start stop : Label)
    (slot : UInt16) : DeclaredLocal.cut is ⟨name, desc, start, stop, slot⟩ =
      ⟨name, desc, start, (DeclaredLocal.cut is ⟨name, desc, start, stop, slot⟩).stop, slot⟩ := by
  rw [cut]
  split
  · split <;> rfl
  · rfl

/-- No range that is cut ends before it starts. -/
theorem DeclaredLocal.le_of_cut {is : InstructionList} {d : DeclaredLocal} {j k : Nat}
    (hj : is.placeOf? (d.cut is).start = some j) (hk : is.placeOf? (d.cut is).stop = some k) :
    j ≤ k := by
  revert hj hk
  rw [cut]
  split
  · next start stop hstart hstop =>
      split
      · exact fun hj hk => Nat.le_of_eq (Option.some.inj (hj.symm.trans hk))
      · next hle =>
          intro hj hk
          cases hstart.symm.trans hj
          cases hstop.symm.trans hk
          exact Nat.le_of_not_lt hle
  · next hnone => exact fun hj hk => absurd hk (hnone j k hj)

namespace MethodBuilder

def cut (is : InstructionList) (b : MethodBuilder) : MethodBuilder :=
  { b with
    nodes := b.nodes.map Instruction.cut
    declaredLocals := b.declaredLocals.map (DeclaredLocal.cut is) }

variable {is : InstructionList} {b : MethodBuilder}

theorem intPush_cut (value : Int32) : (intPush value).cut = intPush value := by
  have hfits := (intPush_fits value).1
  revert hfits
  simp only [intPush]
  split
  · exact fun _ => rfl
  · split
    · exact fun hfits => congrArg (Instruction.int _) (Opcode.cutOperand_of_fits hfits)
    · split
      · exact fun hfits => congrArg (Instruction.int _) (Opcode.cutOperand_of_fits hfits)
      · exact fun _ => rfl

/-- It makes no difference whether the values are cut before a call or after it. -/
theorem apply_cut (call : BuilderCall) :
    (b.cut is).apply (call.cut is) = (b.apply call).cut is := by
  cases call with
  | pushInt value => simp only [BuilderCall.cut, apply, push, cut, Array.map_push, intPush_cut]
  | declareLocal name desc start stop slot =>
      simp only [BuilderCall.cut, apply, reserve, cut, List.map_append, List.map_singleton]
      rw [← DeclaredLocal.cut_eq]
  | newLabel | handler | maxStack => rfl
  | _ =>
      simp only [BuilderCall.cut, apply, pushFrame, reserve, push, cut, Array.map_push,
        Instruction.cut]

theorem foldl_cut (is : InstructionList) (calls : List BuilderCall) :
    (calls.map (BuilderCall.cut is)).foldl apply (b.cut is) = (calls.foldl apply b).cut is := by
  induction calls generalizing b with
  | nil => rfl
  | cons call calls ih => rw [List.map_cons, List.foldl_cons, apply_cut, ih, List.foldl_cons]

theorem admits_cut (call : BuilderCall) : (b.cut is).Admits (call.cut is) ↔ b.Admits call := by
  cases call <;> rfl

theorem admitsAll_cut {calls : List BuilderCall} (h : b.AdmitsAll calls) :
    (b.cut is).AdmitsAll (calls.map (BuilderCall.cut is)) := by
  induction calls generalizing b with
  | nil => trivial
  | cons call calls ih =>
      refine ⟨(admits_cut call).mpr h.1, ?_⟩
      rw [apply_cut]
      exact ih h.2

theorem cut_of_new (is : InstructionList) {owner : String} {access : Access} {name desc : String}
    (hnew : new owner access name desc = .ok b) : b.cut is = b := by
  obtain ⟨locals, -, hnew⟩ := bind_eq_ok.mp hnew
  obtain ⟨d, -, hnew⟩ := bind_eq_ok.mp hnew
  cases hnew
  simp only [cut, Array.map_empty, List.map_nil]

end MethodBuilder

/-! ### Cut methods -/

namespace InstructionList

variable (is : InstructionList) (l : Label)

theorem lastBefore_cut (j : Nat) :
    lastBefore ⟨is.nodes.map Instruction.cut⟩ (· = .label l) j =
      is.lastBefore (· = .label l) j := by
  induction j with
  | zero => rfl
  | succ j ih =>
      have hholds : holds ⟨is.nodes.map Instruction.cut⟩ (· = .label l) j =
          is.holds (· = .label l) j := by
        rw [holds, holds, get?, get?, Array.getElem?_map, Option.any_map]
        refine congrArg (Option.any · _) (funext fun i => ?_)
        exact decide_eq_decide.mpr Instruction.cut_eq_label
      rw [lastBefore, lastBefore, hholds, ih]

theorem countP_cut (nodes : List Instruction) :
    (nodes.map Instruction.cut).countP Instruction.isReal = nodes.countP Instruction.isReal := by
  have hreal : Instruction.isReal ∘ Instruction.cut = Instruction.isReal :=
    funext Instruction.isReal_cut
  rw [List.countP_map, hreal]

/-- Labels keep their places. -/
theorem placeOf?_cut : placeOf? ⟨is.nodes.map Instruction.cut⟩ l = is.placeOf? l := by
  have hposition : labelPosition? ⟨is.nodes.map Instruction.cut⟩ l = is.labelPosition? l := by
    rw [labelPosition?, lastBefore_cut, labelPosition?, size, Array.size_map, size]
  rw [placeOf?, placeOf?, hposition]
  refine congrArg (Option.map · _) (funext fun i => ?_)
  rw [Array.toList_map, ← List.map_take, countP_cut]

theorem framesFrom_cut (k : Nat) (nodes : List Instruction) :
    framesFrom k (nodes.map Instruction.cut) = framesFrom k nodes := by
  induction nodes generalizing k with
  | nil => rfl
  | cons i nodes ih =>
      cases i with
      | frame f => exact congrArg ((k, f) :: ·) (ih k)
      | _ => exact ih _

end InstructionList

namespace Method

structure Limits (m : Method) : Prop where
  offsets : m.OffsetsFit
  handlers_lt : m.handlers.length < 2 ^ 16
  locals_lt : m.declaredLocals.length < 2 ^ 16
  lines_lt : (m.instructions.nodes.toList.filterMap Instruction.lineMark?).length < 2 ^ 16
  targets : ∀ i ∈ m.instructions.nodes.toList, ∀ l ∈ i.cut.targets, ∀ k,
    m.instructions.placeOf? l = some k → k < m.instructions.nodes.toList.countP (·.isReal)

/-- A method made on a builder for any class, by calls that the format can hold once their
arguments are cut. -/
def IsMadeFor (m : Method) (owner : String) : Prop :=
  ∃ calls, MethodBuilder.buildAll owner m.access m.name m.desc calls = .ok m ∧
    (∀ call ∈ calls, (call.cut m.instructions).Fits) ∧
      ∀ b, MethodBuilder.new owner m.access m.name m.desc = .ok b → b.AdmitsAll calls

variable {m : Method} {owner : String}

theorem nodes_cut (m : Method) :
    m.cut.instructions.nodes.toList = m.instructions.nodes.toList.map Instruction.cut :=
  Array.toList_map

/-- The cut method is made by the cut calls. -/
theorem IsMadeFor.isBuiltFor_cut (hm : m.IsMadeFor owner) : m.cut.IsBuiltFor owner := by
  obtain ⟨calls, hbuild, hcalls, hadmits⟩ := hm
  refine ⟨calls.map (BuilderCall.cut m.instructions), ?_, ?_, fun b hnew => ?_⟩
  · obtain ⟨b, hnew, hbuild⟩ := bind_eq_ok.mp hbuild
    obtain rfl := Except.ok.inj hbuild
    have hfold := MethodBuilder.foldl_cut (b := b)
      (calls.foldl MethodBuilder.apply b).build.instructions calls
    rw [MethodBuilder.cut_of_new _ hnew] at hfold
    refine bind_eq_ok.mpr ⟨b, hnew, ?_⟩
    rw [hfold]
    rfl
  · exact List.forall_mem_map.mpr hcalls
  · rw [← MethodBuilder.cut_of_new m.instructions hnew]
    exact MethodBuilder.admitsAll_cut (hadmits b hnew)

theorem Limits.withinLimits_cut (hm : m.Limits) : m.cut.WithinLimits where
  offsets := by
    have hwidest : Instruction.widest ∘ Instruction.cut = Instruction.widest :=
      funext Instruction.widest_cut
    rw [OffsetsFit, nodes_cut, List.map_map, hwidest]
    exact hm.offsets
  handlers_lt := hm.handlers_lt
  locals_lt := by
    rw [cut, List.length_map]
    exact hm.locals_lt
  lines_lt := by
    have hmark : (fun i : Instruction => i.lineMark?.isSome) ∘ Instruction.cut =
        fun i => i.lineMark?.isSome := funext fun i => by cases i <;> rfl
    have hlt := hm.lines_lt
    rw [List.length_filterMap_eq_countP] at hlt
    rwa [nodes_cut, List.length_filterMap_eq_countP, List.countP_map, hmark]
  targets i hi l hl k hk := by
    rw [nodes_cut] at hi ⊢
    obtain ⟨i, hnode, rfl⟩ := List.mem_map.mp hi
    rw [InstructionList.countP_cut]
    refine hm.targets i hnode l hl k ?_
    rwa [← InstructionList.placeOf?_cut]
  ranges d hd j k hj hk := by
    obtain ⟨d, hd, rfl⟩ := List.mem_map.mp hd
    rw [cut, InstructionList.placeOf?_cut] at hj hk
    exact DeclaredLocal.le_of_cut hj hk

theorem FrameLimits.cut (hm : m.FrameLimits) : m.cut.FrameLimits := by
  have htable : m.cut.instructions.frameTable = m.instructions.frameTable := by
    rw [InstructionList.frameTable, nodes_cut, InstructionList.framesFrom_cut]
    rfl
  exact ⟨by rw [htable]; exact hm.apart, by rw [htable]; exact hm.frames_lt⟩

end Method

/-! ### Builders for other classes -/

/-- The locals on entry are as many for every class. -/
theorem Frame.exists_entryLocals {owner : String} {access : Access} {name desc : String}
    {locals : List FrameValue} (h : entryLocals owner access name desc = .ok locals)
    (other : String) : ∃ locals', entryLocals other access name desc = .ok locals' ∧
      locals'.length = locals.length := by
  obtain ⟨d, hd, h⟩ := bind_eq_ok.mp h
  cases h
  rw [entryLocals, hd]
  refine ⟨_, rfl, ?_⟩
  rw [List.length_append, List.length_append]
  split
  · rfl
  · split <;> rfl

namespace Bytecode

variable {current other next : List FrameValue} {entries : List (Nat × FrameEntry)}
  {fs : List (Nat × Frame)}

theorem FrameEntry.exists_localsAfter {e : FrameEntry} (hlen : other.length = current.length)
    (h : e.localsAfter current = .ok next) :
    ∃ next', e.localsAfter other = .ok next' ∧ next'.length = next.length := by
  obtain ⟨kind, locals, stack⟩ := e
  cases kind with
  | append count =>
      cases h
      exact ⟨_, rfl, by rw [List.length_append, hlen, List.length_append]⟩
  | chop count =>
      simp only [localsAfter, ← hlen] at h
      split at h
      · cases h
      · next hle =>
          cases h
          exact ⟨_, if_neg hle, by rw [List.length_take, List.length_take, hlen]⟩
  | full =>
      cases h
      exact ⟨_, rfl, rfl⟩
  | same | same1 | expanded =>
      cases h
      exact ⟨_, rfl, hlen⟩

/-- Whether frames are found depends on the number of locals on entry only. -/
theorem exists_frames (hlen : other.length = current.length)
    (h : frames current entries = .ok fs) : ∃ fs', frames other entries = .ok fs' := by
  induction entries generalizing current other fs with
  | nil => exact ⟨[], rfl⟩
  | cons entry entries ih =>
      obtain ⟨next, hnext, h⟩ := bind_eq_ok.mp h
      obtain ⟨rest, hrest, -⟩ := bind_eq_ok.mp h
      obtain ⟨next', hnext', hlen'⟩ := entry.2.exists_localsAfter hlen hnext
      obtain ⟨rest', hrest'⟩ := ih hlen' hrest
      exact ⟨_, bind_eq_ok.mpr ⟨next', hnext', bind_eq_ok.mpr ⟨rest', hrest', rfl⟩⟩⟩

end Bytecode

namespace Assembler

/-- A method is read back in a class for which its builder was not made as well. -/
theorem enters_builtMethod {u : PoolTable} {m : Method} (hu : u.IsSound)
    (hcount : u.bootstrapMethods.length < 2 ^ 16) (hname : ModifiedUtf8.Fits m.name)
    (hdesc : ModifiedUtf8.Fits m.desc)
    (hcode : m.hasCode = true → (∃ owner, ModifiedUtf8.Fits owner ∧ m.IsBuiltFor owner) ∧
      m.WithinLimits ∧ m.FrameLimits) (owner : String) :
    Enters u (methodBytes m) fun out => out.length < 2 ^ 32 + 14 →
      ∃ m', ClassFile.ReadsMethod u.pool owner out m' ∧ m.ReadAs m' := by
  have hfits (hhas : m.hasCode = true) : m.Fits ∧ ∃ builder entry,
      Frame.entryLocals builder m.access m.name m.desc = .ok entry ∧ m.IsFramed entry := by
    obtain ⟨⟨builder, hbuilder, hbuilt⟩, hlimits, hframes⟩ := hcode hhas
    obtain ⟨hm, entry, hentry, hframed⟩ := hbuilt.fits hbuilder hdesc hlimits hframes
    exact ⟨hm, builder, entry, hentry, hframed⟩
  refine (enters_framedItem hcount hname hdesc fun hhas => ?_).imp ?_
  · obtain ⟨hm, builder, entry, -, hframed⟩ := hfits hhas
    exact ⟨hm, entry, hframed⟩
  rintro _ (⟨hhas, hhead, hw, hmap, hnamed⟩ | ⟨hhas, hhead⟩) hlen
  · obtain ⟨hm, builder, entry, hbuilder, hframed⟩ := hfits hhas
    rw [length_codeItem hhead hnamed] at hlen
    have hlt := Nat.lt_of_add_lt_add_right hlen
    obtain ⟨entry', hentry, hlocals⟩ := Frame.exists_entryLocals hbuilder owner
    obtain ⟨frames, hframes⟩ := Bytecode.exists_frames hlocals (hw.frames_eq hframed hbuilder)
    obtain ⟨m', hread, hsame, -⟩ := ClassFile.reads_codeItem hhas hm hhead hw hnamed hlt
      hu.className_zero (hw.framesRead hframed hmap hlt) (hw.entries_mem_bounds hmap) hentry hframes
    exact ⟨m', hread, hsame⟩
  · exact ClassFile.reads_noCode hhas hhead

end Assembler

/-! ### Cut classes -/

/-- What is not checked of a class. Its texts have lengths and its parts have counts of two bytes,
and the code of a method comes from calls that the format can hold once their arguments are cut. -/
structure Class.IsWritable (c : Class) : Prop extends c.WithinLimits where
  code : ∀ m ∈ c.methods, m.hasCode = true →
    (∃ owner, ModifiedUtf8.Fits owner ∧ m.IsMadeFor owner) ∧ m.Limits ∧ m.FrameLimits
  length_lt : ∀ w t, Assembler.classParts c .empty = .ok (w, t) →
    ∀ out ∈ w.methods, out.length < 2 ^ 32 + 14

theorem Class.IsWritable.offsetsFit {c : Class} (hc : c.IsWritable) :
    ∀ m ∈ c.methods, m.hasCode = true → m.OffsetsFit :=
  fun m hm hhas => (hc.code m hm hhas).2.1.offsets

theorem Assembler.classParts_cut {c : Class}
    (hc : ∀ m ∈ c.methods, m.hasCode = true → m.OffsetsFit) : classParts c.cut = classParts c := by
  have hmethods := methods_cut hc
  rw [classParts, classParts, hmethods]
  rfl

theorem Class.WithinLimits.cut {c : Class} (hc : c.WithinLimits)
    (hoffsets : ∀ m ∈ c.methods, m.hasCode = true → m.OffsetsFit) : c.cut.WithinLimits where
  name := hc.name
  superName := hc.superName
  interfaces := hc.interfaces
  sourceFile := hc.sourceFile
  fields := hc.fields
  methods := List.forall_mem_map.mpr hc.methods
  interfaces_lt := hc.interfaces_lt
  fields_lt := hc.fields_lt
  methods_lt := by
    rw [Class.cut, List.length_map]
    exact hc.methods_lt
  bootstraps body t hbody := by
    rw [Assembler.classBody_cut hoffsets] at hbody
    exact hc.bootstraps body t hbody

namespace Sample

/-- Calls with an operand of two bytes where there is room for one, a line number of three bytes,
a label without a key, and a range that ends before it starts. -/
def lossyCalls : List BuilderCall :=
  [.mark, .newLabel, .line 70000 ⟨0⟩, .int .bipush 300, .lookupSwitch ⟨1⟩ [1] [⟨1⟩, ⟨0⟩],
    .label ⟨1⟩, .frameSame, .plain .returnVoid, .declareLocal "x" "I" ⟨1⟩ ⟨0⟩ 1]

def lossyMethod : Method where
  access := 1
  name := "m"
  desc := "()V"
  maxStack := 16
  maxLocals := 2
  instructions := .ofList
    [.label ⟨0⟩, .line 70000 ⟨0⟩, .int .bipush 300, .lookupSwitch ⟨1⟩ [1] [⟨1⟩, ⟨0⟩], .label ⟨1⟩,
      .frame ⟨.same, [.object "x/Y"], []⟩, .plain .returnVoid]
  handlers := []
  declaredLocals := [⟨"x", "I", ⟨1⟩, ⟨0⟩, 1⟩]

def lossyMethodCut : Method where
  access := 1
  name := "m"
  desc := "()V"
  maxStack := 16
  maxLocals := 2
  instructions := .ofList
    [.label ⟨0⟩, .line 4464 ⟨0⟩, .int .bipush 44, .lookupSwitch ⟨1⟩ [1] [⟨1⟩], .label ⟨1⟩,
      .frame ⟨.same, [.object "x/Y"], []⟩, .plain .returnVoid]
  handlers := []
  declaredLocals := [⟨"x", "I", ⟨1⟩, ⟨1⟩, 1⟩]

theorem lossyMethod_cut : lossyMethod.cut = lossyMethodCut := by decide +kernel

theorem lossyMethod_isMadeFor : lossyMethod.IsMadeFor "x/Y" := by
  have hlocal : ((BuilderCall.declareLocal "x" "I" ⟨1⟩ ⟨0⟩ 1).cut lossyMethod.instructions).Fits :=
    ⟨by decide, by decide⟩
  refine ⟨lossyCalls, by decide +kernel, ?_, fun b _ => ?_⟩
  · simp only [lossyCalls, List.forall_mem_cons, List.not_mem_nil, false_imp_iff, implies_true]
    exact ⟨trivial, trivial, trivial, .inl ⟨rfl, by decide, by decide⟩, rfl, trivial, trivial, rfl,
      hlocal, trivial⟩
  · simp only [lossyCalls, MethodBuilder.AdmitsAll]
    exact ⟨trivial, trivial, trivial, trivial, trivial, trivial, trivial, trivial, trivial, trivial⟩

theorem lossyMethod_limits : lossyMethod.Limits where
  offsets := by decide
  handlers_lt := by decide
  locals_lt := by decide
  lines_lt := by decide
  targets := by
    have htargets : ∀ i ∈ lossyMethod.instructions.nodes.toList, ∀ l ∈ i.cut.targets,
        ∀ k ∈ lossyMethod.instructions.placeOf? l,
          k < lossyMethod.instructions.nodes.toList.countP (·.isReal) := by decide
    exact htargets

theorem lossyMethod_frameLimits : lossyMethod.FrameLimits where
  apart := by decide
  frames_lt := by decide

theorem lossyClass_isWritable : (plainClass [lossyMethod]).IsWritable where
  toWithinLimits := plainClass_withinLimits (by decide) (by decide) (by decide)
  code := by
    intro m hm _
    rw [List.mem_singleton.mp hm]
    exact ⟨⟨"x/Y", by decide, lossyMethod_isMadeFor⟩, lossyMethod_limits,
      lossyMethod_frameLimits⟩
  length_lt w t hparts := by
    have hlt : ∀ r ∈ (Assembler.classParts (plainClass [lossyMethod]) .empty).toOption,
        ∀ out ∈ r.1.methods, out.length < 2 ^ 32 + 14 := by
      decide
    exact hlt (w, t) (mem_toOption.mpr hparts)

end Sample

/-- What is written of a class has been checked, and is what is written of the class with its
values cut as long as no offset wraps. As far as the limits that are not checked go, it is read back
as that class. -/
theorem Class.parse_assemble_cut {c : Class} {bytes : List UInt8} (h : c.assemble = .ok bytes) :
    (∃ body pool, Assembler.classBody c .empty = .ok (body, pool) ∧ pool.slots.length ≤ 65535) ∧
      (∀ m ∈ c.methods, m.hasCode = true → ∃ placed, m.IsChecked placed) ∧
      ((∀ m ∈ c.methods, m.hasCode = true → m.OffsetsFit) → c.cut.assemble = .ok bytes) ∧
      (c.IsWritable → ∃ c', Class.parse bytes = .ok c' ∧ c.cut.ReadAs c') := by
  obtain ⟨hpool, hchecked⟩ := Class.isChecked_of_assemble h
  have hcut (hoffsets : ∀ m ∈ c.methods, m.hasCode = true → m.OffsetsFit) :
      c.cut.assemble = .ok bytes := by rw [Class.assemble_cut hoffsets, h]
  refine ⟨hpool, hchecked, hcut, fun hc => ?_⟩
  have hlimits := hc.toWithinLimits.cut hc.offsetsFit
  have hmethods : ∀ m ∈ c.cut.methods, m.hasCode = true →
      (∃ owner, ModifiedUtf8.Fits owner ∧ m.IsBuiltFor owner) ∧ m.WithinLimits ∧
        m.FrameLimits := by
    refine List.forall_mem_map.mpr fun m hm hhas => ?_
    rw [Method.hasCode_cut] at hhas
    obtain ⟨⟨owner, howner, hmade⟩, hlimits, hframes⟩ := hc.code m hm hhas
    exact ⟨⟨owner, howner, hmade.isBuiltFor_cut⟩, hlimits.withinLimits_cut, hframes.cut⟩
  obtain ⟨u, w, source, bootstrap, hw, ⟨t, hparts⟩, rfl⟩ := c.cut.exists_isWritten hlimits
    (fun u hu hcount m hm => Assembler.enters_builtMethod hu hcount (hlimits.methods m hm).1
      (hlimits.methods m hm).2 (hmethods m hm) c.name) (hcut hc.offsetsFit)
  rw [Assembler.classParts_cut hc.offsetsFit] at hparts
  have hall : List.Forall₂ (fun m out => ∃ m', ClassFile.ReadsMethod u.pool c.name out m' ∧
      m.ReadAs m') c.cut.methods w.methods := by
    have hlengths := (List.forall₂_and_left ..).mpr ⟨hc.length_lt w t hparts, hw.parts.methods.flip⟩
    exact hlengths.flip.imp fun m out h => h.2 h.1
  obtain ⟨members, methods, hmembers, hread, hall⟩ := ClassParts.exists_members hall
  refine ⟨{ c.cut with methods }, ?_, rfl, rfl, rfl, rfl, rfl, rfl, rfl, rfl, hall⟩
  rw [Class.parse_eq_toClass (hw.reads_file hlimits hmembers)]
  exact Class.toClass_layout hread

/-- The values of a class are lost, but it can be read. -/
theorem Class.parse_assemble_lossy :
    ∃ bytes, (Sample.plainClass [Sample.lossyMethod]).assemble = .ok bytes ∧
      ∃ c', Class.parse bytes = .ok c' ∧
        (Sample.plainClass [Sample.lossyMethodCut]).ReadAs c' := by
  have hwritten : ∃ bytes ∈ (Sample.plainClass [Sample.lossyMethod]).assemble.toOption, True := by
    decide
  obtain ⟨bytes, hbytes, -⟩ := hwritten
  have h := mem_toOption.mp hbytes
  obtain ⟨-, -, -, hread⟩ := Class.parse_assemble_cut h
  have hcut : (Sample.plainClass [Sample.lossyMethod]).cut =
      Sample.plainClass [Sample.lossyMethodCut] :=
    congrArg (fun m => Sample.plainClass [m]) Sample.lossyMethod_cut
  rw [hcut] at hread
  exact ⟨bytes, h, hread Sample.lossyClass_isWritable⟩

/-- A method that comes from a builder, is written without an error and cannot be read. -/
def Sample.IsUnreadable (calls : List BuilderCall) : Prop :=
  ∃ m bytes e, MethodBuilder.buildAll "a/B" 9 "m" "()V" calls = .ok m ∧
    (plainClass [m]).assemble = .ok bytes ∧ Class.parse bytes = .error e

theorem Sample.isUnreadable_of_none {calls : List BuilderCall}
    (h : ∃ m ∈ (MethodBuilder.buildAll "a/B" 9 "m" "()V" calls).toOption,
      ∃ bytes ∈ (plainClass [m]).assemble.toOption, (Class.parse bytes).toOption = none) :
    IsUnreadable calls := by
  obtain ⟨m, hm, bytes, hbytes, hnone⟩ := h
  cases hparse : Class.parse bytes with
  | error e => exact ⟨m, bytes, e, mem_toOption.mp hm, mem_toOption.mp hbytes, hparse⟩
  | ok c =>
      rw [hparse] at hnone
      cases hnone

/-- Beyond the limits that are not checked: a branch to the end of the code, a frame that adds four
values, and a frame that drops a value where there is none. -/
theorem Class.assembled_unreadable :
    Sample.IsUnreadable [.newLabel, .jump .goto ⟨0⟩, .label ⟨0⟩] ∧
      Sample.IsUnreadable [.frameAppend [.int, .int, .int, .int], .plain .returnVoid] ∧
      Sample.IsUnreadable [.frameChop 1, .plain .returnVoid] := by
  refine ⟨?_, ?_, ?_⟩
  · exact Sample.isUnreadable_of_none (by decide +kernel)
  · exact Sample.isUnreadable_of_none (by decide +kernel)
  · exact Sample.isUnreadable_of_none (by decide +kernel)

end Injection
