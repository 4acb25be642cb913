import Injection.Proofs.Assembly.Code
import Injection.Proofs.Assembly.FrameChain

/-!
Methods from a builder. Calls whose arguments the format can hold give instructions, handlers and
declared locals that it can hold, and only the calls for frames place any.
-/

namespace Injection

def BuilderCall.isFrame : BuilderCall → Bool
  | .frameSame | .frameSame1 _ | .frameAppend _ | .frameChop _ | .frameFull .. => true
  | _ => false

namespace MethodBuilder

/-- What a builder holds so far can be held by the format, apart from its frames. -/
structure Fits (b : MethodBuilder) : Prop where
  nodes : ∀ i ∈ b.nodes.toList, i.isFrame = false → i.Fits
  catchTypes : ∀ h ∈ b.handlers, ∀ name ∈ h.catchType, ModifiedUtf8.Fits name
  locals : ∀ d ∈ b.declaredLocals, ModifiedUtf8.Fits d.name ∧ ModifiedUtf8.Fits d.desc

def frames (b : MethodBuilder) : List Frame := b.nodes.toList.filterMap Instruction.frame?

variable {b : MethodBuilder}

theorem Fits.push (hb : b.Fits) {i : Instruction} (hi : i.isFrame = false → i.Fits) :
    (b.push i).Fits where
  nodes j hj hframe := by
    rw [MethodBuilder.push, Array.toList_push] at hj
    rcases List.mem_append.mp hj with hj | hj
    · exact hb.nodes j hj hframe
    · rw [List.mem_singleton.mp hj] at hframe ⊢
      exact hi hframe
  catchTypes := hb.catchTypes
  locals := hb.locals

theorem frames_push (b : MethodBuilder) (i : Instruction) :
    (b.push i).frames = b.frames ++ i.frame?.toList := by
  rw [frames, push, Array.toList_push, List.filterMap_append, frames]
  cases h : i.frame? <;> simp [h]

theorem intPush_fits (value : Int32) : (intPush value).Fits ∧ (intPush value).isFrame = false := by
  simp only [intPush, Bool.and_eq_true, decide_eq_true_eq]
  split
  · refine ⟨?_, rfl⟩
    have hle : (UInt8.ofNat (3 + value.toInt).toNat).toNat ≤ 15 := by
      rw [UInt8.toNat_ofNat']
      omega
    exact if_pos hle
  · split
    · exact ⟨.inl ⟨rfl, by omega, by omega⟩, rfl⟩
    · split
      · exact ⟨.inr (.inl ⟨rfl, by omega, by omega⟩), rfl⟩
      · exact ⟨trivial, rfl⟩

theorem Fits.reserve (hb : b.Fits) (slots : Nat) : (b.reserve slots).Fits :=
  ⟨hb.nodes, hb.catchTypes, hb.locals⟩

theorem Fits.pushFrame (hb : b.Fits) (next : List FrameValue) (kind : FrameKind)
    (stack : List FrameValue) : ({ b with frameLocals := next }.pushFrame kind stack).Fits := by
  have hnext : { b with frameLocals := next }.Fits := ⟨hb.nodes, hb.catchTypes, hb.locals⟩
  exact (hnext.reserve _).push nofun

theorem Fits.apply (hb : b.Fits) {call : BuilderCall} (hcall : call.Fits) :
    (b.apply call).Fits := by
  cases call with
  | newLabel | maxStack => exact ⟨hb.nodes, hb.catchTypes, hb.locals⟩
  | label | line => exact hb.push fun _ => trivial
  | mark =>
      have hpush := hb.push (i := .label ⟨b.nextLabel⟩) fun _ => trivial
      exact ⟨hpush.nodes, hpush.catchTypes, hpush.locals⟩
  | pushInt value => exact hb.push fun _ => (intPush_fits value).1
  | var op slot => exact (hb.reserve _).push fun _ => hcall
  | iinc slot amount => exact (hb.reserve _).push fun _ => trivial
  | plain | int | type | field | method | invokeDynamic | jump | ldc | tableSwitch | lookupSwitch
  | newMultiArray => exact hb.push fun _ => hcall
  | frameSame | frameSame1 => exact hb.pushFrame b.frameLocals _ _
  | frameAppend | frameChop | frameFull => exact hb.pushFrame _ _ _
  | declareLocal name desc start stop slot =>
      refine ⟨hb.nodes, hb.catchTypes, fun d hd => ?_⟩
      rcases List.mem_append.mp hd with hd | hd
      · exact hb.locals d hd
      · rw [List.mem_singleton.mp hd]
        exact hcall
  | handler start stop handler catchType =>
      refine ⟨hb.nodes, fun h hh => ?_, hb.locals⟩
      rcases List.mem_append.mp hh with hh | hh
      · exact hb.catchTypes h hh
      · rw [List.mem_singleton.mp hh]
        exact hcall

theorem Fits.foldl (hb : b.Fits) {calls : List BuilderCall} (hcalls : ∀ call ∈ calls, call.Fits) :
    (calls.foldl MethodBuilder.apply b).Fits := by
  induction calls generalizing b with
  | nil => exact hb
  | cons call calls ih =>
      exact ih (hb.apply (hcalls call List.mem_cons_self)) fun c hc =>
        hcalls c (List.mem_cons_of_mem _ hc)

/-- A call that places no frame leaves the frames and the locals of the last one as they are. -/
theorem frames_apply {call : BuilderCall} (hframe : call.isFrame = false) :
    (b.apply call).frames = b.frames ∧ (b.apply call).frameLocals = b.frameLocals := by
  have hpush (i : Instruction) (hi : i.frame? = none) (b : MethodBuilder) :
      (b.push i).frames = b.frames := by
    rw [frames_push, hi, Option.toList_none, List.append_nil]
  cases call with
  | frameSame | frameSame1 | frameAppend | frameChop | frameFull => cases hframe
  | newLabel | declareLocal | handler | maxStack => exact ⟨rfl, rfl⟩
  | pushInt value =>
      exact ⟨hpush _ (Instruction.frame?_eq_none.mpr (intPush_fits value).2) b, rfl⟩
  | var op slot => exact ⟨hpush _ rfl (b.reserve _), rfl⟩
  | iinc slot amount => exact ⟨hpush _ rfl (b.reserve _), rfl⟩
  | _ => exact ⟨hpush _ rfl b, rfl⟩

theorem frames_foldl {calls : List BuilderCall} (hcalls : ∀ call ∈ calls, call.isFrame = false) :
    (calls.foldl MethodBuilder.apply b).frames = b.frames := by
  induction calls generalizing b with
  | nil => rfl
  | cons call calls ih =>
      exact (ih fun c hc => hcalls c (List.mem_cons_of_mem _ hc)).trans
        (frames_apply (hcalls call List.mem_cons_self)).1

/-- A new builder has no nodes yet. -/
theorem eq_empty_of_new {owner : String} {access : Access} {name desc : String}
    (hnew : new owner access name desc = .ok b) : b.Fits ∧ b.frames = [] ∧
      Frame.entryLocals owner access name desc = .ok b.frameLocals := by
  obtain ⟨locals, hlocals, hnew⟩ := bind_eq_ok.mp hnew
  obtain ⟨d, -, hnew⟩ := bind_eq_ok.mp hnew
  cases hnew
  exact ⟨⟨by simp, by simp, by simp⟩, rfl, hlocals⟩

end MethodBuilder

namespace Method

/-- A method made on a builder by calls that the format can hold and that place no frames. -/
def IsBuilt (m : Method) : Prop :=
  ∃ owner calls, MethodBuilder.buildAll owner m.access m.name m.desc calls = .ok m ∧
    ∀ call ∈ calls, call.Fits ∧ call.isFrame = false

variable {m : Method}

theorem IsBuilt.exists_builder (hm : m.IsBuilt) :
    ∃ b : MethodBuilder, b.Fits ∧ b.frames = [] ∧ b.build = m ∧
      ∃ d, MethodDescriptor.parse m.desc = .ok d := by
  obtain ⟨owner, calls, hbuild, hcalls⟩ := hm
  obtain ⟨b, hnew, hbuild⟩ := bind_eq_ok.mp hbuild
  obtain ⟨hb, hframes, hentry⟩ := MethodBuilder.eq_empty_of_new hnew
  obtain ⟨d, hd, -⟩ := bind_eq_ok.mp hentry
  refine ⟨_, hb.foldl fun call hcall => (hcalls call hcall).1, ?_, Except.ok.inj hbuild, d, hd⟩
  rw [MethodBuilder.frames_foldl fun call hcall => (hcalls call hcall).2, hframes]

theorem IsBuilt.isFrame (hm : m.IsBuilt) :
    ∀ i ∈ m.instructions.nodes.toList, i.isFrame = false := by
  obtain ⟨b, -, hframes, rfl, -⟩ := hm.exists_builder
  exact fun i hi => Instruction.frame?_eq_none.mp (List.filterMap_eq_nil_iff.mp hframes i hi)

theorem IsBuilt.fits (hm : m.IsBuilt) (hlimits : m.WithinLimits) : m.Fits := by
  have hframe := hm.isFrame
  obtain ⟨b, hb, -, rfl, -⟩ := hm.exists_builder
  exact { hlimits with
    nodes := fun i hi => hb.nodes i hi (hframe i hi)
    catchTypes := hb.catchTypes
    locals := hb.locals }

/-- The locals on entry are known, whichever class the method is put into. -/
theorem IsBuilt.entryLocals (hm : m.IsBuilt) (owner : String) :
    ∃ locals, Frame.entryLocals owner m.access m.name m.desc = .ok locals := by
  obtain ⟨-, -, -, -, d, hd⟩ := hm.exists_builder
  rw [Frame.entryLocals, hd]
  exact ⟨_, rfl⟩

end Method

end Injection
