import Injection.Proofs.Assembly.Framing
import Injection.Proofs.Descriptor.Written
import Mathlib.Data.List.Flatten

/-!
Frames from a builder. Whatever calls come between them, the frames that a builder places follow on
one another, and it keeps the locals that the last of them leaves.
-/

namespace Injection

namespace ModifiedUtf8

/-- What is written of a part of a text is no longer than what is written of the text. -/
theorem Fits.of_sublist {part text : String} (h : Fits text)
    (hpart : part.toList.Sublist text.toList) : Fits part :=
  Nat.lt_of_le_of_lt ((hpart.flatMap unitsOfChar).flatMap bytesOfUnit).length_le h

end ModifiedUtf8

namespace Frame

/-- The class of a parameter, or its array descriptor, is part of the descriptor of the method. -/
theorem fits_ofFieldType {desc name : String} {d : MethodDescriptor} {t : FieldType}
    (hdesc : ModifiedUtf8.Fits desc) (hd : MethodDescriptor.parse desc = .ok d)
    (ht : t ∈ d.params) (hname : FrameValue.ofFieldType t = .object name) :
    ModifiedUtf8.Fits name := by
  refine hdesc.of_sublist ?_
  have hparam : t.chars.Sublist desc.toList := by
    have hmem : t.chars ∈ d.params.map FieldType.chars := List.mem_map_of_mem ht
    rw [← MethodDescriptor.chars_of_parse hd, MethodDescriptor.chars, List.cons_append]
    exact ((List.sublist_flatten_of_mem hmem).trans (List.sublist_append_left ..)).cons _
  cases t with
  | base b => cases b <;> cases hname
  | object n =>
      cases hname
      exact ((List.sublist_append_left ..).cons 'L').trans hparam
  | array component =>
      cases hname
      rwa [FieldType.descriptor, String.toList_ofList]

theorem fits_entryLocals {owner : String} {access : Access} {name desc : String}
    {locals : List FrameValue} (howner : ModifiedUtf8.Fits owner) (hdesc : ModifiedUtf8.Fits desc)
    (h : entryLocals owner access name desc = .ok locals) {n : String}
    (hn : .object n ∈ locals) : ModifiedUtf8.Fits n := by
  obtain ⟨d, hd, h⟩ := bind_eq_ok.mp h
  cases h
  rcases List.mem_append.mp hn with hn | hn
  · split at hn
    · cases hn
    · split at hn
      · cases List.mem_singleton.mp hn
      · cases List.mem_singleton.mp hn
        exact howner
  · obtain ⟨t, ht, hname⟩ := List.mem_map.mp hn
    exact fits_ofFieldType hdesc hd ht hname

end Frame

namespace MethodBuilder

/-- A call for a frame that the format has a form for: it adds one to three values, drops one to
three that are there, or gives all in counts of two bytes. -/
def Admits (b : MethodBuilder) : BuilderCall → Prop
  | .frameAppend added => 1 ≤ added.length ∧ added.length ≤ 3
  | .frameChop count => 1 ≤ count ∧ count ≤ 3 ∧ count ≤ b.frameLocals.length
  | .frameFull locals stack => locals.length < 2 ^ 16 ∧ stack.length < 2 ^ 16
  | _ => True

def AdmitsAll : MethodBuilder → List BuilderCall → Prop
  | _, [] => True
  | b, call :: calls => b.Admits call ∧ (b.apply call).AdmitsAll calls

/-- Calls that are admitted wherever they are made. -/
theorem AdmitsAll.of_forall {b : MethodBuilder} {calls : List BuilderCall}
    (h : ∀ call ∈ calls, ∀ b : MethodBuilder, b.Admits call) : b.AdmitsAll calls := by
  induction calls generalizing b with
  | nil => trivial
  | cons call calls ih =>
      exact ⟨h call List.mem_cons_self b, ih fun c hc => h c (List.mem_cons_of_mem _ hc)⟩

/-- The frames placed so far lead from some locals to the current ones, and the names in them can
be written. -/
structure Framed (b : MethodBuilder) (entry : List FrameValue) : Prop where
  chain : Frame.Chain entry b.frames b.frameLocals
  locals : ∀ name, .object name ∈ b.frameLocals → ModifiedUtf8.Fits name
  frames : ∀ f ∈ b.frames, (Instruction.frame f).Fits

variable {b : MethodBuilder} {entry : List FrameValue}

theorem Framed.of_eq (hb : b.Framed entry) {b' : MethodBuilder}
    (h : b'.frames = b.frames ∧ b'.frameLocals = b.frameLocals) : b'.Framed entry := by
  obtain ⟨hframes, hlocals⟩ := h
  refine ⟨?_, ?_, ?_⟩
  · rw [hframes, hlocals]
    exact hb.chain
  · rw [hlocals]
    exact hb.locals
  · rw [hframes]
    exact hb.frames

theorem Framed.pushFrame (hb : b.Framed entry) {next : List FrameValue} {kind : FrameKind}
    {stack : List FrameValue}
    (hf : Frame.Follows b.frameLocals (.ofValues kind next stack) next)
    (hnext : ∀ name, .object name ∈ next → ModifiedUtf8.Fits name)
    (hstack : ∀ name, .object name ∈ stack → ModifiedUtf8.Fits name) :
    ({ b with frameLocals := next }.pushFrame kind stack).Framed entry := by
  have hframes : ({ b with frameLocals := next }.pushFrame kind stack).frames =
      b.frames ++ [.ofValues kind next stack] := frames_push _ _
  refine ⟨?_, hnext, ?_⟩
  · rw [hframes]
    exact hb.chain.snoc hf
  · rw [hframes]
    intro f hmem
    rcases List.mem_append.mp hmem with hmem | hmem
    · exact hb.frames f hmem
    · rw [List.mem_singleton.mp hmem]
      intro name hname
      rcases List.mem_append.mp hname with hname | hname
      · exact hnext name ((Frame.mem_expand hname).resolve_right nofun)
      · exact hstack name hname

theorem Framed.apply (hb : b.Framed entry) {call : BuilderCall} (hcall : call.Fits)
    (hadmits : b.Admits call) : (b.apply call).Framed entry := by
  cases hframe : call.isFrame with
  | false => exact hb.of_eq (frames_apply hframe)
  | true =>
      cases call with
      | frameSame => exact hb.pushFrame (.same _) hb.locals nofun
      | frameSame1 v =>
          refine hb.pushFrame (.same1 _ v) hb.locals fun name hname => ?_
          exact hcall name (List.mem_singleton.mp hname).symm
      | frameAppend added =>
          refine hb.pushFrame (.append _ added hadmits.1 hadmits.2) (fun name hname => ?_) nofun
          exact (List.mem_append.mp hname).elim (hb.locals name) (hcall name)
      | frameChop count =>
          obtain ⟨hpos, hle, hpresent⟩ := hadmits
          refine hb.pushFrame (.chop _ count hpos hle hpresent) (fun name hname => ?_) nofun
          exact hb.locals name (List.mem_of_mem_take hname)
      | frameFull locals stack =>
          exact hb.pushFrame (.full _ locals stack hadmits.1 hadmits.2)
            (fun name hname => hcall name (List.mem_append_left _ hname))
            (fun name hname => hcall name (List.mem_append_right _ hname))
      | _ => cases hframe

/-- However many calls are made, the frames follow on one another. -/
theorem Framed.foldl (hb : b.Framed entry) {calls : List BuilderCall}
    (hcalls : ∀ call ∈ calls, call.Fits) (hadmits : b.AdmitsAll calls) :
    (calls.foldl MethodBuilder.apply b).Framed entry := by
  induction calls generalizing b with
  | nil => exact hb
  | cons call calls ih =>
      exact ih (hb.apply (hcalls call List.mem_cons_self) hadmits.1)
        (fun c hc => hcalls c (List.mem_cons_of_mem _ hc)) hadmits.2

end MethodBuilder

namespace Method

/-- A method made on a builder for a class by calls that the format can hold. -/
def IsBuiltFor (m : Method) (owner : String) : Prop :=
  ∃ calls, MethodBuilder.buildAll owner m.access m.name m.desc calls = .ok m ∧
    (∀ call ∈ calls, call.Fits) ∧
      ∀ b, MethodBuilder.new owner m.access m.name m.desc = .ok b → b.AdmitsAll calls

variable {m : Method} {owner : String}

theorem IsBuiltFor.fits (hm : m.IsBuiltFor owner) (howner : ModifiedUtf8.Fits owner)
    (hdesc : ModifiedUtf8.Fits m.desc) (hlimits : m.WithinLimits) (hframes : m.FrameLimits) :
    m.Fits ∧ ∃ entry, Frame.entryLocals owner m.access m.name m.desc = .ok entry ∧
      m.IsFramed entry := by
  obtain ⟨calls, hbuild, hcalls, hadmits⟩ := hm
  obtain ⟨b, hnew, hbuild⟩ := bind_eq_ok.mp hbuild
  specialize hadmits b hnew
  obtain rfl := Except.ok.inj hbuild
  obtain ⟨hb, hnone, hentry⟩ := MethodBuilder.eq_empty_of_new hnew
  have hstart : b.Framed b.frameLocals :=
    ⟨by rw [hnone]; exact .nil _, fun name h => Frame.fits_entryLocals howner hdesc hentry h,
      by rw [hnone]; exact nofun⟩
  have hfits := hb.foldl hcalls
  have hframed := hstart.foldl hcalls hadmits
  have hchain : Frame.Chain b.frameLocals
      ((calls.foldl MethodBuilder.apply b).build.instructions.frameTable.map (·.2))
      (calls.foldl MethodBuilder.apply b).frameLocals := by
    rw [InstructionList.frameTable_map_snd]
    exact hframed.chain
  have hnodes : ∀ i ∈ (calls.foldl MethodBuilder.apply b).nodes.toList, i.Fits := by
    intro i hi
    cases hframe : i.frame? with
    | none => exact hfits.nodes i hi (Instruction.frame?_eq_none.mp hframe)
    | some f =>
        rw [Instruction.frame?_eq_some.mp hframe]
        exact hframed.frames f (List.mem_filterMap.mpr ⟨i, hi, hframe⟩)
  exact ⟨{ hlimits with
    nodes := hnodes
    catchTypes := hfits.catchTypes
    locals := hfits.locals }, b.frameLocals, hentry, { hframes with chain := ⟨_, hchain⟩ }⟩

end Method

end Injection
