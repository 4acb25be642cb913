import Injection.Locals.Simulation
import Injection.Proofs.Typing.Solution

/-!
The shape of the frames of an analysis: one place for each node, and in every frame a slot for each
local of the entry. Merging and executing keep the number of slots whatever the hierarchy is, so
this needs no bound on it.
-/

namespace Injection

namespace Machine

structure Shaped (size slots : Nat) (m : Machine) : Prop where
  size : m.frames.size = size
  locals : ∀ i f, m.frameAt? i = some f → f.locals.length = slots

variable {c : AnalysisContext} {h : Hierarchy} {m m' : Machine} {size slots position : Nat}

theorem Shaped.put (hm : m.Shaped size slots) {frame : TypeFrame}
    (hframe : frame.locals.length = slots) : (m.put position frame).Shaped size slots :=
  ⟨size_put.trans hm.size, fun i _ hf => (frameAt?_put_cases hf).elim (· ▸ hframe) (hm.locals i _)⟩

theorem Shaped.mergeInto (hm : m.Shaped size slots) {incoming : TypeFrame}
    (hin : incoming.locals.length = slots) (hok : m.mergeInto h position incoming = .ok m') :
    m'.Shaped size slots := by
  rcases mergeInto_cases hok with ⟨-, rfl⟩ | ⟨known, hknown, -, ⟨-, rfl⟩ | ⟨-, rfl⟩⟩
  · exact hm.put hin
  · exact hm
  · refine hm.put ?_
    rw [mergeFrames, List.length_zipWith, hm.locals position known hknown, hin, Nat.min_self]

theorem Shaped.step (hm : m.Shaped size slots) (hok : m.step c = .ok m') :
    m'.Shaped size slots := by
  rcases step_cases hok with ⟨-, rfl⟩ | ⟨position, pending, -, h | ⟨-, rfl⟩⟩
  · exact hm
  · obtain ⟨before, i, hbefore, hi, hok⟩ := h
    refine (propagate_edges (Shaped size slots) (fun _ _ _ => True)
      (show Shaped size slots { m with pending } from ⟨hm.size, hm.locals⟩) hi
      (fun target incoming hcarries s t hs hmerge => ?_) hok).1
    have hin := hcarries.length_locals.trans (hm.locals position before hbefore)
    exact ⟨hs.mergeInto hin hmerge, trivial, fun _ _ => id⟩
  · exact ⟨hm.size, hm.locals⟩

end Machine

theorem TypeValue.size_ofDescriptor (t : FieldType) :
    (TypeValue.ofDescriptor t.descriptor).size = t.slots := by
  cases t with
  | base type => cases type <;> decide
  | object | array =>
      simp [FieldType.descriptor, FieldType.chars, ofDescriptor, size, FieldType.slots]

namespace Analysis

variable {owner : String} {m : Method} {h : Hierarchy} {entry : TypeFrame}

theorem length_params (params : List FieldType) :
    (params.flatMap fun p =>
      let v := TypeValue.ofDescriptor p.descriptor
      if v.size = 2 then [v, .unset] else [v]).length = (params.map FieldType.slots).sum := by
  rw [List.length_flatMap]
  congr 1
  refine List.map_congr_left fun p _ => ?_
  have hsize := TypeValue.size_ofDescriptor p
  have hslots : p.slots = 1 ∨ p.slots = 2 := by
    unfold FieldType.slots
    split <;> omega
  dsimp only
  split
  · simp only [List.length_cons, List.length_nil]
    omega
  · simp only [List.length_cons, List.length_nil]
    omega

/-- The entry frame has a slot for each word of the receiver and the parameters, and for each local
that the method declares. -/
theorem length_entry (he : TypeFrame.entry owner m = .ok entry) :
    ∃ d, MethodDescriptor.parse m.desc = .ok d ∧
      entry.locals.length = max m.maxLocals.toNat (Simulation.entrySize m d.params) := by
  unfold TypeFrame.entry at he
  split at he
  · cases he
  · rename_i d hparse
    cases he
    refine ⟨d, hparse, ?_⟩
    have hreceiver : (if m.isStatic then [] else if m.isConstructor then [.uninitializedThis]
        else [TypeValue.object owner]).length = if m.isStatic then 0 else 1 := by
      repeat' split
      all_goals simp_all
    rw [List.length_append, List.length_append, List.length_replicate, length_params, hreceiver,
      Simulation.entrySize]
    omega

theorem maxLocals_le_entry (he : TypeFrame.entry owner m = .ok entry) :
    m.maxLocals.toNat ≤ entry.locals.length := by
  obtain ⟨d, -, hlength⟩ := length_entry he
  exact hlength ▸ Nat.le_max_left _ _

/-- An analysis answers with a place for each node, and every frame has a slot for each local that
the method declares. -/
theorem analyze_shaped :
    (analyze owner m h).Ensures fun frames => frames.size = m.instructions.size ∧
      ∀ i f, frames.at? i = some f → m.maxLocals.toNat ≤ f.locals.length := by
  refine analyze_ensures (fun hempty => ⟨?_, by simp [Frames.at?]⟩)
    fun entry c start fuel _ hentry _ hstart => ?_
  · have hnodes := Array.isEmpty_iff.mp hempty
    rw [InstructionList.size, hnodes]
    rfl
  · have hinitial : (Machine.initial m.instructions.size).Shaped m.instructions.size
        entry.locals.length :=
      ⟨by simp [Machine.initial], by simp [frameAt?_initial]⟩
    refine .mono (Machine.run_ensures (Machine.Shaped m.instructions.size entry.locals.length)
      (fun _ _ hm hok => hm.step hok) (hinitial.mergeInto rfl hstart) fuel 0) fun machine hm => ?_
    exact ⟨hm.1.size, fun i f hf => (hm.1.locals i f hf).symm ▸ maxLocals_le_entry hentry⟩

end Analysis

end Injection
