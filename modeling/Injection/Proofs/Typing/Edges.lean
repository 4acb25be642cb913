import Injection.Proofs.Typing.Progress

/-!
The edges along which an analysis carries the frame of a position.

`AnalysisContext.Carries` says what goes where, and `Machine.propagate_edges` is the one place that
opens `propagate`: what a merge along each edge keeps and reaches, carrying the frame on keeps and
reaches. `Machine.Continues` is what carrying on does over any hierarchy, also one in which frames
do not rise for long.
-/

namespace Injection

namespace InstructionList

variable {is : InstructionList} {i j : Nat}

theorem lt_size_of_labelPosition? {l : Label} (hl : is.labelPosition? l = some i) : i < is.size :=
  (lastBefore_eq_some_iff.mp hl).1

theorem next?_eq_some_iff : is.next? i = some j ↔ j = i + 1 ∧ j < is.size := by
  unfold next?
  split
  · rw [Option.some_inj]
    omega
  · simp only [reduceCtorEq, false_iff]
    omega

end InstructionList

namespace AnalysisContext

/-- What goes along each edge out of a position: the locals of its frame and the caught type alone
to a handler that guards it, and the frame after its instruction to its branch targets and to the
next node. -/
inductive Carries (c : AnalysisContext) (position : Nat) (before : TypeFrame) :
    (target : Nat) → (incoming : TypeFrame) → Prop
  | handler {g : GuardedRange} (hg : g ∈ c.guarded) (hcovers : g.covers position = true) :
      Carries c position before g.handler { before with stack := [g.caught] }
  | target {i : Instruction} {after : TypeFrame} {l : Label} {target : Nat}
      (hi : c.instructions.get? position = some i)
      (hexec : Typing.execute c.owner position i before = .ok after) (hl : l ∈ i.targets)
      (ht : c.instructions.labelPosition? l = some target) :
      Carries c position before target after
  | next {i : Instruction} {after : TypeFrame} {next : Nat}
      (hi : c.instructions.get? position = some i)
      (hexec : Typing.execute c.owner position i before = .ok after)
      (hfall : i.isTransfer = false) (hnext : c.instructions.next? position = some next) :
      Carries c position before next after

def Guards (c : AnalysisContext) : Prop := ∀ g ∈ c.guarded, g.handler < c.instructions.size

theorem Carries.lt_size {c : AnalysisContext} {position target : Nat}
    {before incoming : TypeFrame} (hc : c.Guards)
    (hcarries : c.Carries position before target incoming) : target < c.instructions.size := by
  cases hcarries with
  | handler hg _ => exact hc _ hg
  | target _ _ _ ht => exact InstructionList.lt_size_of_labelPosition? ht
  | next _ _ _ hnext => exact (InstructionList.next?_eq_some_iff.mp hnext).2

/-- Every edge keeps the number of locals. -/
theorem Carries.length_locals {c : AnalysisContext} {position target : Nat}
    {before incoming : TypeFrame} (hcarries : c.Carries position before target incoming) :
    incoming.locals.length = before.locals.length := by
  have executed {i : Instruction} {after : TypeFrame}
      (hexec : Typing.execute c.owner position i before = .ok after) :
      after.locals.length = before.locals.length :=
    (Typing.grows_execute (Nat.le_add_right c.owner.length i.text.length) (Nat.le_add_left _ _)
      hexec).locals
  cases hcarries with
  | handler => rfl
  | target _ hexec _ _ => exact executed hexec
  | next _ hexec _ _ => exact executed hexec

end AnalysisContext

namespace Machine

variable {c : AnalysisContext} {h : Hierarchy} {m m' m'' : Machine} {position : Nat}
  {i : Instruction} {before : TypeFrame}

theorem positionOf_eq_ok {is : InstructionList} {l : Label} {t : Nat} :
    positionOf is l = .ok t ↔ is.labelPosition? l = some t := by
  unfold positionOf
  split <;> simp_all

/-- Carrying a frame on keeps what the merge along each edge keeps, and reaches the goal of each
edge when no merge loses the goals reached before. -/
theorem propagate_edges (inv : Machine → Prop) (goal : Machine → Nat → TypeFrame → Prop)
    (hm : inv m) (hi : c.instructions.get? position = some i)
    (turn : ∀ target incoming, c.Carries position before target incoming → ∀ s t, inv s →
      s.mergeInto c.hierarchy target incoming = .ok t →
        inv t ∧ goal t target incoming ∧ ∀ j f, goal s j f → goal t j f)
    (hok : m.propagate c position i before = .ok m') :
    inv m' ∧
      (∃ after, Typing.execute c.owner position i before = .ok after ∧
        ∀ l ∈ i.targets, ∃ t, c.instructions.labelPosition? l = some t) ∧
      ∀ target incoming, c.Carries position before target incoming →
        goal m' target incoming := by
  let Adv (s t : Machine) := inv s ∧ inv t ∧ ∀ j f, goal s j f → goal t j f
  have refl {s : Machine} (hs : inv s) : Adv s s := ⟨hs, hs, fun _ _ => id⟩
  have trans (s t u : Machine) (hst : Adv s t) (htu : Adv t u) : Adv s u :=
    ⟨hst.1, htu.2.1, fun j f hgoal => htu.2.2 j f (hst.2.2 j f hgoal)⟩
  have edge {target : Nat} {incoming : TypeFrame} {s t : Machine}
      (hcarries : c.Carries position before target incoming) (hs : inv s)
      (hmerge : s.mergeInto c.hierarchy target incoming = .ok t) :
      Adv s t ∧ goal t target incoming := by
    obtain ⟨ht, hgoal, hkeep⟩ := turn target incoming hcarries s t hs hmerge
    exact ⟨⟨hs, ht, hkeep⟩, hgoal⟩
  simp only [propagate, bind_eq_ok] at hok
  obtain ⟨m₁, hhandlers, after, hexec, m₂, htargets, hrest⟩ := hok
  -- The three parts of the step, each with the goals of its own edges; later parts keep them.
  have h₁ : Adv m m₁ ∧ ∀ g ∈ c.guarded.filter (·.covers position),
      goal m₁ g.handler { before with stack := [g.caught] } := by
    refine foldlM_advances (fun m g => goal m g.handler { before with stack := [g.caught] }) trans
      (fun s t g hst => hst.2.2 _ _) (refl hm) (fun g hg s t hs hmerge => ?_) hhandlers
    obtain ⟨hmem, hcovers⟩ := List.mem_filter.mp hg
    exact edge (.handler hmem hcovers) hs.2.1 hmerge
  have h₂ : Adv m₁ m₂ ∧ ∀ l ∈ i.targets, ∃ t, c.instructions.labelPosition? l = some t ∧
      goal m₂ t after := by
    refine foldlM_advances
      (fun m l => ∃ t, c.instructions.labelPosition? l = some t ∧ goal m t after) trans ?_
      (refl h₁.1.2.1) (fun l hl s t hs hmerge => ?_) htargets
    · rintro s t l hst ⟨p, hp, hgoal⟩
      exact ⟨p, hp, hst.2.2 p after hgoal⟩
    · obtain ⟨p, hp, hmerge⟩ := bind_eq_ok.mp hmerge
      rw [positionOf_eq_ok] at hp
      obtain ⟨hadv, hgoal⟩ := edge (.target hi hexec hl hp) hs.2.1 hmerge
      exact ⟨hadv, p, hp, hgoal⟩
  have h₃ : Adv m₂ m' ∧ (i.isTransfer = false → ∀ next,
      c.instructions.next? position = some next → goal m' next after) := by
    split at hrest
    · rename_i htransfer
      cases hrest
      exact ⟨refl h₂.1.2.1, fun hfall => by rw [htransfer] at hfall; cases hfall⟩
    · rename_i hfall
      split at hrest
      · rename_i next hnext
        obtain ⟨hadv, hgoal⟩ := edge (.next hi hexec (Bool.not_eq_true _ ▸ hfall) hnext) h₂.1.2.1 hrest
        refine ⟨hadv, fun _ next' hnext' => ?_⟩
        rw [hnext] at hnext'
        cases hnext'
        exact hgoal
      · rename_i hnext
        cases hrest
        exact ⟨refl h₂.1.2.1, fun _ next' hnext' => by rw [hnext] at hnext'; cases hnext'⟩
  refine ⟨h₃.1.2.1, ⟨after, hexec, fun l hl => ?_⟩, fun target incoming hcarries => ?_⟩
  · obtain ⟨t, ht, -⟩ := h₂.2 l hl
    exact ⟨t, ht⟩
  · cases hcarries with
    | handler hg hcovers =>
        exact h₃.1.2.2 _ _ (h₂.1.2.2 _ _ (h₁.2 _ (List.mem_filter.mpr ⟨hg, hcovers⟩)))
    | target hi' hexec' hl ht =>
        cases hi.symm.trans hi'
        cases hexec.symm.trans hexec'
        obtain ⟨t', ht', hgoal⟩ := h₂.2 _ hl
        cases ht.symm.trans ht'
        exact h₃.1.2.2 _ _ hgoal
    | next hi' hexec' hfall hnext =>
        cases hi.symm.trans hi'
        cases hexec.symm.trans hexec'
        exact h₃.2 hfall _ hnext

/-- All that a step can do: nothing when nothing is pending, and else it takes the first pending
position and carries its frame on, if it has one and holds a node. -/
theorem step_cases (hok : m.step c = .ok m') :
    (m.pending = [] ∧ m' = m) ∨
    ∃ position pending, m.pending = position :: pending ∧
      ((∃ before i, m.frameAt? position = some before ∧ c.instructions.get? position = some i ∧
          propagate c { m with pending } position i before = .ok m') ∨
        ((m.frameAt? position = none ∨ c.instructions.get? position = none) ∧
          m' = { m with pending })) := by
  unfold step at hok
  split at hok
  · rename_i hpending
    cases hok
    exact .inl ⟨hpending, rfl⟩
  · rename_i position pending hpending
    refine .inr ⟨position, pending, hpending, ?_⟩
    dsimp only at hok
    split at hok
    · rename_i before i hbefore hi
      exact .inl ⟨before, i, hbefore, hi, hok⟩
    · rename_i hnone
      cases hok
      refine .inr ⟨?_, rfl⟩
      cases hbefore : m.frameAt? position with
      | none => exact .inl rfl
      | some before =>
          cases hi : c.instructions.get? position with
          | none => exact .inr rfl
          | some i => exact (hnone before i hbefore hi).elim

/-- Every position with a frame holds a node. -/
theorem frameAt?_eq_none (hsize : m.frames.size = c.instructions.size)
    (hnone : m.frameAt? position = none ∨ c.instructions.get? position = none) :
    m.frameAt? position = none := by
  rcases hnone with hnone | hnone
  · exact hnone
  · have hge : m.frames.size ≤ position := hsize ▸ Array.getElem?_eq_none_iff.mp hnone
    simp [frameAt?, hge]

/-- What every step keeps, the loop keeps, and nothing is pending at its end. -/
theorem run_ensures (inv : Machine → Prop)
    (keeps : ∀ m m', inv m → m.step c = .ok m' → inv m') (hm : inv m) (fuel count : Nat) :
    (m.run c fuel count).Ensures fun m' => inv m' ∧ m'.pending = [] := by
  induction fuel generalizing count m with
  | zero =>
      rw [run]
      split
      · rename_i hpending
        exact Query.ensures_pure ⟨hm, List.isEmpty_iff.mp hpending⟩
      · exact Query.ensures_throw _
  | succ fuel ih =>
      rw [run]
      split
      · rename_i hpending
        exact Query.ensures_pure ⟨hm, List.isEmpty_iff.mp hpending⟩
      · exact .after_look _ (.bind (Query.ensures_ofExcept fun _ hok => keeps _ _ hm hok)
          fun _ hm' => ih hm' (count + 1))

/-! ### What carrying on does over any hierarchy -/

/-- Frames stay where they are, with as many stack entries, and what is unset on a stack stays
unset; a position that is not pending afterwards was left alone. -/
structure Continues (m m' : Machine) : Prop where
  size : m'.frames.size = m.frames.size
  frames : ∀ i f, m.frameAt? i = some f → ∃ f', m'.frameAt? i = some f' ∧
    f'.stack.length = f.stack.length ∧
    ∀ depth : Nat, f.stack[depth]? = some TypeValue.unset → f'.stack[depth]? = some TypeValue.unset
  pending : ∀ i ∈ m.pending, i ∈ m'.pending
  rest : ∀ i, i ∉ m'.pending → m'.frameAt? i = m.frameAt? i

namespace Continues

theorem refl (m : Machine) : Continues m m :=
  ⟨rfl, fun _ f hf => ⟨f, hf, rfl, fun _ => id⟩, fun _ => id, fun _ _ => rfl⟩

theorem trans (hm : Continues m m') (hm' : Continues m' m'') : Continues m m'' where
  size := hm'.size.trans hm.size
  frames i f hf := by
    obtain ⟨f', hf', hlen, hunset⟩ := hm.frames i f hf
    obtain ⟨f'', hf'', hlen', hunset'⟩ := hm'.frames i f' hf'
    exact ⟨f'', hf'', hlen'.trans hlen, fun depth hu => hunset' depth (hunset depth hu)⟩
  pending i hi := hm'.pending i (hm.pending i hi)
  rest i hi := (hm'.rest i hi).trans (hm.rest i fun hmem => hi (hm'.pending i hmem))

end Continues

theorem mergeInto_continues (hlt : position < m.frames.size) {incoming : TypeFrame}
    (hok : m.mergeInto h position incoming = .ok m') :
    Continues m m' ∧ (m'.frameAt? position).isSome := by
  have hput {frame : TypeFrame}
      (hold : ∀ f, m.frameAt? position = some f → frame.stack.length = f.stack.length ∧
        ∀ depth : Nat, f.stack[depth]? = some TypeValue.unset → frame.stack[depth]? = some TypeValue.unset) :
      Continues m (m.put position frame) ∧ ((m.put position frame).frameAt? position).isSome := by
    refine ⟨⟨size_put, fun i f hf => ?_, fun i hi => mem_pending_put.mpr (.inr hi), fun i hi => ?_⟩, ?_⟩
    · by_cases hi : i = position
      · subst hi
        exact ⟨frame, frameAt?_put_self hlt, hold f hf⟩
      · exact ⟨f, (frameAt?_put_of_ne hi).trans hf, rfl, fun _ => id⟩
    · exact frameAt?_put_of_ne fun heq => hi (mem_pending_put.mpr (.inl heq))
    · rw [frameAt?_put_self hlt]
      rfl
  rcases mergeInto_cases hok with ⟨hnone, rfl⟩ | ⟨known, hknown, hstack, ⟨-, rfl⟩ | ⟨-, rfl⟩⟩
  · exact hput (by simp [hnone])
  · exact ⟨.refl m', by simp [hknown]⟩
  · refine hput fun f hf => ?_
    cases hknown.symm.trans hf
    refine ⟨by simp [mergeFrames, hstack], fun depth hu => ?_⟩
    obtain ⟨hdepth, -⟩ := List.getElem?_eq_some_iff.mp hu
    rw [hstack] at hdepth
    rw [mergeFrames, List.getElem?_zipWith, hu, List.getElem?_eq_getElem hdepth]
    exact congrArg some (h.merge_unset_left _)

theorem propagate_continues (hc : c.Guards) (hsize : m.frames.size = c.instructions.size)
    (hi : c.instructions.get? position = some i)
    (hok : m.propagate c position i before = .ok m') :
    Continues m m' ∧
      (∃ after, Typing.execute c.owner position i before = .ok after ∧
        ∀ l ∈ i.targets, ∃ t, c.instructions.labelPosition? l = some t) ∧
      ∀ target incoming, c.Carries position before target incoming →
        (m'.frameAt? target).isSome := by
  refine propagate_edges (Continues m) (fun m j _ => (m.frameAt? j).isSome) (.refl m) hi ?_ hok
  intro target incoming hcarries s t hs hmerge
  have hlt : target < s.frames.size := by
    rw [hs.size, hsize]
    exact hcarries.lt_size hc
  obtain ⟨hst, hgoal⟩ := mergeInto_continues hlt hmerge
  refine ⟨hs.trans hst, hgoal, fun j f hf => ?_⟩
  obtain ⟨g, hg⟩ := Option.isSome_iff_exists.mp hf
  obtain ⟨g', hg', -⟩ := hst.frames j g hg
  rw [hg']
  rfl

/-- A step keeps what `Continues` says of frames. -/
theorem step_frames (hc : c.Guards) (hsize : m.frames.size = c.instructions.size)
    (hok : m.step c = .ok m') :
    m'.frames.size = c.instructions.size ∧
      ∀ i f, m.frameAt? i = some f → ∃ f', m'.frameAt? i = some f' ∧
        ∀ depth : Nat, f.stack[depth]? = some TypeValue.unset →
          f'.stack[depth]? = some TypeValue.unset := by
  rcases step_cases hok with ⟨-, rfl⟩ | ⟨position, pending, -, h | ⟨-, rfl⟩⟩
  · exact ⟨hsize, fun i f hf => ⟨f, hf, fun _ => id⟩⟩
  · obtain ⟨before, i, -, hi, hok⟩ := h
    obtain ⟨hcont, -, -⟩ := propagate_continues (m := { m with pending }) hc hsize hi hok
    refine ⟨hcont.size.trans hsize, fun j f hf => ?_⟩
    obtain ⟨f', hf', -, hunset⟩ := hcont.frames j f hf
    exact ⟨f', hf', hunset⟩
  · exact ⟨hsize, fun i f hf => ⟨f, hf, fun _ => id⟩⟩

end Machine

namespace Analysis

variable {owner : String} {m : Method} {h : Hierarchy}

/-- What the frames at the end of the loop meet, and no frames when there are no nodes, the frames
of an analysis meet. -/
theorem analyze_ensures {P : Frames → Prop} (hempty : m.instructions.isEmpty = true → P #[])
    (hloop : ∀ entry c start fuel, m.instructions.isEmpty = false →
      TypeFrame.entry owner m = .ok entry → context owner m h = .ok c →
      (Machine.initial m.instructions.size).mergeInto h 0 entry = .ok start →
        (start.run c fuel 0).Ensures fun machine => P machine.frames) :
    (analyze owner m h).Ensures P := by
  rw [analyze]
  split
  · rename_i he
    exact Query.ensures_pure (hempty he)
  · rename_i hne
    refine .bind (Query.ensures_ofExcept fun _ => id) fun entry hentry => ?_
    refine .bind (Query.ensures_ofExcept fun _ => id) fun c hc => ?_
    refine .bind (Query.ensures_ofExcept fun _ => id) fun start hstart => ?_
    exact .bind (hloop entry c start _ (Bool.not_eq_true _ ▸ hne) hentry hc hstart)
      fun _ hframes => Query.ensures_pure hframes

theorem frameAt?_initial (size i : Nat) : (Machine.initial size).frameAt? i = none := by
  simp only [Machine.frameAt?, Machine.initial, Array.getElem?_replicate]
  split <;> rfl

end Analysis

end Injection
