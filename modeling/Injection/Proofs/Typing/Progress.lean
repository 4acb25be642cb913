import Injection.Proofs.Computation
import Injection.Proofs.Typing.Effect
import Injection.Typing.Analysis
import Mathlib.Algebra.Order.BigOperators.Group.List
import Mathlib.Algebra.Order.Group.Nat
import Mathlib.Data.List.Forall2

/-!
What merging into the frames found so far keeps and what it uses up.

`Machine.Sound` is the invariant of the analysis: the frames have one number of locals, a bound
on their array nesting, and a stack no higher than twice the number of positions reached.
`Machine.measure` adds the steps up that all slots still have to the number of pending positions.
Merging never raises it, and taking a position lowers it.
-/

namespace Injection

/-! ### The order of frames -/

structure FrameLe (h : Hierarchy) (f g : TypeFrame) : Prop where
  locals : List.Forall₂ h.ValueLe f.locals g.locals
  stack : List.Forall₂ h.ValueLe f.stack g.stack

section Slots

variable {h : Hierarchy} {known incoming : List TypeValue}

theorem forall₂_valueLe_refl (values : List TypeValue) :
    List.Forall₂ h.ValueLe values values :=
  List.forall₂_same.mpr fun v _ => Hierarchy.valueLe_refl v

theorem forall₂_valueLe_trans (wf : h.WellFormed) {xs ys zs : List TypeValue}
    (hxy : List.Forall₂ h.ValueLe xs ys) (hyz : List.Forall₂ h.ValueLe ys zs) :
    List.Forall₂ h.ValueLe xs zs := by
  induction hxy generalizing zs with
  | nil => exact hyz
  | cons hab _ ih =>
      cases hyz with
      | cons hbc hrest => exact .cons (wf.valueLe_trans hab hbc) (ih hrest)

theorem forall₂_zipWith_merge (wf : h.WellFormed) (hlen : known.length = incoming.length) :
    List.Forall₂ h.ValueLe known (known.zipWith h.merge incoming) ∧
      List.Forall₂ h.ValueLe incoming (known.zipWith h.merge incoming) := by
  induction known generalizing incoming with
  | nil =>
      cases incoming with
      | nil => exact ⟨.nil, .nil⟩
      | cons b incoming => cases hlen
  | cons a known ih =>
      cases incoming with
      | nil => cases hlen
      | cons b incoming =>
          obtain ⟨hknown, hincoming⟩ := ih (Nat.succ.inj hlen)
          obtain ⟨ha, hb⟩ := wf.valueLe_merge a b
          exact ⟨.cons ha hknown, .cons hb hincoming⟩

theorem zipWith_merge_eq_left (wf : h.WellFormed)
    (hle : List.Forall₂ h.ValueLe incoming known) :
    known.zipWith h.merge incoming = known := by
  induction hle with
  | nil => rfl
  | cons hab _ ih => rw [List.zipWith_cons_cons, wf.merge_eq_left_iff.mpr hab, ih]

theorem nesting_zipWith_merge_le {nesting : Nat} (hknown : ∀ v ∈ known, v.nesting ≤ nesting)
    (hincoming : ∀ v ∈ incoming, v.nesting ≤ nesting) :
    ∀ v ∈ known.zipWith h.merge incoming, v.nesting ≤ nesting := by
  induction known generalizing incoming with
  | nil => simp
  | cons a known ih =>
      cases incoming with
      | nil => simp
      | cons b incoming =>
          simp only [List.forall_mem_cons] at hknown hincoming
          rw [List.zipWith_cons_cons, List.forall_mem_cons]
          exact ⟨Hierarchy.nesting_merge_le hknown.1 hincoming.1, ih hknown.2 hincoming.2⟩

def heights (h : Hierarchy) (nesting : Nat) (values : List TypeValue) : Nat :=
  (values.map (h.height nesting)).sum

theorem heights_le_mul {nesting : Nat} {values : List TypeValue}
    (hvalues : ∀ v ∈ values, v.nesting ≤ nesting) :
    heights h nesting values ≤ values.length * (nesting + 66) := by
  unfold heights
  have hle : ∀ x ∈ values.map (h.height nesting), x ≤ nesting + 66 := by
    intro x hx
    obtain ⟨v, hv, rfl⟩ := List.mem_map.mp hx
    exact Hierarchy.height_le (hvalues v hv)
  simpa using List.sum_le_card_nsmul _ _ hle

theorem heights_le_of_le (wf : h.WellFormed) {nesting : Nat} {xs ys : List TypeValue}
    (hxy : List.Forall₂ h.ValueLe xs ys) (hys : ∀ v ∈ ys, v.nesting ≤ nesting) :
    heights h nesting ys ≤ heights h nesting xs ∧
      (xs ≠ ys → heights h nesting ys < heights h nesting xs) := by
  unfold heights
  induction hxy with
  | nil => exact ⟨Nat.le_refl _, fun hne => absurd rfl hne⟩
  | @cons a b xs ys hab _ ih =>
      simp only [List.forall_mem_cons] at hys
      obtain ⟨hle, hlt⟩ := ih hys.2
      simp only [List.map_cons, List.sum_cons]
      by_cases heq : a = b
      · subst heq
        refine ⟨by omega, fun hne => ?_⟩
        have := hlt fun hxs => hne (by rw [hxs])
        omega
      · have := wf.height_lt hab heq hys.1
        exact ⟨by omega, fun _ => by omega⟩

end Slots

namespace FrameLe

variable {h : Hierarchy}

theorem refl (f : TypeFrame) : FrameLe h f f :=
  ⟨forall₂_valueLe_refl _, forall₂_valueLe_refl _⟩

theorem trans (wf : h.WellFormed) {f g k : TypeFrame} (hfg : FrameLe h f g)
    (hgk : FrameLe h g k) : FrameLe h f k :=
  ⟨forall₂_valueLe_trans wf hfg.locals hgk.locals, forall₂_valueLe_trans wf hfg.stack hgk.stack⟩

/-- A frame that is below changes nothing. -/
theorem mergeFrames_eq (wf : h.WellFormed) {known incoming : TypeFrame}
    (hle : FrameLe h incoming known) : Machine.mergeFrames h known incoming = known := by
  rw [Machine.mergeFrames, zipWith_merge_eq_left wf hle.locals, zipWith_merge_eq_left wf hle.stack]

end FrameLe

theorem frameLe_mergeFrames {h : Hierarchy} (wf : h.WellFormed) {known incoming : TypeFrame}
    (hlocals : known.locals.length = incoming.locals.length)
    (hstack : known.stack.length = incoming.stack.length) :
    FrameLe h known (Machine.mergeFrames h known incoming) ∧
      FrameLe h incoming (Machine.mergeFrames h known incoming) := by
  have hl := forall₂_zipWith_merge wf hlocals
  have hs := forall₂_zipWith_merge wf hstack
  exact ⟨⟨hl.1, hs.1⟩, ⟨hl.2, hs.2⟩⟩

/-! ### Changing one entry of a list of counts -/

theorem sum_map_set {α : Type} (count : α → Nat) {xs : List α} {i : Nat} {old : α} (new : α)
    (hold : xs[i]? = some old) :
    ((xs.set i new).map count).sum + count old = (xs.map count).sum + count new := by
  induction xs generalizing i with
  | nil => cases hold
  | cons x xs ih =>
      cases i with
      | zero =>
          cases hold
          simp only [List.set_cons_zero, List.map_cons, List.sum_cons]
          omega
      | succ i =>
          simp only [List.set_cons_succ, List.map_cons, List.sum_cons]
          have := ih (by simpa using hold)
          omega

namespace Machine

variable {h : Hierarchy} {m : Machine} {position i : Nat} {frame : TypeFrame}

theorem frameAt?_put_self (hlt : position < m.frames.size) :
    (m.put position frame).frameAt? position = some frame := by
  simp [frameAt?, put, hlt]

theorem frameAt?_put_of_ne (hne : i ≠ position) :
    (m.put position frame).frameAt? i = m.frameAt? i := by
  simp [frameAt?, put, Ne.symm hne]

/-- Every frame after a change is the new one or one from before. -/
theorem frameAt?_put_cases {f : TypeFrame}
    (hf : (m.put position frame).frameAt? i = some f) : f = frame ∨ m.frameAt? i = some f := by
  by_cases hi : i = position
  · subst hi
    rcases Nat.lt_or_ge i m.frames.size with hlt | hge
    · exact .inl (Option.some.inj (hf.symm.trans (frameAt?_put_self hlt)))
    · refine .inr ?_
      rwa [frameAt?, put, Array.setIfInBounds_eq_of_size_le hge] at hf
  · exact .inr (by rwa [frameAt?_put_of_ne hi] at hf)

@[simp] theorem size_put : (m.put position frame).frames.size = m.frames.size := by
  simp [put]

theorem mem_pending_put : i ∈ (m.put position frame).pending ↔ i = position ∨ i ∈ m.pending := by
  unfold put
  dsimp only
  split
  · rename_i hmem
    rw [List.contains_eq_mem, decide_eq_true_eq] at hmem
    exact ⟨.inr, fun hi => hi.elim (fun heq => heq ▸ hmem) id⟩
  · rw [List.mem_append, List.mem_singleton]
    exact or_comm

theorem length_pending_put_le (m : Machine) (position : Nat) (frame : TypeFrame) :
    (m.put position frame).pending.length ≤ m.pending.length + 1 := by
  unfold put
  dsimp only
  split <;> simp

/-- All that a merge can do: the first frame of a position is put there, and a later one is merged
into the frame known, which is put back if it changes. -/
theorem mergeInto_cases {m' : Machine} {incoming : TypeFrame}
    (hok : m.mergeInto h position incoming = .ok m') :
    (m.frameAt? position = none ∧ m' = m.put position incoming) ∨
    ∃ known, m.frameAt? position = some known ∧ known.stack.length = incoming.stack.length ∧
      ((mergeFrames h known incoming = known ∧ m' = m) ∨
        (mergeFrames h known incoming ≠ known ∧
          m' = m.put position (mergeFrames h known incoming))) := by
  unfold mergeInto at hok
  split at hok
  · rename_i hnone
    cases hok
    exact .inl ⟨hnone, rfl⟩
  · rename_i known hknown
    split at hok
    · cases hok
    · rename_i hstack
      simp only [Except.ok.injEq] at hok
      refine .inr ⟨known, hknown, not_not.mp hstack, ?_⟩
      split at hok
      · rename_i hsame
        exact .inl ⟨hsame, hok.symm⟩
      · rename_i hchanged
        exact .inr ⟨hchanged, hok.symm⟩

def reached (m : Machine) : Nat :=
  (m.frames.toList.map fun f => if f.isSome then 1 else 0).sum

/-- The steps up that a position still has: more than any frame has while it is not reached. -/
def room (h : Hierarchy) (nesting most : Nat) : Option TypeFrame → Nat
  | none => most * (nesting + 66) + 1
  | some f => heights h nesting f.locals + heights h nesting f.stack

/-- The steps up of all positions and the positions still to be carried on. -/
def measure (h : Hierarchy) (nesting most : Nat) (m : Machine) : Nat :=
  (m.frames.toList.map (room h nesting most)).sum + m.pending.length

theorem getElem?_of_lt (hlt : position < m.frames.size) :
    m.frames.toList[position]? = some (m.frameAt? position) := by
  simp [frameAt?, hlt]

theorem reached_put (frame : TypeFrame) (hlt : position < m.frames.size) :
    (m.put position frame).reached + (if (m.frameAt? position).isSome then 1 else 0) =
      m.reached + 1 := by
  have := sum_map_set (fun f : Option TypeFrame => if f.isSome then 1 else 0) (some frame)
    (getElem?_of_lt hlt)
  simpa [reached, put] using this

theorem measure_put_add_le (nesting most : Nat) (frame : TypeFrame) (hlt : position < m.frames.size) :
    (m.put position frame).measure h nesting most + room h nesting most (m.frameAt? position) ≤
      m.measure h nesting most + room h nesting most (some frame) + 1 := by
  have hsum := sum_map_set (room h nesting most) (some frame) (getElem?_of_lt hlt)
  have hpending := length_pending_put_le m position frame
  have hframes : (m.put position frame).frames.toList =
    m.frames.toList.set position (some frame) := by simp [put]
  rw [measure, measure, hframes]
  omega

theorem reached_le_size (m : Machine) : m.reached ≤ m.frames.size := by
  have hle := List.sum_le_card_nsmul (m.frames.toList.map fun f => if f.isSome then 1 else 0) 1
    (by
      intro x hx
      obtain ⟨f, -, rfl⟩ := List.mem_map.mp hx
      split <;> omega)
  simpa [reached] using hle

/-! ### The invariant -/

/-- The frames of an analysis of a method with `size` nodes and `slots` locals. -/
structure Sound (size slots nesting : Nat) (m : Machine) : Prop where
  size : m.frames.size = size
  locals : ∀ i f, m.frameAt? i = some f → f.locals.length = slots
  stack : ∀ i f, m.frameAt? i = some f → f.stack.length + 2 ≤ 2 * m.reached
  within : ∀ i f, m.frameAt? i = some f → f.Within nesting

theorem reached_le_put (frame : TypeFrame) (hlt : position < m.frames.size) :
    m.reached ≤ (m.put position frame).reached := by
  have := reached_put frame hlt
  split at this <;> omega

variable {size slots nesting : Nat} in
/-- Which positions are pending is no part of it. -/
theorem Sound.with_pending (hm : m.Sound size slots nesting) (pending : List Nat) :
    Sound size slots nesting { m with pending } :=
  ⟨hm.size, hm.locals, hm.stack, hm.within⟩

variable {size slots nesting : Nat} in
theorem Sound.put (hm : m.Sound size slots nesting) (hlt : position < size)
    (hlocals : frame.locals.length = slots)
    (hstack : frame.stack.length + 2 ≤ 2 * (m.put position frame).reached)
    (hwithin : frame.Within nesting) : (m.put position frame).Sound size slots nesting := by
  have hlt' : position < m.frames.size := hm.size.symm ▸ hlt
  refine ⟨?_, ?_, ?_, ?_⟩
  · rw [size_put, hm.size]
  · intro i f hf
    rcases frameAt?_put_cases hf with rfl | hf
    · exact hlocals
    · exact hm.locals i f hf
  · intro i f hf
    rcases frameAt?_put_cases hf with rfl | hf
    · exact hstack
    · have := hm.stack i f hf
      have := reached_le_put frame hlt'
      omega
  · intro i f hf
    rcases frameAt?_put_cases hf with rfl | hf
    · exact hwithin
    · exact hm.within i f hf

structure Admits (slots nesting : Nat) (m : Machine) (f : TypeFrame) : Prop where
  locals : f.locals.length = slots
  stack : f.stack.length ≤ 2 * m.reached
  within : f.Within nesting

def Absorbs (h : Hierarchy) (m : Machine) (position : Nat) (incoming : TypeFrame) : Prop :=
  ∃ f, m.frameAt? position = some f ∧ FrameLe h incoming f

/-- What merging does to a machine: frames only rise, a position whose frame rises is pending,
and the measure does not rise. -/
structure Advances (h : Hierarchy) (size slots nesting : Nat) (m m' : Machine) : Prop where
  sound : m'.Sound size slots nesting
  frames : ∀ i f, m.frameAt? i = some f → m'.Absorbs h i f
  pending : ∀ i ∈ m.pending, i ∈ m'.pending
  rest : ∀ i, i ∉ m'.pending → m'.frameAt? i = m.frameAt? i
  reached : m.reached ≤ m'.reached
  measure : m'.measure h nesting (slots + 2 * size) ≤ m.measure h nesting (slots + 2 * size)

variable {size slots nesting : Nat} {m' m'' : Machine}

theorem Absorbs.advances (wf : h.WellFormed) {incoming : TypeFrame}
    (hin : m.Absorbs h position incoming) (hm : Advances h size slots nesting m m') :
    m'.Absorbs h position incoming := by
  obtain ⟨f, hf, hle⟩ := hin
  obtain ⟨f', hf', hle'⟩ := hm.frames position f hf
  exact ⟨f', hf', hle.trans wf hle'⟩

namespace Advances

theorem refl (hm : m.Sound size slots nesting) : Advances h size slots nesting m m where
  sound := hm
  frames _ f hf := ⟨f, hf, .refl f⟩
  pending _ := id
  rest _ _ := rfl
  reached := Nat.le_refl _
  measure := Nat.le_refl _

theorem trans (wf : h.WellFormed) (hm : Advances h size slots nesting m m')
    (hm' : Advances h size slots nesting m' m'') : Advances h size slots nesting m m'' where
  sound := hm'.sound
  frames i f hf := (hm.frames i f hf).advances wf hm'
  pending i hi := hm'.pending i (hm.pending i hi)
  rest i hi := (hm'.rest i hi).trans (hm.rest i fun hmem => hi (hm'.pending i hmem))
  reached := Nat.le_trans hm.reached hm'.reached
  measure := Nat.le_trans hm'.measure hm.measure

/-- Giving a position a higher frame. -/
theorem put (hm : m.Sound size slots nesting) (hlt : position < size)
    (hlocals : frame.locals.length = slots)
    (hstack : frame.stack.length + 2 ≤ 2 * (m.put position frame).reached)
    (hwithin : frame.Within nesting)
    (hle : ∀ f, m.frameAt? position = some f → FrameLe h f frame)
    (hroom : room h nesting (slots + 2 * size) (some frame) + 1 ≤
      room h nesting (slots + 2 * size) (m.frameAt? position)) :
    Advances h size slots nesting m (m.put position frame) := by
  have hlt' : position < m.frames.size := hm.size.symm ▸ hlt
  have hself : (m.put position frame).frameAt? position = some frame := frameAt?_put_self hlt'
  refine ⟨hm.put hlt hlocals hstack hwithin, ?_, ?_, ?_, reached_le_put frame hlt', ?_⟩
  · intro i f hf
    by_cases hi : i = position
    · subst hi
      exact ⟨frame, hself, hle f hf⟩
    · exact ⟨f, by rw [frameAt?_put_of_ne hi, hf], .refl f⟩
  · exact fun i hi => mem_pending_put.mpr (.inr hi)
  · intro i hi
    rw [mem_pending_put, not_or] at hi
    exact frameAt?_put_of_ne hi.1
  · have := measure_put_add_le (h := h) nesting (slots + 2 * size) frame hlt'
    omega

end Advances

theorem within_mergeFrames {known incoming : TypeFrame} (hknown : known.Within nesting)
    (hincoming : incoming.Within nesting) : (mergeFrames h known incoming).Within nesting :=
  ⟨nesting_zipWith_merge_le hknown.locals hincoming.locals,
    nesting_zipWith_merge_le hknown.stack hincoming.stack⟩

/-- Merging into a frame that changes takes a step up. -/
theorem room_mergeFrames_lt (wf : h.WellFormed) {known incoming : TypeFrame} {most : Nat}
    (hlocals : known.locals.length = incoming.locals.length)
    (hstack : known.stack.length = incoming.stack.length)
    (hwithin : (mergeFrames h known incoming).Within nesting)
    (hne : mergeFrames h known incoming ≠ known) :
    room h nesting most (some (mergeFrames h known incoming)) + 1 ≤
      room h nesting most (some known) := by
  obtain ⟨hle, -⟩ := frameLe_mergeFrames wf hlocals hstack
  obtain ⟨hl, hl'⟩ := heights_le_of_le wf hle.locals hwithin.locals
  obtain ⟨hs, hs'⟩ := heights_le_of_le wf hle.stack hwithin.stack
  simp only [room]
  by_cases hsame : known.locals = (mergeFrames h known incoming).locals
  · have := hs' fun heq => hne (TypeFrame.ext hsame.symm heq.symm)
    omega
  · have := hl' hsame
    omega

theorem mergeInto_advances (wf : h.WellFormed) (hm : m.Sound size slots nesting)
    (hlt : position < size) {incoming : TypeFrame} (hin : m.Admits slots nesting incoming)
    (hok : m.mergeInto h position incoming = .ok m') :
    Advances h size slots nesting m m' ∧ m'.Absorbs h position incoming := by
  have hlt' : position < m.frames.size := hm.size.symm ▸ hlt
  rcases mergeInto_cases hok with ⟨hnone, rfl⟩ | ⟨known, hknown, hstack, hmerged⟩
  -- A position that is reached for the first time had more room than any frame takes.
  · have hreached : (m.put position incoming).reached = m.reached + 1 := by
      simpa [hnone] using reached_put incoming hlt'
    have hstack : incoming.stack.length + 2 ≤ 2 * (m.put position incoming).reached := by
      have := hin.stack
      omega
    have hall : m.reached + 1 ≤ size := by
      have := reached_le_size (m.put position incoming)
      rw [size_put, hm.size] at this
      omega
    have hroom : room h nesting (slots + 2 * size) (some incoming) + 1 ≤
        room h nesting (slots + 2 * size) (m.frameAt? position) := by
      have hl := heights_le_mul (h := h) hin.within.locals
      have hs := heights_le_mul (h := h) hin.within.stack
      have hmul : (incoming.locals.length + incoming.stack.length) * (nesting + 66) ≤
          (slots + 2 * size) * (nesting + 66) := by
        have := hin.locals
        have := hin.stack
        exact Nat.mul_le_mul_right _ (by omega)
      rw [Nat.add_mul] at hmul
      rw [hnone]
      simp only [room]
      omega
    refine ⟨.put hm hlt hin.locals hstack hin.within ?_ hroom, ?_⟩
    · simp [hnone]
    · exact ⟨incoming, frameAt?_put_self hlt', .refl incoming⟩
  · have hlocals : known.locals.length = incoming.locals.length := by
      rw [hm.locals position known hknown, hin.locals]
    obtain ⟨hleKnown, hleIncoming⟩ := frameLe_mergeFrames wf hlocals hstack
    have hwithin : (mergeFrames h known incoming).Within nesting :=
      within_mergeFrames (hm.within position known hknown) hin.within
    -- A frame that stays the same is above what came in; one that changes has less room.
    rcases hmerged with ⟨hsame, rfl⟩ | ⟨hchanged, rfl⟩
    · rw [hsame] at hleIncoming
      exact ⟨.refl hm, known, hknown, hleIncoming⟩
    · have hreached : (m.put position (mergeFrames h known incoming)).reached = m.reached := by
        simpa [hknown] using reached_put (mergeFrames h known incoming) hlt'
      refine ⟨.put hm hlt ?_ ?_ hwithin ?_ ?_, _, frameAt?_put_self hlt', hleIncoming⟩
      · rw [← hm.locals position known hknown]
        exact hleKnown.locals.length_eq.symm
      · rw [hreached, ← hleKnown.stack.length_eq]
        exact hm.stack position known hknown
      · intro f hf
        rw [hknown] at hf
        cases hf
        exact hleKnown
      · rw [hknown]
        exact room_mergeFrames_lt wf hlocals hstack hwithin hchanged

end Machine

end Injection
