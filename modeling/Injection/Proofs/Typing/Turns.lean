import Injection.Proofs.Typing.Solution
import Injection.Proofs.Typing.Survey

/-!
Analyses while classes change.

Of an analysis that asks each time for the classes as they are then, little can be said: its frames
may solve no equations, and it may go on for ever. But every turn ends, whatever it is told, and
keeps the invariant of the frames, in which no class has a say. `Survey.Meets` is the rule by which
this is shown, one merge after the other.
-/

namespace Injection

variable {α β : Type}

namespace Inquiry

/-- Whatever it is told, the inquiry ends with an answer of `P`. -/
def Ends (P : α → Prop) : Inquiry α → Prop
  | done a => P a
  | ask _ next => ∀ found, (next found).Ends P

theorem Ends.mono {P Q : α → Prop} {q : Inquiry α} (hq : q.Ends P) (h : ∀ a, P a → Q a) :
    q.Ends Q := by
  induction q with
  | done a => exact h a hq
  | ask name next ih => exact fun found => ih found (hq found)

theorem Ends.bind {P : α → Prop} {Q : β → Prop} {q : Inquiry α} {f : α → Inquiry β}
    (hq : q.Ends P) (hf : ∀ a, P a → (f a).Ends Q) : (q >>= f).Ends Q := by
  induction q with
  | done a => exact hf a hq
  | ask name next ih => exact fun found => ih found (hq found)

theorem Ends.against {P : α → Prop} {q : Inquiry α} (hq : q.Ends P)
    (class? : String → Option Class) : P (q.against class?) := by
  induction q with
  | done a => exact hq
  | ask name next ih => exact ih _ (hq _)

theorem ends_trivial (q : Inquiry α) : q.Ends fun _ => True := by
  induction q with
  | done a => trivial
  | ask name next ih => exact ih

/-! ### Merging adds no array levels -/

theorem mergeDescriptors_ends (a b : List Char) :
    (mergeDescriptors a b).Ends fun merged =>
      arrayNesting merged ≤ max (arrayNesting a) (arrayNesting b) := by
  have top {most : Nat} : arrayNesting Hierarchy.topDescriptor ≤ most := by
    rw [show arrayNesting Hierarchy.topDescriptor = 0 by decide]
    exact Nat.zero_le _
  fun_induction mergeDescriptors a b with
  | case1 a => exact Nat.le_max_left _ _
  | case2 a b _ _ ih =>
      refine Ends.bind ih fun merged hmerged => ?_
      change arrayNesting merged + 1 ≤ max (arrayNesting a + 1) (arrayNesting b + 1)
      omega
  | case3 => exact top
  | case4 => exact Nat.le_max_left _ _
  | case5 => exact top
  | case6 => exact (ends_trivial _).bind fun name _ => Nat.zero_le _
  | case7 => exact top

theorem merge_ends {nesting : Nat} {a b : TypeValue} (ha : a.nesting ≤ nesting)
    (hb : b.nesting ≤ nesting) : (merge a b).Ends (·.nesting ≤ nesting) := by
  unfold merge
  split
  · exact ha
  · split
    · exact hb
    · exact ha
    · rename_i x y _
      refine (mergeDescriptors_ends x.toList y.toList).bind fun merged hmerged => ?_
      simp only [TypeValue.nesting] at ha hb
      change arrayNesting (String.ofList merged).toList ≤ nesting
      rw [String.toList_ofList]
      omega
    · exact Nat.zero_le _

theorem mergeAll_ends {nesting : Nat} {known incoming : List TypeValue}
    (hlen : known.length = incoming.length) (hknown : ∀ v ∈ known, v.nesting ≤ nesting)
    (hincoming : ∀ v ∈ incoming, v.nesting ≤ nesting) :
    (mergeAll known incoming).Ends fun merged =>
      merged.length = known.length ∧ ∀ v ∈ merged, v.nesting ≤ nesting := by
  induction known generalizing incoming with
  | nil => exact ⟨rfl, List.forall_mem_nil _⟩
  | cons v known ih =>
      cases incoming with
      | nil => cases hlen
      | cons w incoming =>
          rw [List.forall_mem_cons] at hknown hincoming
          refine (merge_ends hknown.1 hincoming.1).bind fun merged hmerged =>
            (ih (Nat.succ.inj hlen) hknown.2 hincoming.2).bind fun rest hrest => ?_
          exact ⟨congrArg Nat.succ hrest.1, List.forall_mem_cons.mpr ⟨hmerged, hrest.2⟩⟩

theorem mergeFrames_ends {nesting : Nat} {known incoming : TypeFrame}
    (hlocals : known.locals.length = incoming.locals.length)
    (hstack : known.stack.length = incoming.stack.length) (hknown : known.Within nesting)
    (hincoming : incoming.Within nesting) :
    (mergeFrames known incoming).Ends fun merged =>
      merged.locals.length = known.locals.length ∧ merged.stack.length = known.stack.length ∧
        merged.Within nesting := by
  have hreverse {f : TypeFrame} (hf : f.Within nesting) :
      ∀ v ∈ f.stack.reverse, v.nesting ≤ nesting :=
    fun v hv => hf.stack v (List.mem_reverse.mp hv)
  have hlength : known.stack.reverse.length = incoming.stack.reverse.length := by
    rw [List.length_reverse, List.length_reverse, hstack]
  refine (mergeAll_ends hlocals hknown.locals hincoming.locals).bind fun locals hl => ?_
  refine Ends.bind (mergeAll_ends hlength (hreverse hknown) (hreverse hincoming)) fun stack hs => ?_
  refine ⟨hl.1, ?_, hl.2, fun v hv => hs.2 v (List.mem_reverse.mp hv)⟩
  rw [List.length_reverse, hs.1, List.length_reverse]

end Inquiry

namespace Survey

/-- How a survey ends that began with a token: it has a result of `P` and has not cancelled the
token; or the method itself is at fault; or the token was cancelled. -/
def Reaches (w : Watch) (P : α → Prop) : Except AnalyzeError α × Watch → Prop
  | (.ok a, w') => P a ∧ (w.IsLive → w'.IsLive)
  | (.error e, _) => e.OfMethod ∨ e = .cancelled ∧ ¬w.IsLive

/-- A token that a later part finds cancelled is not live, if the part before did not cancel it. -/
theorem Reaches.of_live {P : α → Prop} {w w' : Watch} (hlive : w.IsLive → w'.IsLive)
    {r : Except AnalyzeError α × Watch} (hr : Reaches w' P r) : Reaches w P r := by
  obtain ⟨e | a, w''⟩ := r
  · exact hr.imp_right fun h => ⟨h.1, mt hlive h.2⟩
  · exact ⟨hr.1, fun h => hr.2 (hlive h)⟩

/-- Whatever it is told, the survey ends in one of these ways. -/
def Meets (P : α → Prop) (s : Survey AnalyzeError α) : Prop := ∀ w, (s w).Ends (Reaches w P)

section

variable {P : α → Prop} {Q : β → Prop}

theorem meets_pure {a : α} (ha : P a) : Meets P (pure a) := fun _ => ⟨ha, id⟩

theorem meets_ofExcept {r : Except AnalyzeError α} (hok : ∀ a, r = .ok a → P a)
    (herror : ∀ e, r = .error e → e.OfMethod) : Meets P (ofExcept r) := by
  intro w
  cases r with
  | error e => exact .inl (herror e rfl)
  | ok a => exact ⟨hok a rfl, id⟩

theorem meets_throw {e : AnalyzeError} (he : e.OfMethod) : Meets P (throw e) := fun _ => .inl he

theorem meets_checkpoint :
    Meets (fun _ => True) (ofQuery (Query.checkpoint AnalyzeError.cancelled)) := by
  intro w
  cases hcancelled : w.isCancelled with
  | true =>
      have hdead : ¬w.IsLive := fun hlive => by
        rw [Watch.isCancelled, hlive] at hcancelled
        cases hcancelled
      rw [ofQuery, ExceptT.run, StateT.run, Query.checkpoint, hcancelled]
      exact .inr ⟨rfl, hdead⟩
  | false =>
      rw [ofQuery, ExceptT.run, StateT.run, Query.checkpoint, hcancelled]
      exact ⟨trivial, fun hlive => hlive.look⟩

theorem meets_ofInquiry {q : Inquiry α} (hq : q.Ends P) : Meets P (ofInquiry q) :=
  fun _ => hq.bind fun _ ha => ⟨ha, id⟩

theorem Meets.bind {s : Survey AnalyzeError α} {f : α → Survey AnalyzeError β} (hs : Meets P s)
    (hf : ∀ a, P a → Meets Q (f a)) : Meets Q (s >>= f) := by
  intro w
  refine Inquiry.Ends.bind (hs w) fun (r, w') hr => ?_
  cases r with
  | error e => exact hr
  | ok a => exact (hf a hr.1 w').mono fun _ => Reaches.of_live hr.2

theorem Meets.mono {Q : α → Prop} {s : Survey AnalyzeError α} (hs : Meets P s)
    (h : ∀ a, P a → Q a) : Meets Q s := by
  refine fun w => (hs w).mono fun (r, w') hr => ?_
  cases r with
  | error e => exact hr
  | ok a => exact ⟨h a hr.1, hr.2⟩

theorem Meets.foldlM {f : β → α → Survey AnalyzeError β} {as : List α}
    (hf : ∀ b a, Q b → a ∈ as → Meets Q (f b a)) {b : β} (hb : Q b) :
    Meets Q (as.foldlM f b) := by
  induction as generalizing b with
  | nil => exact meets_pure hb
  | cons a as ih =>
      rw [List.foldlM_cons]
      exact (hf b a hb List.mem_cons_self).bind fun b' hb' =>
        ih (fun b a hb ha => hf b a hb (List.mem_cons_of_mem _ ha)) hb'

end

variable {c : AnalysisContext} {m : Machine} {position slots size nesting : Nat}

/-- What a merge keeps of a machine. -/
theorem mergeInto_meets (hm : m.Sound size slots nesting) (hlt : position < size)
    {incoming : TypeFrame} (hin : m.Admits slots nesting incoming) :
    Meets (fun m' => m'.Sound size slots nesting ∧ m.reached ≤ m'.reached)
      (mergeInto m position incoming) := by
  have hlt' : position < m.frames.size := hm.size.symm ▸ hlt
  rw [mergeInto]
  cases hknown : m.frameAt? position with
  | none =>
      have hreached : (m.put position incoming).reached = m.reached + 1 := by
        simpa [hknown] using Machine.reached_put incoming hlt'
      have hstack := hin.stack
      exact meets_pure ⟨hm.put hlt hin.locals (by omega) hin.within, by omega⟩
  | some known =>
      dsimp only
      split
      · exact meets_throw (by simp [AnalyzeError.OfMethod])
      · rename_i hstack
        have hlocals := hm.locals position known hknown
        refine (meets_ofInquiry (Inquiry.mergeFrames_ends (hlocals.trans hin.locals.symm)
          (not_not.mp hstack) (hm.within position known hknown) hin.within)).bind
          fun merged hmerged => ?_
        obtain ⟨hmergedLocals, hmergedStack, hwithin⟩ := hmerged
        split
        · exact meets_pure ⟨hm, Nat.le_refl _⟩
        · have hreached : (m.put position merged).reached = m.reached := by
            simpa [hknown] using Machine.reached_put merged hlt'
          have hheight := hm.stack position known hknown
          exact meets_pure ⟨hm.put hlt (hmergedLocals.trans hlocals) (by omega) hwithin, by omega⟩

theorem propagate_meets (hc : c.Covered nesting)
    (hm : m.Sound c.instructions.size slots nesting) {i : Instruction} {before : TypeFrame}
    (hi : c.instructions.get? position = some i) (hbefore : m.frameAt? position = some before) :
    Meets (·.Sound c.instructions.size slots nesting)
      (propagate c.owner c.instructions c.guarded m position i before) := by
  let Goes (m' : Machine) : Prop :=
    m'.Sound c.instructions.size slots nesting ∧ m.reached ≤ m'.reached
  -- Every edge leads to a node, where the frame that goes along it may be merged.
  have edge {target : Nat} {incoming : TypeFrame}
      (hcarries : c.Carries position before target incoming) {m' : Machine} (hm' : Goes m') :
      Meets Goes (mergeInto m' target incoming) :=
    (mergeInto_meets hm'.1 (hcarries.lt_size hc.handler)
      (Machine.admits_of_carries hc hm hbefore hcarries hm'.2)).mono
        fun _ h => ⟨h.1, hm'.2.trans h.2⟩
  rw [propagate]
  refine Meets.bind (P := Goes) (Meets.foldlM (fun m' g hm' hg => ?_) ⟨hm, Nat.le_refl _⟩)
    fun m₁ hm₁ => ?_
  · obtain ⟨hmem, hcovers⟩ := List.mem_filter.mp hg
    exact edge (.handler hmem hcovers) hm'
  refine Meets.bind (P := (Typing.execute c.owner position i before = .ok ·))
    (meets_ofExcept (fun _ => id) fun e herr => (Machine.execute_ofNode herr).ofMethod)
    fun after hexec => ?_
  refine Meets.bind (P := Goes) (Meets.foldlM (fun m' l hm' hl => ?_) hm₁) fun m₂ hm₂ => ?_
  · refine Meets.bind (P := (c.instructions.labelPosition? l = some ·))
      (meets_ofExcept (fun _ => Machine.positionOf_eq_ok.mp) fun e herr =>
        (Machine.positionOf_isMissing herr).ofMethod) fun target ht => ?_
    exact edge (.target hi hexec hl ht) hm'
  split
  · exact meets_pure hm₂.1
  · rename_i hfall
    split
    · rename_i next hnext
      exact (edge (.next hi hexec (Bool.not_eq_true _ ▸ hfall) hnext) hm₂).mono fun _ => And.left
    · exact meets_pure hm₂.1

theorem step_meets (hc : c.Covered nesting) (hm : m.Sound c.instructions.size slots nesting) :
    Meets (·.Sound c.instructions.size slots nesting)
      (step c.owner c.instructions c.guarded m) := by
  rw [step]
  split
  · exact meets_pure hm
  · dsimp only
    split
    · rename_i hbefore hi
      exact propagate_meets hc (hm.with_pending _) hi hbefore
    · exact meets_pure (hm.with_pending _)

end Survey

/-! ### Analyses on their way -/

/-- An analysis of the method has come so far: as long as positions are pending, the ranges are
those of the method, and the frames meet the invariant. -/
def Progress.IsOf (owner : String) (m : Method) (p : Progress) : Prop :=
  p.machine.pending ≠ [] →
    m.handlers.mapM (Analysis.guardedRange m.instructions) = .ok p.guarded ∧
      ∃ slots, p.machine.Sound m.instructions.size slots (Analysis.nestingLimit owner m)

variable {owner : String} {m : Method} {p : Progress}

theorem Analysis.context_of_guarded (owner : String) {guarded : List GuardedRange}
    (hguarded : m.handlers.mapM (guardedRange m.instructions) = .ok guarded) (h : Hierarchy) :
    context owner m h = .ok ⟨owner, m.instructions, h, guarded⟩ := by
  rw [context, hguarded]
  rfl

namespace Survey

theorem start_meets (owner : String) (m : Method) :
    Meets (·.IsOf owner m) (start owner m) := by
  rw [start]
  split
  · exact meets_pure fun hpending => absurd rfl hpending
  · rename_i hne
    refine Meets.bind (P := (TypeFrame.entry owner m = .ok ·))
      (meets_ofExcept (fun _ => id) fun e herr => (Analysis.entry_ofNode herr).ofMethod)
      fun entry he => ?_
    refine Meets.bind
      (P := (m.handlers.mapM (Analysis.guardedRange m.instructions) = .ok ·))
      (meets_ofExcept (fun _ => id) fun e herr => ?_) fun guarded hguarded => ?_
    · have hcontext : Analysis.context owner m .unknown = .error e :=
        bind_eq_error.mpr (.inl herr)
      exact Analysis.context_ofMethod hcontext
    obtain ⟨hsound, hadmits, hpos⟩ :=
      Analysis.start_admits ((Bool.not_eq_true _).mp hne) he
    exact (mergeInto_meets hsound hpos hadmits).bind fun machine hmachine =>
      meets_pure fun _ => ⟨hguarded, _, hmachine.1⟩

/-- Whatever it is told, a turn keeps the invariant. -/
theorem turn_meets (hp : p.IsOf owner m) (hpending : p.machine.pending ≠ []) :
    Meets (·.IsOf owner m) (turn owner m.instructions p) := by
  obtain ⟨hguarded, slots, hsound⟩ := hp hpending
  have hcovered :=
    Analysis.covered_of_context (Analysis.context_of_guarded owner hguarded .unknown)
  have hrest := (step_meets hcovered hsound).bind fun machine hmachine =>
    meets_pure (a := { p with machine, taken := p.taken + 1 })
      (P := (·.IsOf owner m)) fun _ => ⟨hguarded, slots, hmachine⟩
  rw [turn]
  split
  · exact meets_checkpoint.bind fun _ _ => hrest
  · exact hrest

end Survey

end Injection
