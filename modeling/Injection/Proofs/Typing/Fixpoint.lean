import Injection.Proofs.Typing.Edges
import Injection.Proofs.Typing.Errors

/-!
The analysis ends, and its frames solve the data-flow equations.

`Machine.Settled` is the invariant of the worklist: a position with a frame is pending, or its
frame has been carried along every edge. Carrying stays done because frames only rise. Since
every step lowers `Machine.measure`, the loop ends and nothing is pending then.
-/

namespace Injection

/-- What an analysis works on, with a bound on all array types that it names. -/
structure AnalysisContext.Covered (nesting : Nat) (c : AnalysisContext) : Prop where
  owner : c.owner.length ≤ nesting
  text : ∀ i ins, c.instructions.get? i = some ins → ins.text.length ≤ nesting
  handler : ∀ g ∈ c.guarded, g.handler < c.instructions.size
  caught : ∀ g ∈ c.guarded, g.caught.nesting ≤ nesting

namespace Machine

/-- The frame `before` of a position has been carried along every edge out of it. -/
def Carried (c : AnalysisContext) (m : Machine) (position : Nat) (before : TypeFrame) : Prop :=
  ∃ i after, c.instructions.get? position = some i ∧
    Typing.execute c.owner position i before = .ok after ∧
    (∀ g ∈ c.guarded, g.covers position = true →
      m.Absorbs c.hierarchy g.handler { before with stack := [g.caught] }) ∧
    (∀ l ∈ i.targets, ∃ t, c.instructions.labelPosition? l = some t ∧
      m.Absorbs c.hierarchy t after) ∧
    (i.isTransfer = false → ∀ next, c.instructions.next? position = some next →
      m.Absorbs c.hierarchy next after)

def Settled (c : AnalysisContext) (m : Machine) : Prop :=
  ∀ i f, m.frameAt? i = some f → i ∈ m.pending ∨ m.Carried c i f

variable {c : AnalysisContext} {m m' : Machine} {slots nesting position : Nat}

theorem Carried.advances (wf : c.hierarchy.WellFormed) {before : TypeFrame}
    (hdone : m.Carried c position before)
    (hm : Advances c.hierarchy c.instructions.size slots nesting m m') :
    m'.Carried c position before := by
  obtain ⟨i, after, hi, hexec, hhandlers, htargets, hnext⟩ := hdone
  refine ⟨i, after, hi, hexec, fun g hg hcov => (hhandlers g hg hcov).advances wf hm, ?_,
    fun hfall next hn => (hnext hfall next hn).advances wf hm⟩
  intro l hl
  obtain ⟨t, ht, habs⟩ := htargets l hl
  exact ⟨t, ht, habs.advances wf hm⟩

/-- What goes along an edge may be merged into the machine, also after other merges. -/
theorem admits_of_carries (hc : c.Covered nesting) (hm : m.Sound c.instructions.size slots nesting)
    {before incoming : TypeFrame} (hbefore : m.frameAt? position = some before) {target : Nat}
    (hcarries : c.Carries position before target incoming) (hle : m.reached ≤ m'.reached) :
    m'.Admits slots nesting incoming := by
  have hstack := hm.stack position before hbefore
  have hwithin := hm.within position before hbefore
  have executed {i : Instruction} {after : TypeFrame}
      (hi : c.instructions.get? position = some i)
      (hexec : Typing.execute c.owner position i before = .ok after) :
      after.stack.length ≤ 2 * m.reached ∧ after.Within nesting := by
    have hgrows := Typing.grows_execute hc.owner (hc.text position i hi) hexec
    have := hgrows.stack
    exact ⟨by omega, hgrows.within hwithin⟩
  have hin : incoming.stack.length ≤ 2 * m.reached ∧ incoming.Within nesting := by
    cases hcarries with
    | handler hg _ =>
        refine ⟨?_, hwithin.locals, by simpa using hc.caught _ hg⟩
        simp only [List.length_singleton]
        omega
    | target hi hexec _ _ => exact executed hi hexec
    | next hi hexec _ _ => exact executed hi hexec
  exact ⟨hcarries.length_locals.trans (hm.locals position before hbefore), by omega, hin.2⟩

theorem propagate_advances (wf : c.hierarchy.WellFormed) (hc : c.Covered nesting)
    (hm : m.Sound c.instructions.size slots nesting) {i : Instruction} {before : TypeFrame}
    (hi : c.instructions.get? position = some i) (hbefore : m.frameAt? position = some before)
    (hok : m.propagate c position i before = .ok m') :
    Advances c.hierarchy c.instructions.size slots nesting m m' ∧ m'.Carried c position before := by
  obtain ⟨hadv, ⟨after, hexec, hplaced⟩, habs⟩ := propagate_edges
    (Advances c.hierarchy c.instructions.size slots nesting m) (Absorbs c.hierarchy) (.refl hm) hi
    (fun target incoming hcarries s t hs hmerge => by
      obtain ⟨hst, habs⟩ := mergeInto_advances wf hs.sound (hcarries.lt_size hc.handler)
        (admits_of_carries hc hm hbefore hcarries hs.reached) hmerge
      exact ⟨hs.trans wf hst, habs, fun _ _ hold => hold.advances wf hst⟩) hok
  refine ⟨hadv, i, after, hi, hexec, fun g hg hcovers => habs _ _ (.handler hg hcovers), ?_,
    fun hfall next hnext => habs _ _ (.next hi hexec hfall hnext)⟩
  intro l hl
  obtain ⟨t, ht⟩ := hplaced l hl
  exact ⟨t, ht, habs _ _ (.target hi hexec hl ht)⟩

/-- A step keeps both invariants and lowers the measure. -/
theorem step_spec (wf : c.hierarchy.WellFormed) (hc : c.Covered nesting)
    (hm : m.Sound c.instructions.size slots nesting) (hset : m.Settled c)
    (hne : m.pending ≠ []) (hok : m.step c = .ok m') :
    m'.Sound c.instructions.size slots nesting ∧ m'.Settled c ∧
      (∀ t s, m.Absorbs c.hierarchy t s → m'.Absorbs c.hierarchy t s) ∧
      m'.measure c.hierarchy nesting (slots + 2 * c.instructions.size) <
        m.measure c.hierarchy nesting (slots + 2 * c.instructions.size) := by
  rcases step_cases hok with ⟨hdone, -⟩ | ⟨position, pending, hpending, hstep⟩
  · exact absurd hdone hne
  -- The machine without the position taken has the same frames.
  let m₀ : Machine := { m with pending }
  have hm₀ : m₀.Sound c.instructions.size slots nesting := hm.with_pending pending
  have hlower : m₀.measure c.hierarchy nesting (slots + 2 * c.instructions.size) <
      m.measure c.hierarchy nesting (slots + 2 * c.instructions.size) := by
    simp [measure, m₀, hpending]
  rcases hstep with ⟨before, i, hbefore, hi, hok⟩ | ⟨hnone, rfl⟩
  · obtain ⟨hadv, hdone⟩ := propagate_advances wf hc hm₀ hi hbefore hok
    refine ⟨hadv.sound, fun j f hf => ?_, fun t s habs => Absorbs.advances (m := m₀) wf habs hadv,
      Nat.lt_of_le_of_lt hadv.measure hlower⟩
    by_cases hj : j ∈ m'.pending
    · exact .inl hj
    · rw [hadv.rest j hj] at hf
      by_cases hjp : j = position
      · subst hjp
        have : before = f := Option.some.inj (hbefore.symm.trans hf)
        exact .inr (this ▸ hdone)
      · rcases hset j f hf with hmem | hcarried
        · rw [hpending] at hmem
          exact absurd (hadv.pending j ((List.mem_cons.mp hmem).resolve_left hjp)) hj
        · exact .inr (Carried.advances (m := m₀) wf hcarried hadv)
  · refine ⟨hm₀, fun j f hf => ?_, fun _ _ => id, hlower⟩
    rcases hset j f hf with hmem | hcarried
    · rw [hpending] at hmem
      rcases List.mem_cons.mp hmem with rfl | hmem
      · have := frameAt?_eq_none hm.size hnone
        rw [show m₀.frameAt? j = m.frameAt? j from rfl, this] at hf
        cases hf
      · exact .inl hmem
    · exact .inr hcarried

/-! ### The loop ends -/

/-- The loop that starts from a machine ends, with nothing pending or with an error. -/
inductive Ends (c : AnalysisContext) : Machine → Prop
  | settled {m : Machine} (hdone : m.pending = []) : Ends c m
  | failed {m : Machine} {e : AnalyzeError} (hstep : m.step c = .error e) : Ends c m
  | step {m m' : Machine} (hstep : m.step c = .ok m') (hrest : Ends c m') : Ends c m

/-- The loop ends where every turn keeps an invariant and lowers a count that cannot fall for
ever. -/
theorem ends_of_falls {α : Type} [Preorder α] [WellFoundedLT α] (inv : Machine → Prop)
    (count : Machine → α)
    (hturn : ∀ m m', inv m → m.pending ≠ [] → m.step c = .ok m' → inv m' ∧ count m' < count m)
    (hm : inv m) : m.Ends c := by
  induction hn : count m using WellFoundedLT.induction generalizing m with
  | _ n ih =>
      by_cases hpending : m.pending = []
      · exact .settled hpending
      · cases hstep : m.step c with
        | error e => exact .failed hstep
        | ok m' =>
            obtain ⟨hm', hlt⟩ := hturn m m' hm hpending hstep
            exact .step hstep (ih _ (hn ▸ hlt) hm' rfl)

theorem ends_of_sound (wf : c.hierarchy.WellFormed) (hc : c.Covered nesting)
    (hm : m.Sound c.instructions.size slots nesting) (hset : m.Settled c) : m.Ends c := by
  refine ends_of_falls (fun m => m.Sound c.instructions.size slots nesting ∧ m.Settled c)
    (measure c.hierarchy nesting (slots + 2 * c.instructions.size)) ?_ ⟨hm, hset⟩
  intro m m' ⟨hm, hset⟩ hpending hstep
  obtain ⟨hm', hset', -, hlt⟩ := step_spec wf hc hm hset hpending hstep
  exact ⟨⟨hm', hset'⟩, hlt⟩

/-- A look at a live token changes nothing but the count of looks. -/
theorem run_succ (hpending : m.pending ≠ []) (fuel count : Nat) {w : Watch} (hw : w.IsLive) :
    ∃ w' : Watch, w'.IsLive ∧ run c (fuel + 1) count m w =
      (Query.ofExcept (m.step c) >>= run c fuel (count + 1)) w' := by
  have hempty : m.pending.isEmpty = false := by simpa using hpending
  by_cases hlook : (count + 1) % lookInterval = 0
  · refine ⟨w.look, hw.look, ?_⟩
    simp only [run, hempty, hlook, if_true, Bool.false_eq_true, if_false, bind_apply,
      hw.checkpoint]
  · refine ⟨w, hw, ?_⟩
    simp only [run, hempty, hlook, if_false, Bool.false_eq_true, bind_apply]

/-- With enough fuel the loop reports an error of a step, or nothing is pending at its end. -/
theorem run_spec (wf : c.hierarchy.WellFormed) (hc : c.Covered nesting) (fuel count : Nat)
    {w : Watch} (hw : w.IsLive) (hm : m.Sound c.instructions.size slots nesting)
    (hset : m.Settled c)
    (hfuel : m.measure c.hierarchy nesting (slots + 2 * c.instructions.size) ≤ fuel) :
    (∃ m', (run c fuel count m w).1 = .ok m' ∧ m'.Sound c.instructions.size slots nesting ∧
      m'.Settled c ∧ m'.pending = [] ∧
      ∀ t s, m.Absorbs c.hierarchy t s → m'.Absorbs c.hierarchy t s) ∨
    ∃ e, (run c fuel count m w).1 = .error e ∧ e.OfMethod := by
  induction fuel generalizing count m w with
  | zero =>
      have hpending : m.pending = [] := List.length_eq_zero_iff.mp (by
        unfold measure at hfuel
        omega)
      refine .inl ⟨m, ?_, hm, hset, hpending, fun _ _ => id⟩
      simp [run, hpending]
  | succ fuel ih =>
      by_cases hpending : m.pending = []
      · refine .inl ⟨m, ?_, hm, hset, hpending, fun _ _ => id⟩
        simp [run, hpending]
      · obtain ⟨w', hw', hrun⟩ := run_succ hpending fuel count hw
        rw [hrun, bind_apply, Query.ofExcept_apply]
        cases hstep : m.step c with
        | error e => exact .inr ⟨e, rfl, step_ofMethod hstep⟩
        | ok m' =>
            obtain ⟨hm', hset', habs, hlt⟩ := step_spec wf hc hm hset hpending hstep
            rcases ih (count + 1) hw' hm' hset' (by omega) with ⟨m'', hok, hm'', hset'', hend, habs'⟩ | herr
            · exact .inl ⟨m'', hok, hm'', hset'', hend, fun t s h => habs' t s (habs t s h)⟩
            · exact .inr herr

end Machine

end Injection
