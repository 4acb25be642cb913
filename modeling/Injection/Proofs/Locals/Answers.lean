import Injection.Locals.Cache
import Injection.Locals.Simulation
import Injection.Proofs.Steady
import Injection.Proofs.Typing.Solution

/-!
What a request finds out about local variables. While its token lives, an analysis and a query of
the variables at a place answer the same every time and never report the token, whether the
analysis is remembered or not.
-/

namespace Injection

theorem Machine.run_steady (c : AnalysisContext) (fuel count : Nat) (m : Machine) :
    Steady Watch.IsLive (· ≠ .cancelled) (Machine.run c fuel count m) := by
  induction fuel generalizing count m with
  | zero =>
      rw [run]
      split
      · exact steady_pure m
      · exact steady_throw (by simp)
  | succ fuel ih =>
      rw [run]
      split
      · exact steady_pure m
      · obtain ⟨r, hr, hgood⟩ : Steady Watch.IsLive (· ≠ .cancelled)
            (Query.ofExcept (m.step c) >>= fun m => Machine.run c fuel (count + 1) m) :=
          (Query.steady_ofExcept fun e herr => (step_ofMethod herr).1).bind
            fun m' => ih (count + 1) m'
        exact ⟨r, Query.yields_after_look _ _ hr, hgood⟩

theorem Analysis.analyze_steady (owner : String) (m : Method) (h : Hierarchy) :
    Steady Watch.IsLive (· ≠ .cancelled) (analyze owner m h) := by
  rw [analyze]
  split
  · exact steady_pure _
  · refine .bind (Query.steady_ofExcept fun e herr => ((entry_ofNode herr).ofMethod).1) fun entry => ?_
    refine .bind (Query.steady_ofExcept fun e herr => (context_ofMethod herr).1) fun c => ?_
    refine .bind (Query.steady_ofExcept fun e herr => ((Machine.mergeInto_ofNode herr).ofMethod).1)
      fun start => ?_
    exact .bind (Machine.run_steady c _ 0 start) fun machine => steady_pure machine.frames

namespace MethodAnalysis

/-- What a fresh analysis finds with a token that is never cancelled: the frames and the variables
made up from them, or nothing when the method cannot be analysed. -/
def fresh (owner : String) (m : Method) (h : Hierarchy) :
    Option (Frames × List LocalVariable) :=
  ((Analysis.analyze owner m h).answer .live).toOption.map fun frames =>
    (frames, LocalVariable.generated m frames)

/-- What a request for a fresh analysis answers with a token that is never cancelled. -/
def outcome (owner : String) (m : Method) (h : Hierarchy) :
    Except Cancelled (Option (Frames × List LocalVariable)) :=
  (compute owner m h).answer .live

variable (owner : String) (m : Method) (h : Hierarchy)

theorem compute_apply (w : Watch) : compute owner m h w =
    (conclude m (Analysis.analyze owner m h w).1, (Analysis.analyze owner m h w).2) := rfl

theorem compute_yields : Yields Watch.IsLive (compute owner m h) (outcome owner m h) := by
  obtain ⟨r, hr, -⟩ := Analysis.analyze_steady owner m h
  have hcompute : Yields Watch.IsLive (compute owner m h) (conclude m r) := by
    intro w hw
    obtain ⟨w', hw', hrun⟩ := hr w hw
    exact ⟨w', hw', by rw [compute_apply, hrun]⟩
  obtain ⟨w, -, hrun⟩ := hcompute .live rfl
  have houtcome : outcome owner m h = conclude m r := congrArg Prod.fst hrun
  rwa [houtcome]

/-- A request finds what there is to find, if the types settle. -/
theorem outcome_cases : outcome owner m h = .ok (fresh owner m h) ∨
    outcome owner m h = .error .unsettled ∧ fresh owner m h = none := by
  obtain ⟨r, hr, hgood⟩ := Analysis.analyze_steady owner m h
  obtain ⟨w, -, hrun⟩ := hr .live rfl
  have hfresh : fresh owner m h =
      r.toOption.map fun frames => (frames, LocalVariable.generated m frames) := by
    rw [fresh, Query.answer, ExceptT.run, StateT.run, hrun]
  have houtcome : outcome owner m h = conclude m r := by
    rw [outcome, Query.answer, ExceptT.run, StateT.run, compute_apply, hrun]
  rw [hfresh, houtcome]
  cases r with
  | ok frames => exact .inl rfl
  | error e =>
      cases e with
      | cancelled => exact absurd rfl (hgood .cancelled rfl)
      | unsettled => exact .inr ⟨rfl, rfl⟩
      | _ => exact .inl rfl

end MethodAnalysis

/-! ### Queries at a place -/

theorem Simulation.run_yields (c : LocalsContext) (entrySize query : Nat) (is : List Instruction)
    (position : Nat) (pending : Option UInt16) (s : Simulation) :
    ∃ s', Yields Watch.IsLive (run c entrySize query position is pending s) (.ok s') := by
  induction is generalizing position pending s with
  | nil => exact ⟨s, yields_pure s⟩
  | cons i rest ih =>
      rw [run]
      by_cases hend : position = query
      · refine ⟨(s.step c entrySize position i pending).2, Query.yields_after_look _ _ ?_⟩
        simp only [hend, if_true]
        exact yields_pure _
      · obtain ⟨s', hs'⟩ := ih (position + 1) (s.step c entrySize position i pending).1
          (s.step c entrySize position i pending).2
        refine ⟨s', Query.yields_after_look _ _ ?_⟩
        simp only [hend, if_false]
        exact hs'

theorem LocalsContext.localsAt_steady (c : LocalsContext) (position : Nat) :
    Steady Watch.IsLive (· ≠ .cancelled) (c.localsAt position) := by
  rw [localsAt]
  refine .unless _ (by simp) (.unless _ (by simp) ?_)
  cases hdesc : MethodDescriptor.parse c.method.desc with
  | error e => exact steady_throw (by simp)
  | ok desc =>
      obtain ⟨s, hs⟩ := Simulation.run_yields c (Simulation.entrySize c.method desc.params)
        (queryPosition c.method.instructions maxSkip position)
        c.method.instructions.nodes.toList 0 none (.seed c desc.params)
      exact .of_yields_ok (hs.bind (yields_pure (s.slots.map Slot.report)))

/-! ### Analyses, remembered or not -/

theorem AnalysisCache.lookup?_insert (c : AnalysisCache) (key : MethodKey) (stamp : Stamp)
    (a : MethodAnalysis) : (c.insert key ⟨a, stamp⟩).lookup? key stamp = some a := by
  simp [lookup?, insert, Stamped.get?, Stamped.isCurrent]

/-- A session with a live token in which `generated?` are the variables made up for a method: they
are remembered, or an analysis gives them. -/
def Session.Knows (owner : String) (m : Method) (h : Hierarchy) (stamp : Stamp)
    (generated? : Option (List LocalVariable)) (s : Session) : Prop :=
  s.watch.IsLive ∧
    match s.cache.lookup? (.of owner m) stamp with
    | some a => a.generated? = generated?
    | none => (MethodAnalysis.fresh owner m h).map (·.2) = generated?

variable {owner : String} {m : Method} {h : Hierarchy} {stamp : Stamp}

theorem Session.exists_knows {s : Session} (hlive : s.watch.IsLive) :
    ∃ generated?, s.Knows owner m h stamp generated? := by
  cases hlookup : s.cache.lookup? (.of owner m) stamp with
  | some a => exact ⟨a.generated?, hlive, by rw [hlookup]⟩
  | none => exact ⟨(MethodAnalysis.fresh owner m h).map (·.2), hlive, by rw [hlookup]⟩

namespace Request

variable {ε α : Type} {generated? : Option (List LocalVariable)}

/-- What does not touch the cache is the same in a session. -/
theorem yields_ofQuery {q : Query ε α} {r : Except ε α} (hq : Yields Watch.IsLive q r) :
    Yields (Session.Knows owner m h stamp generated?) (ofQuery q) r := by
  rintro s ⟨hlive, hknown⟩
  obtain ⟨w', hw', hrun⟩ := hq s.watch hlive
  refine ⟨{ s with watch := w' }, ⟨hw', hknown⟩, ?_⟩
  simp only [ofQuery, ExceptT.run, StateT.run, hrun]

theorem keeps_ofQuery {q : Query ε α} (hq : Keeps Watch.IsLive q) :
    Keeps (Session.Knows owner m h stamp generated?) (ofQuery q) :=
  fun s hs => ⟨hq s.watch hs.1, hs.2⟩

theorem yields_ofExcept {P : Session → Prop} (r : Except ε α) : Yields P (ofExcept r) r :=
  fun s hs => ⟨s, hs, rfl⟩

theorem yields_mapError {P : Session → Prop} {ε' : Type} {q : Request ε α} {r : Except ε α}
    (hq : Yields P q r) (f : ε → ε') : Yields P (q.mapError f) (r.mapError f) := by
  intro s hs
  obtain ⟨s', hs', hrun⟩ := hq s hs
  refine ⟨s', hs', ?_⟩
  simp only [mapError, ExceptT.run, StateT.run, hrun]

end Request

/-- An analysis answers with what the session knows, unless its types do not settle, and leaves it
known. -/
theorem AnalysisCache.analysis_run {generated? : Option (List LocalVariable)} {s : Session}
    (hs : s.Knows owner m h stamp generated?) :
    ∃ r s', analysis owner m h stamp s = (r, s') ∧ s'.Knows owner m h stamp generated? ∧
      ((∃ a, r = .ok a ∧ a.generated? = generated?) ∨
        r = .error .unsettled ∧ generated? = none) := by
  have hget : (get : Request Cancelled Session) s = (.ok s, s) := rfl
  rw [analysis, bind_apply, hget]
  obtain ⟨hlive, hknown⟩ := hs
  cases hlookup : s.cache.lookup? (.of owner m) stamp with
  | some a =>
      rw [hlookup] at hknown
      refine ⟨.ok a, s, ?_, ⟨hlive, by rw [hlookup]; exact hknown⟩, .inl ⟨a, rfl, hknown⟩⟩
      simp only [hlookup]
      rfl
  | none =>
      rw [hlookup] at hknown
      obtain ⟨w', hw', hrun⟩ := MethodAnalysis.compute_yields owner m h s.watch hlive
      have hquery : Request.ofQuery (MethodAnalysis.compute owner m h) s =
          (MethodAnalysis.outcome owner m h, { s with watch := w' }) := by
        simp only [Request.ofQuery, ExceptT.run, StateT.run, hrun]
      simp only [hlookup]
      rw [bind_apply, hquery]
      rcases MethodAnalysis.outcome_cases owner m h with houtcome | ⟨houtcome, hnone⟩
      · let a : MethodAnalysis := ⟨s.cache.made, MethodAnalysis.fresh owner m h⟩
        let cache := ({ s.cache with made := s.cache.made + 1 } : AnalysisCache).insert
          (.of owner m) ⟨a, stamp⟩
        rw [houtcome]
        refine ⟨.ok a, ⟨cache, w'⟩, rfl, ⟨hw', ?_⟩, .inl ⟨a, rfl, hknown⟩⟩
        rw [AnalysisCache.lookup?_insert]
        exact hknown
      · rw [houtcome]
        refine ⟨.error .unsettled, { s with watch := w' }, rfl, ⟨hw', ?_⟩, .inr ⟨rfl, ?_⟩⟩
        · rw [hlookup]
          exact hknown
        · rw [← hknown, hnone]
          rfl

end Injection
