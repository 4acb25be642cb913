import Injection.Proofs.Point.Widening
import Injection.Proofs.Resolver.Completion
import Injection.Proofs.Resolver.Navigation

/-!
Completion leaves nothing out. It walks with the slice of the annotation, but asks for the kind and
the opcode alone and moves nothing; so whatever else an annotation says, the labels of all that it
finds are offered, each once.
-/

namespace Injection

theorem InstructionList.exists_of_mem_shiftAll {is : InstructionList} {distance : Int}
    {xs : List Candidate} {first : Nat} {m : Match} (hm : m ∈ is.shiftAll distance xs first) :
    ∃ x ∈ xs, m.offered = x.position ∧ m.element = x.element := by
  obtain ⟨⟨x, i⟩, hmem, hmoved⟩ := List.mem_filterMap.mp hm
  obtain ⟨p, -, rfl⟩ := Option.map_eq_some_iff.mp hmoved
  exact ⟨x, List.fst_mem_of_mem_zipIdx hmem, rfl, rfl⟩

namespace Resolver

variable {r : Resolver} {t : Target} {s s' : Session} {a : AtSpec} {kind : PointKind}
  {generated? : Option (List LocalVariable)}

/-! ### Items with different keys -/

section

variable {α κ : Type} [DecidableEq κ] {key : α → κ} {seen : List κ} {as : List α}

theorem mem_map_firsts {k : κ} : k ∈ (firsts key seen as).map key ↔ k ∈ as.map key ∧ k ∉ seen := by
  induction as generalizing seen with
  | nil => simp [firsts]
  | cons a as ih =>
      rw [firsts]
      split
      · rename_i hseen
        rw [ih, List.map_cons, List.mem_cons]
        constructor
        · rintro ⟨hk, hnew⟩
          exact ⟨.inr hk, hnew⟩
        · rintro ⟨rfl | hk, hnew⟩
          · exact absurd hseen hnew
          · exact ⟨hk, hnew⟩
      · rename_i hnew
        rw [List.map_cons, List.mem_cons, ih, List.map_cons, List.mem_cons, List.mem_cons]
        constructor
        · rintro (rfl | ⟨hk, hother⟩)
          · exact ⟨.inl rfl, hnew⟩
          · exact ⟨.inr hk, fun h => hother (.inr h)⟩
        · rintro ⟨rfl | hk, hother⟩
          · exact .inl rfl
          · by_cases hsame : k = key a
            · exact .inl hsame
            · exact .inr ⟨hk, fun h => h.elim hsame hother⟩

theorem nodup_map_firsts (key : α → κ) (seen : List κ) (as : List α) :
    ((firsts key seen as).map key).Nodup := by
  induction as generalizing seen with
  | nil => exact .nil
  | cons a as ih =>
      rw [firsts]
      split
      · exact ih seen
      · refine List.nodup_cons.mpr ⟨fun hmem => ?_, ih _⟩
        exact (mem_map_firsts.mp hmem).2 List.mem_cons_self

end

/-! ### The slice -/

/-- The filter of a slice looks at the place where a candidate was offered and at nothing else. -/
theorem exists_inside_of_sliceFilter {slice : Option (Slice AtSpec)} {filters : List ResultFilter}
    (h : (r.sliceFilter t slice).answer s = .ok filters) :
    ∃ inside : Nat → Bool, ∀ ms,
      ResultFilter.runAll filters ms = ms.filter fun m => inside m.offered := by
  cases slice with
  | none =>
      rw [sliceFilter] at h
      cases h
      exact ⟨fun _ => true, fun ms => by simp [ResultFilter.runAll_nil]⟩
  | some slice =>
      obtain ⟨id, lower, upper⟩ := slice
      rw [sliceFilter] at h
      obtain ⟨low?, s₁, -, h⟩ := Request.answer_bind_eq_ok h
      obtain ⟨high?, s₂, -, h⟩ := Request.answer_bind_eq_ok h
      cases h
      refine ⟨fun place => (low?.bind fun low => high?.map fun high => (low, high)).any
        fun bounds => bounds.1 ≤ place && place ≤ bounds.2, fun ms => ?_⟩
      rw [ResultFilter.runAll_cons, ResultFilter.passed_slice, ResultFilter.runAll_nil]
      rfl

/-! ### The two walks -/

/-- All that an annotation finds was offered inside the slice. -/
theorem exists_of_mem_collected {ctx : PointContext} {filters : List ResultFilter}
    {inside : Nat → Bool}
    (hinside : ∀ ms, ResultFilter.runAll filters ms = ms.filter fun m => inside m.offered)
    {xs : List Candidate} {m : Match}
    (hm : m ∈ ((collectorFor .all ctx filters).gather xs).results) :
    ∃ x ∈ xs, inside x.position = true ∧ m.element = x.element := by
  have hresults : ((collectorFor .all ctx filters).gather xs).results =
      ResultFilter.runAll (filters ++ ctx.criteria.ordinalFilters)
        (ctx.method.instructions.shiftAll ctx.criteria.shift.offset xs 0) :=
    Collector.results_gather rfl xs
  rw [hresults, ResultFilter.runAll_append, hinside] at hm
  obtain ⟨hshifted, hin⟩ := List.mem_filter.mp ((ResultFilter.runAll_sublist _ _).subset hm)
  obtain ⟨x, hx, hplace, hsame⟩ := InstructionList.exists_of_mem_shiftAll hshifted
  exact ⟨x, hx, hplace ▸ hin, hsame⟩

/-- A walk of completion keeps the candidates that the slice lets through, where they were
offered. -/
theorem results_collectorFor_completion (ctx : PointContext) (filters : List ResultFilter)
    (ys : List Candidate) :
    ((collectorFor .completion ctx.widened filters).gather ys).results =
      ResultFilter.runAll filters (answered ys) := by
  have hfilters : (completionCriteria ctx.criteria).ordinalFilters = [] :=
    Criteria.ordinalFilters_ofTarget ctx.criteria.value none
  have hmoved : Candidate.moveAll (collectorFor .completion ctx.widened filters).shifted? ys 0 =
      answered ys := Candidate.moveAll_of_stay (fun _ _ => if_pos rfl) 0
  have hresults := Collector.results_gather_moved
    (c := collectorFor .completion ctx.widened filters) (by simp [collectorFor, Collector.new]) ys
  rw [hresults]
  change [] ++ ResultFilter.runAll (filters ++ (completionCriteria ctx.criteria).ordinalFilters)
    (Candidate.moveAll (collectorFor .completion ctx.widened filters).shifted? ys 0) = _
  rw [hfilters, List.append_nil, hmoved, List.nil_append]

theorem resolve_completion_answer (a : AtSpec) :
    (r.resolve a t .completion).answer s = ((r.run t a .completion).answer s).map (·.results) := by
  have hresolve : r.resolve a t .completion = (r.run t a .completion >>= fun o =>
      Request.ofExcept (.ok o.results)) := by
    rw [resolve]
    simp only [ne_eq, not_true_eq_false, decide_false, Bool.and_false, Bool.false_eq_true, if_false]
    rfl
  rw [hresolve, Request.answer_bind_ofExcept]
  cases (r.run t a .completion).answer s <;> rfl

/-- What an annotation finds and what completion offers go through the same slice. -/
theorem exists_offered_of_resolve (hspares : r.registry.SparesToken) (hlive : s.watch.IsLive)
    (hkind : kind ≠ .constant)
    (hlookup : r.registry.lookup? a.criteria.value = some (.builtin kind)) {results : List Match}
    (h : (r.resolve a t .all).answer s = .ok results) :
    ∃ xs ys : List Candidate, ∃ inside : Nat → Bool,
      (∀ x ∈ xs, x.element.label? ≠ none → x.IsAmong ys) ∧
      (∀ m ∈ results, ∃ x ∈ xs, inside x.position = true ∧ m.element = x.element) ∧
      (r.resolve a t .completion).answer s =
        .ok ((answered ys).filter fun m => inside m.offered) := by
  obtain ⟨generated?, hs⟩ := r.exists_knows t hlive
  obtain ⟨s', hs', hanswer⟩ := exists_runWith_answer t kind hs
  rw [resolve_answer, run_eq_runWith, hanswer _ .all _ hlookup] at h
  obtain ⟨outcome, hrun, hresults⟩ := bind_eq_ok.mp h
  obtain ⟨wanted, -, hwalk⟩ := bind_eq_ok.mp hrun
  obtain ⟨rfl, -⟩ := conclude_eq_ok.mp hresults
  -- The slice is looked for in the same state of the session by both walks.
  obtain ⟨filters, s'', hslice, -⟩ := Request.answer_bind_eq_ok hwalk
  have hs'' : r.Knows t generated? s'' := by
    have hkept := sliceFilter_keeps (t := t) hspares a.slice? s' hs'
    rwa [hslice] at hkept
  obtain ⟨inside, hinside⟩ := exists_inside_of_sliceFilter (congrArg Prod.fst hslice)
  let ctx := r.contextFor t generated? (.builtin kind) a.criteria wanted
  obtain ⟨xs, hoffered, rfl⟩ := map_eq_ok.mp ((walkWithin_answer hslice hs'').symm.trans hwalk)
  obtain ⟨ys, hys, hamong⟩ := PointKind.exists_offered_widened hkind hoffered
  refine ⟨xs, ys, inside, hamong, fun m hm => exists_of_mem_collected hinside hm, ?_⟩
  have hcompleted : (walkWithin .completion ctx.widened (.builtin kind)
      (r.sliceFilter t a.slice?)).answer s' =
        .ok ((collectorFor .completion ctx.widened filters).gather ys).outcome :=
    (walkWithin_answer hslice hs'').trans (congrArg _ hys)
  have hwanted : selector (.builtin kind) (asked a.criteria .completion) .completion =
      .ok none := rfl
  rw [resolve_completion_answer, run_eq_runWith, hanswer _ .completion _ hlookup, hwanted]
  refine (congrArg (Except.map Outcome.results) hcompleted).trans ?_
  exact congrArg Except.ok ((results_collectorFor_completion ctx filters ys).trans (hinside _))

/-- Completion offers the label of everything that an annotation finds, and no label twice. A
target, a shift, an ordinal and all other settings but the slice and the opcode count for
nothing. -/
theorem completions_exhaustive (hspares : r.registry.SparesToken) (hlive : s.watch.IsLive)
    (hkind : kind ≠ .constant)
    (hlookup : r.registry.lookup? a.criteria.value = some (.builtin kind)) {results : List Match}
    (h : (r.resolve a t .all).answer s = .ok results) :
    ∃ items, (r.completions a t).answer s = .ok items ∧
      (∀ m ∈ results, ∀ label, m.element.label? = some label → label ∈ items.map (·.label)) ∧
      (items.map (·.label)).Nodup := by
  obtain ⟨xs, ys, inside, hamong, hresults, hoffered⟩ :=
    exists_offered_of_resolve hspares hlive hkind hlookup h
  let offered := (answered ys).filter fun m => inside m.offered
  refine ⟨firsts (·.label) [] (offered.filterMap (completionItem? t)), ?_,
    fun m hm label hlabel => ?_, nodup_map_firsts _ _ _⟩
  · have hanswer : (r.completions a t).answer s =
        (r.resolve a t .completion).answer s >>= fun offered =>
          .ok (firsts (·.label) [] (offered.filterMap (completionItem? t))) :=
      Request.answer_bind_ofExcept _ _ s
    rw [hanswer, hoffered]
    rfl
  · -- The candidate is offered at the same place by completion, so the slice lets it through.
    obtain ⟨x, hx, hinside, hsame⟩ := hresults m hm
    rw [hsame] at hlabel
    obtain ⟨y, hy, hplace, helement⟩ := hamong x hx (by simp [hlabel])
    obtain ⟨index, hindex⟩ := exists_mem_answered hy
    have hmem : y.toMatch index y.position ∈ offered := by
      refine List.mem_filter.mpr ⟨hindex, ?_⟩
      change inside y.position = true
      rwa [hplace]
    have hylabel : y.element.label? = some label := by rwa [helement]
    have hitem : completionItem? t (y.toMatch index y.position) = some ⟨label, _⟩ :=
      congrArg (Option.map _) hylabel
    have hlabels : label ∈ (offered.filterMap (completionItem? t)).map (·.label) :=
      List.mem_map_of_mem (List.mem_filterMap.mpr ⟨_, hmem, hitem⟩)
    exact mem_map_firsts.mpr ⟨hlabels, List.not_mem_nil⟩

/-- An annotation with a target, a slice, a shift and an ordinal finds one call, whose label
completion offers for it. -/
theorem completions_exhaustive_fromSecondCall :
    classless.registry.SparesToken ∧ freshSession.watch.IsLive ∧ PointKind.invoke ≠ .constant ∧
      classless.registry.lookup? afterSecondCall.value = some (.builtin .invoke) ∧
      (classless.resolve (.mk afterSecondCall (some fromSecondCall)) threeCalls .all).answer
        freshSession = .ok [callMatch 1 2] ∧
      ∃ items, (classless.completions (.mk afterSecondCall (some fromSecondCall)) threeCalls).answer
          freshSession = .ok items ∧
        "La/Log;write()V" ∈ items.map (·.label) ∧ (items.map (·.label)).Nodup := by
  have hspares : classless.registry.SparesToken := Registry.builtin_isOrderly.sparesToken
  have hlive : freshSession.watch.IsLive := rfl
  have hkind : PointKind.invoke ≠ .constant := by decide
  have hlookup : classless.registry.lookup?
      (AtSpec.mk afterSecondCall (some fromSecondCall)).criteria.value =
        some (.builtin .invoke) := rfl
  have hresults : (classless.resolve (.mk afterSecondCall (some fromSecondCall)) threeCalls
      .all).answer freshSession = .ok [callMatch 1 2] := by decide +kernel
  have hlabel : (callMatch 1 2).element.label? = some "La/Log;write()V" := by decide
  obtain ⟨items, hitems, hall, honce⟩ :=
    completions_exhaustive hspares hlive hkind hlookup hresults
  exact ⟨hspares, hlive, hkind, hlookup, hresults, items, hitems,
    hall _ (List.mem_singleton_self _) _ hlabel, honce⟩

end Resolver

end Injection
