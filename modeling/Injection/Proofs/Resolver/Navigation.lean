import Injection.Proofs.Cancellation.Interruption
import Injection.Proofs.Resolver.Selection
import Injection.Source.Builder
import Mathlib.Data.List.Sort

/-!
Where source shows what an annotation means. A result is shown by its number among all candidates
of its kind. No shift, slice or ordinal changes these numbers, so what is shown for an annotation
is a part of what is shown for its bare kind.
-/

namespace Injection

open Source

/-! ### Numbers -/

namespace InstructionList

theorem index_of_mem_shiftAll {is : InstructionList} {distance : Int} {xs : List Candidate}
    {first : Nat} {m : Match} (hm : m ∈ is.shiftAll distance xs first) :
    first ≤ m.index ∧ m.index < first + xs.length := by
  obtain ⟨⟨x, i⟩, hmem, hmoved⟩ := List.mem_filterMap.mp hm
  obtain ⟨p, -, rfl⟩ := Option.map_eq_some_iff.mp hmoved
  obtain ⟨hle, hlt, -⟩ := List.mem_zipIdx hmem
  exact ⟨hle, by simpa [Candidate.toMatch, Nat.add_comm] using hlt⟩

/-- Candidates keep their numbers in order, wherever they are shifted. -/
theorem pairwise_shiftAll (is : InstructionList) (distance : Int) (xs : List Candidate)
    (first : Nat) : (is.shiftAll distance xs first).Pairwise (·.index < ·.index) := by
  induction xs generalizing first with
  | nil => exact .nil
  | cons x xs ih =>
      rw [shiftAll_cons, List.pairwise_append]
      refine ⟨?_, ih (first + 1), fun m hm n hn => ?_⟩
      · cases is.offset? x.position distance with
        | none => exact .nil
        | some p => exact List.pairwise_singleton _ _
      · obtain ⟨p, -, rfl⟩ := Option.map_eq_some_iff.mp (Option.mem_toList.mp hm)
        exact (index_of_mem_shiftAll hn).1

/-- Where nothing is shifted every candidate has its place as its number. -/
theorem map_index_shiftAll_zero {is : InstructionList} {xs : List Candidate}
    (h : ∀ x ∈ xs, x.position < is.size) :
    (is.shiftAll 0 xs 0).map (·.index) = List.range xs.length := by
  rw [shiftAll_zero h, List.map_map, List.range_eq_range', ← List.zipIdx_map_snd 0 xs]
  rfl

end InstructionList

namespace Source.Sighting

theorem map_index_number (l : List Sighting) :
    (number l).map (·.index) = List.range l.length := by
  rw [number, List.map_map, List.range_eq_range', ← List.zipIdx_map_snd 0 l]
  rfl

theorem pairwise_number (l : List Sighting) : (number l).Pairwise (·.index < ·.index) := by
  rw [← List.pairwise_map, map_index_number]
  exact List.pairwise_lt_range

/-- A numbered candidate stands at its number. -/
theorem index_of_getElem?_number {l : List Sighting} {m : SourceMatch} {i : Nat}
    (h : (number l)[i]? = some m) : m.index = i := by
  have hi : ((number l).map (·.index))[i]? = some m.index := by
    rw [List.getElem?_map, h, Option.map_some]
  rw [map_index_number] at hi
  obtain ⟨hlt, hindex⟩ := List.getElem?_eq_some_iff.mp hi
  rw [← hindex, List.getElem_range]

theorem mem_number_iff {l : List Sighting} {m : SourceMatch} :
    m ∈ number l ↔ (number l)[m.index]? = some m := by
  refine ⟨fun hm => ?_, List.mem_of_getElem?⟩
  obtain ⟨i, hi⟩ := List.mem_iff_getElem?.mp hm
  rwa [index_of_getElem?_number hi]

/-- Results in the order of their numbers pick the candidates with these numbers. -/
theorem filterMap_number (l : List Sighting) {ms : List Match}
    (hms : ms.Pairwise (·.index < ·.index)) :
    ms.filterMap (fun m => (number l)[m.index]?) =
      (number l).filter fun shown => shown.index ∈ ms.map (·.index) := by
  let before : SourceMatch → SourceMatch → Prop := fun m n => m.index < n.index
  have : Std.Irrefl before := ⟨fun m => Nat.lt_irrefl m.index⟩
  have : Std.Antisymm before := ⟨fun m n hmn hnm => absurd hmn (Nat.lt_asymm hnm)⟩
  have hpicked : (ms.filterMap fun m => (number l)[m.index]?).Pairwise before := by
    refine List.Pairwise.filterMap _ (fun m n hmn a ha b hb => ?_) hms
    change a.index < b.index
    rwa [index_of_getElem?_number ha, index_of_getElem?_number hb]
  have hkept : ((number l).filter fun shown => shown.index ∈ ms.map (·.index)).Pairwise before :=
    (pairwise_number l).filter _
  refine hpicked.eq_of_mem_iff hkept fun shown => ?_
  rw [List.mem_filterMap, List.mem_filter, decide_eq_true_iff, List.mem_map]
  constructor
  · rintro ⟨m, hm, hshown⟩
    exact ⟨List.mem_of_getElem? hshown, m, hm, (index_of_getElem?_number hshown).symm⟩
  · rintro ⟨hshown, m, hm, hindex⟩
    exact ⟨m, hm, hindex ▸ mem_number_iff.mp hshown⟩

theorem nodup_index_of_pairwise {shown : List SourceMatch}
    (h : shown.Pairwise (·.index < ·.index)) : (shown.map (·.index)).Nodup :=
  List.pairwise_map.mpr (h.imp Nat.ne_of_lt)

end Source.Sighting

/-- Source shows the candidates of a kind, whatever an annotation makes of them. -/
theorem Source.SourceUnit.sightings_eq_of_bare_eq (u : SourceUnit) (kind : PointKind)
    {c c' : Criteria} (h : c'.bare = c.bare) (wanted : Option Selector) :
    u.sightings kind c' wanted = u.sightings kind c wanted := by
  have hbare (c : Criteria) : u.sightings kind c.bare wanted = u.sightings kind c wanted := by
    cases kind <;> rfl
  rw [← hbare c', h, hbare c]

/-! ### Answers of sequences -/

namespace Request

variable {ε α β : Type}

theorem answer_bind_ofExcept (q : Request ε α) (g : α → Except ε β) (s : Session) :
    (q >>= fun a => ofExcept (g a)).answer s = q.answer s >>= g := by
  change ((q >>= fun a => ofExcept (g a)) s).1 = (q s).1 >>= g
  rw [bind_apply]
  rcases q s with ⟨_ | a, s'⟩ <;> rfl

theorem ofExcept_bind (x : Except ε α) (g : α → Except ε β) :
    ofExcept (x >>= g) = (ofExcept x >>= fun a => ofExcept (g a) : Request ε β) := by
  cases x <;> rfl

theorem answer_bind_eq_ok {q : Request ε α} {f : α → Request ε β} {s : Session} {b : β} :
    (q >>= f).answer s = .ok b → ∃ a s', q s = (.ok a, s') ∧ (f a).answer s' = .ok b := by
  intro h
  change ((q >>= f) s).1 = .ok b at h
  rw [bind_apply] at h
  rcases hq : q s with ⟨_ | a, s'⟩
  · rw [hq] at h
    cases h
  · rw [hq] at h
    exact ⟨a, s', rfl, h⟩

end Request

namespace Resolver

variable {r : Resolver} {t : Target} {generated? : Option (List LocalVariable)} {s : Session}
  {kind : PointKind} {c : Criteria}

/-- Items with different keys are all the first of their key. -/
theorem firsts_eq_self {α κ : Type} [DecidableEq κ] {key : α → κ} {seen : List κ} {as : List α}
    (hkeys : (as.map key).Nodup) (hseen : ∀ a ∈ as, key a ∉ seen) : firsts key seen as = as := by
  induction as generalizing seen with
  | nil => rfl
  | cons a as ih =>
      rw [List.map_cons, List.nodup_cons] at hkeys
      obtain ⟨ha, has⟩ := List.forall_mem_cons.mp hseen
      rw [firsts, if_neg ha, ih hkeys.2 fun b hb hmem => ?_]
      rcases List.mem_cons.mp hmem with heq | hmem
      · exact hkeys.1 (heq ▸ List.mem_map_of_mem hb)
      · exact has b hb hmem

/-! ### Results -/

/-- What is collected depends on the candidates and the filters only, whatever the slice made of
the token. -/
theorem walkWithin_eq_ok {ctx : PointContext} {slice : Request ResolveError (List ResultFilter)}
    {outcome : Outcome} (h : (walkWithin .all ctx (.builtin kind) slice).answer s = .ok outcome) :
    ∃ xs filters, kind.offered ctx = .ok xs ∧
      outcome = (collector ctx.method ctx.criteria filters xs).outcome := by
  obtain ⟨filters, s₁, -, h⟩ := Request.answer_bind_eq_ok h
  obtain ⟨collected, s₂, hrun, h⟩ := Request.answer_bind_eq_ok h
  cases h
  have hfound : ((InjectionPoint.builtin kind).find ctx
      (collectorFor .all ctx filters) s₁.watch).1 = .ok collected := congrArg Prod.fst hrun
  rcases (kind.find_withstands _ _).answersUnless (kind.find_yields ctx _) s₁.watch with
    hsame | hcancelled
  · cases hoffered : kind.offered ctx with
    | error e =>
        rw [hoffered] at hsame
        cases hfound.symm.trans hsame
    | ok xs =>
        rw [hoffered] at hsame
        cases hfound.symm.trans hsame
        exact ⟨xs, filters, rfl, rfl⟩
  · cases hfound.symm.trans hcancelled

theorem conclude_eq_ok {o : Outcome} {ms : List Match} :
    o.conclude = .ok ms ↔ o.results = ms ∧ ms ≠ [] := by
  by_cases hempty : o.results = []
  · have hconclude : o.conclude = .error (.noMatch o.blamed) :=
      if_pos (List.isEmpty_iff.mpr hempty)
    rw [hconclude]
    constructor
    · intro h
      cases h
    · rintro ⟨rfl, hne⟩
      exact absurd hempty hne
  · have hconclude : o.conclude = .ok o.results := if_neg (mt List.isEmpty_iff.mp hempty)
    rw [hconclude]
    constructor
    · intro h
      cases h
      exact ⟨rfl, hempty⟩
    · rintro ⟨rfl, -⟩
      rfl

theorem resolve_answer (a : AtSpec) :
    (r.resolve a t .all).answer s = (r.run t a .all).answer s >>= Outcome.conclude := by
  rw [← Request.answer_bind_ofExcept]
  refine congrArg (fun q => Request.answer (r.run t a .all >>= q) s) (funext fun o => ?_)
  rw [Outcome.conclude]
  by_cases hempty : o.results.isEmpty
  · simp only [hempty]
    rfl
  · simp only [hempty]
    rfl

/-- Results of an annotation are some of the candidates of its bare kind, moved; where there are
results the bare kind finds all candidates. -/
theorem resolve_eq_ok (hlive : s.watch.IsLive)
    (hkind : r.registry.lookup? c.value = some (.builtin kind)) {slice : Option (Slice AtSpec)}
    {results : List Match} (h : (r.resolve (.mk c slice) t .all).answer s = .ok results) :
    ∃ wanted xs filters, selector (.builtin kind) c .all = .ok wanted ∧
      (∀ x ∈ xs, x.position < t.method.instructions.size) ∧
      results = ResultFilter.runAll filters
        (t.method.instructions.shiftAll c.shift.offset xs 0) ∧
      (r.resolve (.mk c.bare none) t .all).answer s =
        .ok (t.method.instructions.shiftAll 0 xs 0) := by
  obtain ⟨generated?, hs⟩ := r.exists_knows t hlive
  rw [resolve_answer] at h
  obtain ⟨outcome, hrun, hresults⟩ := bind_eq_ok.mp h
  obtain ⟨s', hs', hanswer⟩ := exists_runWith_answer t kind hs
  rw [run, hanswer c .all _ hkind] at hrun
  obtain ⟨wanted, hwanted, hwalk⟩ := bind_eq_ok.mp hrun
  obtain ⟨xs, filters, hoffered, rfl⟩ := walkWithin_eq_ok hwalk
  obtain ⟨rfl, hne⟩ := conclude_eq_ok.mp hresults
  have hkept : (collector t.method c filters xs).results = ResultFilter.runAll
      (filters ++ c.ordinalFilters) (t.method.instructions.shiftAll c.shift.offset xs 0) :=
    Collector.results_gather rfl xs
  have hxs : ∀ x ∈ xs, x.position < t.method.instructions.size :=
    PointKind.lt_size_of_mem_offered hoffered
  refine ⟨wanted, xs, filters ++ c.ordinalFilters, hwanted, hxs, hkept, ?_⟩
  have hbare : kind.offered (r.contextFor t generated? (.builtin kind) c.bare wanted) = .ok xs :=
    (kind.offered_eq_of_bare_eq
      (r.contextFor t generated? (.builtin kind) c wanted) rfl).trans hoffered
  have hall : (r.runWith t c.bare .all (pure [])).answer s =
      .ok (collector t.method c.bare [] xs).outcome := by
    have hselector : selector (.builtin kind) c.bare .all = .ok wanted := hwanted
    rw [hanswer c.bare .all _ hkind]
    change selector (.builtin kind) c.bare .all >>= _ = _
    rw [hselector]
    exact (walkWithin_answer rfl hs').trans (congrArg _ hbare)
  rw [resolve_answer, run, sliceFilter, hall]
  refine conclude_eq_ok.mpr ⟨results_collector_bare t.method c xs, ?_⟩
  -- Without candidates there would be no results.
  rw [InstructionList.shiftAll_zero hxs]
  intro hnone
  have hnil : xs = [] := by simpa using hnone
  subst hnil
  exact hne hkept

/-! ### Results in source -/

def shownIn (r : Resolver) (c : Criteria) (t : Target) (source : SourceClass)
    (results : List Match) : Except ResolveError (List SourceMatch) :=
  match t.sourceUnit? source with
  | none => .ok []
  | some u => do
    let point ← r.lookup c
    let wanted ← selector point c .all
    let shown ← u.candidates point c wanted
    return firsts (·.index) [] (results.filterMap fun m => (shown.getD [])[m.index]?)

theorem navigateIn_answer (c : Criteria) (slice : Option (Slice AtSpec)) (source : SourceClass) :
    (r.navigateIn (.mk c slice) t source).answer s =
      (r.resolve (.mk c slice) t .all).answer s >>= r.shownIn c t source := by
  rw [← Request.answer_bind_ofExcept]
  refine congrArg (fun q => Request.answer (r.resolve (.mk c slice) t .all >>= q) s)
    (funext fun results => ?_)
  rw [shownIn]
  cases t.sourceUnit? source with
  | none => rfl
  | some u =>
      simp only [Request.ofExcept_bind]
      rfl

/-- Results in the order of their numbers are shown by the candidates with these numbers, and no
candidate is shown twice. -/
theorem shownIn_eq (hkind : r.registry.lookup? c.value = some (.builtin kind))
    {wanted : Option Selector} (hwanted : selector (.builtin kind) c .all = .ok wanted)
    (source : SourceClass) :
    ∃ shown : Except ResolveError (List Sighting), ∀ c' results, c'.bare = c.bare →
      results.Pairwise (·.index < ·.index) →
      r.shownIn c' t source results = shown.map fun l =>
        (Sighting.number l).filter fun m => m.index ∈ results.map (·.index) := by
  unfold shownIn
  cases t.sourceUnit? source with
  | none => exact ⟨.ok [], fun c' results _ _ => rfl⟩
  | some u =>
      refine ⟨(u.sightings kind c wanted).map (·.getD []), fun c' results hc hresults => ?_⟩
      have hlookup : r.lookup c' = .ok (.builtin kind) :=
        lookup_eq_ok (Criteria.value_eq_of_bare_eq hc ▸ hkind)
      have hselector : selector (.builtin kind) c' .all = .ok wanted :=
        (selector_eq_of_bare_eq hc).trans hwanted
      dsimp only
      rw [hlookup]
      change selector (.builtin kind) c' .all >>= _ = _
      rw [hselector]
      change (u.sightings kind c' wanted).map _ >>= _ = _
      rw [u.sightings_eq_of_bare_eq kind hc]
      cases u.sightings kind c wanted with
      | error e => rfl
      | ok l =>
          have hnumber : (l.map Sighting.number).getD [] = Sighting.number (l.getD []) := by
            cases l <;> rfl
          have hnodup := Sighting.nodup_index_of_pairwise
            ((Sighting.pairwise_number (l.getD [])).filter fun m =>
              m.index ∈ results.map (·.index))
          change Except.ok (firsts _ _ _) = Except.ok _
          rw [hnumber, Sighting.filterMap_number _ hresults,
            firsts_eq_self hnodup fun _ _ => List.not_mem_nil]

/-- Navigation commutes with filtering. What is shown for an annotation is what is shown for its
bare kind, less the candidates that are the number of no result, and nothing is shown twice. -/
theorem navigateIn_eq_filter (hlive : s.watch.IsLive)
    (hkind : r.registry.lookup? c.value = some (.builtin kind)) {slice : Option (Slice AtSpec)}
    {source : SourceClass} {found : List SourceMatch}
    (h : (r.navigateIn (.mk c slice) t source).answer s = .ok found) :
    ∃ all results, (r.navigateIn (.mk c.bare none) t source).answer s = .ok all ∧
      (r.resolve (.mk c slice) t .all).answer s = .ok results ∧
      found = all.filter (fun m => m.index ∈ results.map (·.index)) ∧
      (found.map (·.index)).Nodup := by
  rw [navigateIn_answer] at h
  obtain ⟨results, hresults, h⟩ := bind_eq_ok.mp h
  obtain ⟨wanted, xs, filters, hwanted, hxs, hkept, hbare⟩ := resolve_eq_ok hlive hkind hresults
  obtain ⟨shown, hshown⟩ := shownIn_eq (t := t) hkind hwanted source
  have horder : results.Pairwise (·.index < ·.index) := by
    rw [hkept]
    exact (InstructionList.pairwise_shiftAll _ _ xs 0).sublist (ResultFilter.runAll_sublist _ _)
  have hall := hshown c.bare _ rfl
    (InstructionList.pairwise_shiftAll t.method.instructions 0 xs 0)
  rw [hshown c results rfl horder] at h
  cases shown with
  | error e => cases h
  | ok l =>
      cases h
      refine ⟨_, results, by rw [navigateIn_answer, hbare]; exact hall, hresults, ?_,
        Sighting.nodup_index_of_pairwise ((Sighting.pairwise_number l).filter _)⟩
      -- Every result is the number of a candidate.
      rw [List.filter_filter]
      refine List.filter_congr fun m _ => ?_
      have hnumbered : m.index ∈ results.map (·.index) →
          m.index ∈ (t.method.instructions.shiftAll 0 xs 0).map (·.index) := by
        rw [InstructionList.map_index_shiftAll_zero hxs, List.mem_range]
        rintro hm
        obtain ⟨u, hu, hindex⟩ := List.mem_map.mp hm
        rw [hkept] at hu
        have hlt := (InstructionList.index_of_mem_shiftAll
          ((ResultFilter.runAll_sublist _ _).subset hu)).2
        omega
      simpa using hnumbered

def threeCallsSource : SourceClass where
  name := "a/Main"
  superName := some "java/lang/Object"
  fields := []
  methods :=
    let body := Body.build .forStatic ((List.range 3).flatMap fun i =>
      [.expr (.call none "a/Log" "write" "()V" .static []), .stmt (.expr i)]) [0, 1, 2]
    [⟨"main", "()V", 0x0008, some body, body.span⟩]
  span := .zero

/-- The first result after the second call is the second of three calls in source. -/
theorem navigateIn_eq_filter_afterSecondCall :
    freshSession.watch.IsLive ∧
      classless.registry.lookup? afterSecondCall.value = some (.builtin .invoke) ∧
      ((classless.navigateIn (.mk afterSecondCall (some fromSecondCall)) threeCalls
        threeCallsSource).answer freshSession).toOption.map (·.map (·.index)) = some [1] ∧
      ((classless.navigateIn (.mk afterSecondCall.bare none) threeCalls
        threeCallsSource).answer freshSession).toOption.map (·.map (·.index)) = some [0, 1, 2] ∧
      ∃ found all results,
        (classless.navigateIn (.mk afterSecondCall (some fromSecondCall)) threeCalls
          threeCallsSource).answer freshSession = .ok found ∧
        (classless.navigateIn (.mk afterSecondCall.bare none) threeCalls
          threeCallsSource).answer freshSession = .ok all ∧
        (classless.resolve (.mk afterSecondCall (some fromSecondCall)) threeCalls .all).answer
          freshSession = .ok results ∧
        found = all.filter (fun m => m.index ∈ results.map (·.index)) ∧
        (found.map (·.index)).Nodup := by
  have hfound : ((classless.navigateIn (.mk afterSecondCall (some fromSecondCall)) threeCalls
      threeCallsSource).answer freshSession).toOption.map (·.map (·.index)) = some [1] := by
    decide +kernel
  obtain ⟨found, h, -⟩ := Option.map_eq_some_iff.mp hfound
  have h := mem_toOption.mp h
  obtain ⟨all, results, hfilter⟩ := navigateIn_eq_filter (s := freshSession) rfl rfl h
  exact ⟨rfl, rfl, hfound, by decide +kernel, found, all, results, h, hfilter⟩

end Resolver

end Injection
