import Injection.Proofs.Resolver.Walk

/-!
What an annotation selects. All places of its kind are found first, as if it said nothing of a
shift, a slice or an ordinal; what it says of these then picks from the list. The first of the
places picked is the one that is found when only one is wanted.
-/

namespace Injection

namespace ResultFilter

theorem runAll_append (fs gs : List ResultFilter) (ms : List Match) :
    runAll (fs ++ gs) ms = runAll gs (runAll fs ms) := by
  rw [runAll_eq_foldl, List.foldl_append, ← runAll_eq_foldl, ← runAll_eq_foldl]

end ResultFilter

namespace InstructionList

theorem offset?_zero {is : InstructionList} {i : Nat} (h : i < is.size) :
    is.offset? i 0 = some i := by
  simp [offset?, h]

/-- Candidates on the list stay where they are when nothing is shifted. -/
theorem shiftAll_zero {is : InstructionList} {xs : List Candidate}
    (h : ∀ x ∈ xs, x.position < is.size) (first : Nat) :
    is.shiftAll 0 xs first = (xs.zipIdx first).map fun (x, i) => x.toMatch i x.position := by
  rw [shiftAll_eq_moveAll]
  exact Candidate.moveAll_of_stay (fun x hx => offset?_zero (h x hx)) first

end InstructionList

namespace Criteria

/-- What an annotation selects from all places of its kind, given the test of its slice: each is
moved by the shift, those moved off the list and those outside the slice are dropped, and of the
others an ordinal takes one. -/
def select (c : Criteria) (is : InstructionList) (inside : Match → Bool) (all : List Match) :
    List Match :=
  let shifted := all.filterMap fun m =>
    (is.offset? m.position c.shift.offset).map fun p => { m with position := p }
  let within := shifted.filter inside
  match c.ordinal? with
  | none => within
  | some n => within[n]?.toList

theorem shiftAll_eq (is : InstructionList) (distance : Int) {xs : List Candidate}
    (h : ∀ x ∈ xs, x.position < is.size) (first : Nat) :
    is.shiftAll distance xs first =
      (is.shiftAll 0 xs first).filterMap fun m =>
        (is.offset? m.position distance).map fun p => { m with position := p } := by
  rw [InstructionList.shiftAll_zero h, List.filterMap_map]
  rfl

theorem ordinalFilters_bare (c : Criteria) : c.bare.ordinalFilters = [] := by
  have hnone : c.bare.ordinal? = none := if_pos (by decide : (-1 : Int32) < 0)
  rw [ordinalFilters, hnone]
  rfl

/-- The collection of an annotation keeps what the annotation selects. -/
theorem runAll_eq_select (c : Criteria) (is : InstructionList) {filters : List ResultFilter}
    {inside : Match → Bool}
    (hfilters : ∀ ms, ResultFilter.runAll filters ms = ms.filter inside)
    {xs : List Candidate} (h : ∀ x ∈ xs, x.position < is.size) :
    ResultFilter.runAll (filters ++ c.ordinalFilters) (is.shiftAll c.shift.offset xs 0) =
      c.select is inside (is.shiftAll 0 xs 0) := by
  rw [ResultFilter.runAll_append, hfilters, shiftAll_eq is c.shift.offset h, select,
    ordinalFilters, ResultFilter.runAll_eq_foldl]
  cases c.ordinal? with
  | none => rfl
  | some n => simp [ResultFilter.keep]

/-- What is selected has only been moved. -/
theorem exists_of_mem_select {c : Criteria} {is : InstructionList} {inside : Match → Bool}
    {all : List Match} {m : Match} (hm : m ∈ c.select is inside all) :
    ∃ u ∈ all, m = { u with position := m.position } := by
  have hshifted : m ∈ all.filterMap fun m =>
      (is.offset? m.position c.shift.offset).map fun p => { m with position := p } := by
    unfold select at hm
    dsimp only at hm
    split at hm
    · exact List.mem_of_mem_filter hm
    · exact List.mem_of_mem_filter (List.mem_of_getElem? (Option.mem_toList.mp hm))
  obtain ⟨u, hu, hmoved⟩ := List.mem_filterMap.mp hshifted
  obtain ⟨p, -, rfl⟩ := Option.map_eq_some_iff.mp hmoved
  exact ⟨u, hu, rfl⟩

end Criteria

namespace Resolver

variable {r : Resolver} {t : Target} {generated? : Option (List LocalVariable)} {s : Session}

def found : Except ResolveError (List Match) → Except ResolveError (List Match)
  | .error (.noMatch _) => .ok []
  | answer => answer

def endFound (r : Resolver) (t : Target) (s : Session) :
    Option AtSpec → Except ResolveError (Option (List Match))
  | none => .ok none
  | some a => (found ((r.resolve a t .all).answer s)).map some

def endPlace (unbounded : Option Nat) (pick : List Nat → Option Nat) :
    Option (List Match) → Option Nat
  | none => unbounded
  | some ms => pick (ms.map (·.position))

/-- The test of a slice with given ends. A match has to be offered between the lowest place of the
one end and the highest place of the other; an end that is left out is the end of the method, and
one that means nothing lets nothing through. -/
def between (is : InstructionList) (lower upper : Option (List Match)) (m : Match) : Bool :=
  (endPlace is.first? List.min? lower).any (· ≤ m.offered) &&
    (endPlace is.last? List.max? upper).any (m.offered ≤ ·)

/-- The test of the slice of an annotation; without a slice everything passes. -/
def sliceTest (r : Resolver) (t : Target) (s : Session) :
    Option (Slice AtSpec) → Except ResolveError (Match → Bool)
  | none => .ok fun _ => true
  | some ⟨_, lower, upper⟩ => do
    return between t.method.instructions (← r.endFound t s lower) (← r.endFound t s upper)

theorem resolve_yields {a : AtSpec} {mode : Mode} (hmode : mode ≠ .completion)
    {answer : Except ResolveError Outcome}
    (hrun : Yields (r.Knows t generated?) (r.run t a mode) answer) :
    Yields (r.Knows t generated?) (r.resolve a t mode) (answer >>= Outcome.conclude) := by
  rw [resolve]
  refine hrun.bind_all fun outcome => ?_
  rw [Outcome.conclude]
  by_cases hempty : outcome.results.isEmpty
  · simp only [hempty, hmode, ne_eq, not_false_eq_true, decide_true, Bool.and_self, if_true]
    exact (yields_throw _).bind_error _
  · simp only [hempty, Bool.false_and, Bool.false_eq_true, if_false]
    exact yields_pure _

theorem found_conclude (o : Outcome) : found o.conclude = .ok o.results := by
  rw [Outcome.conclude]
  split
  · rename_i hempty
    rw [List.isEmpty_iff.mp hempty]
    rfl
  · rfl

theorem found_of_refusal {e : ResolveError} (he : e.IsRefusal) :
    found (.error e) = .error e := by
  cases e with
  | noMatch blamed => exact absurd rfl (he.2 blamed)
  | _ => rfl

/-- The place picked from what an end of a slice means. -/
theorem bound_yields (horderly : r.registry.IsOrderly) (hs : r.Knows t generated? s)
    (unbounded : Option Nat) (pick : List Nat → Option Nat) {a : Option AtSpec}
    {matches? : Option (List Match)} (h : r.endFound t s a = .ok matches?) :
    Yields (r.Knows t generated?) (r.bound t unbounded pick a)
      (.ok (endPlace unbounded pick matches?)) := by
  cases a with
  | none =>
      cases h
      rw [bound]
      exact yields_pure _
  | some a =>
      obtain ⟨answer, hrun, hrefuses⟩ := run_steady (t := t) horderly generated? a
      rw [endFound, (resolve_yields (by simp) hrun).answer_eq hs] at h
      cases answer with
      | error e =>
          have hfound : found (.error e) = .error e := found_of_refusal (hrefuses e rfl)
          change (found (.error e)).map some = _ at h
          rw [hfound] at h
          cases h
      | ok outcome =>
          change (found outcome.conclude).map some = _ at h
          rw [found_conclude] at h
          cases h
          rw [bound]
          exact hrun.bind (yields_pure _)

theorem accepts_slice_eq_between (low high : Option Nat) (m : Match) :
    (ResultFilter.slice (low.bind fun low => high.map fun high => (low, high))).accepts m =
      (low.any (· ≤ m.offered) && high.any (m.offered ≤ ·)) := by
  cases low with
  | none => rfl
  | some low =>
      cases high with
      | none => simp [ResultFilter.accepts]
      | some high => rfl

/-- The filter of a slice lets through what passes the test of the slice. -/
theorem sliceFilter_yields (horderly : r.registry.IsOrderly) (hs : r.Knows t generated? s)
    {slice : Option (Slice AtSpec)} {inside : Match → Bool}
    (h : r.sliceTest t s slice = .ok inside) :
    ∃ filters, Yields (r.Knows t generated?) (r.sliceFilter t slice) (.ok filters) ∧
      ∀ ms, ResultFilter.runAll filters ms = ms.filter inside := by
  cases slice with
  | none =>
      cases h
      refine ⟨[], ?_, fun ms => ?_⟩
      · rw [sliceFilter]
        exact yields_pure _
      · rw [ResultFilter.runAll_nil]
        simp
  | some slice =>
      obtain ⟨id, lower, upper⟩ := slice
      obtain ⟨low?, hlow, h⟩ := bind_eq_ok.mp h
      obtain ⟨high?, hhigh, h⟩ := bind_eq_ok.mp h
      cases h
      refine ⟨[.slice ((endPlace t.method.instructions.first? List.min? low?).bind fun low =>
        (endPlace t.method.instructions.last? List.max? high?).map fun high => (low, high))],
        ?_, fun ms => ?_⟩
      · rw [sliceFilter]
        exact (bound_yields horderly hs _ _ hlow).bind
          ((bound_yields horderly hs _ _ hhigh).bind (yields_pure _))
      · rw [ResultFilter.runAll_eq_foldl]
        exact List.filter_congr fun m _ => accepts_slice_eq_between _ _ m

def collector (m : Method) (c : Criteria) (filters : List ResultFilter) (xs : List Candidate) :
    Collector :=
  (Collector.new m .all c.shift.offset (filters ++ c.ordinalFilters)).gather xs

theorem results_collector {m : Method} {c : Criteria} {filters : List ResultFilter}
    {inside : Match → Bool} (hkept : ∀ ms, ResultFilter.runAll filters ms = ms.filter inside)
    {xs : List Candidate} (hxs : ∀ x ∈ xs, x.position < m.instructions.size) :
    (collector m c filters xs).results =
      c.select m.instructions inside (m.instructions.shiftAll 0 xs 0) := by
  rw [collector, Collector.results_gather rfl]
  exact c.runAll_eq_select m.instructions hkept hxs

theorem results_collector_bare (m : Method) (c : Criteria) (xs : List Candidate) :
    (collector m c.bare [] xs).results = m.instructions.shiftAll 0 xs 0 := by
  rw [collector, Collector.results_gather rfl, Criteria.ordinalFilters_bare]
  exact ResultFilter.runAll_nil _

/-- A collection that keeps nothing blames some test exactly when there was a candidate. -/
theorem blamed_collector {m : Method} {c : Criteria} {filters : List ResultFilter}
    {xs : List Candidate} (hempty : (collector m c filters xs).results = []) :
    (collector m c filters xs).blamed = none ↔ xs = [] := by
  rw [collector] at hempty ⊢
  rw [Collector.blamed_gather_eq_none_iff rfl, hempty]
  simp [Collector.new, eq_comm]

/-- An annotation selects from the places that its bare kind finds: it answers with what it
selects and, if that is nothing, with an error that blames a test exactly when there was something
to select from. -/
theorem resolve_eq_select (horderly : r.registry.IsOrderly) (hlive : s.watch.IsLive)
    {kind : PointKind} {c : Criteria}
    (hkind : r.registry.lookup? c.value = some (.builtin kind)) {slice : Option (Slice AtSpec)}
    {inside : Match → Bool} (hslice : r.sliceTest t s slice = .ok inside) :
    match found ((r.resolve (.mk c.bare none) t .all).answer s) with
    | .error e => (r.resolve (.mk c slice) t .all).answer s = .error e
    | .ok all =>
      let results := c.select t.method.instructions inside all
      (results ≠ [] → (r.resolve (.mk c slice) t .all).answer s = .ok results) ∧
      (results = [] → ∃ blamed,
        (r.resolve (.mk c slice) t .all).answer s = .error (.noMatch blamed) ∧
          (blamed = none ↔ all = [])) ∧
      ∀ m ∈ results, ∃ u ∈ all, m = { u with position := m.position } := by
  obtain ⟨generated?, hs⟩ := r.exists_knows t hlive
  obtain ⟨ready, offered, hready, hoffered, hrange, hrun⟩ :=
    runWith_yields (t := t) hkind generated?
  obtain ⟨filters, hfilter, hkept⟩ := sliceFilter_yields horderly hs hslice
  have hbare := (resolve_yields (a := .mk c.bare none) (by simp)
    (hrun c.bare .all _ _ rfl (by simp) (yields_pure []))).answer_eq hs
  have hfull := (resolve_yields (a := .mk c slice) (by simp)
    (hrun c .all _ _ rfl (by simp) hfilter)).answer_eq hs
  -- Both answers are made of what the walk offers, so they differ in the collection alone.
  rw [hbare, hfull]
  cases ready with
  | error e =>
      change match found (.error e) with | .error _ => _ | .ok _ => _
      rw [found_of_refusal (hready e rfl)]
      rfl
  | ok _ =>
      cases offered with
      | error e =>
          change match found (.error e) with | .error _ => _ | .ok _ => _
          rw [found_of_refusal (hoffered e rfl)]
          rfl
      | ok xs =>
          have hxs := hrange xs rfl
          have hall := results_collector_bare t.method c xs
          have hresults := results_collector (c := c) hkept hxs
          change match found (collector t.method c.bare [] xs).outcome.conclude with
            | .error e => (collector t.method c filters xs).outcome.conclude = .error e
            | .ok all =>
              let results := c.select t.method.instructions inside all
              (results ≠ [] →
                (collector t.method c filters xs).outcome.conclude = .ok results) ∧
              (results = [] → ∃ blamed,
                (collector t.method c filters xs).outcome.conclude = .error (.noMatch blamed) ∧
                  (blamed = none ↔ all = [])) ∧
              ∀ m ∈ results, ∃ u ∈ all, m = { u with position := m.position }
          rw [found_conclude]
          dsimp only [Collector.outcome]
          rw [hall, ← hresults]
          refine ⟨fun hne => ?_, fun hempty => ?_, fun m hm => ?_⟩
          · rw [Outcome.conclude, if_neg (by simpa using hne)]
          · refine ⟨(collector t.method c filters xs).blamed, ?_, ?_⟩
            · rw [Outcome.conclude, if_pos (by simpa using hempty)]
            · rw [blamed_collector hempty, InstructionList.shiftAll_zero hxs]
              simp
          · exact Criteria.exists_of_mem_select (hresults ▸ hm)

def threeCalls : Target where
  owner := ⟨0, 52, 0x0021, "a/Main", some "java/lang/Object", [], none, [], []⟩
  method := {
    access := 0x0008
    name := "main"
    desc := "()V"
    maxStack := 0
    maxLocals := 0
    instructions := .ofList [.method .invokestatic "a/Log" "write" "()V" false,
      .method .invokestatic "a/Log" "write" "()V" false,
      .method .invokestatic "a/Log" "write" "()V" false, .plain .returnVoid]
    handlers := []
    declaredLocals := [] }

def classless : Resolver :=
  ⟨.builtin, ⟨fun _ => none, fun _ => none, fun _ => none, 0⟩, .standard⟩

def callOf (ordinal : Int32) : Criteria :=
  { Criteria.ofValue "INVOKE" with target := some "La/Log;write()V", ordinal }

def callMatch (index position : Nat) : Match :=
  ⟨index, index, position, .method "a/Log" "write" "()V", some "a/Log", []⟩

def afterSecondCall : Criteria := { callOf 0 with shift := .after }

def fromSecondCall : Slice AtSpec := ⟨"", some (.mk (callOf 1) none), none⟩

def freshSession : Session := ⟨.empty, .live⟩

theorem resolve_afterSecondCall :
    classless.registry.IsOrderly ∧ freshSession.watch.IsLive ∧
      classless.registry.lookup? afterSecondCall.value = some (.builtin .invoke) ∧
      classless.sliceTest threeCalls freshSession (some fromSecondCall) =
        .ok (between threeCalls.method.instructions (some [callMatch 1 1]) none) ∧
      (classless.resolve (.mk afterSecondCall (some fromSecondCall)) threeCalls .all).answer
        freshSession = .ok [callMatch 1 2] := by
  have hlookup : classless.registry.lookup? afterSecondCall.value = some (.builtin .invoke) := rfl
  have hlower : classless.endFound threeCalls freshSession (some (.mk (callOf 1) none)) =
      .ok (some [callMatch 1 1]) := by decide +kernel
  have hslice : classless.sliceTest threeCalls freshSession (some fromSecondCall) =
      .ok (between threeCalls.method.instructions (some [callMatch 1 1]) none) := by
    rw [fromSecondCall, sliceTest, hlower]
    rfl
  have hall : found ((classless.resolve (.mk afterSecondCall.bare none) threeCalls .all).answer
      freshSession) = .ok [callMatch 0 0, callMatch 1 1, callMatch 2 2] := by decide +kernel
  have hselect := resolve_eq_select (r := classless) (s := freshSession)
    Registry.builtin_isOrderly rfl hlookup hslice
  rw [hall] at hselect
  exact ⟨Registry.builtin_isOrderly, rfl, hlookup, hslice, hselect.1 (by decide)⟩

/-! ### The first place -/

theorem run_eq_runWith (a : AtSpec) (mode : Mode) :
    r.run t a mode = r.runWith t a.criteria mode (r.sliceFilter t a.slice?) := by
  cases a with
  | mk c slice =>
      rw [run]
      rfl

end Resolver

end Injection
