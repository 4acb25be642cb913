import Injection.Proofs.Point.Visits
import Injection.Resolver

/-!
What a resolution answers. While the token lives, the walk for an annotation answers the same
each time, and for a built-in kind it is the list of candidates put through the filters.
-/

namespace Injection

/-- What a host's point must keep to: while the token lives it answers the same each time, does not
report the token, and leaves it to the resolver to report that nothing was found. -/
def CustomPoint.IsOrderly (p : CustomPoint) : Prop :=
  ∀ ctx c, Steady Watch.IsLive ResolveError.IsRefusal (p.find ctx c)

def Registry.IsOrderly (registry : Registry) : Prop :=
  ∀ name p, registry.lookup? name = some (.custom p) → p.IsOrderly

def Registry.SparesToken (registry : Registry) : Prop :=
  ∀ name p, registry.lookup? name = some (.custom p) →
    ∀ ctx c, Keeps Watch.IsLive (p.find ctx c)

theorem Registry.IsOrderly.sparesToken {registry : Registry} (h : registry.IsOrderly) :
    registry.SparesToken :=
  fun name p hlookup ctx c => (h name p hlookup ctx c).keeps

namespace Registry

theorem mem_insertEntry {code : String} {point : InjectionPoint}
    {entries : List (String × InjectionPoint)} {entry : String × InjectionPoint}
    (h : entry ∈ insertEntry code point entries) : entry = (code, point) ∨ entry ∈ entries := by
  induction entries with
  | nil => exact .inl (List.mem_singleton.mp h)
  | cons first rest ih =>
      rw [insertEntry] at h
      split at h
      · rcases List.mem_cons.mp h with rfl | h
        · exact .inl rfl
        · exact .inr h
      · split at h
        · rcases List.mem_cons.mp h with rfl | h
          · exact .inl rfl
          · exact .inr (List.mem_cons_of_mem _ h)
        · rcases List.mem_cons.mp h with rfl | h
          · exact .inr List.mem_cons_self
          · rcases ih h with rfl | h
            · exact .inl rfl
            · exact .inr (List.mem_cons_of_mem _ h)

/-- Without points from hosts there is nothing to keep to. -/
theorem isOrderly_of_builtin {registry : Registry}
    (h : ∀ entry ∈ registry.entries, ∃ kind, entry.2 = .builtin kind) : registry.IsOrderly := by
  intro name p hlookup
  obtain ⟨before, after, hentries, -⟩ := List.lookup_eq_some_iff.mp hlookup
  obtain ⟨kind, hkind⟩ := h (Blank.strip name, .custom p) (by rw [hentries]; simp)
  cases hkind

theorem builtin_isOrderly : builtin.IsOrderly := by
  suffices h : ∀ (kinds : List PointKind) (registry : Registry),
      (∀ entry ∈ registry.entries, ∃ kind, entry.2 = .builtin kind) →
      ∀ entry ∈ (kinds.foldl (fun r kind => r.insert kind.code (.builtin kind)) registry).entries,
        ∃ kind, entry.2 = .builtin kind from
    isOrderly_of_builtin (h PointKind.all empty (by simp [empty]))
  intro kinds
  induction kinds with
  | nil => exact fun registry h => h
  | cons kind kinds ih =>
      refine fun registry h => ih _ fun entry hentry => ?_
      rcases mem_insertEntry hentry with rfl | hentry
      · exact ⟨kind, rfl⟩
      · exact h entry hentry

end Registry

namespace Criteria

def bare (c : Criteria) : Criteria := { c with shift := .none, ordinal := -1 }

def ordinalFilters (c : Criteria) : List ResultFilter :=
  c.ordinal?.toList.map fun n => .ordinal n 0

theorem value_eq_of_bare_eq {c c' : Criteria} (h : c'.bare = c.bare) : c'.value = c.value := by
  have := congrArg Criteria.value h
  exact this

theorem target_eq_of_bare_eq {c c' : Criteria} (h : c'.bare = c.bare) : c'.target = c.target := by
  have := congrArg Criteria.target h
  exact this

end Criteria

namespace PointKind

/-- Where a candidate is moved to, and which of them is wanted, means nothing to the walk. -/
theorem visits_bare (kind : PointKind) (ctx : PointContext) :
    kind.visits { ctx with criteria := ctx.criteria.bare } = kind.visits ctx := by
  cases kind <;> rfl

theorem visits_eq_of_bare_eq (kind : PointKind) (ctx : PointContext) {c : Criteria}
    (h : c.bare = ctx.criteria.bare) :
    kind.visits { ctx with criteria := c } = kind.visits ctx := by
  rw [← visits_bare kind ctx, ← h]
  exact (visits_bare kind { ctx with criteria := c }).symm

theorem offered_eq_of_bare_eq (kind : PointKind) (ctx : PointContext) {c : Criteria}
    (h : c.bare = ctx.criteria.bare) :
    kind.offered { ctx with criteria := c } = kind.offered ctx := by
  rw [offered, offered, visits_eq_of_bare_eq kind ctx h]

/-- The candidates that a kind offers in a method, whatever collection takes them. -/
theorem find_yields (kind : PointKind) (ctx : PointContext) (collector : Collector) :
    Yields Watch.IsLive ((InjectionPoint.builtin kind).find ctx collector)
      ((kind.offered ctx).map collector.gather) := by
  rw [InjectionPoint.find, offered]
  cases hvisits : kind.visits ctx with
  | error e => exact (Query.yields_ofExcept _).bind_error _
  | ok visits =>
      have hsteady : ∀ v ∈ visits, v.IsSteady :=
        fun v hv => (kind.offersIn_visits hvisits v hv).isSteady
      exact (Query.yields_ofExcept _).bind (collector.walk_yields hsteady)

end PointKind

def Collector.outcome (c : Collector) : Outcome := ⟨c.results, c.blamed⟩

def Outcome.conclude (o : Outcome) : Except ResolveError (List Match) :=
  if o.results.isEmpty then .error (.noMatch o.blamed) else .ok o.results

def Request.answer {ε α : Type} (q : Request ε α) (s : Session) : Except ε α := (q.run.run s).1

theorem Yields.answer_eq {ε α : Type} {P : Session → Prop} {q : Request ε α} {r : Except ε α}
    (hq : Yields P q r) {s : Session} (hs : P s) : q.answer s = r := by
  obtain ⟨s', -, hrun⟩ := hq s hs
  change (q s).1 = r
  rw [hrun]

theorem Request.answer_ofExcept_bind {ε α β : Type} (x : Except ε α) (f : α → Request ε β)
    (s : Session) : (ofExcept x >>= f).answer s = x >>= fun a => (f a).answer s := by
  cases x <;> rfl

namespace Resolver

variable {r : Resolver} {t : Target} {generated? : Option (List LocalVariable)}

/-- A session with a live token in which `generated?` are the variables made up for the method. -/
def Knows (r : Resolver) (t : Target) (generated? : Option (List LocalVariable)) :
    Session → Prop :=
  Session.Knows t.owner.name t.method r.index.hierarchy r.index.stamp generated?

theorem exists_knows (r : Resolver) (t : Target) {s : Session} (hlive : s.watch.IsLive) :
    ∃ generated?, r.Knows t generated? s :=
  Session.exists_knows hlive

theorem localsContext_yields :
    Yields (r.Knows t generated?) (r.localsContext t)
      (.ok (.new t.owner.name t.method generated? r.options.locals)) := by
  intro s hs
  obtain ⟨answer, s', hrun, hs', hanswer⟩ := AnalysisCache.analysis_run hs
  refine ⟨s', hs', ?_⟩
  rw [localsContext, ExceptT.run, StateT.run, analysis, hrun]
  rcases hanswer with ⟨a, rfl, ha⟩ | ⟨rfl, hnone⟩
  · dsimp only
    rw [ha]
  · rw [hnone]

def localsFor (r : Resolver) (t : Target) (generated? : Option (List LocalVariable))
    (point : InjectionPoint) : Option LocalsContext :=
  if point.needsLocals then some (.new t.owner.name t.method generated? r.options.locals) else none

/-- A computation that is given the variables if the kind needs them. -/
theorem yields_after_locals {α : Type} (point : InjectionPoint)
    {f : Option LocalsContext → Request ResolveError α} {answer : Except ResolveError α}
    (hf : Yields (r.Knows t generated?) (f (r.localsFor t generated? point)) answer) :
    Yields (r.Knows t generated?)
      (if point.needsLocals then
        some <$> (r.localsContext t).mapError ResolveError.ofCancelled >>= f
      else pure none >>= f) answer := by
  rw [localsFor] at hf
  split
  · rw [if_pos ‹_›] at hf
    exact ((Request.yields_mapError localsContext_yields _).map some).bind hf
  · rw [if_neg ‹_›] at hf
    exact (yields_pure none).bind hf

theorem runWith_apply (c : Criteria) {mode : Mode} (hmode : mode ≠ .completion)
    (slice : Request ResolveError (List ResultFilter)) :
    r.runWith t c mode slice = (do
      Request.ofQuery (Query.checkpoint .cancelled)
      let point ← Request.ofExcept (r.lookup c)
      let selector ← Request.ofExcept (selector point c .all)
      let locals ← if point.needsLocals then
          some <$> (r.localsContext t).mapError .ofCancelled
        else pure none
      let slice ← slice
      let collector ← Request.ofQuery (point.find
        ⟨t.owner.name, t.method, c, selector, locals, r.options⟩
        (Collector.new t.method mode c.shift.offset (slice ++ c.ordinalFilters)))
      return collector.outcome) := by
  have hselector (point : InjectionPoint) : selector point c mode = selector point c .all := by
    simp [selector, hmode]
  simp only [runWith, hmode, if_false, hselector]
  rfl

theorem selector_eq_of_bare_eq {point : InjectionPoint} {c c' : Criteria}
    (h : c'.bare = c.bare) : selector point c' .all = selector point c .all := by
  rw [selector, selector, Criteria.target_eq_of_bare_eq h, Criteria.value_eq_of_bare_eq h]

theorem selector_refuses {point : InjectionPoint} {c : Criteria} {mode : Mode} {e : ResolveError}
    (h : selector point c mode = .error e) : e.IsRefusal := by
  unfold selector at h
  split at h
  · cases h
  · split at h
    · split at h <;> cases h
      exact ⟨nofun, nofun⟩
    · split at h <;> cases h
      exact ⟨nofun, nofun⟩

theorem lookup_eq_ok {c : Criteria} {point : InjectionPoint}
    (h : r.registry.lookup? c.value = some point) : r.lookup c = .ok point := by
  rw [lookup, h]

theorem look_yields : Yields (r.Knows t generated?)
    (Request.ofQuery (Query.checkpoint ResolveError.cancelled)) (.ok ()) :=
  Request.yields_ofQuery (Query.yields_checkpoint _)

theorem lookup_yields {kind : PointKind} {c c' : Criteria}
    (hkind : r.registry.lookup? c.value = some (.builtin kind)) (hc : c'.bare = c.bare) :
    Yields (r.Knows t generated?) (Request.ofExcept (r.lookup c')) (.ok (.builtin kind)) := by
  rw [lookup_eq_ok (Criteria.value_eq_of_bare_eq hc ▸ hkind)]
  exact Request.yields_ofExcept _

/-- The walk for a built-in kind. Its settings are checked, then the filter of its slice is made,
and then the candidates are offered; neither the settings nor the candidates depend on the mode,
the slice, the shift or the ordinal. -/
theorem runWith_yields {kind : PointKind} {c : Criteria}
    (hkind : r.registry.lookup? c.value = some (.builtin kind))
    (generated? : Option (List LocalVariable)) :
    ∃ (ready : Except ResolveError Unit) (offered : Except ResolveError (List Candidate)),
      (∀ e, ready = .error e → e.IsRefusal) ∧ (∀ e, offered = .error e → e.IsRefusal) ∧
      (∀ xs, offered = .ok xs → ∀ x ∈ xs, x.position < t.method.instructions.size) ∧
      ∀ c' mode slice filters?, c'.bare = c.bare → mode ≠ .completion →
        Yields (r.Knows t generated?) slice filters? →
        Yields (r.Knows t generated?) (r.runWith t c' mode slice) (do
          ready
          let filters ← filters?
          let xs ← offered
          return ((Collector.new t.method mode c'.shift.offset
            (filters ++ c'.ordinalFilters)).gather xs).outcome) := by
  cases hselector : selector (.builtin kind) c .all with
  | error e =>
      refine ⟨.error e, .ok [], fun _ h => Except.error.inj h ▸ selector_refuses hselector, nofun,
        fun xs h => Except.ok.inj h ▸ by simp, fun c' mode slice filters? hc hmode _ => ?_⟩
      rw [runWith_apply c' hmode]
      refine look_yields.bind ((lookup_yields hkind hc).bind ?_)
      rw [selector_eq_of_bare_eq hc, hselector]
      exact (Request.yields_ofExcept _).bind_error _
  | ok wanted =>
      let ctx : PointContext :=
        ⟨t.owner.name, t.method, c, wanted, r.localsFor t generated? (.builtin kind), r.options⟩
      refine ⟨.ok (), kind.offered ctx, nofun, fun _ => PointKind.offered_refuses,
        fun _ => PointKind.lt_size_of_mem_offered, fun c' mode slice filters? hc hmode hslice => ?_⟩
      rw [runWith_apply c' hmode]
      refine look_yields.bind ((lookup_yields hkind hc).bind ?_)
      rw [selector_eq_of_bare_eq hc, hselector]
      refine (Request.yields_ofExcept _).bind (yields_after_locals (.builtin kind) ?_)
      refine hslice.bind_all fun filters => ?_
      have hoffer : Yields (r.Knows t generated?) _ _ := Request.yields_ofQuery
        (kind.find_yields { ctx with criteria := c' }
          (Collector.new t.method mode c'.shift.offset (filters ++ c'.ordinalFilters)))
      rw [kind.offered_eq_of_bare_eq ctx hc] at hoffer
      cases hoffered : kind.offered ctx with
      | error e =>
          rw [hoffered] at hoffer
          exact hoffer.bind_error _
      | ok xs =>
          rw [hoffered] at hoffer
          exact hoffer.bind (yields_pure _)

theorem find_steady (horderly : r.registry.IsOrderly) {name : String} {point : InjectionPoint}
    (hlookup : r.registry.lookup? name = some point) (ctx : PointContext) (c : Collector) :
    Steady Watch.IsLive ResolveError.IsRefusal (point.find ctx c) := by
  cases point with
  | custom p => exact horderly name p hlookup ctx c
  | builtin kind =>
      exact ⟨_, kind.find_yields ctx c, fun e he =>
        PointKind.offered_refuses (map_eq_error.mp he)⟩

/-- Any walk of a resolver whose registry is orderly answers the same each time. -/
theorem runWith_steady (horderly : r.registry.IsOrderly) (c : Criteria) {mode : Mode}
    (hmode : mode ≠ .completion) {slice : Request ResolveError (List ResultFilter)}
    (hslice : Steady (r.Knows t generated?) ResolveError.IsRefusal slice) :
    Steady (r.Knows t generated?) ResolveError.IsRefusal (r.runWith t c mode slice) := by
  rw [runWith_apply c hmode]
  refine .after look_yields ?_
  cases hlookup : r.registry.lookup? c.value with
  | none =>
      rw [lookup, hlookup]
      exact ⟨_, (Request.yields_ofExcept _).bind_error _,
        fun e h => Except.error.inj h ▸ ⟨nofun, nofun⟩⟩
  | some point =>
      rw [lookup_eq_ok hlookup]
      refine .after (Request.yields_ofExcept _) (.bind
        ⟨_, Request.yields_ofExcept _, fun e => selector_refuses⟩ fun wanted => ?_)
      obtain ⟨answer, hanswer, hrefuses⟩ : Steady (r.Knows t generated?) ResolveError.IsRefusal
          (do
            let slice ← slice
            let collector ← Request.ofQuery (point.find
              ⟨t.owner.name, t.method, c, wanted, r.localsFor t generated? point, r.options⟩
              (Collector.new t.method mode c.shift.offset (slice ++ c.ordinalFilters)))
            return collector.outcome) := by
        refine hslice.bind fun filters => .bind ?_ fun collector => steady_pure _
        obtain ⟨found, hfound, hrefuses⟩ := find_steady horderly hlookup
          ⟨t.owner.name, t.method, c, wanted, r.localsFor t generated? point, r.options⟩
          (Collector.new t.method mode c.shift.offset (filters ++ c.ordinalFilters))
        exact ⟨found, Request.yields_ofQuery hfound, hrefuses⟩
      exact ⟨answer, yields_after_locals point hanswer, hrefuses⟩

mutual

/-- The walk for an annotation answers the same each time. -/
theorem run_steady (horderly : r.registry.IsOrderly)
    (generated? : Option (List LocalVariable)) :
    ∀ a : AtSpec, Steady (r.Knows t generated?) ResolveError.IsRefusal (r.run t a .all)
  | .mk c slice => by
    rw [run]
    exact runWith_steady horderly c (by simp) (sliceFilter_steady horderly generated? slice)

theorem sliceFilter_steady (horderly : r.registry.IsOrderly)
    (generated? : Option (List LocalVariable)) :
    ∀ slice : Option (Slice AtSpec),
      Steady (r.Knows t generated?) ResolveError.IsRefusal (r.sliceFilter t slice)
  | none => by
    rw [sliceFilter]
    exact steady_pure _
  | some ⟨id, lower, upper⟩ => by
    rw [sliceFilter]
    exact .bind (bound_steady horderly generated? _ _ lower) fun low =>
      .bind (bound_steady horderly generated? _ _ upper) fun high => steady_pure _

theorem bound_steady (horderly : r.registry.IsOrderly)
    (generated? : Option (List LocalVariable)) (unbounded : Option Nat)
    (pick : List Nat → Option Nat) :
    ∀ a : Option AtSpec,
      Steady (r.Knows t generated?) ResolveError.IsRefusal (r.bound t unbounded pick a)
  | none => by
    rw [bound]
    exact steady_pure _
  | some a => by
    rw [bound]
    exact .bind (run_steady horderly generated? a) fun outcome => steady_pure _

end

/-! ### Walks in a session -/

/-- What an annotation asks for. In completion that is its kind and the opcode. -/
def asked (c : Criteria) (mode : Mode) : Criteria :=
  if mode = .completion then completionCriteria c else c

def contextFor (r : Resolver) (t : Target) (generated? : Option (List LocalVariable))
    (point : InjectionPoint) (c : Criteria) (wanted : Option Selector) : PointContext :=
  ⟨t.owner.name, t.method, c, wanted, r.localsFor t generated? point, r.options⟩

def collectorFor (mode : Mode) (ctx : PointContext) (filters : List ResultFilter) : Collector :=
  .new ctx.method mode ctx.criteria.shift.offset (filters ++ ctx.criteria.ordinalFilters)

/-- What is left of a walk when its settings are checked and the variables are known. -/
def walkWithin (mode : Mode) (ctx : PointContext) (point : InjectionPoint)
    (slice : Request ResolveError (List ResultFilter)) : Request ResolveError Outcome := do
  let filters ← slice
  let collector ← Request.ofQuery (point.find ctx (collectorFor mode ctx filters))
  return collector.outcome

theorem runWith_eq_walkWithin (c : Criteria) (mode : Mode)
    (slice : Request ResolveError (List ResultFilter)) :
    r.runWith t c mode slice = (do
      Request.ofQuery (Query.checkpoint .cancelled)
      let point ← Request.ofExcept (r.lookup c)
      let wanted ← Request.ofExcept (selector point (asked c mode) mode)
      let locals ← if point.needsLocals then
          some <$> (r.localsContext t).mapError .ofCancelled
        else pure none
      walkWithin mode ⟨t.owner.name, t.method, asked c mode, wanted, locals, r.options⟩ point
        slice) := rfl

/-- Up to the slice the walks for annotations of a kind do the same in a session, whatever they
ask for. -/
theorem exists_runWith_answer (t : Target) (kind : PointKind) {s : Session}
    (hs : r.Knows t generated? s) :
    ∃ s', r.Knows t generated? s' ∧ ∀ c mode slice,
      r.registry.lookup? c.value = some (.builtin kind) →
      (r.runWith t c mode slice).answer s =
        selector (.builtin kind) (asked c mode) mode >>= fun wanted =>
          (walkWithin mode (r.contextFor t generated? (.builtin kind) (asked c mode) wanted)
            (.builtin kind) slice).answer s' := by
  obtain ⟨s₁, hs₁, hlook⟩ := look_yields s hs
  obtain ⟨s₂, hs₂, hlocals⟩ : ∃ s₂, r.Knows t generated? s₂ ∧
      ∀ f : Option LocalsContext → Request ResolveError Outcome,
        (if (InjectionPoint.builtin kind).needsLocals then
          some <$> (r.localsContext t).mapError ResolveError.ofCancelled >>= f
        else pure none >>= f) s₁ = f (r.localsFor t generated? (.builtin kind)) s₂ := by
    rw [localsFor]
    split
    · obtain ⟨s₂, hs₂, hrun⟩ :=
        (Request.yields_mapError localsContext_yields _).map some s₁ hs₁
      exact ⟨s₂, hs₂, fun f => by rw [bind_apply, hrun]; rfl⟩
    · exact ⟨s₁, hs₁, fun f => rfl⟩
  refine ⟨s₂, hs₂, fun c mode slice hkind => ?_⟩
  have hstart (f : Unit → Request ResolveError Outcome) :
      (Request.ofQuery (Query.checkpoint ResolveError.cancelled) >>= f).answer s =
        (f ()).answer s₁ := by
    change ((Request.ofQuery (Query.checkpoint ResolveError.cancelled) >>= f) s).1 = _
    rw [bind_apply, hlook]
    rfl
  rw [runWith_eq_walkWithin, hstart, lookup_eq_ok hkind, Request.answer_ofExcept_bind]
  change (Request.ofExcept (selector (.builtin kind) (asked c mode) mode) >>= _).answer s₁ = _
  rw [Request.answer_ofExcept_bind]
  exact congrArg _ (funext fun wanted => congrArg Prod.fst (hlocals _))

/-- A walk for a built-in kind whose slice leaves the token alive collects what the kind offers. -/
theorem walkWithin_answer {mode : Mode} {ctx : PointContext} {kind : PointKind}
    {slice : Request ResolveError (List ResultFilter)} {filters : List ResultFilter}
    {s s' : Session} (hslice : slice s = (.ok filters, s')) (hs' : r.Knows t generated? s') :
    (walkWithin mode ctx (.builtin kind) slice).answer s =
      (kind.offered ctx).map fun xs => ((collectorFor mode ctx filters).gather xs).outcome := by
  have hfound : Yields (r.Knows t generated?)
      (Request.ofQuery ((InjectionPoint.builtin kind).find ctx (collectorFor mode ctx filters)))
      ((kind.offered ctx).map (collectorFor mode ctx filters).gather) :=
    Request.yields_ofQuery (kind.find_yields ctx _)
  have hrest := (hfound.bind_all fun collected => yields_pure collected.outcome).answer_eq hs'
  change ((slice >>= _ : Request ResolveError Outcome) s).1 = _
  rw [bind_apply, hslice]
  refine hrest.trans ?_
  cases kind.offered ctx <;> rfl

theorem find_keeps (hspares : r.registry.SparesToken) {name : String} {point : InjectionPoint}
    (hlookup : r.registry.lookup? name = some point) (ctx : PointContext) (c : Collector) :
    Keeps Watch.IsLive (point.find ctx c) := by
  cases point with
  | custom p => exact hspares name p hlookup ctx c
  | builtin kind => exact (kind.find_yields ctx c).keeps

/-- No walk cancels the token if no point of a host does. -/
theorem runWith_keeps (hspares : r.registry.SparesToken) (c : Criteria) (mode : Mode)
    {slice : Request ResolveError (List ResultFilter)}
    (hslice : Keeps (r.Knows t generated?) slice) :
    Keeps (r.Knows t generated?) (r.runWith t c mode slice) := by
  rw [runWith_eq_walkWithin]
  refine look_yields.keeps.bind fun _ => ?_
  cases hlookup : r.registry.lookup? c.value with
  | none =>
      rw [lookup, hlookup]
      exact ((Request.yields_ofExcept _).bind_error _).keeps
  | some point =>
      have hwalk (ctx : PointContext) : Keeps (r.Knows t generated?)
          (walkWithin mode ctx point slice) :=
        hslice.bind fun filters => (Request.keeps_ofQuery (find_keeps hspares hlookup _ _)).bind
          fun collector => (yields_pure _).keeps
      rw [lookup_eq_ok hlookup]
      refine (Request.yields_ofExcept _).keeps_bind ?_
      refine (Request.yields_ofExcept _).keeps.bind fun wanted => ?_
      split
      · exact ((Request.yields_mapError localsContext_yields _).map some).keeps_bind (hwalk _)
      · exact (yields_pure none).keeps_bind (hwalk _)

mutual

theorem run_keeps (hspares : r.registry.SparesToken) (mode : Mode) :
    ∀ a : AtSpec, Keeps (r.Knows t generated?) (r.run t a mode)
  | .mk c slice => by
    rw [run]
    exact runWith_keeps hspares c mode (sliceFilter_keeps hspares slice)

theorem sliceFilter_keeps (hspares : r.registry.SparesToken) :
    ∀ slice : Option (Slice AtSpec), Keeps (r.Knows t generated?) (r.sliceFilter t slice)
  | none => by
    rw [sliceFilter]
    exact (yields_pure _).keeps
  | some ⟨id, lower, upper⟩ => by
    rw [sliceFilter]
    exact (bound_keeps hspares _ _ lower).bind fun low =>
      (bound_keeps hspares _ _ upper).bind fun high => (yields_pure _).keeps

theorem bound_keeps (hspares : r.registry.SparesToken) (unbounded : Option Nat)
    (pick : List Nat → Option Nat) :
    ∀ a : Option AtSpec, Keeps (r.Knows t generated?) (r.bound t unbounded pick a)
  | none => by
    rw [bound]
    exact (yields_pure _).keeps
  | some a => by
    rw [bound]
    exact (run_keeps hspares .all a).bind fun outcome => (yields_pure _).keeps

end

end Resolver

end Injection
