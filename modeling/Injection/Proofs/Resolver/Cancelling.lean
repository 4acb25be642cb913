import Injection.Proofs.Cancellation.Interruption
import Injection.Proofs.Resolver.Selection

/-!
What cancellation can do to a request: put an error in the place of its answer. A request keeps one
answer and leaves one cache whenever its token does not stop it; stopped, it leaves the cache as it
found it or as it would have left it.
-/

namespace Injection

/-! ### Requests that a token may interrupt -/

namespace Request

variable {ε ε' α β : Type} {cancelled : ε} {next : AnalysisCache → AnalysisCache}

/-- From the cache `before` a request that is not stopped gives the answer `r` and leaves the cache
`after`; one that is stopped leaves one of the two caches. -/
structure Ends (cancelled : ε) (q : Request ε α) (before : AnalysisCache) (r : Except ε α)
    (after : AnalysisCache) : Prop where
  live : ∀ w, w.IsLive → ∃ w', w'.IsLive ∧ q ⟨before, w⟩ = (r, ⟨after, w'⟩)
  any : ∀ w, ∃ w', q ⟨before, w⟩ = (r, ⟨after, w'⟩) ∨
    ∃ c, (c = before ∨ c = after) ∧ q ⟨before, w⟩ = (.error cancelled, ⟨c, w'⟩)

/-- The token has no say in what the request answers and enters; all that the request may enter is
what `next` enters. -/
def Withstands (cancelled : ε) (next : AnalysisCache → AnalysisCache) (q : Request ε α) : Prop :=
  ∀ before, ∃ r after, (after = before ∨ after = next before) ∧ Ends cancelled q before r after

namespace Withstands

theorem ofQuery {q : Query ε α} (hq : Query.Withstands cancelled q) :
    Withstands cancelled next (Request.ofQuery q) := by
  obtain ⟨r, hlive, hany⟩ := hq
  refine fun before => ⟨r, before, .inl rfl, fun w hw => ?_, fun w => ⟨(q w).2, ?_⟩⟩
  · obtain ⟨w', hw', hrun⟩ := hlive w hw
    refine ⟨w', hw', ?_⟩
    simp only [Request.ofQuery, ExceptT.run, StateT.run, hrun]
  · rcases hany w with h | h
    · exact .inl (Prod.ext h rfl)
    · exact .inr ⟨before, .inl rfl, Prod.ext h rfl⟩

theorem ofExcept (r : Except ε α) : Withstands cancelled next (Request.ofExcept r) :=
  ofQuery (.ofExcept r)

theorem pure (a : α) : Withstands cancelled next (pure a : Request ε α) := ofExcept (.ok a)

theorem throw (e : ε) : Withstands cancelled next (throw e : Request ε α) := ofExcept (.error e)

/-- What is entered twice is entered once. -/
theorem bind (hnext : ∀ c, next (next c) = next c) {q : Request ε α} {f : α → Request ε β}
    (hq : Withstands cancelled next q) (hf : ∀ a, Withstands cancelled next (f a)) :
    Withstands cancelled next (q >>= f) := by
  intro before
  obtain ⟨r, middle, hmiddle, hends⟩ := hq before
  cases r with
  | error e =>
      refine ⟨.error e, middle, hmiddle, fun w hw => ?_, fun w => ?_⟩
      · obtain ⟨w', hw', hrun⟩ := hends.live w hw
        exact ⟨w', hw', by rw [bind_apply, hrun]⟩
      · obtain ⟨w', hrun | ⟨c, hc, hrun⟩⟩ := hends.any w
        · exact ⟨w', .inl (by rw [bind_apply, hrun])⟩
        · exact ⟨w', .inr ⟨c, hc, by rw [bind_apply, hrun]⟩⟩
  | ok a =>
      obtain ⟨r, after, hafter, hrest⟩ := hf a middle
      have hreached : after = before ∨ after = next before := by
        rcases hmiddle with rfl | rfl
        · exact hafter
        · exact .inr (hafter.elim id fun h => h.trans (hnext before))
      -- Of the caches before, between and after the two parts, two are the same.
      have hsame : middle = before ∨ middle = after := by
        rcases hmiddle with rfl | rfl
        · exact .inl rfl
        · exact .inr (hafter.elim Eq.symm fun h => (h.trans (hnext before)).symm)
      refine ⟨r, after, hreached, fun w hw => ?_, fun w => ?_⟩
      · obtain ⟨w₁, hw₁, hrun⟩ := hends.live w hw
        obtain ⟨w₂, hw₂, hrun'⟩ := hrest.live w₁ hw₁
        exact ⟨w₂, hw₂, by rw [bind_apply, hrun]; exact hrun'⟩
      · obtain ⟨w₁, hrun | ⟨c, hc, hrun⟩⟩ := hends.any w
        · obtain ⟨w₂, hrun' | ⟨c, hc, hrun'⟩⟩ := hrest.any w₁
          · exact ⟨w₂, .inl (by rw [bind_apply, hrun]; exact hrun')⟩
          · refine ⟨w₂, .inr ⟨c, ?_, by rw [bind_apply, hrun]; exact hrun'⟩⟩
            rcases hc with rfl | rfl
            · exact hsame
            · exact .inr rfl
        · refine ⟨w₁, .inr ⟨c, ?_, by rw [bind_apply, hrun]⟩⟩
          rcases hc with rfl | rfl
          · exact .inl rfl
          · exact hsame

/-- A computation that makes another answer of each answer, and keeps to the cancellation. -/
theorem map_answer {cancelled' : ε'} {q : Request ε α} {q' : Request ε' β}
    {g : Except ε α → Except ε' β} (hq : Withstands cancelled next q)
    (hg : g (.error cancelled) = .error cancelled')
    (hrun : ∀ s, q' s = (g (q s).1, (q s).2)) : Withstands cancelled' next q' := by
  intro before
  obtain ⟨r, after, hafter, hends⟩ := hq before
  refine ⟨g r, after, hafter, fun w hw => ?_, fun w => ?_⟩
  · obtain ⟨w', hw', h⟩ := hends.live w hw
    exact ⟨w', hw', by rw [hrun, h]⟩
  · obtain ⟨w', h | ⟨c, hc, h⟩⟩ := hends.any w
    · exact ⟨w', .inl (by rw [hrun, h])⟩
    · exact ⟨w', .inr ⟨c, hc, by rw [hrun, h, hg]⟩⟩

theorem mapError {q : Request ε α} (hq : Withstands cancelled next q) (f : ε → ε') :
    Withstands (f cancelled) next (q.mapError f) :=
  hq.map_answer (g := Except.mapError f) rfl fun _ => rfl

end Withstands

end Request

def Session.calm (s : Session) : Session := { s with watch := .live }

/-- Beside the run with a token that is never cancelled: the request reports the cancellation or
gives the same answer, and it leaves the cache as it was or as the other run leaves it. -/
structure Request.OnlyInterrupted {ε α : Type} (cancelled : ε) (q : Request ε α) (s : Session) :
    Prop where
  answer : q.answer s = .error cancelled ∨ q.answer s = q.answer s.calm
  cache : (q s).2.cache = s.cache ∨ (q s).2.cache = (q s.calm).2.cache
  entered : ∀ entry ∈ (q s).2.cache.entries, entry ∉ s.cache.entries →
    entry ∈ (q s.calm).2.cache.entries

theorem Request.Withstands.onlyInterrupted {ε α : Type} {cancelled : ε}
    {next : AnalysisCache → AnalysisCache} {q : Request ε α}
    (hq : q.Withstands cancelled next) (s : Session) : q.OnlyInterrupted cancelled s := by
  obtain ⟨r, after, -, hends⟩ := hq s.cache
  obtain ⟨w', -, hcalm⟩ := hends.live .live rfl
  have hcalm : q s.calm = (r, ⟨after, w'⟩) := hcalm
  have hcache : (q s).2.cache = s.cache ∨ (q s).2.cache = (q s.calm).2.cache := by
    obtain ⟨w, hrun | ⟨c, hc, hrun⟩⟩ := hends.any s.watch
    · exact .inr (by rw [hcalm]; exact congrArg (·.2.cache) hrun)
    · rw [hcalm]
      exact hc.imp (fun h => (congrArg (·.2.cache) hrun).trans h)
        fun h => (congrArg (·.2.cache) hrun).trans h
  refine ⟨?_, hcache, fun entry hentry hnew => ?_⟩
  · obtain ⟨w, hrun | ⟨c, -, hrun⟩⟩ := hends.any s.watch
    · exact .inr ((congrArg Prod.fst hrun).trans (congrArg Prod.fst hcalm).symm)
    · exact .inl (congrArg Prod.fst hrun)
  · rcases hcache with h | h
    · exact absurd (h ▸ hentry) hnew
    · exact h ▸ hentry

/-! ### The analysis of a method -/

namespace AnalysisCache

def asked (owner : String) (m : Method) (h : Hierarchy) (stamp : Stamp) (c : AnalysisCache) :
    AnalysisCache :=
  match c.lookup? (.of owner m) stamp, MethodAnalysis.outcome owner m h with
  | none, .ok found => (c.add (.of owner m) stamp found).2
  | _, _ => c

variable {owner : String} {m : Method} {h : Hierarchy} {stamp : Stamp}

theorem asked_asked (c : AnalysisCache) :
    asked owner m h stamp (asked owner m h stamp c) = asked owner m h stamp c := by
  cases hlookup : c.lookup? (.of owner m) stamp with
  | some a => simp only [asked, hlookup]
  | none =>
      cases houtcome : MethodAnalysis.outcome owner m h with
      | error e => simp only [asked, hlookup, houtcome]
      | ok found =>
          have hentered : (c.add (.of owner m) stamp found).2.lookup? (.of owner m) stamp =
              some ⟨c.made, found⟩ :=
            lookup?_insert _ _ _ _
          simp only [asked, hlookup, houtcome, hentered]

/-- An analysis is remembered, or entered once it is complete. -/
theorem analysis_withstands :
    Request.Withstands .cancelled (asked owner m h stamp) (analysis owner m h stamp) := by
  intro before
  -- The request opened for any token.
  have hrun (w : Watch) := SharedCache.analysis_eq before ⟨owner, m, h, stamp, w⟩
  simp only [CacheCall.key] at hrun
  cases hlookup : before.lookup? (.of owner m) stamp with
  | some a =>
      simp only [hlookup] at hrun
      exact ⟨.ok a, before, .inl rfl, fun w hw => ⟨w, hw, hrun w⟩, fun w => ⟨w, .inl (hrun w)⟩⟩
  | none =>
      simp only [hlookup, ExceptT.run, StateT.run] at hrun
      have hlive := MethodAnalysis.compute_yields owner m h
      have hany := MethodAnalysis.compute_answersUnless owner m h
      -- What the request comes to decides whether something is entered.
      have hends (answer : Except Cancelled MethodAnalysis) (after : AnalysisCache)
          (hanswer : ∀ w w', MethodAnalysis.compute owner m h w =
            (MethodAnalysis.outcome owner m h, w') →
            analysis owner m h stamp ⟨before, w⟩ = (answer, ⟨after, w'⟩)) :
          Request.Ends .cancelled (analysis owner m h stamp) before answer after := by
        refine ⟨fun w hw => ?_, fun w => ⟨(MethodAnalysis.compute owner m h w).2, ?_⟩⟩
        · obtain ⟨w', hw', hcompute⟩ := hlive w hw
          exact ⟨w', hw', hanswer w w' hcompute⟩
        · rcases hany w with h | h
          · exact .inl (hanswer w _ (Prod.ext h rfl))
          · refine .inr ⟨before, .inl rfl, (hrun w).trans ?_⟩
            rw [show MethodAnalysis.compute owner m _ w = (.error .cancelled, _) from Prod.ext h rfl]
      cases houtcome : MethodAnalysis.outcome owner m h with
      | ok found =>
          refine ⟨.ok (before.add (.of owner m) stamp found).1,
            (before.add (.of owner m) stamp found).2, .inr (by simp only [asked, hlookup, houtcome]),
            hends _ _ fun w w' hcompute => (hrun w).trans ?_⟩
          rw [hcompute, houtcome]
      | error e =>
          refine ⟨.error e, before, .inl rfl, hends _ _ fun w w' hcompute => (hrun w).trans ?_⟩
          rw [hcompute, houtcome]

end AnalysisCache

/-! ### The operations of a resolver -/

namespace AtSpec

mutual

/-- The kinds that an annotation names, for itself and for the ends of its slice. -/
def kinds : AtSpec → List String
  | .mk c slice => c.value :: sliceKinds slice

def sliceKinds : Option (Slice AtSpec) → List String
  | none => []
  | some ⟨_, lower, upper⟩ => endKinds lower ++ endKinds upper

def endKinds : Option AtSpec → List String
  | none => []
  | some a => kinds a

end

end AtSpec

namespace Resolver

variable {r : Resolver} {t : Target} {ε α : Type} {cancelled : ε}

def Withstands (r : Resolver) (t : Target) (cancelled : ε) (q : Request ε α) : Prop :=
  Request.Withstands cancelled
    (AnalysisCache.asked t.owner.name t.method r.index.hierarchy r.index.stamp) q

/-- The host's points under the given names keep to what lets a token not change an answer. -/
def CustomsWithstand (r : Resolver) (names : List String) : Prop :=
  ∀ name ∈ names, ∀ p, r.registry.lookup? name = some (.custom p) → p.Withstands

namespace Withstands

theorem bind {β : Type} {q : Request ε α} {f : α → Request ε β}
    (hq : r.Withstands t cancelled q) (hf : ∀ a, r.Withstands t cancelled (f a)) :
    r.Withstands t cancelled (q >>= f) :=
  Request.Withstands.bind AnalysisCache.asked_asked hq hf

theorem pure (a : α) : r.Withstands t cancelled (pure a) := Request.Withstands.pure a

theorem throw (e : ε) : r.Withstands t cancelled (throw e : Request ε α) :=
  Request.Withstands.throw e

theorem ofExcept (x : Except ε α) : r.Withstands t cancelled (Request.ofExcept x) :=
  Request.Withstands.ofExcept x

theorem ofQuery {q : Query ε α} (hq : Query.Withstands cancelled q) :
    r.Withstands t cancelled (Request.ofQuery q) :=
  Request.Withstands.ofQuery hq

/-- A request that goes on with what was found without looking at the token. -/
theorem bind_ofExcept {β : Type} {x : Except ε α} {f : α → Request ε β}
    (hf : ∀ a, x = .ok a → r.Withstands t cancelled (f a)) :
    r.Withstands t cancelled (Request.ofExcept x >>= f) := by
  cases x with
  | error e => exact .throw e
  | ok a => exact hf a rfl

theorem map {β : Type} {q : Request ε α} (hq : r.Withstands t cancelled q) (f : α → β) :
    r.Withstands t cancelled (f <$> q) := by
  rw [← bind_pure_comp]
  exact hq.bind fun a => .pure (f a)

end Withstands

def localsOf (r : Resolver) (t : Target) :
    Except Cancelled MethodAnalysis → Except Cancelled LocalsContext
  | .ok a => .ok (.new t.owner.name t.method a.generated? r.options.locals)
  | .error .unsettled => .ok (.new t.owner.name t.method none r.options.locals)
  | .error .cancelled => .error .cancelled

theorem localsContext_apply (s : Session) :
    r.localsContext t s = (r.localsOf t (r.analysis t s).1, (r.analysis t s).2) := by
  rw [localsContext, ExceptT.run, StateT.run]
  rcases r.analysis t s with ⟨e | a, s'⟩
  · cases e <;> rfl
  · rfl

theorem localsContext_withstands : r.Withstands t .cancelled (r.localsContext t) :=
  Request.Withstands.map_answer (g := r.localsOf t) AnalysisCache.analysis_withstands rfl
    localsContext_apply

theorem find_withstands {c : Criteria} {point : InjectionPoint}
    (hcustom : ∀ p, r.registry.lookup? c.value = some (.custom p) → p.Withstands)
    (hlookup : r.lookup c = .ok point) (ctx : PointContext) (collector : Collector) :
    Query.Withstands .cancelled (point.find ctx collector) := by
  cases point with
  | builtin kind => exact kind.find_withstands ctx collector
  | custom p =>
      refine hcustom p ?_ ctx collector
      rw [lookup] at hlookup
      split at hlookup
      · rename_i point h
        cases hlookup
        exact h
      · cases hlookup

theorem runWith_withstands {c : Criteria} {mode : Mode}
    {slice : Request ResolveError (List ResultFilter)}
    (hcustom : ∀ p, r.registry.lookup? c.value = some (.custom p) → p.Withstands)
    (hslice : r.Withstands t .cancelled slice) :
    r.Withstands t .cancelled (r.runWith t c mode slice) := by
  rw [runWith]
  refine .bind (.ofQuery .checkpoint) fun _ => .bind_ofExcept fun point hlookup =>
    .bind (.ofExcept _) fun wanted => ?_
  have hlocals : r.Withstands t .cancelled
      (some <$> (r.localsContext t).mapError ResolveError.ofCancelled) :=
    .map (localsContext_withstands.mapError ResolveError.ofCancelled) some
  extract_lets ordinal walk
  have hrest (locals : Option LocalsContext) : r.Withstands t .cancelled (walk locals) :=
    hslice.bind fun slice => .bind (.ofQuery (find_withstands hcustom hlookup _ _)) fun _ => .pure _
  split
  · exact hlocals.bind hrest
  · exact .bind (.pure none) hrest

mutual

theorem run_withstands (mode : Mode) : ∀ a : AtSpec, r.CustomsWithstand a.kinds →
    r.Withstands t .cancelled (r.run t a mode)
  | .mk c slice, hcustoms => by
    rw [AtSpec.kinds, CustomsWithstand, List.forall_mem_cons] at hcustoms
    rw [run]
    exact runWith_withstands hcustoms.1 (sliceFilter_withstands slice hcustoms.2)

theorem sliceFilter_withstands : ∀ slice : Option (Slice AtSpec),
    r.CustomsWithstand (AtSpec.sliceKinds slice) →
    r.Withstands t .cancelled (r.sliceFilter t slice)
  | none, _ => by
    rw [sliceFilter]
    exact .pure []
  | some ⟨id, lower, upper⟩, hcustoms => by
    rw [AtSpec.sliceKinds, CustomsWithstand, List.forall_mem_append] at hcustoms
    rw [sliceFilter]
    exact .bind (bound_withstands _ _ lower hcustoms.1) fun low =>
      .bind (bound_withstands _ _ upper hcustoms.2) fun high => .pure _

theorem bound_withstands (unbounded : Option Nat) (pick : List Nat → Option Nat) :
    ∀ a : Option AtSpec, r.CustomsWithstand (AtSpec.endKinds a) →
    r.Withstands t .cancelled (r.bound t unbounded pick a)
  | none, _ => by
    rw [bound]
    exact .pure _
  | some a, hcustoms => by
    rw [AtSpec.endKinds] at hcustoms
    rw [bound]
    exact (run_withstands .all a hcustoms).bind fun outcome => .pure _

end

def reported (a : AtSpec) (t : Target) :
    Except ResolveError (List Match) → Except Cancelled (Option Diagnostic)
  | .ok _ => .ok none
  | .error .cancelled => .error .cancelled
  | .error e => .ok (some (problem a t e))

section

variable {a : AtSpec} (hcustoms : r.CustomsWithstand a.kinds)
include hcustoms

theorem resolve_withstands (mode : Mode) : r.Withstands t .cancelled (r.resolve a t mode) := by
  rw [resolve]
  refine (run_withstands mode a hcustoms).bind fun outcome => ?_
  split
  · exact .bind (.throw _) fun _ => .pure _
  · exact .pure _

theorem checkResolved_withstands : r.Withstands t .cancelled (r.checkResolved a t) := by
  refine (resolve_withstands hcustoms .first).map_answer (g := reported a t) rfl fun s => ?_
  rw [checkResolved, ExceptT.run, StateT.run]
  rcases r.resolve a t .first s with ⟨(_ | _) | _, s'⟩ <;> rfl

theorem check_withstands : r.Withstands t .cancelled (r.check a t) := by
  rw [check]
  split
  · exact .pure none
  · rename_i point hpoint
    extract_lets rest
    have hrest (untold : Bool) : r.Withstands t .cancelled (rest untold) := by
      cases untold with
      | true => exact .pure none
      | false => exact checkResolved_withstands hcustoms
    split
    · exact .bind (.map localsContext_withstands _) hrest
    · exact .bind (.pure false) hrest

theorem navigateIn_withstands (source : Source.SourceClass) :
    r.Withstands t .cancelled (r.navigateIn a t source) := by
  rw [navigateIn]
  refine (resolve_withstands hcustoms .all).bind fun results => ?_
  split
  · exact .pure []
  · exact .bind (.ofExcept _) fun point => .bind (.ofExcept _) fun wanted =>
      .bind (.ofExcept _) fun shown => .pure _

theorem navigate_withstands : r.Withstands t .cancelled (r.navigate a t) := by
  rw [navigate]
  split
  · exact navigateIn_withstands hcustoms _
  · exact .pure []

theorem completions_withstands : r.Withstands t .cancelled (r.completions a t) :=
  (resolve_withstands hcustoms .completion).bind fun _ => .pure _

end

theorem localsAt_withstands (position : Nat) :
    r.Withstands t .cancelled (r.localsAt t position) :=
  .bind (localsContext_withstands.mapError fun _ => LocalsError.cancelled) fun c =>
    .ofQuery (c.localsAt_withstands position)

/-- Cancellation replaces an answer and changes none. Whenever the token is cancelled, each
operation reports it or answers as with a token that is never cancelled, and enters nothing in the
cache that it would not enter then. -/
theorem cancellation_only_interrupts (r : Resolver) (t : Target) (a : AtSpec) (s : Session)
    (hcustoms : r.CustomsWithstand a.kinds) :
    (∀ mode, (r.resolve a t mode).OnlyInterrupted .cancelled s) ∧
    (r.check a t).OnlyInterrupted .cancelled s ∧
    (∀ source, (r.navigateIn a t source).OnlyInterrupted .cancelled s) ∧
    (r.navigate a t).OnlyInterrupted .cancelled s ∧
    (r.completions a t).OnlyInterrupted .cancelled s ∧
    ∀ position, (r.localsAt t position).OnlyInterrupted .cancelled s :=
  ⟨fun mode => (resolve_withstands hcustoms mode).onlyInterrupted s,
    (check_withstands hcustoms).onlyInterrupted s,
    fun source => (navigateIn_withstands hcustoms source).onlyInterrupted s,
    (navigate_withstands hcustoms).onlyInterrupted s,
    (completions_withstands hcustoms).onlyInterrupted s,
    fun position => (localsAt_withstands position).onlyInterrupted s⟩

/-- A host's point: the places where an `int` is returned, with a look at the token at each node. -/
def intReturns : CustomPoint where
  usesSelector := false
  find ctx c := c.walk <| ctx.positioned.map fun (i, position) => do
    Query.checkpoint .cancelled
    PointContext.placeIf (fun i => i.opcode? = some .ireturn) i position

theorem intReturns_withstands : intReturns.Withstands := by
  refine fun ctx c => c.walk_withstands fun v hv => ?_
  obtain ⟨node, -, rfl⟩ := List.mem_map.mp hv
  exact Query.Withstands.bind .checkpoint fun _ => .pure _

def withIntReturns : Resolver :=
  { classless with registry := Registry.builtin.insert "INT_RETURN" (.custom intReturns) }

def identityTarget : Target where
  owner := threeCalls.owner
  method := {
    access := 0x0008
    name := "same"
    desc := "(I)I"
    maxStack := 1
    maxLocals := 1
    instructions := .ofList [.var .iload 0, .plain .ireturn]
    handlers := []
    declaredLocals := [] }

def loadsBeforeReturn : AtSpec :=
  .mk (.ofValue "LOAD") (some ⟨"", none, some (.ofValue "INT_RETURN")⟩)

/-- Cancelled within the slice, when the analysis of the method has been entered. -/
theorem cancellation_only_interrupts_loads :
    withIntReturns.CustomsWithstand loadsBeforeReturn.kinds ∧
      (withIntReturns.resolve loadsBeforeReturn identityTarget .all).answer
        ⟨.empty, ⟨0, some 3⟩⟩ = .error .cancelled ∧
      (withIntReturns.resolve loadsBeforeReturn identityTarget .all
        ⟨.empty, ⟨0, some 3⟩⟩).2.cache.size = 1 ∧
      (withIntReturns.resolve loadsBeforeReturn identityTarget .all).OnlyInterrupted .cancelled
        ⟨.empty, ⟨0, some 3⟩⟩ ∧
      ((withIntReturns.resolve loadsBeforeReturn identityTarget .all).answer
        ⟨.empty, ⟨0, some 99⟩⟩).toOption.map (·.length) = some 1 := by
  have hcustoms : withIntReturns.CustomsWithstand loadsBeforeReturn.kinds := by
    intro name hname p hp
    rcases List.mem_cons.mp hname with rfl | hname
    · cases hp
    · rcases List.mem_singleton.mp hname with rfl
      cases hp
      exact intReturns_withstands
  have hinterrupted := cancellation_only_interrupts withIntReturns identityTarget
    loadsBeforeReturn ⟨.empty, ⟨0, some 3⟩⟩ hcustoms
  exact ⟨hcustoms, by decide +kernel, by decide +kernel, hinterrupted.1 .all, by decide +kernel⟩

end Resolver

end Injection
