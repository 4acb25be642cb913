import Injection.Locals.LiveIndex
import Injection.Proofs.Locals.Sharing
import Injection.Proofs.Typing.Survey

/-!
Insertions and queries that nobody interrupts.

Taken without a pause, the steps of an insertion do what the index does by itself, and those of a
query do what a request to the cache does over the hierarchy of the index, if the types settle.
-/

namespace Injection

def AnalysisCache.enter (c : AnalysisCache) (key : MethodKey) (stamp : Stamp) :
    Except Cancelled (Option (Frames × List LocalVariable)) →
      Except Cancelled MethodAnalysis × AnalysisCache
  | .ok found => (.ok (c.add key stamp found).1, (c.add key stamp found).2)
  | .error e => (.error e, c)

namespace IndexQuery

def call (q : IndexQuery) (h : Hierarchy) (stamp : Stamp) : CacheCall :=
  ⟨q.owner, q.method, h, stamp, q.watch⟩

/-- A request that finds its method in the cache. -/
theorem analysis_of_found (q : IndexQuery) {cache : AnalysisCache} (index : ClassIndex)
    {a : MethodAnalysis} (hlookup : cache.lookup? q.key index.stamp = some a) :
    (AnalysisCache.analysis q.owner q.method index.hierarchy index.stamp).run.run
        ⟨cache, q.watch⟩ = (.ok a, ⟨cache, q.watch⟩) := by
  have hrequest := SharedCache.analysis_eq cache (q.call index.hierarchy index.stamp)
  rwa [show (q.call index.hierarchy index.stamp).key = q.key from rfl, call, hlookup] at hrequest

/-- A request that does not, and computes a fresh analysis. -/
theorem analysis_of_missed (q : IndexQuery) {cache : AnalysisCache} (index : ClassIndex)
    (hlookup : cache.lookup? q.key index.stamp = none) :
    (AnalysisCache.analysis q.owner q.method index.hierarchy index.stamp).run.run
        ⟨cache, q.watch⟩ =
      let (r, watch) := Analysis.analyze q.owner q.method index.hierarchy q.watch
      let (answer, cache) := cache.enter q.key index.stamp (MethodAnalysis.conclude q.method r)
      (answer, ⟨cache, watch⟩) := by
  have hrequest := SharedCache.analysis_eq cache (q.call index.hierarchy index.stamp)
  rw [show (q.call index.hierarchy index.stamp).key = q.key from rfl, call, hlookup] at hrequest
  rw [hrequest, ExceptT.run, StateT.run, MethodAnalysis.compute_apply]
  obtain ⟨r, watch⟩ := Analysis.analyze q.owner q.method index.hierarchy q.watch
  dsimp only
  cases MethodAnalysis.conclude q.method r with
  | ok found => rfl
  | error e => rfl

/-- What the analysis of a query comes to if it is given fuel for some more positions and the
classes do not change. -/
def settled (q : IndexQuery) (index : ClassIndex) (fuel : Nat) :
    Findings → Except AnalyzeError Frames × Watch
  | (.ok p, w) => (Machine.frames <$>
      p.machine.run ⟨q.owner, q.method.instructions, index.hierarchy, p.guarded⟩ fuel p.taken) w
  | (.error e, w) => (.error e, w)

theorem exists_analyze_eq_settled (q : IndexQuery) (index : ClassIndex) :
    ∃ fuel, Analysis.analyze q.owner q.method index.hierarchy q.watch =
      q.settled index fuel (q.survey.against index.class?) := by
  obtain ⟨fuel, hfuel⟩ := Survey.exists_analyze_eq index q.owner q.method
  refine ⟨fuel, ?_⟩
  rw [hfuel, bind_apply, survey]
  change _ = q.settled index fuel ((Survey.start q.owner q.method).against index.class? q.watch)
  rcases (Survey.start q.owner q.method).against index.class? q.watch with ⟨_ | p, w⟩ <;> rfl

variable {q : IndexQuery} {findings : Findings} {rest : Inquiry Findings}
  {r : Except Cancelled (Option (Frames × List LocalVariable))}

theorem proceed_eq_inl : q.proceed findings = .inl rest ↔ ∃ p w, findings = (.ok p, w) ∧
    p.machine.pending.isEmpty = false ∧
      rest = Survey.turn q.owner q.method.instructions p w := by
  constructor
  · intro hturn
    rcases findings with ⟨e | p, w⟩
    · cases hturn
    · rw [proceed] at hturn
      split at hturn
      · cases hturn
      · rename_i hpending
        exact ⟨p, w, rfl, (Bool.not_eq_true _).mp hpending, (Sum.inl.inj hturn).symm⟩
  · rintro ⟨p, w, rfl, hpending, rfl⟩
    rw [proceed, hpending, if_neg Bool.false_ne_true]

/-- An analysis with nothing to carry on is settled, whatever its fuel. -/
theorem conclude_settled_of_done (hdone : q.proceed findings = .inr r) (index : ClassIndex)
    (fuel : Nat) : MethodAnalysis.conclude q.method (q.settled index fuel findings).1 = r := by
  rcases findings with ⟨e | p, w⟩
  · exact Sum.inr.inj hdone
  · rw [proceed] at hdone
    split at hdone
    · rename_i hidle
      rw [settled, Survey.run_of_idle _ hidle]
      exact Sum.inr.inj hdone
    · cases hdone

/-- Carrying a position on takes fuel. -/
theorem settled_zero_of_turn (hturn : q.proceed findings = .inl rest) (index : ClassIndex) :
    (q.settled index 0 findings).1 = .error .unsettled := by
  obtain ⟨p, w, rfl, hpending, -⟩ := proceed_eq_inl.mp hturn
  rw [settled, Machine.run, hpending, if_neg Bool.false_ne_true]
  rfl

theorem settled_succ_of_turn (hturn : q.proceed findings = .inl rest) (index : ClassIndex)
    (fuel : Nat) :
    q.settled index (fuel + 1) findings = q.settled index fuel (rest.against index.class?) := by
  obtain ⟨p, w, rfl, hpending, rfl⟩ := proceed_eq_inl.mp hturn
  rw [settled, Survey.run_eq_turn index q.owner q.method.instructions hpending, map_bind,
    bind_apply]
  change _ = q.settled index fuel
    ((Survey.turn q.owner q.method.instructions p).against index.class? w)
  rcases (Survey.turn q.owner q.method.instructions p).against index.class? w with
    ⟨_ | p', w'⟩ <;> rfl

end IndexQuery

namespace LiveIndex

variable {s : LiveIndex} {i : Nat}

/-- Three steps bring an insertion to its end. -/
theorem index_insertion {what : Insertion} (hi : s.insertions[i]? = some (what, .arrived)) :
    ((List.replicate 3 (.insertion i)).foldl step s).index =
      match what with
      | .ofClass c => s.index.addClass c
      | .ofBytes bytes =>
        match s.index.addBytes bytes with
        | .ok (_, index) => index
        | .error _ => s.index := by
  have hlt : i < s.insertions.length := (List.getElem?_eq_some_iff.mp hi).1
  have stored {c : Class} (hread : what.read = .ok c) :
      ((List.replicate 3 (.insertion i)).foldl step s).index =
        ((s.index.storeFile c.name what.file?).storeClass c).bump := by
    simp only [List.replicate, List.foldl_cons, List.foldl_nil, step, act, tick, insertionStep, hi,
      hread, advanceInsertion, List.set_set, List.getElem?_set_self hlt]
  have refused {e : ClassFileError} (hread : what.read = .error e) :
      ((List.replicate 3 (.insertion i)).foldl step s).index = s.index := by
    simp only [List.replicate, List.foldl_cons, List.foldl_nil, step, act, tick, insertionStep, hi,
      hread, advanceInsertion, List.getElem?_set_self hlt]
  cases what with
  | ofClass c => exact stored rfl
  | ofBytes bytes =>
      dsimp only
      cases hparse : Class.parse bytes with
      | ok c =>
          rw [stored hparse, MemoryIndex.addBytes, hparse]
          rfl
      | error e =>
          rw [refused hparse, MemoryIndex.addBytes, hparse]
          rfl

/-! ### The steps of a query -/

section Steps

variable {query : IndexQuery} {phase : QueryPhase} {stamp : Stamp} {time : Nat} {asked : List Nat}

theorem getElem?_advanceQuery (hi : s.queries[i]? = some (query, phase)) (phase' : QueryPhase) :
    (s.advanceQuery i query phase').queries[i]? = some (query, phase') :=
  List.getElem?_set_self (List.getElem?_eq_some_iff.mp hi).1

theorem step_of_arrived (hi : s.queries[i]? = some (query, .arrived)) :
    s.step (.query i) = (s.advanceQuery i query (.stamped s.index.stamp s.clock)).tick := by
  simp only [step, act, queryStep, hi]

theorem step_of_found {a : MethodAnalysis} (hi : s.queries[i]? = some (query, .stamped stamp time))
    (hlookup : s.cache.lookup? query.key stamp = some a) :
    s.step (.query i) = (s.advanceQuery i query (.answered time (.ok a))).tick := by
  simp only [step, act, queryStep, hi, hlookup]

theorem step_of_missed (hi : s.queries[i]? = some (query, .stamped stamp time))
    (hlookup : s.cache.lookup? query.key stamp = none) :
    s.step (.query i) =
      (s.advanceQuery i query (.computing stamp time [] query.survey)).tick := by
  simp only [step, act, queryStep, hi, hlookup]

theorem step_of_ask {name : String} {next : Option Class → Inquiry Findings}
    (hi : s.queries[i]? = some (query, .computing stamp time asked (.ask name next))) :
    s.step (.query i) = (s.advanceQuery i query (.computing stamp time (asked ++ [s.clock])
      (next (s.index.index.class? name)))).tick := by
  simp only [step, act, queryStep, hi]

theorem step_of_turn {findings : Findings} {rest : Inquiry Findings}
    (hi : s.queries[i]? = some (query, .computing stamp time asked (.done findings)))
    (hturn : query.proceed findings = .inl rest) :
    s.step (.query i) = (s.advanceQuery i query (.computing stamp time asked rest)).tick := by
  simp only [step, act, queryStep, hi, hturn]

theorem step_of_done {findings : Findings}
    {r : Except Cancelled (Option (Frames × List LocalVariable))}
    (hi : s.queries[i]? = some (query, .computing stamp time asked (.done findings)))
    (hdone : query.proceed findings = .inr r) :
    ∃ log, s.step (.query i) =
      ({ s with cache := (s.cache.enter query.key stamp r).2, log }.advanceQuery i query
        (.answered time (s.cache.enter query.key stamp r).1)).tick := by
  cases r with
  | error e => exact ⟨s.log, by simp only [step, act, queryStep, hi, hdone, AnalysisCache.enter]⟩
  | ok found =>
      exact ⟨s.log ++ [asked],
        by simp only [step, act, queryStep, hi, hdone, AnalysisCache.enter]⟩

/-! ### Queries alone -/

/-- With no other steps between its own, the query comes to this answer and leaves this cache. -/
def AnswersAlone (s : LiveIndex) (i : Nat) (query : IndexQuery) (time : Nat)
    (answer : Except Cancelled MethodAnalysis) (cache : AnalysisCache) : Prop :=
  ∃ n,
    let s' := (List.replicate n (.query i)).foldl step s
    s'.index = s.index ∧ s'.cache = cache ∧
      s'.queries = s.queries.set i (query, .answered time answer)

variable {answer : Except Cancelled MethodAnalysis} {cache : AnalysisCache}

/-- Steps that change nothing but the phase of the query. -/
theorem AnswersAlone.of_foldl {n clock : Nat}
    (hn : (List.replicate n (.query i)).foldl step s =
      { s.advanceQuery i query phase with clock })
    (h : AnswersAlone { s.advanceQuery i query phase with clock } i query time answer cache) :
    s.AnswersAlone i query time answer cache := by
  obtain ⟨n', hindex, hcache, hqueries⟩ := h
  refine ⟨n + n', ?_⟩
  rw [List.replicate_add, List.foldl_append, hn]
  exact ⟨hindex, hcache, hqueries.trans (List.set_set ..)⟩

theorem AnswersAlone.of_step
    (hstep : s.step (.query i) = (s.advanceQuery i query phase).tick)
    (h : (s.advanceQuery i query phase).tick.AnswersAlone i query time answer cache) :
    s.AnswersAlone i query time answer cache :=
  .of_foldl (n := 1) hstep h

/-- Asking for one class after the other brings an analysis to where it asks for none. -/
theorem exists_foldl_asking (rest : Inquiry Findings)
    (hi : s.queries[i]? = some (query, .computing stamp time asked rest)) :
    ∃ n asked' clock, (List.replicate n (.query i)).foldl step s =
      { s.advanceQuery i query (.computing stamp time asked'
          (.done (rest.against s.index.index.class?))) with clock } := by
  induction rest generalizing s asked with
  | done findings =>
      obtain ⟨hlt, hget⟩ := List.getElem?_eq_some_iff.mp hi
      refine ⟨0, asked, s.clock, ?_⟩
      rw [List.replicate_zero, List.foldl_nil, advanceQuery, Inquiry.against, ← hget,
        List.set_getElem_self]
  | ask name next ih =>
      have hstep := step_of_ask hi
      obtain ⟨n, asked', clock, hn⟩ := ih (s.index.index.class? name) (s := s.step (.query i))
        (by rw [hstep]; exact getElem?_advanceQuery hi _)
      refine ⟨n + 1, asked', clock, ?_⟩
      rw [List.replicate_succ, List.foldl_cons, hn, hstep]
      simp only [advanceQuery, tick, List.set_set]
      rfl

/-- Carrying one position on after the other brings an analysis to its end, if there is fuel for
all of them. -/
theorem answersAlone_of_computing (fuel : Nat) {rest : Inquiry Findings}
    {r : Except Cancelled (Option (Frames × List LocalVariable))}
    (hi : s.queries[i]? = some (query, .computing stamp time asked rest))
    (hr : MethodAnalysis.conclude query.method
      (query.settled s.index.index fuel (rest.against s.index.index.class?)).1 = r)
    (hsettles : r ≠ .error .unsettled) :
    s.AnswersAlone i query time (s.cache.enter query.key stamp r).1
      (s.cache.enter query.key stamp r).2 := by
  induction fuel using Nat.strong_induction_on generalizing s asked rest with
  | _ fuel ih =>
  obtain ⟨n, asked', clock, hn⟩ := exists_foldl_asking rest hi
  let s₁ : LiveIndex := { s.advanceQuery i query (.computing stamp time asked'
    (.done (rest.against s.index.index.class?))) with clock }
  have hdone : s₁.queries[i]? = some (query, .computing stamp time asked'
    (.done (rest.against s.index.index.class?))) := getElem?_advanceQuery hi _
  refine .of_foldl hn (show s₁.AnswersAlone i query time _ _ from ?_)
  cases hproceed : query.proceed (rest.against s.index.index.class?) with
  | inr r' =>
      cases hr.symm.trans (IndexQuery.conclude_settled_of_done hproceed s.index.index fuel)
      obtain ⟨log, hstep⟩ := step_of_done hdone hproceed
      refine ⟨1, ?_⟩
      rw [List.replicate_one, List.foldl_cons, List.foldl_nil, hstep]
      exact ⟨rfl, rfl, rfl⟩
  | inl rest' =>
      cases fuel with
      | zero =>
          rw [IndexQuery.settled_zero_of_turn hproceed] at hr
          exact absurd hr.symm hsettles
      | succ fuel =>
          rw [IndexQuery.settled_succ_of_turn hproceed] at hr
          exact .of_step (step_of_turn hdone hproceed)
            (ih fuel fuel.lt_succ_self (getElem?_advanceQuery hdone _) hr)

theorem answersAlone_of_stamped {r : Except Cancelled MethodAnalysis × Session}
    (hi : s.queries[i]? = some (query, .stamped s.index.stamp time))
    (hr : (AnalysisCache.analysis query.owner query.method s.index.index.hierarchy
      s.index.index.stamp).run.run ⟨s.cache, query.watch⟩ = r)
    (hsettles : r.1 ≠ .error .unsettled) :
    s.AnswersAlone i query time r.1 r.2.cache := by
  cases hlookup : s.cache.lookup? query.key s.index.stamp with
  | some a =>
      rw [query.analysis_of_found s.index.index hlookup] at hr
      cases hr
      refine ⟨1, ?_⟩
      rw [List.replicate_one, List.foldl_cons, List.foldl_nil, step_of_found hi hlookup]
      exact ⟨rfl, rfl, rfl⟩
  | none =>
      obtain ⟨fuel, hfuel⟩ := query.exists_analyze_eq_settled s.index.index
      rw [query.analysis_of_missed s.index.index hlookup, hfuel] at hr
      refine .of_step (step_of_missed hi hlookup) ?_
      cases hr
      refine answersAlone_of_computing fuel (getElem?_advanceQuery hi _) rfl
        fun hunsettled => hsettles ?_
      dsimp only
      rw [hunsettled]
      rfl

/-- A query that nobody interrupts answers as a request to the cache does, and leaves the cache as
it does, if the types settle. -/
theorem answersAlone_of_arrived {r : Except Cancelled MethodAnalysis × Session}
    (hi : s.queries[i]? = some (query, .arrived))
    (hr : (AnalysisCache.analysis query.owner query.method s.index.index.hierarchy
      s.index.index.stamp).run.run ⟨s.cache, query.watch⟩ = r)
    (hsettles : r.1 ≠ .error .unsettled) :
    s.AnswersAlone i query s.clock r.1 r.2.cache :=
  .of_step (step_of_arrived hi)
    (answersAlone_of_stamped (getElem?_advanceQuery hi _) hr hsettles)

end Steps

end LiveIndex

end Injection
