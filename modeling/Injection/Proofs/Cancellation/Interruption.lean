import Injection.Proofs.Locals.Sharing
import Injection.Proofs.Point.Visits

/-!
Computations that a token can interrupt and nothing more. A query withstands its token when it
gives the same answer whatever the token does, unless it reports the cancellation. Analyses,
queries for local variables and the walks of the built-in kinds are made of such steps.
-/

namespace Injection

namespace Query

variable {ε α β : Type} {cancelled : ε}

/-- While the token lives the query gives one answer, and whatever the token does it gives this
answer or reports the cancellation. -/
def Withstands (cancelled : ε) (q : Query ε α) : Prop :=
  ∃ r, Yields Watch.IsLive q r ∧ AnswersUnless cancelled q r

namespace Withstands

theorem ofExcept (r : Except ε α) : Withstands cancelled (Query.ofExcept r) :=
  ⟨r, yields_ofExcept r, answersUnless_ofExcept r⟩

theorem pure (a : α) : Withstands cancelled (pure a : Query ε α) := ofExcept (.ok a)

theorem throw (e : ε) : Withstands cancelled (throw e : Query ε α) := ofExcept (.error e)

theorem bind {q : Query ε α} {f : α → Query ε β} (hq : Withstands cancelled q)
    (hf : ∀ a, Withstands cancelled (f a)) : Withstands cancelled (q >>= f) := by
  obtain ⟨r, hlive, hany⟩ := hq
  choose g hg using hf
  exact ⟨r >>= g, hlive.bind_all fun a => (hg a).1, hany.bind fun a => (hg a).2⟩

/-- A computation that looks at the token now and then before it goes on. -/
theorem after_look (p : Prop) [Decidable p] {q : Unit → Query ε α}
    (hq : Withstands cancelled (q ())) :
    Withstands cancelled (if p then checkpoint cancelled >>= q else q ()) := by
  obtain ⟨r, hlive, hany⟩ := hq
  exact ⟨r, yields_after_look cancelled p hlive, hany.after_look p⟩

theorem checkpoint : Withstands cancelled (checkpoint cancelled) := by
  refine ⟨.ok (), yields_checkpoint cancelled, fun w => ?_⟩
  rw [Query.checkpoint]
  cases w.isCancelled with
  | true => exact .inr rfl
  | false => exact .inl rfl

/-- A computation that makes another answer of each answer, and keeps to the cancellation. -/
theorem map_answer {ε' : Type} {cancelled' : ε'} {q : Query ε α} {q' : Query ε' β}
    {g : Except ε α → Except ε' β} (hq : Withstands cancelled q)
    (hg : g (.error cancelled) = .error cancelled')
    (hrun : ∀ w, q' w = (g (q w).1, (q w).2)) : Withstands cancelled' q' := by
  obtain ⟨r, hlive, hany⟩ := hq
  refine ⟨g r, fun w hw => ?_, fun w => ?_⟩
  · obtain ⟨w', hw', hr⟩ := hlive w hw
    exact ⟨w', hw', by rw [hrun, hr]⟩
  · rw [hrun, ← hg]
    exact (hany w).imp (congrArg g) (congrArg g)

/-- The answer that is not the cancellation is the one given while the token lives. -/
theorem answersUnless {q : Query ε α} (hq : Withstands cancelled q) {r : Except ε α}
    (hr : Yields Watch.IsLive q r) : AnswersUnless cancelled q r := by
  obtain ⟨r', hlive, hany⟩ := hq
  obtain ⟨w, -, hrun⟩ := hr .live rfl
  obtain ⟨w', -, hrun'⟩ := hlive .live rfl
  have hsame : r' = r := congrArg Prod.fst (hrun'.symm.trans hrun)
  exact hsame ▸ hany

end Withstands

/-- A computation that goes on unless a test refuses it. -/
theorem Withstands.unless (p : Prop) [Decidable p] (e : ε) {q : Unit → Query ε α}
    (hq : Withstands cancelled (q ())) :
    Withstands cancelled (if p then MonadExcept.throw e >>= q else q ()) := by
  split
  · exact (Withstands.throw e).bind fun _ => hq
  · exact hq

end Query

open Query (Withstands)

/-! ### Queries at a place -/

theorem Simulation.run_withstands (c : LocalsContext) (entrySize query : Nat)
    (is : List Instruction) (position : Nat) (pending : Option UInt16) (s : Simulation) :
    Withstands .cancelled (run c entrySize query position is pending s) := by
  induction is generalizing position pending s with
  | nil => exact .pure s
  | cons i rest ih =>
      rw [run]
      refine .after_look _ ?_
      by_cases hend : position = query
      · simp only [hend, if_true]
        exact .pure _
      · simp only [hend, if_false]
        exact ih _ _ _

theorem LocalsContext.localsAt_withstands (c : LocalsContext) (position : Nat) :
    Withstands .cancelled (c.localsAt position) := by
  rw [localsAt]
  refine .unless _ _ (.unless _ _ ?_)
  cases MethodDescriptor.parse c.method.desc with
  | error e => exact .throw _
  | ok desc => exact (Simulation.run_withstands c _ _ _ 0 none _).bind fun s => .pure _

/-! ### Walks -/

namespace PointContext

variable {ctx : PointContext}

/-- What a walk makes of an answer about local variables: that they cannot be told is an answer,
that the request was cancelled is none. -/
def told : Except LocalsError LocalTable → Except ResolveError (Option LocalTable)
  | .ok table => .ok (some table)
  | .error (.unavailable _) => .ok none
  | .error .cancelled => .error .cancelled

theorem tableAt_withstands (ctx : PointContext) (position : Nat) :
    Withstands .cancelled (ctx.tableAt position) := by
  rw [tableAt]
  split
  · exact .pure none
  · rename_i locals _
    refine (locals.localsAt_withstands position).map_answer (g := told) rfl fun w => ?_
    rw [ExceptT.run, StateT.run]
    rcases locals.localsAt position w with ⟨(_ | _) | _, w'⟩ <;> rfl

theorem checkpoint_withstands (position : Nat) : Withstands .cancelled (checkpoint position) := by
  rw [checkpoint]
  split
  · exact .checkpoint
  · exact .pure ()

theorem withstands_visits {nodes : List (Instruction × Nat)}
    {candidate? : Instruction → Nat → Visit}
    (h : ∀ i position, Withstands .cancelled (candidate? i position)) :
    ∀ v ∈ visits nodes candidate?, Withstands .cancelled v := by
  intro v hv
  obtain ⟨⟨i, position⟩, -, rfl⟩ := List.mem_map.mp hv
  exact (checkpoint_withstands position).bind fun _ => h i position

/-- Candidates at places found beforehand. -/
theorem withstands_places (places : List Nat) :
    ∀ v ∈ places.map fun p => (pure (some (.place p)) : Visit), Withstands .cancelled v := by
  intro v hv
  obtain ⟨position, -, rfl⟩ := List.mem_map.mp hv
  exact .pure _

theorem withstands_invocationVisits (candidate? : Invocation → Option Candidate) :
    ∀ v ∈ ctx.invocationVisits candidate?, Withstands .cancelled v := by
  intro visit hvisit
  obtain ⟨v, -, rfl⟩ := List.mem_map.mp hvisit
  exact .bind .checkpoint fun _ => .pure (candidate? v)

theorem withstands_constructorHeadVisits {visits : List Visit}
    (h : ctx.constructorHeadVisits = .ok visits) : ∀ v ∈ visits, Withstands .cancelled v := by
  obtain ⟨enforce, -, h⟩ := bind_eq_ok.mp h
  dsimp only at h
  split at h
  · cases h
    exact withstands_places _
  · cases h
    exact withstands_places _

theorem withstands_localVisits {use : LocalUse} {visits : List Visit}
    (h : ctx.localVisits use = .ok visits) : ∀ v ∈ visits, Withstands .cancelled v := by
  obtain ⟨-, -, h⟩ := bind_eq_ok.mp h
  cases h
  refine withstands_visits fun i position => ?_
  split
  · exact .pure none
  · split
    · exact .pure none
    · refine (ctx.tableAt_withstands _).bind fun table? => ?_
      split
      · exact .pure _
      · exact .pure none

end PointContext

open PointContext

/-- Every stop of a walk for a built-in kind withstands the token. -/
theorem PointKind.withstands_visits {kind : PointKind} {ctx : PointContext} {visits : List Visit}
    (h : kind.visits ctx = .ok visits) : ∀ v ∈ visits, Withstands .cancelled v := by
  cases kind with
  | head =>
      cases h
      exact withstands_places _
  | «return» | tail =>
      cases h
      exact PointContext.withstands_visits fun _ _ => .pure _
  | invoke | invokeAssign | invokeString =>
      cases h
      exact withstands_invocationVisits _
  | field =>
      obtain ⟨-, -, h⟩ := bind_eq_ok.mp h
      obtain ⟨use?, -, h⟩ := bind_eq_ok.mp h
      obtain ⟨fuzz, -, h⟩ := bind_eq_ok.mp h
      cases h
      exact PointContext.withstands_visits fun _ _ => .pure _
  | new | constant | jump =>
      obtain ⟨_, -, h⟩ := bind_eq_ok.mp h
      cases h
      exact PointContext.withstands_visits fun _ _ => .pure _
  | load | store => exact withstands_localVisits h
  | constructorHead => exact withstands_constructorHeadVisits h

theorem Collector.walk_withstands {visits : List Visit}
    (h : ∀ v ∈ visits, Withstands .cancelled v) (c : Collector) :
    Withstands .cancelled (c.walk visits) := by
  induction visits generalizing c with
  | nil => exact .pure c
  | cons v visits ih =>
      have hrest := ih fun v hv => h v (List.mem_cons_of_mem _ hv)
      refine (h v List.mem_cons_self).bind fun offer => ?_
      cases offer with
      | none => exact hrest c
      | some x =>
          dsimp only
          split
          · exact .pure _
          · exact hrest _

/-- What a host's point must keep to for a token not to change what it offers. -/
def CustomPoint.Withstands (p : CustomPoint) : Prop :=
  ∀ ctx c, Query.Withstands .cancelled (p.find ctx c)

theorem PointKind.find_withstands (kind : PointKind) (ctx : PointContext) (c : Collector) :
    Withstands .cancelled ((InjectionPoint.builtin kind).find ctx c) := by
  rw [InjectionPoint.find]
  cases hvisits : kind.visits ctx with
  | error e => exact ⟨.error e, fun w hw => ⟨w, hw, rfl⟩, fun w => .inl rfl⟩
  | ok visits => exact Collector.walk_withstands (kind.withstands_visits hvisits) c

end Injection
