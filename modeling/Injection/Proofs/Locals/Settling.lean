import Injection.Proofs.Locals.Undisturbed
import Injection.Proofs.Typing.Termination
import Injection.Proofs.Typing.Turns
import Mathlib.Data.Stream.Init

/-!
Queries that others interrupt.

The steps of others leave a query alone, and each of its own steps ends. So it comes to an answer if
it gets a turn again and again, provided that the classes come to rest and that going up from any
of them comes to an end: asking brings it to its next position, and carrying positions on lowers
`Machine.burden`. Over classes in a circle no turn need be the last.
-/

namespace Injection

namespace LiveIndex

variable {s : LiveIndex} {i : Nat} {query : IndexQuery} {phase : QueryPhase} {stamp : Stamp}
  {time : Nat} {asked : List Nat}

/-! ### Queries among others -/

/-- All that the step of an insertion can do: the insertion goes on to another phase, and it may
change the index. -/
theorem insertionStep_cases (s : LiveIndex) (i : Nat) : s.insertionStep i = s ∨
    ∃ what phase index,
      s.insertionStep i = { s with index }.advanceInsertion i what phase := by
  rw [insertionStep]
  split
  · split <;> exact .inr ⟨_, _, _, rfl⟩
  · exact .inr ⟨_, _, _, rfl⟩
  · exact .inr ⟨_, _, _, rfl⟩
  · exact .inl rfl

/-- All that the step of a query can do: the query goes on to another phase, and it may enter an
analysis. -/
theorem queryStep_cases (s : LiveIndex) (i : Nat) : s.queryStep i = s ∨
    ∃ query phase cache log,
      s.queryStep i = { s with cache, log }.advanceQuery i query phase := by
  rw [queryStep]
  split
  · exact .inr ⟨_, _, _, _, rfl⟩
  · split <;> exact .inr ⟨_, _, _, _, rfl⟩
  · exact .inr ⟨_, _, _, _, rfl⟩
  · split <;> exact .inr ⟨_, _, _, _, rfl⟩
  · exact .inl rfl

/-- A step leaves every query alone but the one that takes it. -/
theorem getElem?_step_of_ne {e : IndexEvent} (he : e ≠ .query i)
    (hi : s.queries[i]? = some (query, phase)) :
    (s.step e).queries[i]? = some (query, phase) := by
  cases e with
  | insert what => exact hi
  | ask query' =>
      change (s.queries ++ [_])[i]? = _
      rw [List.getElem?_append_left (List.getElem?_eq_some_iff.mp hi).1, hi]
  | insertion j =>
      rcases s.insertionStep_cases j with hstep | ⟨what, phase', index, hstep⟩
      · rw [step, act, hstep]
        exact hi
      · rw [step, act, hstep]
        exact hi
  | query j =>
      have hne : j ≠ i := fun h => he (h ▸ rfl)
      rcases s.queryStep_cases j with hstep | ⟨query', phase', cache, log, hstep⟩
      · rw [step, act, hstep]
        exact hi
      · rw [step, act, hstep]
        exact (List.getElem?_set_ne hne).trans hi
  | clear => exact hi

/-- Queries leave the classes as they are. -/
theorem index_foldl_of_query {events : List IndexEvent} (hevents : ∀ e ∈ events, ∃ j, e = .query j) :
    (events.foldl step s).index = s.index := by
  induction events generalizing s with
  | nil => rfl
  | cons e events ih =>
      obtain ⟨⟨j, rfl⟩, hrest⟩ := List.forall_mem_cons.mp hevents
      have hstep : (s.step (.query j)).index = s.index := by
        rcases s.queryStep_cases j with hstep | ⟨query, phase, cache, log, hstep⟩
        · rw [step, act, hstep]
          rfl
        · rw [step, act, hstep]
          rfl
      rw [List.foldl_cons, ih hrest, hstep]

theorem getElem?_of_step {s' : LiveIndex} {phase' : QueryPhase}
    (hstep : s.step (.query i) = (s'.advanceQuery i query phase').tick)
    (hi : s'.queries[i]? = some (query, phase)) :
    (s.step (.query i)).queries[i]? = some (query, phase') := by
  rw [hstep]
  exact getElem?_advanceQuery hi phase'

/-- A query keeps the time at which it read the stamp. -/
theorem exists_step (hi : s.queries[i]? = some (query, phase)) (e : IndexEvent) :
    ∃ phase', (s.step e).queries[i]? = some (query, phase') ∧
      ∀ read, phase.readAt? = some read → phase'.readAt? = some read := by
  by_cases he : e = .query i
  · subst he
    cases phase with
    | arrived =>
        exact ⟨_, getElem?_of_step (step_of_arrived hi) hi, nofun⟩
    | stamped stamp time =>
        cases hlookup : s.cache.lookup? query.key stamp with
        | some a => exact ⟨_, getElem?_of_step (step_of_found hi hlookup) hi, fun _ => id⟩
        | none => exact ⟨_, getElem?_of_step (step_of_missed hi hlookup) hi, fun _ => id⟩
    | computing stamp time asked rest =>
        cases rest with
        | ask name next => exact ⟨_, getElem?_of_step (step_of_ask hi) hi, fun _ => id⟩
        | done findings =>
            cases hproceed : query.proceed findings with
            | inl rest =>
                exact ⟨_, getElem?_of_step (step_of_turn hi hproceed) hi, fun _ => id⟩
            | inr r =>
                obtain ⟨log, hstep⟩ := step_of_done hi hproceed
                exact ⟨_, getElem?_of_step hstep hi, fun _ => id⟩
    | answered time answer =>
        refine ⟨.answered time answer, ?_, fun _ => id⟩
        simp only [step, act, queryStep, hi]
        exact hi
  · exact ⟨phase, getElem?_step_of_ne he hi, fun _ => id⟩

theorem exists_foldl (hi : s.queries[i]? = some (query, phase)) (events : List IndexEvent) :
    ∃ phase', (events.foldl step s).queries[i]? = some (query, phase') ∧
      ∀ read, phase.readAt? = some read → phase'.readAt? = some read := by
  induction events generalizing s phase with
  | nil => exact ⟨phase, hi, fun _ => id⟩
  | cons e events ih =>
      obtain ⟨phase', hnext, hread⟩ := exists_step hi e
      obtain ⟨phase'', hlast, hread'⟩ := ih hnext
      exact ⟨phase'', hlast, fun read h => hread' read (hread read h)⟩

/-! ### Queries that come to an answer -/

/-- From here on a query gets a turn again and again, and the classes are those of an index. -/
structure Attends (index : ClassIndex) (i : Nat) (s : LiveIndex) (more : Stream' IndexEvent) :
    Prop where
  turns : ∀ n, .query i ∈ more.drop n
  classes : ∀ n, ((more.take n).foldl step s).index.index.class? = index.class?

theorem Attends.tail {index : ClassIndex} {more : Stream' IndexEvent}
    (h : Attends index i s more) : Attends index i (s.step more.head) more.tail :=
  ⟨fun n => h.turns (n + 1), fun n => h.classes (n + 1)⟩

/-- Whatever others do, a query in this phase comes to an answer if it is attended to. -/
def Settles (index : ClassIndex) (i : Nat) (query : IndexQuery) (phase : QueryPhase) : Prop :=
  ∀ (s : LiveIndex) (more : Stream' IndexEvent), s.queries[i]? = some (query, phase) →
    Attends index i s more →
    ∃ n time answer,
      ((more.take n).foldl step s).queries[i]? = some (query, .answered time answer)

variable {index : ClassIndex}

theorem settles_answered (answer : Except Cancelled MethodAnalysis) :
    Settles index i query (.answered time answer) :=
  fun _ _ hi _ => ⟨0, time, answer, hi⟩

/-- A query settles if each of its turns brings it to a phase in which it does. -/
theorem settles_of_turn (hturn : ∀ s : LiveIndex, s.queries[i]? = some (query, phase) →
      s.index.index.class? = index.class? →
      ∃ phase', (s.step (.query i)).queries[i]? = some (query, phase') ∧
        Settles index i query phase') :
    Settles index i query phase := by
  have hhere (s : LiveIndex) (more : Stream' IndexEvent)
      (hi : s.queries[i]? = some (query, phase)) (hmore : Attends index i s more)
      (he : more.head = .query i) : ∃ n time answer,
        ((more.take n).foldl step s).queries[i]? = some (query, .answered time answer) := by
    obtain ⟨phase', hnext, hsettles⟩ := hturn s hi (hmore.classes 0)
    rw [← he] at hnext
    obtain ⟨n, hn⟩ := hsettles _ _ hnext hmore.tail
    exact ⟨n + 1, hn⟩
  intro s more hi hmore
  -- The induction is on the place of the coming turn among what happens.
  obtain ⟨k, hk⟩ := hmore.turns 0
  induction k generalizing s more with
  | zero => exact hhere s more hi hmore hk.symm
  | succ k ih =>
      by_cases he : more.head = .query i
      · exact hhere s more hi hmore he
      · obtain ⟨n, hn⟩ := ih _ more.tail (getElem?_step_of_ne he hi) hmore.tail hk
        exact ⟨n + 1, hn⟩

theorem settles_of_done {findings : Findings}
    {r : Except Cancelled (Option (Frames × List LocalVariable))}
    (hdone : query.proceed findings = .inr r) :
    Settles index i query (.computing stamp time asked (.done findings)) := by
  refine settles_of_turn fun s hi _ => ?_
  obtain ⟨log, hstep⟩ := step_of_done hi hdone
  exact ⟨_, getElem?_of_step hstep hi, settles_answered _⟩

/-- A query that asks for classes settles if it does where it asks for none. -/
theorem settles_of_asking {rest : Inquiry Findings}
    (hdone : ∀ asked, Settles index i query
      (.computing stamp time asked (.done (rest.against index.class?)))) (asked : List Nat) :
    Settles index i query (.computing stamp time asked rest) := by
  induction rest generalizing asked with
  | done findings => exact hdone asked
  | ask name next ih =>
      refine settles_of_turn fun s hi hclass => ⟨_, getElem?_of_step (step_of_ask hi) hi, ?_⟩
      rw [hclass]
      exact ih _ hdone _

theorem settles_of_progress (hg : index.hierarchy.Grounded) {p : Progress} {w : Watch}
    (hp : p.IsOf query.owner query.method) :
    Settles index i query (.computing stamp time asked (.done (.ok p, w))) := by
  -- The induction is on the burden of the machine; positions are carried on while any is pending.
  induction hburden : p.machine.burden hg using WellFoundedLT.induction generalizing p w asked with
  | _ burden ih =>
  subst hburden
  cases hproceed : query.proceed (.ok p, w) with
  | inr r => exact settles_of_done hproceed
  | inl rest =>
      obtain ⟨p, w, ⟨⟩, hpending, rfl⟩ := IndexQuery.proceed_eq_inl.mp hproceed
      have hne : p.machine.pending ≠ [] := by simpa using hpending
      obtain ⟨hguarded, slots, hsound⟩ := hp hne
      refine settles_of_turn fun s hi _ => ⟨_, getElem?_of_step (step_of_turn hi hproceed) hi,
        settles_of_asking (fun asked => ?_) _⟩
      change Settles index i query (.computing stamp time asked (.done
        ((Survey.turn query.owner query.method.instructions p).against index.class? w)))
      rcases hturn : (Survey.turn query.owner query.method.instructions p).against index.class? w
        with ⟨e | p', w'⟩
      · exact settles_of_done rfl
      · obtain ⟨hstep, hsame⟩ := Survey.turn_ensures index _ _ p w p' w' hturn
        obtain ⟨hsound', hlower⟩ := Machine.step_settles hg
          (Analysis.covered_of_context (Analysis.context_of_guarded _ hguarded _)) hsound hne hstep
        exact ih _ hlower (fun _ => ⟨hsame ▸ hguarded, slots, hsound'⟩) rfl

/-- An analysis that keeps the invariant whatever it is told settles over these classes, if going
up from any of them comes to an end. -/
theorem settles_of_computing (hg : index.hierarchy.Grounded) {rest : Inquiry Findings}
    (hrest : rest.Ends (Survey.Reaches query.watch (·.IsOf query.owner query.method))) :
    Settles index i query (.computing stamp time asked rest) := by
  refine settles_of_asking (fun asked => ?_) asked
  have hreaches := hrest.against index.class?
  rcases hfindings : rest.against index.class? with ⟨e | p, w⟩
  · exact settles_of_done rfl
  · rw [hfindings] at hreaches
    exact settles_of_progress hg hreaches.1

theorem settles_of_stamped (hg : index.hierarchy.Grounded) :
    Settles index i query (.stamped stamp time) := by
  refine settles_of_turn fun s hi _ => ?_
  cases hlookup : s.cache.lookup? query.key stamp with
  | some a => exact ⟨_, getElem?_of_step (step_of_found hi hlookup) hi, settles_answered _⟩
  | none =>
      exact ⟨_, getElem?_of_step (step_of_missed hi hlookup) hi,
        settles_of_computing hg (Survey.start_meets query.owner query.method query.watch)⟩

end LiveIndex

end Injection
