import Injection.Locals.SharedCache
import Injection.Proofs.Locals.Answers

/-!
A cache is invisible to those who share it.

However the steps of the calls interleave, an answer is what a fresh analysis of the caller's own
method finds, provided that calls for one method under one stamp mean the same method and the same
hierarchy. `SharedCache.Sound` relates every entry to a call that was made, and every call to the
fresh analysis of its own input; each event keeps it.
-/

namespace Injection

/-! ### Computations that a token may interrupt -/

namespace Query

variable {ε α β : Type} {cancelled : ε}

/-- Whatever the token does, the computation answers `r` or reports the cancellation. -/
def AnswersUnless (cancelled : ε) (q : Query ε α) (r : Except ε α) : Prop :=
  ∀ w, (q w).1 = r ∨ (q w).1 = .error cancelled

theorem answersUnless_ofExcept (r : Except ε α) : AnswersUnless cancelled (ofExcept r) r :=
  fun _ => .inl rfl

theorem answersUnless_pure (a : α) : AnswersUnless cancelled (pure a) (.ok a) := fun _ => .inl rfl

theorem answersUnless_throw (e : ε) :
    AnswersUnless cancelled (throw e : Query ε α) (.error e) := fun _ => .inl rfl

/-- A sequence answers with the sequence of its answers. -/
theorem AnswersUnless.bind {q : Query ε α} {f : α → Query ε β} {x : Except ε α}
    {g : α → Except ε β} (hq : AnswersUnless cancelled q x)
    (hf : ∀ a, AnswersUnless cancelled (f a) (g a)) :
    AnswersUnless cancelled (q >>= f) (x >>= g) := by
  intro w
  rw [bind_apply]
  have hw := hq w
  generalize q w = result at hw
  obtain ⟨answer, w'⟩ := result
  rcases hw with rfl | rfl
  · cases answer with
    | error e => exact .inl rfl
    | ok a => exact hf a w'
  · exact .inr rfl

/-- A computation that looks at the token now and then before it goes on. -/
theorem AnswersUnless.after_look (p : Prop) [Decidable p] {q : Unit → Query ε α}
    {r : Except ε α} (hq : AnswersUnless cancelled (q ()) r) :
    AnswersUnless cancelled (if p then checkpoint cancelled >>= q else q ()) r := by
  split
  · intro w
    rw [bind_apply, checkpoint]
    cases w.isCancelled with
    | true => exact .inr rfl
    | false => exact hq w.look
  · exact hq

end Query

open Query (AnswersUnless answersUnless_pure answersUnless_throw answersUnless_ofExcept)

theorem Machine.run_answersUnless (c : AnalysisContext) (fuel count : Nat) (m : Machine) :
    ∃ r, AnswersUnless .cancelled (Machine.run c fuel count m) r := by
  induction fuel generalizing count m with
  | zero =>
      rw [run]
      split
      · exact ⟨_, answersUnless_pure m⟩
      · exact ⟨_, answersUnless_throw _⟩
  | succ fuel ih =>
      rw [run]
      split
      · exact ⟨_, answersUnless_pure m⟩
      · choose rest hrest using ih (count + 1)
        exact ⟨_, .after_look _ ((answersUnless_ofExcept (m.step c)).bind hrest)⟩

theorem Analysis.analyze_answersUnless (owner : String) (m : Method) (h : Hierarchy) :
    ∃ r, AnswersUnless .cancelled (analyze owner m h) r := by
  rw [analyze]
  split
  · exact ⟨_, answersUnless_pure _⟩
  · choose rest hrest using fun (entry : TypeFrame) (c : AnalysisContext) (start : Machine) =>
      Machine.run_answersUnless c (stepLimit owner m entry) 0 start
    exact ⟨_, (answersUnless_ofExcept _).bind fun entry => (answersUnless_ofExcept _).bind fun c =>
      (answersUnless_ofExcept _).bind fun start =>
        (hrest entry c start).bind fun machine => answersUnless_pure machine.frames⟩

/-- An analysis that its token does not stop comes to what one comes to with a live token. -/
theorem MethodAnalysis.compute_answersUnless (owner : String) (m : Method) (h : Hierarchy) :
    AnswersUnless .cancelled (compute owner m h) (outcome owner m h) := by
  obtain ⟨r, hr⟩ := Analysis.analyze_answersUnless owner m h
  have hcompute (w : Watch) :
      (compute owner m h w).1 = conclude m r ∨ (compute owner m h w).1 = .error .cancelled := by
    rw [compute_apply]
    exact (hr w).imp (congrArg (conclude m)) (congrArg (conclude m))
  -- With a live token the cancellation is not reported.
  have hne : outcome owner m h ≠ .error .cancelled := by
    rcases outcome_cases owner m h with h | ⟨h, -⟩ <;> simp [h]
  have hsame : outcome owner m h = conclude m r := (hcompute .live).resolve_right hne
  rwa [hsame]

namespace CacheCall

def fresh (call : CacheCall) : Option (Frames × List LocalVariable) :=
  MethodAnalysis.fresh call.owner call.method call.hierarchy

end CacheCall

/-- Calls for one method under one stamp mean the same method and the same hierarchy. -/
def CacheCall.Agree (asked : CacheCall → Prop) : Prop :=
  ∀ c d, asked c → asked d → c.key = d.key → c.stamp = d.stamp →
    c.method = d.method ∧ c.hierarchy = d.hierarchy

theorem CacheCall.Agree.fresh_eq {asked : CacheCall → Prop} (hagree : Agree asked)
    {c d : CacheCall} (hc : asked c) (hd : asked d) (hkey : c.key = d.key)
    (hstamp : c.stamp = d.stamp) : c.fresh = d.fresh := by
  obtain ⟨hmethod, hhierarchy⟩ := hagree c d hc hd hkey hstamp
  have howner : c.owner = d.owner := congrArg MethodKey.owner hkey
  rw [fresh, fresh, howner, hmethod, hhierarchy]

namespace CallPhase

def IsFresh (call : CacheCall) : CallPhase → Prop
  | .computed found => found = call.fresh
  | .answered (.ok a) => a.found = call.fresh
  | _ => True

def ofAnswer : Except Cancelled MethodAnalysis → CallPhase
  | .ok a => .answered (.ok a)
  | .error .cancelled => .answered (.error .cancelled)
  | .error .unsettled => .missed

end CallPhase

namespace AnalysisCache

theorem mem_of_list_lookup {entries : List (MethodKey × Stamped MethodAnalysis)}
    {key : MethodKey} {entry : Stamped MethodAnalysis}
    (hlookup : entries.lookup key = some entry) : (key, entry) ∈ entries := by
  obtain ⟨before, after, rfl, -⟩ := List.lookup_eq_some_iff.mp hlookup
  simp

theorem mem_of_lookup? {c : AnalysisCache} {key : MethodKey} {stamp : Stamp} {a : MethodAnalysis}
    (hlookup : c.lookup? key stamp = some a) : (key, ⟨a, stamp⟩) ∈ c.entries := by
  obtain ⟨entry, hentry, hget⟩ := Option.bind_eq_some_iff.mp hlookup
  obtain ⟨rfl, rfl⟩ := (entry.get?_eq_some_iff stamp a).mp hget
  exact mem_of_list_lookup hentry

theorem mem_insert {c : AnalysisCache} {key key' : MethodKey} {e e' : Stamped MethodAnalysis}
    (hmem : (key', e') ∈ (c.insert key e).entries) :
    (key' = key ∧ e' = e) ∨ (key', e') ∈ c.entries := by
  rcases List.mem_cons.mp hmem with heq | hmem
  · exact .inl (by simpa using heq)
  · exact .inr (List.mem_filter.mp hmem).1

theorem nodup_insert {c : AnalysisCache} (hc : (c.entries.map (·.1)).Nodup) (key : MethodKey)
    (e : Stamped MethodAnalysis) : ((c.insert key e).entries.map (·.1)).Nodup := by
  rw [insert, List.map_cons, List.nodup_cons]
  refine ⟨?_, hc.sublist ((List.filter_sublist).map _)⟩
  simp

end AnalysisCache

namespace SharedCache

/-- At most one entry for each method, every entry is what a call that was made finds afresh, and
every call has found out what it would find afresh. -/
structure Sound (asked : CacheCall → Prop) (s : SharedCache) : Prop where
  keys : (s.cache.entries.map (·.1)).Nodup
  entries : ∀ key e, (key, e) ∈ s.cache.entries →
    ∃ call, asked call ∧ call.key = key ∧ call.stamp = e.stamp ∧ e.value.found = call.fresh
  calls : ∀ call phase, (call, phase) ∈ s.calls → asked call ∧ phase.IsFresh call

variable {asked : CacheCall → Prop} {s : SharedCache} {i : Nat} {call : CacheCall}
  {phase : CallPhase}

theorem Sound.advance (hs : s.Sound asked) (hcall : asked call) (hphase : phase.IsFresh call) :
    (s.advance i call phase).Sound asked := by
  refine ⟨hs.keys, hs.entries, fun call' phase' hmem => ?_⟩
  rcases List.mem_or_eq_of_mem_set hmem with hmem | heq
  · exact hs.calls call' phase' hmem
  · cases heq
    exact ⟨hcall, hphase⟩

theorem Sound.add (hs : s.Sound asked) (hcall : asked call) :
    Sound asked { s with cache := (s.cache.add call.key call.stamp call.fresh).2 } := by
  refine ⟨AnalysisCache.nodup_insert hs.keys _ _, fun key e hmem => ?_, hs.calls⟩
  rcases AnalysisCache.mem_insert hmem with ⟨rfl, rfl⟩ | hmem
  · exact ⟨call, hcall, rfl, rfl, rfl⟩
  · exact hs.entries key e hmem

theorem Sound.step (hagree : CacheCall.Agree asked) (hs : s.Sound asked) {e : CacheEvent}
    (he : ∀ call, e = .arrive call → asked call) : (s.step e).Sound asked := by
  cases e with
  | arrive call =>
      refine ⟨hs.keys, hs.entries, fun call' phase' hmem => ?_⟩
      rcases List.mem_append.mp hmem with hmem | hmem
      · exact hs.calls call' phase' hmem
      · cases List.mem_singleton.mp hmem
        exact ⟨he call rfl, trivial⟩
  | look i =>
      rw [SharedCache.step]
      split
      · rename_i call hcall
        have hasked := (hs.calls _ _ (List.mem_of_getElem? hcall)).1
        split
        · rename_i a hlookup
          -- The entry found was made by a call that agrees with this one.
          obtain ⟨maker, hmaker, hkey, hstamp, hfound⟩ :=
            hs.entries _ _ (AnalysisCache.mem_of_lookup? hlookup)
          exact hs.advance hasked (hfound.trans (hagree.fresh_eq hmaker hasked hkey hstamp))
        · exact hs.advance hasked trivial
      · exact hs
  | compute i =>
      rw [SharedCache.step]
      split
      · rename_i call hcall
        have hasked := (hs.calls _ _ (List.mem_of_getElem? hcall)).1
        have hanswer := MethodAnalysis.compute_answersUnless call.owner call.method call.hierarchy
          call.watch
        split
        · rename_i found hok
          have houtcome := hok.symm.trans (hanswer.resolve_right fun h => nomatch hok.symm.trans h)
          refine hs.advance hasked ?_
          rcases MethodAnalysis.outcome_cases call.owner call.method call.hierarchy with h | ⟨h, -⟩
          · exact Except.ok.inj (houtcome.trans h)
          · cases houtcome.trans h
        · exact hs.advance hasked trivial
        · exact hs
      · exact hs
  | enter i =>
      rw [SharedCache.step]
      split
      · rename_i call found hcall
        obtain ⟨hasked, hfound⟩ := hs.calls _ _ (List.mem_of_getElem? hcall)
        cases (show found = call.fresh from hfound)
        exact (hs.add hasked).advance hasked rfl
      · exact hs
  | clear => exact ⟨List.nodup_nil, (fun _ _ hmem => nomatch hmem), hs.calls⟩

theorem Sound.foldl (hagree : CacheCall.Agree asked) {events : List CacheEvent}
    (hevents : ∀ call, .arrive call ∈ events → asked call) (hs : s.Sound asked) :
    (events.foldl SharedCache.step s).Sound asked := by
  induction events generalizing s with
  | nil => exact hs
  | cons e events ih =>
      refine ih (fun call hmem => hevents call (List.mem_cons_of_mem _ hmem))
        (hs.step hagree fun call he => hevents call ?_)
      rw [he]
      exact List.mem_cons_self

/-- What a request for an analysis does, in terms of the cache's own operations. -/
theorem analysis_eq (cache : AnalysisCache) (call : CacheCall) :
    (AnalysisCache.analysis call.owner call.method call.hierarchy call.stamp).run.run
        ⟨cache, call.watch⟩ =
      match cache.lookup? call.key call.stamp with
      | some a => (.ok a, ⟨cache, call.watch⟩)
      | none =>
        match (MethodAnalysis.compute call.owner call.method call.hierarchy).run.run
            call.watch with
        | (.ok found, watch) =>
          (.ok (cache.add call.key call.stamp found).1,
            ⟨(cache.add call.key call.stamp found).2, watch⟩)
        | (.error e, watch) => (.error e, ⟨cache, watch⟩) := by
  have hget : (get : Request Cancelled Session) ⟨cache, call.watch⟩ =
      (.ok ⟨cache, call.watch⟩, ⟨cache, call.watch⟩) := rfl
  have hkey : MethodKey.of call.owner call.method = call.key := rfl
  rw [AnalysisCache.analysis, ExceptT.run, StateT.run, bind_apply, hget]
  dsimp only
  rw [hkey]
  cases cache.lookup? call.key call.stamp with
  | some a => rfl
  | none =>
      dsimp only
      cases hrun : (MethodAnalysis.compute call.owner call.method call.hierarchy).run.run
          call.watch with
      | mk found watch =>
      have hquery : Request.ofQuery
          (MethodAnalysis.compute call.owner call.method call.hierarchy) ⟨cache, call.watch⟩ =
          (found, ⟨cache, watch⟩) := by
        simp only [Request.ofQuery, hrun]
      rw [bind_apply, hquery]
      cases found <;> rfl

/-- A call that is alone does what a request to the cache does, and waits where the types do not
settle. -/
theorem foldl_alone (cache : AnalysisCache) (call : CacheCall) :
    [.arrive call, .look 0, .compute 0, .enter 0].foldl step ⟨cache, []⟩ =
      let (answer, session) := (AnalysisCache.analysis call.owner call.method call.hierarchy
        call.stamp).run.run ⟨cache, call.watch⟩
      ⟨session.cache, [(call, .ofAnswer answer)]⟩ := by
  rw [analysis_eq]
  cases hlookup : cache.lookup? call.key call.stamp with
  | some a => simp [step, advance, hlookup, CallPhase.ofAnswer]
  | none =>
      cases hrun : (MethodAnalysis.compute call.owner call.method call.hierarchy).run.run
          call.watch with
      | mk found watch =>
      have hanswer : (MethodAnalysis.compute call.owner call.method call.hierarchy).answer
          call.watch = found := by
        rw [Query.answer, hrun]
      cases found with
      | ok found => simp [step, advance, hlookup, hanswer, CallPhase.ofAnswer]
      | error e => cases e <;> simp [step, advance, hlookup, hanswer, CallPhase.ofAnswer]

/-! ### Calls that end -/

/-- An answer stays. -/
theorem getElem?_step_of_answered {answer : Except Cancelled MethodAnalysis}
    (hcall : s.calls[i]? = some (call, .answered answer)) (e : CacheEvent) :
    (s.step e).calls[i]? = some (call, .answered answer) := by
  -- A step of a call replaces a phase other than an answer.
  have other {j : Nat} {call' : CacheCall} {phase phase' : CallPhase}
      (hj : s.calls[j]? = some (call', phase)) (hne : ∀ answer, phase ≠ .answered answer) :
      (s.calls.set j (call', phase'))[i]? = some (call, .answered answer) := by
    rw [List.getElem?_set_ne, hcall]
    rintro rfl
    cases hcall.symm.trans hj
    exact hne _ rfl
  cases e with
  | arrive call' =>
      have hlt : i < s.calls.length := (List.getElem?_eq_some_iff.mp hcall).1
      rw [step, List.getElem?_append_left hlt, hcall]
  | look j =>
      rw [step]
      split
      · rename_i call' hj
        split <;> exact other hj nofun
      · exact hcall
  | compute j =>
      rw [step]
      split
      · rename_i call' hj
        split
        · exact other hj nofun
        · exact other hj nofun
        · exact hcall
      · exact hcall
  | enter j =>
      rw [step]
      split
      · rename_i call' found hj
        exact other hj nofun
      · exact hcall
  | clear => exact hcall

theorem getElem?_foldl_of_answered {answer : Except Cancelled MethodAnalysis}
    (hcall : s.calls[i]? = some (call, .answered answer)) (events : List CacheEvent) :
    (events.foldl step s).calls[i]? = some (call, .answered answer) := by
  induction events generalizing s with
  | nil => exact hcall
  | cons e events ih => exact ih (getElem?_step_of_answered hcall e)

/-- The step of a call leaves the cache as it is or answers the call. -/
theorem cache_step_of_caller {e : CacheEvent} (he : e.caller? = some i) :
    (s.step e).cache = s.cache ∨
      ∃ call a, (s.step e).calls[i]? = some (call, .answered (.ok a)) := by
  cases e with
  | arrive call => cases he
  | look j =>
      left
      rw [step]
      split
      · split <;> rfl
      · rfl
  | compute j =>
      left
      rw [step]
      split
      · split <;> rfl
      · rfl
  | enter j =>
      cases he
      rw [step]
      split
      · rename_i call found hcall
        right
        refine ⟨call, _, List.getElem?_set_self (List.getElem?_eq_some_iff.mp hcall).1⟩
      · exact .inl rfl
  | clear => cases he

/-- No interleaving shows the cache: an answer is what a fresh analysis of the caller's own input
finds, there is at most one entry for each method, an entry is what any call for its method under
its stamp finds afresh, and no step of a call that ends cancelled touches the cache. -/
theorem run_invisible {events : List CacheEvent}
    (hagree : CacheCall.Agree (.arrive · ∈ events)) :
    (∀ call a, (call, .answered (.ok a)) ∈ (run events).calls → a.found = call.fresh) ∧
    ((run events).cache.entries.map (·.1)).Nodup ∧
    (∀ key e, (key, e) ∈ (run events).cache.entries →
      (∃ call, .arrive call ∈ events ∧ call.key = key ∧ call.stamp = e.stamp) ∧
      ∀ call, .arrive call ∈ events → call.key = key → call.stamp = e.stamp →
        e.value.found = call.fresh) ∧
    ∀ before e after i call, events = before ++ e :: after → e.caller? = some i →
      (run events).calls[i]? = some (call, .answered (.error .cancelled)) →
      (run (before ++ [e])).cache = (run before).cache := by
  have hsound : (run events).Sound (.arrive · ∈ events) :=
    Sound.foldl hagree (fun _ => id) ⟨List.nodup_nil, (fun _ _ hmem => nomatch hmem),
      (fun _ _ hmem => nomatch hmem)⟩
  refine ⟨fun call a hmem => (hsound.calls call _ hmem).2, hsound.keys, fun key e hmem => ?_, ?_⟩
  · obtain ⟨maker, hmaker, hkey, hstamp, hfound⟩ := hsound.entries key e hmem
    refine ⟨⟨maker, hmaker, hkey, hstamp⟩, fun call hcall hkey' hstamp' => ?_⟩
    rw [hfound]
    exact hagree.fresh_eq hmaker hcall (hkey.trans hkey'.symm) (hstamp.trans hstamp'.symm)
  · rintro before e after i call rfl he hcancelled
    rw [run, run, List.foldl_append, List.foldl_cons, List.foldl_nil]
    refine (cache_step_of_caller he).resolve_right fun ⟨call', a, hanswered⟩ => ?_
    have hkept := getElem?_foldl_of_answered hanswered after
    rw [run, List.foldl_append, List.foldl_cons] at hcancelled
    cases hcancelled.symm.trans hkept

/-- A run of instructions that do nothing, long enough for the analysis to look at its token. -/
def idleMethod (length : Nat) : Method where
  access := 0x0008
  name := "m"
  desc := "()V"
  maxStack := 0
  maxLocals := 0
  instructions := .ofList (List.replicate length (.plain .nop) ++ [.plain .returnVoid])
  handlers := []
  declaredLocals := []

def idleCall (stamp : Stamp) (watch : Watch) : CacheCall :=
  ⟨"a/A", idleMethod (64 + stamp.toNat), .unknown, stamp, watch⟩

/-- The newer of two calls enters its analysis first, the older one puts its own in the place of
it, and after the cache was cleared a cancelled call and one more find nothing. -/
def raceEvents : List CacheEvent :=
  [.arrive (idleCall 1 .live), .arrive (idleCall 2 .live), .look 0, .look 1, .compute 0,
    .compute 1, .enter 1, .enter 0, .arrive (idleCall 1 .live), .look 2, .clear,
    .arrive (idleCall 1 .dead), .arrive (idleCall 2 .live), .look 3, .look 4, .compute 3,
    .compute 4, .enter 4]

theorem agree_raceEvents : CacheCall.Agree (.arrive · ∈ raceEvents) := by
  have arrived {c : CacheCall} (hc : .arrive c ∈ raceEvents) :
      ∃ stamp watch, c = idleCall stamp watch := by
    simp only [raceEvents, List.mem_cons, CacheEvent.arrive.injEq, reduceCtorEq, false_or,
      or_false, List.not_mem_nil] at hc
    rcases hc with rfl | rfl | rfl | rfl | rfl <;> exact ⟨_, _, rfl⟩
  intro c d hc hd _ hstamp
  obtain ⟨stamp, watch, rfl⟩ := arrived hc
  obtain ⟨stamp', watch', rfl⟩ := arrived hd
  cases (show stamp = stamp' from hstamp)
  exact ⟨rfl, rfl⟩

theorem run_invisible_race :
    CacheCall.Agree (.arrive · ∈ raceEvents) ∧
    ((run raceEvents).calls.map fun (_, phase) => phase matches .answered (.error _)) =
      [false, false, false, true, false] ∧
    ((run raceEvents).calls.map fun (_, phase) => phase matches .answered (.ok _)) =
      [true, true, true, false, true] ∧
    (∀ call a, (call, .answered (.ok a)) ∈ (run raceEvents).calls → a.found = call.fresh) ∧
    (run raceEvents).cache.entries.length = 1 ∧
    ((run raceEvents).cache.entries.map (·.1)).Nodup :=
  have hinvisible := run_invisible agree_raceEvents
  ⟨agree_raceEvents, by decide +kernel, by decide +kernel, hinvisible.1, by decide +kernel,
    hinvisible.2.1⟩

end SharedCache

end Injection
