import Injection.Arithmetic
import Injection.Locals.LiveIndex
import Injection.Proofs.Locals.Settling

/-!
No stale analysis is served.

The stamp that a query reads counts the insertions that moved it on before. An entry made under
this stamp was made by a query that read it after the same insertions, so all that it asked for it
asked for after they had stored their classes. `LiveIndex.Sound` says this of every entry and every
query, and each event keeps it.
-/

namespace Injection

namespace InsertionPhase

def InOrder (clock : Nat) : InsertionPhase → Prop
  | .written _ wrote => wrote < clock
  | .published _ wrote bumped => wrote < bumped ∧ bumped < clock
  | _ => True

theorem InOrder.later {phase : InsertionPhase} {early late : Nat} (h : early ≤ late)
    (horder : phase.InOrder early) : phase.InOrder late := by
  cases phase with
  | written c wrote => exact Nat.lt_of_lt_of_le horder h
  | published c wrote bumped => exact ⟨horder.1, Nat.lt_of_lt_of_le horder.2 h⟩
  | _ => trivial

@[simp] theorem isBumpedBefore_published (c : Class) (wrote bumped time : Nat) :
    (published c wrote bumped).isBumpedBefore time = decide (bumped < time) := rfl

theorem isBumpedBefore_mono {phase : InsertionPhase} {early late : Nat} (h : early ≤ late)
    (hbefore : phase.isBumpedBefore early = true) : phase.isBumpedBefore late = true := by
  cases phase with
  | published c wrote bumped =>
      simp only [isBumpedBefore_published, decide_eq_true_eq] at hbefore ⊢
      omega
  | _ => cases hbefore

theorem isPublished_of_isBumpedBefore {phase : InsertionPhase} {time : Nat}
    (hbefore : phase.isBumpedBefore time = true) : phase.isPublished = true := by
  cases phase with
  | published c wrote bumped => rfl
  | _ => cases hbefore

end InsertionPhase

/-- What a run looks like to those who take part: the stamp at its start, and the classes at every
time. -/
structure History where
  first : Stamp
  class? : Nat → String → Option Class

/-- What a query has come to that asked for classes at some times and was told what they were
then. -/
inductive IndexQuery.Comes (class? : Nat → String → Option Class) (q : IndexQuery) :
    List Nat → Inquiry Findings → Prop
  | start : q.Comes class? [] q.survey
  | ask {asked : List Nat} {name : String} {next : Option Class → Inquiry Findings} (time : Nat)
      (h : q.Comes class? asked (.ask name next)) :
      q.Comes class? (asked ++ [time]) (next (class? time name))
  | turn {asked : List Nat} {findings : Findings} {rest : Inquiry Findings}
      (h : q.Comes class? asked (.done findings)) (hturn : q.proceed findings = .inl rest) :
      q.Comes class? asked rest

/-- Whatever the query has come to, it keeps the invariant from there on. -/
theorem IndexQuery.Comes.ends {class? : Nat → String → Option Class} {q : IndexQuery}
    {asked : List Nat} {rest : Inquiry Findings} (h : q.Comes class? asked rest) :
    rest.Ends (Survey.Reaches q.watch (·.IsOf q.owner q.method)) := by
  induction h with
  | start => exact Survey.start_meets q.owner q.method q.watch
  | ask time _ ih => exact ih _
  | turn _ hturn ih =>
      obtain ⟨p, w, rfl, hpending, rfl⟩ := proceed_eq_inl.mp hturn
      obtain ⟨hp, hlive⟩ := ih
      exact (Survey.turn_meets hp (by simpa using hpending) w).mono fun _ =>
        Survey.Reaches.of_live hlive

theorem AnalyzeError.OfMethod.conclude {e : AnalyzeError} (he : e.OfMethod) (m : Method) :
    MethodAnalysis.conclude m (.error e) = .ok none := by
  cases e with
  | cancelled => exact absurd rfl he.1
  | unsettled => exact absurd rfl he.2
  | _ => rfl

/-- Only a token that is not live keeps a query from an analysis. -/
theorem IndexQuery.Comes.cancelled {class? : Nat → String → Option Class} {q : IndexQuery}
    {asked : List Nat} {findings : Findings} {e : Cancelled}
    (h : q.Comes class? asked (.done findings)) (herror : q.proceed findings = .inr (.error e)) :
    e = .cancelled ∧ ¬ q.watch.IsLive := by
  have hreaches := h.ends
  rcases findings with ⟨e' | p, w⟩
  · rcases hreaches with hmethod | ⟨rfl, hdead⟩
    · rw [proceed, hmethod.conclude] at herror
      cases herror
    · cases herror
      exact ⟨rfl, hdead⟩
  · rw [proceed] at herror
    split at herror <;> cases herror

def History.Finds (h : History) (key : MethodKey) (asked : List Nat)
    (found : Option (Frames × List LocalVariable)) : Prop :=
  ∃ query findings, IndexQuery.key query = key ∧
    query.Comes h.class? asked (.done findings) ∧ query.proceed findings = .inr (.ok found)

namespace LiveIndex

def history (index : MemoryIndex) (events : List IndexEvent) : History :=
  ⟨index.stamp, fun time name => (run index (events.take time)).index.index.class? name⟩

variable {s s' : LiveIndex} {h : History} {i : Nat}

def stampAt (h : History) (s : LiveIndex) (time : Nat) : Stamp :=
  h.first + UInt64.ofNat (s.bumpsBefore time)

/-- An analysis of a method all of whose questions were asked after a time: the log has the times
at which they were asked, and it found what a query for the method finds that is told what the
classes were then. -/
def AskedAfter (h : History) (s : LiveIndex) (key : MethodKey) (a : MethodAnalysis)
    (time : Nat) : Prop :=
  ∃ asked, s.log[a.serial]? = some asked ∧ (∀ t ∈ asked, time < t) ∧ h.Finds key asked a.found

def MadeAt (h : History) (s : LiveIndex) (key : MethodKey) (a : MethodAnalysis) (stamp : Stamp)
    (time : Nat) : Prop :=
  time < s.clock ∧ stamp = s.stampAt h time ∧ s.AskedAfter h key a time

def Fits (h : History) (s : LiveIndex) (query : IndexQuery) : QueryPhase → Prop
  | .arrived => True
  | .stamped stamp time => time < s.clock ∧ stamp = s.stampAt h time
  | .computing stamp time asked rest =>
    time < s.clock ∧ stamp = s.stampAt h time ∧ (∀ t ∈ asked, time < t) ∧
      query.Comes h.class? asked rest
  | .answered time (.ok a) =>
    time < s.clock ∧ ∃ made, s.MadeAt h query.key a (s.stampAt h time) made
  | .answered _ (.error e) => e = .cancelled ∧ ¬ query.watch.IsLive

/-- The stamp counts the insertions, the log has a place for every analysis, and every entry and
every query fits its times. -/
structure Sound (h : History) (s : LiveIndex) : Prop where
  stamp : s.index.stamp = s.stampAt h s.clock
  insertions : ∀ what phase, (what, phase) ∈ s.insertions → phase.InOrder s.clock
  log : s.log.length = s.cache.made
  entries : ∀ key e, (key, e) ∈ s.cache.entries → ∃ time, s.MadeAt h key e.value e.stamp time
  queries : ∀ query phase, (query, phase) ∈ s.queries → s.Fits h query phase

/-! ### What later states keep -/

structure Later (s s' : LiveIndex) : Prop where
  clock : s.clock ≤ s'.clock
  bumps : ∀ time < s.clock, s'.bumpsBefore time = s.bumpsBefore time
  log : ∀ (serial : Nat) (asked : List Nat), s.log[serial]? = some asked →
    s'.log[serial]? = some asked

theorem Later.stampAt (hlater : s.Later s') {time : Nat} (htime : time < s.clock) :
    s'.stampAt h time = s.stampAt h time := by
  rw [LiveIndex.stampAt, LiveIndex.stampAt, hlater.bumps time htime]

theorem MadeAt.later (hlater : s.Later s') {key : MethodKey} {a : MethodAnalysis} {stamp : Stamp}
    {time : Nat} (hmade : s.MadeAt h key a stamp time) : s'.MadeAt h key a stamp time := by
  obtain ⟨htime, hstamp, asked, hlog, hasked⟩ := hmade
  exact ⟨Nat.lt_of_lt_of_le htime hlater.clock, hstamp.trans (hlater.stampAt htime).symm, asked,
    hlater.log _ _ hlog, hasked⟩

theorem Fits.later (hlater : s.Later s') {query : IndexQuery} {phase : QueryPhase}
    (hfits : s.Fits h query phase) : s'.Fits h query phase := by
  cases phase with
  | arrived => trivial
  | stamped stamp time =>
      obtain ⟨htime, hstamp⟩ := hfits
      exact ⟨Nat.lt_of_lt_of_le htime hlater.clock, hstamp.trans (hlater.stampAt htime).symm⟩
  | computing stamp time asked rest =>
      obtain ⟨htime, hstamp, hrest⟩ := hfits
      exact ⟨Nat.lt_of_lt_of_le htime hlater.clock, hstamp.trans (hlater.stampAt htime).symm,
        hrest⟩
  | answered time answer =>
      cases answer with
      | error e => exact hfits
      | ok a =>
          obtain ⟨htime, made, hmade⟩ := hfits
          refine ⟨Nat.lt_of_lt_of_le htime hlater.clock, made, ?_⟩
          rw [hlater.stampAt htime]
          exact hmade.later hlater

/-! ### How often the stamp was moved on -/

theorem bumpsBefore_le_bumps (time : Nat) : s.bumpsBefore time ≤ s.bumps :=
  List.countP_mono_left fun _ _ => InsertionPhase.isPublished_of_isBumpedBefore

/-- An insertion that moved the stamp on between two times makes a difference. -/
theorem bumpsBefore_lt {what : Insertion} {c : Class} {wrote bumped early late : Nat}
    (hmem : (what, .published c wrote bumped) ∈ s.insertions) (hearly : early ≤ bumped)
    (hlate : bumped < late) : s.bumpsBefore early < s.bumpsBefore late := by
  have hmono (l : List (Insertion × InsertionPhase)) :
      l.countP (·.2.isBumpedBefore early) ≤ l.countP (·.2.isBumpedBefore late) :=
    List.countP_mono_left fun _ _ => InsertionPhase.isBumpedBefore_mono (by omega)
  -- The insertion itself counts for the late time only.
  obtain ⟨before, after, hsplit⟩ := List.append_of_mem hmem
  have hbefore := hmono before
  have hafter := hmono after
  have hnot : ¬ bumped < early := by omega
  simp only [bumpsBefore, hsplit, List.countP_append, List.countP_cons,
    InsertionPhase.isBumpedBefore_published, hlate, hnot, decide_true, decide_false, if_true,
    Bool.false_eq_true, if_false]
  omega

/-- A stamp that counts fewer insertions than it has values tells these counts apart. -/
theorem bumpsBefore_eq_of_stampAt (hwrap : s.bumps < 2 ^ 64) {t u : Nat}
    (hstamp : s.stampAt h t = s.stampAt h u) : s.bumpsBefore t = s.bumpsBefore u := by
  have ht := s.bumpsBefore_le_bumps t
  have hu := s.bumpsBefore_le_bumps u
  have hnat := congrArg UInt64.toNat ((UInt64.add_right_inj h.first).mp hstamp)
  rw [UInt64.toNat_ofNat', UInt64.toNat_ofNat'] at hnat
  omega

/-- What the step of an insertion does to the counts. -/
theorem bumpsBefore_advanceInsertion {what : Insertion} {old : InsertionPhase}
    (hi : s.insertions[i]? = some (what, old)) (new : InsertionPhase) (time : Nat) :
    (s.advanceInsertion i what new).bumpsBefore time + (old.isBumpedBefore time).toNat =
      s.bumpsBefore time + (new.isBumpedBefore time).toNat := by
  obtain ⟨hlt, hget⟩ := List.getElem?_eq_some_iff.mp hi
  have hold : old.isBumpedBefore time = true → 0 < s.bumpsBefore time := fun h =>
    List.countP_pos_iff.mpr ⟨_, List.mem_of_getElem? hi, h⟩
  have hcount : (s.advanceInsertion i what new).bumpsBefore time =
      (s.bumpsBefore time - if old.isBumpedBefore time = true then 1 else 0) +
        if new.isBumpedBefore time = true then 1 else 0 := by
    rw [bumpsBefore, advanceInsertion, List.countP_set hlt, hget]
    rfl
  -- The count is a difference of naturals, exact because an old phase that counts is in the list.
  rw [hcount]
  revert hold
  cases old.isBumpedBefore time with
  | true =>
      intro hpos
      have := hpos rfl
      cases new.isBumpedBefore time <;> simp <;> omega
  | false => cases new.isBumpedBefore time <;> simp

/-- Nobody moves the stamp on at the coming tick but the event that is about to happen. -/
theorem Sound.bumpsBefore_succ (hs : s.Sound h) :
    s.bumpsBefore (s.clock + 1) = s.bumpsBefore s.clock := by
  refine List.countP_congr fun entry hmem => ?_
  obtain ⟨what, phase⟩ := entry
  have horder := hs.insertions what phase hmem
  cases phase with
  | published c wrote bumped =>
      have : bumped < s.clock := horder.2
      simp only [InsertionPhase.isBumpedBefore_published, decide_eq_true_eq]
      omega
  | _ => rfl

/-! ### What each event keeps -/

/-- Entries and queries need no attention where the cache, the queries and the past stay. -/
theorem Sound.later (hs : s.Sound h) (hlater : s.Later s') (hcache : s'.cache = s.cache)
    (hqueries : s'.queries = s.queries) (hlog : s'.log = s.log)
    (hstamp : s'.index.stamp = s'.stampAt h s'.clock)
    (hinsertions : ∀ what phase, (what, phase) ∈ s'.insertions → phase.InOrder s'.clock) :
    s'.Sound h := by
  refine ⟨hstamp, hinsertions, ?_, fun key e hmem => ?_, fun query phase hmem => ?_⟩
  · rw [hlog, hcache, hs.log]
  · rw [hcache] at hmem
    obtain ⟨time, hmade⟩ := hs.entries key e hmem
    exact ⟨time, hmade.later hlater⟩
  · rw [hqueries] at hmem
    exact (hs.queries query phase hmem).later hlater

theorem Sound.tick (hs : s.Sound h) : s.tick.Sound h := by
  refine hs.later ⟨Nat.le_succ _, fun _ _ => rfl, fun _ _ => id⟩ rfl rfl rfl ?_
    fun what phase hmem => (hs.insertions what phase hmem).later (Nat.le_succ _)
  rw [stampAt]
  change s.index.stamp = h.first + UInt64.ofNat (s.bumpsBefore (s.clock + 1))
  rw [hs.bumpsBefore_succ]
  exact hs.stamp

theorem Sound.advanceQuery {query : IndexQuery} (hs : s.Sound h) (phase : QueryPhase)
    (hphase : s.Fits h query phase) : (s.advanceQuery i query phase).Sound h := by
  refine ⟨hs.stamp, hs.insertions, hs.log, hs.entries, fun query' phase' hmem => ?_⟩
  rcases List.mem_or_eq_of_mem_set hmem with hmem | heq
  · exact hs.queries query' phase' hmem
  · cases heq
    exact hphase

/-- A finished analysis is entered as a new one, with the times at which it asked. -/
theorem Sound.add {key : MethodKey} {stamp : Stamp} {time : Nat} {asked : List Nat}
    {found : Option (Frames × List LocalVariable)} (hs : s.Sound h) (htime : time < s.clock)
    (hstamp : stamp = s.stampAt h time) (hasked : ∀ t ∈ asked, time < t)
    (hfinds : h.Finds key asked found) :
    let s' : LiveIndex :=
      { s with cache := (s.cache.add key stamp found).2, log := s.log ++ [asked] }
    s'.Sound h ∧ s'.MadeAt h key (s.cache.add key stamp found).1 stamp time := by
  intro s'
  have hlater : s.Later s' := by
    refine ⟨le_rfl, fun _ _ => rfl, fun serial asked' hlog => ?_⟩
    rw [show s'.log = s.log ++ [asked] from rfl, List.getElem?_append_left, hlog]
    exact (List.getElem?_eq_some_iff.mp hlog).1
  -- The analysis has the next serial number, and the log its times in the next place.
  have hmade : s'.MadeAt h key (s.cache.add key stamp found).1 stamp time := by
    refine ⟨htime, hstamp, asked, ?_, hasked, hfinds⟩
    change (s.log ++ [asked])[s.cache.made]? = some asked
    rw [← hs.log, List.getElem?_concat_length]
  refine ⟨⟨hs.stamp, hs.insertions, ?_, fun key' e hmem => ?_, fun query phase hmem => ?_⟩, hmade⟩
  · change (s.log ++ [asked]).length = s.cache.made + 1
    rw [List.length_append, hs.log, List.length_singleton]
  · rcases AnalysisCache.mem_insert hmem with ⟨rfl, rfl⟩ | hmem
    · exact ⟨time, hmade⟩
    · obtain ⟨time', hmade'⟩ := hs.entries key' e hmem
      exact ⟨time', hmade'.later hlater⟩
  · exact (hs.queries query phase hmem).later hlater

/-- An insertion that does not move the stamp on stores what it likes. -/
theorem Sound.advanceInsertion {what : Insertion} {old : InsertionPhase} (hs : s.Sound h)
    (hi : s.insertions[i]? = some (what, old)) (new : InsertionPhase) {index : MemoryIndex}
    (hindex : index.stamp = s.index.stamp) (hnew : new.InOrder s.clock)
    (hsame : ∀ time, new.isBumpedBefore time = old.isBumpedBefore time) :
    ({ s with index }.advanceInsertion i what new).Sound h := by
  have hbumps (time : Nat) :
      ({ s with index }.advanceInsertion i what new).bumpsBefore time = s.bumpsBefore time := by
    have := bumpsBefore_advanceInsertion (s := { s with index }) hi new time
    rw [hsame time] at this
    exact Nat.add_right_cancel this
  refine hs.later ⟨le_rfl, fun time _ => hbumps time, fun _ _ => id⟩ rfl rfl rfl ?_
    fun what' phase hmem => ?_
  · rw [stampAt, hbumps]
    exact hindex.trans hs.stamp
  · rcases List.mem_or_eq_of_mem_set hmem with hmem | heq
    · exact hs.insertions what' phase hmem
    · cases heq
      exact hnew

/-- The tick at which an insertion moves the stamp on. -/
theorem Sound.publish {what : Insertion} {c : Class} {wrote : Nat} (hs : s.Sound h)
    (hi : s.insertions[i]? = some (what, .written c wrote)) :
    ({ s with index := s.index.bump }.advanceInsertion i what
      (.published c wrote s.clock)).tick.Sound h := by
  have hwrote : wrote < s.clock := hs.insertions _ _ (List.mem_of_getElem? hi)
  have hbumps (time : Nat) :
      ({ s with index := s.index.bump }.advanceInsertion i what
        (.published c wrote s.clock)).tick.bumpsBefore time =
        s.bumpsBefore time + (decide (s.clock < time)).toNat :=
    bumpsBefore_advanceInsertion (s := { s with index := s.index.bump }) hi _ time
  refine hs.later ⟨Nat.le_succ _, fun time htime => ?_, fun _ _ => id⟩ rfl rfl rfl ?_
    fun what' phase hmem => ?_
  · rw [hbumps, decide_eq_false (by omega)]
    rfl
  · have hclock : ({ s with index := s.index.bump }.advanceInsertion i what
        (.published c wrote s.clock)).tick.clock = s.clock + 1 := rfl
    rw [stampAt, hbumps, hclock, hs.bumpsBefore_succ, decide_eq_true (Nat.lt_succ_self _)]
    change s.index.stamp + 1 = h.first + UInt64.ofNat (s.bumpsBefore s.clock + 1)
    rw [hs.stamp, stampAt, UInt64.ofNat_add, UInt64.add_assoc]
    rfl
  · rcases List.mem_or_eq_of_mem_set hmem with hmem | heq
    · exact (hs.insertions what' phase hmem).later (Nat.le_succ _)
    · cases heq
      exact ⟨hwrote, Nat.lt_succ_self _⟩

theorem Sound.insertionStep (hs : s.Sound h) (i : Nat) :
    (s.insertionStep i).tick.Sound h := by
  rw [LiveIndex.insertionStep]
  split
  · rename_i what hi
    split
    · rename_i c _
      refine (hs.advanceInsertion hi (.stored c) ?_ trivial fun _ => rfl).tick
      cases what <;> rfl
    · rename_i e _
      exact (hs.advanceInsertion hi (.refused e) rfl trivial fun _ => rfl).tick
  · rename_i what c hi
    -- The time of the write is the present one, which the tick puts in the past.
    exact hs.tick.advanceInsertion (s := s.tick) hi (.written c s.clock) rfl
      (Nat.lt_succ_self _) fun _ => rfl
  · rename_i what c wrote hi
    exact hs.publish hi
  · exact hs.tick

theorem Sound.queryStep (hs : s.Sound h)
    (hclass : h.class? s.clock = s.index.index.class?) (i : Nat) :
    (s.queryStep i).tick.Sound h := by
  have fits {query : IndexQuery} {phase : QueryPhase}
      (hi : s.queries[i]? = some (query, phase)) : s.Fits h query phase :=
    hs.queries _ _ (List.mem_of_getElem? hi)
  rw [LiveIndex.queryStep]
  split
  · rename_i query hi
    exact hs.tick.advanceQuery (.stamped s.index.stamp s.clock) ⟨Nat.lt_succ_self _, hs.stamp⟩
  · rename_i query stamp time hi
    obtain ⟨htime, hstamp⟩ := fits hi
    split
    · rename_i a hlookup
      -- The entry was made under the stamp that this query read, at whatever time.
      obtain ⟨made, hmade⟩ := hs.entries _ _ (AnalysisCache.mem_of_lookup? hlookup)
      exact (hs.advanceQuery (.answered time (.ok a))
        ⟨htime, made, hstamp ▸ hmade⟩).tick
    · exact (hs.advanceQuery (.computing stamp time [] query.survey)
        ⟨htime, hstamp, List.forall_mem_nil _, .start⟩).tick
  · rename_i query stamp time asked name next hi
    obtain ⟨htime, hstamp, hasked, hrest⟩ := fits hi
    refine (hs.advanceQuery (.computing stamp time (asked ++ [s.clock]) _)
      ⟨htime, hstamp, fun t hmem => ?_, ?_⟩).tick
    · rcases List.mem_append.mp hmem with hmem | hmem
      · exact hasked t hmem
      · cases List.mem_singleton.mp hmem
        exact htime
    · rw [← hclass]
      exact hrest.ask s.clock
  · rename_i query stamp time asked findings hi
    obtain ⟨htime, hstamp, hasked, hdone⟩ := fits hi
    split
    · rename_i rest hturn
      exact (hs.advanceQuery (.computing stamp time asked rest)
        ⟨htime, hstamp, hasked, hdone.turn hturn⟩).tick
    · rename_i found hfound
      obtain ⟨hs', hmade⟩ := hs.add htime hstamp hasked ⟨query, findings, rfl, hdone, hfound⟩
      exact (hs'.advanceQuery (.answered time (.ok _))
        ⟨htime, time, hstamp ▸ hmade⟩).tick
    · rename_i e herror
      exact (hs.advanceQuery (.answered time (.error e)) (hdone.cancelled herror)).tick
  · exact hs.tick

theorem Sound.step (hs : s.Sound h) (hclass : h.class? s.clock = s.index.index.class?)
    (e : IndexEvent) : (s.step e).Sound h := by
  cases e with
  | insert what =>
      have hbumps (time : Nat) :
          (s.act (.insert what)).bumpsBefore time = s.bumpsBefore time := by
        rw [act, bumpsBefore, List.countP_append]
        rfl
      refine Sound.tick (hs.later ⟨le_rfl, fun time _ => hbumps time, fun _ _ => id⟩ rfl rfl rfl ?_
        fun what' phase hmem => ?_)
      · rw [stampAt, hbumps]
        exact hs.stamp
      · rcases List.mem_append.mp hmem with hmem | hmem
        · exact hs.insertions what' phase hmem
        · cases List.mem_singleton.mp hmem
          trivial
  | ask query =>
      refine Sound.tick ⟨hs.stamp, hs.insertions, hs.log, hs.entries, fun query' phase hmem => ?_⟩
      rcases List.mem_append.mp hmem with hmem | hmem
      · exact hs.queries query' phase hmem
      · cases List.mem_singleton.mp hmem
        trivial
  | insertion i => exact hs.insertionStep i
  | query i => exact hs.queryStep hclass i
  | clear =>
      exact Sound.tick ⟨hs.stamp, hs.insertions, hs.log,
        (fun _ _ hmem => absurd hmem List.not_mem_nil), hs.queries⟩

theorem clock_step (s : LiveIndex) (e : IndexEvent) : (s.step e).clock = s.clock + 1 := by
  have hact : (s.act e).clock = s.clock := by
    cases e with
    | insertion i =>
        rw [act]
        rcases s.insertionStep_cases i with hstep | ⟨what, phase, index, hstep⟩
        · rw [hstep]
        · rw [hstep]
          rfl
    | query i =>
        rw [act]
        rcases s.queryStep_cases i with hstep | ⟨query, phase, cache, log, hstep⟩
        · rw [hstep]
        · rw [hstep]
          rfl
    | _ => rfl
  exact congrArg (· + 1) hact

theorem clock_run (index : MemoryIndex) (events : List IndexEvent) :
    (run index events).clock = events.length := by
  have hclock (s : LiveIndex) : (events.foldl step s).clock = s.clock + events.length := by
    induction events generalizing s with
    | nil => rfl
    | cons e events ih =>
        rw [List.foldl_cons, ih, clock_step, List.length_cons]
        omega
  rw [run, hclock]
  exact Nat.zero_add _

/-- A run is sound up to every event. -/
theorem sound_run (index : MemoryIndex) (events : List IndexEvent) :
    (run index events).Sound (history index events) := by
  have hprefix (n : Nat) : (run index (events.take n)).Sound (history index events) := by
    induction n with
    | zero =>
        have hnone {α β : Type} {p : α → β → Prop} (a : α) (b : β) (hmem : (a, b) ∈ []) : p a b :=
          absurd hmem List.not_mem_nil
        exact ⟨(UInt64.add_zero _).symm, hnone, rfl, hnone, hnone⟩
    | succ n ih =>
        by_cases hn : n < events.length
        · rw [List.take_succ_eq_append_getElem hn, run, List.foldl_concat]
          refine ih.step ?_ _
          rw [clock_run, history, List.length_take, Nat.min_eq_left hn.le]
        · rw [List.take_of_length_le (by omega)]
          rwa [List.take_of_length_le (by omega)] at ih
  have hrun := hprefix events.length
  rwa [List.take_length] at hrun

theorem run_append (index : MemoryIndex) (events more : List IndexEvent) :
    run index (events ++ more) = more.foldl step (run index events) :=
  List.foldl_append

theorem run_append_take (index : MemoryIndex) (events : List IndexEvent)
    (more : Stream' IndexEvent) (first n : Nat) :
    run index (events ++ more.take (first + n)) =
      ((more.drop first).take n).foldl step (run index (events ++ more.take first)) := by
  induction first generalizing events more with
  | zero =>
      rw [Nat.zero_add, Stream'.take_zero, List.append_nil, Stream'.drop_zero, run_append]
  | succ first ih =>
      have hcons (k : Nat) : events ++ more.take (k + 1) =
          (events ++ [more.head]) ++ more.tail.take k := by
        rw [Stream'.take_succ, List.append_assoc, List.singleton_append]
      rw [Nat.add_right_comm, hcons, hcons, ih]
      rfl

theorem Sound.settles (hs : s.Sound h) {final : ClassIndex} (hg : final.hierarchy.Grounded)
    {query : IndexQuery} {phase : QueryPhase} (hquery : s.queries[i]? = some (query, phase))
    {time : Nat} (hread : phase.readAt? = some time) : Settles final i query phase := by
  have hfits := hs.queries _ _ (List.mem_of_getElem? hquery)
  cases phase with
  | arrived => cases hread
  | stamped stamp time => exact settles_of_stamped hg
  | computing stamp time asked rest =>
      obtain ⟨-, -, -, hcomes⟩ := hfits
      exact settles_of_computing hg hcomes.ends
  | answered time answer => exact settles_answered answer

/-- A query that read the stamp comes to an answer if it gets a turn again and again, while the
classes come to rest and going up from any of them comes to an end. -/
theorem exists_answer_of_rest {index : MemoryIndex} {events : List IndexEvent} {query : IndexQuery}
    {phase : QueryPhase} {time : Nat}
    (hquery : (run index events).queries[i]? = some (query, phase))
    (hread : phase.readAt? = some time) {more : Stream' IndexEvent} {final : ClassIndex}
    (hg : final.hierarchy.Grounded) {first : Nat}
    (hrest : ∀ n ≥ first, (run index (events ++ more.take n)).index.index.class? = final.class?)
    (hturns : ∀ n, .query i ∈ more.drop n) :
    ∃ n answer, (run index (events ++ more.take n)).queries[i]? =
      some (query, .answered time answer) := by
  -- Where the classes have come to rest, the query still has the time at which it read the stamp.
  obtain ⟨phase', hphase', hread'⟩ := exists_foldl hquery (more.take first)
  rw [← run_append] at hphase'
  have hattends : Attends final i (run index (events ++ more.take first)) (more.drop first) := by
    refine ⟨fun n => ?_, fun n => ?_⟩
    · rw [Stream'.drop_drop]
      exact hturns _
    · rw [← run_append_take]
      exact hrest _ (Nat.le_add_right first n)
  obtain ⟨n, time', answer, hanswer⟩ :=
    (sound_run index _).settles hg hphase' (hread' time hread) _ _ hphase' hattends
  obtain ⟨phase'', hphase'', hread''⟩ := exists_foldl hphase' ((more.drop first).take n)
  cases hanswer.symm.trans hphase''
  cases hread'' time (hread' time hread)
  exact ⟨first + n, answer, by rw [run_append_take, hanswer]⟩

/-- An analysis answered under a stamp that an insertion had moved on asked for classes only after
this insertion stored its own, whoever made it. -/
theorem Sound.askedAfter (hs : s.Sound h) (hwrap : s.bumps < 2 ^ 64) {what : Insertion} {c : Class}
    {wrote bumped : Nat} (hinsertion : (what, .published c wrote bumped) ∈ s.insertions)
    {query : IndexQuery} {time : Nat} {a : MethodAnalysis}
    (hquery : (query, .answered time (.ok a)) ∈ s.queries) (hafter : bumped < time) :
    s.AskedAfter h query.key a wrote := by
  obtain ⟨-, made, -, hstamp, asked, hlog, hasked, hfinds⟩ := hs.queries _ _ hquery
  have horder : wrote < bumped := (hs.insertions _ _ hinsertion).1
  -- The maker read the same stamp, so it saw the same insertions.
  have hcount := bumpsBefore_eq_of_stampAt hwrap hstamp
  have hmade : bumped < made := by
    by_contra hearly
    have := bumpsBefore_lt hinsertion (Nat.le_of_not_lt hearly) hafter
    omega
  refine ⟨asked, hlog, fun t ht => ?_, hfinds⟩
  have := hasked t ht
  omega

/-- No stale analysis is served. A query that read the stamp after an insertion moved it on answers
with an analysis all of whose questions were asked after that insertion stored its class, whether
the query made the analysis or found it; it answers with no analysis only if its token was
cancelled. It comes to an answer if it gets a turn again and again, while the classes come to rest
and going up from any of them comes to an end; otherwise its analysis may go on for ever. The stamp
must not run through all its values. -/
theorem answered_after_insertion {index : MemoryIndex} {events : List IndexEvent}
    (hwrap : (run index events).bumps < 2 ^ 64) {what : Insertion} {c : Class} {wrote bumped : Nat}
    (hinsertion : (what, .published c wrote bumped) ∈ (run index events).insertions)
    {query : IndexQuery} {phase : QueryPhase} {time : Nat}
    (hquery : (run index events).queries[i]? = some (query, phase))
    (hread : phase.readAt? = some time) (hafter : bumped < time) :
    (∀ (more : Stream' IndexEvent) (final : ClassIndex), final.hierarchy.Grounded →
      (∃ first, ∀ n ≥ first,
        (run index (events ++ more.take n)).index.index.class? = final.class?) →
      (∀ n, .query i ∈ more.drop n) →
      ∃ n answer, (run index (events ++ more.take n)).queries[i]? =
        some (query, .answered time answer)) ∧
    ∀ answer, phase = .answered time answer →
      (∃ a, answer = .ok a ∧
        (run index events).AskedAfter (history index events) query.key a wrote) ∨
      (answer = .error .cancelled ∧ ¬ query.watch.IsLive) := by
  have hsound := sound_run index events
  constructor
  · exact fun more final hg ⟨first, hrest⟩ hturns =>
      exists_answer_of_rest hquery hread hg hrest hturns
  · rintro answer rfl
    have hmem := List.mem_of_getElem? hquery
    cases answer with
    | error e =>
        obtain ⟨rfl, hdead⟩ := hsound.queries _ _ hmem
        exact .inr ⟨rfl, hdead⟩
    | ok a => exact .inl ⟨a, rfl, hsound.askedAfter hwrap hinsertion hmem hafter⟩

def below (name parent : String) : Class where
  minorVersion := 0
  majorVersion := 52
  access := 0x0021
  name := name
  superName := some parent
  interfaces := []
  sourceFile := none
  fields := []
  methods := []

def catInsertion : Insertion := .ofClass (below "a/Cat" "a/Animal")

def siblingQuery : IndexQuery := ⟨"a/Owner", Analysis.siblingLoop, .live⟩

/-- Two siblings are inserted while three queries analyse a method in which they meet. The first
query reads the stamp before all of this and enters its analysis last; the second reads it after
the first insertion and is at work while the second insertion stores its class; the third finds what
the second entered. -/
def raceEvents : List IndexEvent :=
  .flatten [
    [.insert catInsertion, .insert (.ofClass (below "a/Dog" "a/Animal")), .ask siblingQuery,
      .ask siblingQuery, .ask siblingQuery, .query 0, .insertion 0, .insertion 0, .insertion 0,
      .query 1, .query 1, .query 1, .query 1, .insertion 1, .insertion 1],
    .replicate 24 (.query 1), [.query 2, .query 2], .replicate 30 (.query 0), [.insertion 1]]

/-- Up to where both siblings are stored and the second query is at work. -/
def raceHead : List IndexEvent := raceEvents.take 15

theorem grounded_raceHead : (run .empty raceHead).index.index.hierarchy.Grounded := by
  let h := (run .empty raceHead).index.index.hierarchy
  have hclasses : ((run .empty raceHead).index.classes.all fun (_, c) =>
      c.superName.all fun parent => (h.superClass parent).isNone) = true := by
    decide +kernel
  refine ⟨fun name => ⟨2, Hierarchy.ancestor?_two_of_shallow (fun name parent hname => ?_) name⟩,
    by decide +kernel⟩
  obtain ⟨c, hlookup, hparent⟩ := Option.bind_eq_some_iff.mp hname
  obtain ⟨before, after, hsplit, -⟩ := List.lookup_eq_some_iff.mp hlookup
  have hc := List.all_eq_true.mp hclasses (name, c) (by rw [hsplit]; simp)
  simpa [hparent] using hc

theorem answered_after_insertion_race :
    (run .empty raceEvents).bumps < 2 ^ 64 ∧
    (catInsertion, .published (below "a/Cat" "a/Animal") 7 8) ∈
      (run .empty raceEvents).insertions ∧
    8 < 39 ∧
    (∃ a, (siblingQuery, .answered 39 (.ok a)) ∈ (run .empty raceEvents).queries ∧ a.serial = 0 ∧
      (run .empty raceEvents).AskedAfter (history .empty raceEvents) siblingQuery.key a 7) ∧
    ∃ n answer, (run .empty (raceHead ++ (Stream'.const (.query 1)).take n)).queries[1]? =
      some (siblingQuery, .answered 9 answer) := by
  have hwrap : (run .empty raceEvents).bumps < 2 ^ 64 := by decide +kernel
  have hinsertion : (catInsertion, .published (below "a/Cat" "a/Animal") 7 8) ∈
      (run .empty raceEvents).insertions := by
    decide +kernel
  have hthird : ((run .empty raceEvents).queries[2]?.map fun (query, phase) =>
      (query, phase.answer?.map fun (time, answer) => (time, answer.toOption.map (·.serial)))) =
      some (siblingQuery, some (39, some 0)) := by
    decide +kernel
  have hsecond : ((run .empty raceHead).queries[1]?.map fun (query, phase) =>
      (query, phase.readAt?)) = some (siblingQuery, some 9) := by
    decide +kernel
  refine ⟨hwrap, hinsertion, by decide, ?_, ?_⟩
  · obtain ⟨⟨query, phase⟩, hget, hphase⟩ := Option.map_eq_some_iff.mp hthird
    rcases phase with _ | _ | _ | ⟨time, e | a⟩
    · cases hphase
    · cases hphase
    · cases hphase
    · cases hphase
    · obtain ⟨rfl, rfl, hserial⟩ : query = siblingQuery ∧ time = 39 ∧ a.serial = 0 := by
        simpa [QueryPhase.answer?, Except.toOption] using hphase
      obtain ⟨-, hanswer⟩ := answered_after_insertion hwrap hinsertion hget rfl (by decide)
      rcases hanswer (.ok a) rfl with ⟨a', heq, hasked⟩ | ⟨herror, -⟩
      · cases heq
        exact ⟨a, List.mem_of_getElem? hget, hserial, hasked⟩
      · cases herror
  · obtain ⟨⟨query, phase⟩, hget, hphase⟩ := Option.map_eq_some_iff.mp hsecond
    obtain ⟨rfl, hread⟩ := Prod.mk.inj hphase
    have hwrap' : (run .empty raceHead).bumps < 2 ^ 64 := by decide +kernel
    have hinsertion' : (catInsertion, .published (below "a/Cat" "a/Animal") 7 8) ∈
        (run .empty raceHead).insertions := by
      decide +kernel
    have hqueries (n : Nat) : ∀ e ∈ (Stream'.const (IndexEvent.query 1)).take n,
        ∃ j, e = .query j := by
      intro e he
      obtain ⟨k, hk⟩ := List.mem_iff_getElem?.mp he
      have hlt : k < n := by
        simpa using (List.getElem?_eq_some_iff.mp hk).1
      rw [Stream'.getElem?_take hlt, Stream'.get_const] at hk
      exact ⟨1, (Option.some.inj hk).symm⟩
    obtain ⟨hsettles, -⟩ := answered_after_insertion hwrap' hinsertion' hget hread (by decide)
    refine hsettles _ _ grounded_raceHead ⟨0, fun n _ => ?_⟩ fun n => ?_
    · rw [run_append, index_foldl_of_query (hqueries n)]
    · rw [Stream'.drop_const]
      exact Stream'.mem_const _

end LiveIndex
end Injection
