import Injection.Proofs.Typing.Fixpoint

/-!
The frames of an analysis solve the data-flow equations of the method: the entry frame and the
frame carried along any edge are absorbed by the frame at the end of the edge.
-/

namespace Injection

namespace Frames

/-- A position has a frame, of the same shape as the one carried there, into which merging it
changes nothing. -/
def Absorbs (h : Hierarchy) (frames : Frames) (position : Nat) (incoming : TypeFrame) : Prop :=
  ∃ f, frames.at? position = some f ∧ f.locals.length = incoming.locals.length ∧
    f.stack.length = incoming.stack.length ∧ Machine.mergeFrames h f incoming = f

/-- The data-flow equations of a method: the entry frame is absorbed at the first node, and from
every node with a frame its instruction executes, and what it leaves is absorbed at the next
node, at every branch target, and (with the locals before and the caught type alone on the
stack) at the handler of every range that holds the node. -/
structure Solves (owner : String) (m : Method) (h : Hierarchy) (frames : Frames) : Prop where
  size : frames.size = m.instructions.size
  entry : ∃ e, TypeFrame.entry owner m = .ok e ∧ frames.Absorbs h 0 e
  edges : ∀ position f, frames.at? position = some f →
    ∃ i after, m.instructions.get? position = some i ∧
      Typing.execute owner position i f = .ok after ∧
      (i.isTransfer = false → position + 1 < m.instructions.size →
        frames.Absorbs h (position + 1) after) ∧
      (∀ l ∈ i.targets, ∃ target, m.instructions.labelPosition? l = some target ∧
        frames.Absorbs h target after) ∧
      ∀ b ∈ m.handlers, ∃ start stop handler,
        m.instructions.labelPosition? b.start = some start ∧
        m.instructions.labelPosition? b.stop = some stop ∧
        m.instructions.labelPosition? b.handler = some handler ∧
        (start ≤ position → position < stop → frames.Absorbs h handler
          { f with stack := [.object (b.catchType.getD "java/lang/Throwable")] })

end Frames

namespace Analysis

variable {owner : String} {m : Method} {h : Hierarchy} {c : AnalysisContext} {entry : TypeFrame}

theorem guardedRange_eq_ok {is : InstructionList} {b : ExceptionHandler} {g : GuardedRange}
    (hg : guardedRange is b = .ok g) :
    is.labelPosition? b.start = some g.start ∧ is.labelPosition? b.stop = some g.stop ∧
      is.labelPosition? b.handler = some g.handler ∧
      g.caught = .object (b.catchType.getD "java/lang/Throwable") := by
  simp only [guardedRange, bind_eq_ok, Machine.positionOf_eq_ok] at hg
  obtain ⟨start, hstart, stop, hstop, handler, hhandler, hg⟩ := hg
  cases hg
  exact ⟨hstart, hstop, hhandler, rfl⟩

theorem context_eq_ok (hc : context owner m h = .ok c) :
    c.owner = owner ∧ c.instructions = m.instructions ∧ c.hierarchy = h ∧
      List.Forall₂ (fun b g => guardedRange m.instructions b = .ok g) m.handlers c.guarded := by
  obtain ⟨guarded, hguarded, hc⟩ := bind_eq_ok.mp hc
  cases hc
  exact ⟨rfl, rfl, rfl, mapM_eq_ok hguarded⟩

/-- The bound on array nesting covers everything that the method names. -/
theorem covered_of_context (hc : context owner m h = .ok c) : c.Covered (nestingLimit owner m) := by
  obtain ⟨howner, hinstructions, -, hguarded⟩ := context_eq_ok hc
  refine ⟨?_, ?_, ?_, ?_⟩
  · rw [howner, nestingLimit]
    omega
  · intro i ins hi
    rw [hinstructions, InstructionList.get?] at hi
    have hmem : ins.text.length ∈ m.instructions.nodes.toList.map (·.text.length) :=
      List.mem_map_of_mem (Array.mem_toList_iff.mpr (Array.mem_of_getElem? hi))
    have := List.le_sum_of_mem hmem
    rw [nestingLimit]
    omega
  · intro g hg
    obtain ⟨b, -, hb⟩ := (forall₂_exists hguarded).2 g hg
    rw [hinstructions]
    exact InstructionList.lt_size_of_labelPosition? (guardedRange_eq_ok hb).2.2.1
  · intro g hg
    obtain ⟨b, hmem, hb⟩ := (forall₂_exists hguarded).2 g hg
    rw [(guardedRange_eq_ok hb).2.2.2]
    cases hcatch : b.catchType with
    | none =>
        rw [Option.getD_none, show (TypeValue.object "java/lang/Throwable").nesting = 0 by decide]
        exact Nat.zero_le _
    | some name =>
        have hmem : (b.catchType.getD "").length ∈
            m.handlers.map fun b => (b.catchType.getD "").length := List.mem_map_of_mem hmem
        have hle := List.le_sum_of_mem hmem
        have hname := TypeValue.nesting_object_le name
        rw [hcatch, Option.getD_some] at hle
        rw [Option.getD_some, nestingLimit]
        omega

/-- The entry frame has an empty stack and names only types of the method. -/
theorem entry_eq_ok (he : TypeFrame.entry owner m = .ok entry) :
    entry.stack = [] ∧ entry.Within (nestingLimit owner m) := by
  unfold TypeFrame.entry at he
  split at he
  · cases he
  · rename_i desc hparse
    cases he
    refine ⟨rfl, ?_, by simp⟩
    intro v hv
    -- The receiver, the parameters and their second halves, and the locals that are not set yet.
    rcases List.mem_append.mp hv with hv | hv
    · rcases List.mem_append.mp hv with hv | hv
      · have : v = .uninitializedThis ∨ v = .object owner := by
          revert hv
          split
          · simp
          · split <;> simp +contextual
        rcases this with rfl | rfl
        · exact Nat.zero_le _
        · have := TypeValue.nesting_object_le owner
          rw [nestingLimit]
          omega
      · obtain ⟨p, hp, hv⟩ := List.mem_flatMap.mp hv
        have hle := (MethodDescriptor.length_chars_le (m := desc)).1 p hp
        rw [MethodDescriptor.chars_of_parse hparse] at hle
        have hparam := Typing.nesting_ofFieldType_le hle
        have : v = .ofDescriptor p.descriptor ∨ v = .unset := by
          revert hv
          dsimp only
          split <;> simp +contextual
        rcases this with rfl | rfl
        · rw [nestingLimit]
          omega
        · exact Nat.zero_le _
    · rw [List.eq_of_mem_replicate hv]
      exact Nat.zero_le _

/-- The entry frame may be merged into a machine that has reached nothing. -/
theorem start_admits (hne : m.instructions.isEmpty = false)
    (he : TypeFrame.entry owner m = .ok entry) :
    (Machine.initial m.instructions.size).Sound m.instructions.size entry.locals.length
        (nestingLimit owner m) ∧
      (Machine.initial m.instructions.size).Admits entry.locals.length (nestingLimit owner m)
        entry ∧ 0 < m.instructions.size := by
  obtain ⟨hstack, hwithin⟩ := entry_eq_ok he
  refine ⟨⟨by simp [Machine.initial], ?_, ?_, ?_⟩, ⟨rfl, ?_, hwithin⟩, ?_⟩
  · simp [frameAt?_initial]
  · simp [frameAt?_initial]
  · simp [frameAt?_initial]
  · rw [hstack]
    exact Nat.zero_le _
  · simpa [InstructionList.isEmpty, InstructionList.size, Array.size_pos_iff] using hne

/-- The loop starts from a machine that meets both invariants, with the fuel it may need. -/
theorem start_spec (wf : h.WellFormed) (hne : m.instructions.isEmpty = false)
    (he : TypeFrame.entry owner m = .ok entry) {start : Machine}
    (hstart : (Machine.initial m.instructions.size).mergeInto h 0 entry = .ok start) :
    start.Sound m.instructions.size entry.locals.length (nestingLimit owner m) ∧
      start.Absorbs h 0 entry ∧ (∀ i f, start.frameAt? i = some f → i ∈ start.pending) ∧
      start.measure h (nestingLimit owner m)
        (entry.locals.length + 2 * m.instructions.size) ≤ stepLimit owner m entry := by
  have hnone (i : Nat) := frameAt?_initial m.instructions.size i
  obtain ⟨hsound, hadmits, hpos⟩ := start_admits hne he
  obtain ⟨hadv, habs⟩ := Machine.mergeInto_advances wf hsound hpos hadmits hstart
  refine ⟨hadv.sound, habs, fun i f hf => ?_, Nat.le_trans hadv.measure ?_⟩
  · by_contra hmem
    rw [hadv.rest i hmem, hnone] at hf
    cases hf
  · have hroom : (Machine.initial m.instructions.size).measure h (nestingLimit owner m)
        (entry.locals.length + 2 * m.instructions.size) = m.instructions.size *
          ((entry.locals.length + 2 * m.instructions.size) * (nestingLimit owner m + 66) + 1) := by
      simp [Machine.measure, Machine.initial, Machine.room]
    have hnesting : nestingLimit owner m + 66 ≤ 66 * nestingLimit owner m + 4 := by
      have : 2 ≤ nestingLimit owner m := by
        rw [nestingLimit]
        omega
      omega
    rw [hroom, stepLimit]
    refine Nat.le_trans (Nat.mul_le_mul_left _ ?_) (Nat.le_add_left _ _)
    have := Nat.mul_le_mul (Nat.le_add_right (entry.locals.length + 2 * m.instructions.size) 1) hnesting
    omega

/-- Once nothing is pending, the frames are a solution. -/
theorem solves_of_settled (hc : context owner m h = .ok c) {machine : Machine}
    {slots nesting : Nat} (wf : h.WellFormed) (he : TypeFrame.entry owner m = .ok entry)
    (hsound : machine.Sound m.instructions.size slots nesting) (hset : machine.Settled c)
    (hend : machine.pending = []) (hentry : machine.Absorbs h 0 entry) :
    Frames.Solves owner m h machine.frames := by
  obtain ⟨howner, hinstructions, hhierarchy, hguarded⟩ := context_eq_ok hc
  have absorbs {position : Nat} {incoming : TypeFrame} (habs : machine.Absorbs h position incoming) :
      Frames.Absorbs h machine.frames position incoming := by
    obtain ⟨f, hf, hle⟩ := habs
    exact ⟨f, hf, hle.locals.length_eq.symm, hle.stack.length_eq.symm, hle.mergeFrames_eq wf⟩
  refine ⟨hsound.size, ⟨entry, he, absorbs hentry⟩, fun position f hf => ?_⟩
  rcases hset position f hf with hmem | ⟨i, after, hi, hexec, hhandlers, htargets, hnext⟩
  · rw [hend] at hmem
    cases hmem
  rw [howner] at hexec
  rw [hinstructions] at hi htargets hnext
  rw [hhierarchy] at hhandlers htargets hnext
  refine ⟨i, after, hi, hexec, ?_, ?_, ?_⟩
  · intro hfall hlt
    exact absorbs (hnext hfall _ (InstructionList.next?_eq_some_iff.mpr ⟨rfl, hlt⟩))
  · intro l hl
    obtain ⟨target, htarget, habs⟩ := htargets l hl
    exact ⟨target, htarget, absorbs habs⟩
  · intro b hb
    obtain ⟨g, hg, hrange⟩ := (forall₂_exists hguarded).1 b hb
    obtain ⟨hstart, hstop, hhandler, hcaught⟩ := guardedRange_eq_ok hrange
    refine ⟨g.start, g.stop, g.handler, hstart, hstop, hhandler, fun hle hlt => ?_⟩
    have hcovers : g.covers position = true := by simp [GuardedRange.covers, hle, hlt]
    rw [← hcaught]
    exact absorbs (hhandlers g hg hcovers)

theorem settled_of_start (wf : h.WellFormed) (hne : m.instructions.isEmpty = false)
    (he : TypeFrame.entry owner m = .ok entry) (hc : context owner m h = .ok c) {start : Machine}
    (hstart : (Machine.initial m.instructions.size).mergeInto h 0 entry = .ok start) :
    start.Sound c.instructions.size entry.locals.length (nestingLimit owner m) ∧
      start.Settled c := by
  obtain ⟨hsound, -, hpending, -⟩ := start_spec wf hne he hstart
  obtain ⟨-, hinstructions, -, -⟩ := context_eq_ok hc
  exact ⟨hinstructions ▸ hsound, fun i f hf => .inl (hpending i f hf)⟩

/-- An analysis gives a solution, or an error other than that of a loop without end. -/
theorem answer_cases (wf : h.WellFormed) {w : Watch} (hw : w.IsLive)
    (hne : m.instructions.isEmpty = false) :
    (∃ e, (analyze owner m h).answer w = .error e ∧ e.OfMethod) ∨
      ∃ frames : Frames, (analyze owner m h).answer w = .ok frames ∧
        frames.Solves owner m h := by
  change (∃ e, (analyze owner m h w).1 = .error e ∧ e.OfMethod) ∨
      ∃ frames : Frames, (analyze owner m h w).1 = .ok frames ∧ frames.Solves owner m h
  rw [analyze_apply hne, bind_apply, Query.ofExcept_apply]
  cases he : TypeFrame.entry owner m with
  | error e => exact .inl ⟨e, rfl, (entry_ofNode he).ofMethod⟩
  | ok entry =>
      simp only [bind_apply, Query.ofExcept_apply]
      cases hc : context owner m h with
      | error e => exact .inl ⟨e, rfl, context_ofMethod hc⟩
      | ok c =>
          cases hstart : (Machine.initial m.instructions.size).mergeInto h 0 entry with
          | error e => exact .inl ⟨e, rfl, (Machine.mergeInto_ofNode hstart).ofMethod⟩
          | ok start =>
              obtain ⟨-, habs, -, hmeasure⟩ := start_spec wf hne he hstart
              obtain ⟨hsound, hset⟩ := settled_of_start wf hne he hc hstart
              obtain ⟨-, hinstructions, rfl, -⟩ := context_eq_ok hc
              rw [← hinstructions] at hmeasure
              have hspec := Machine.run_spec wf (covered_of_context hc) _ 0 hw hsound hset hmeasure
              dsimp only
              generalize start.run c (stepLimit owner m entry) 0 w = r at hspec ⊢
              obtain ⟨r, w'⟩ := r
              rcases hspec with ⟨machine, hrun, hm, hms, hend, hkeep⟩ | ⟨e, hrun, hne⟩
              · cases hrun
                exact .inr ⟨machine.frames, rfl, solves_of_settled hc wf he (hinstructions ▸ hm)
                  hms hend (hkeep 0 entry habs)⟩
              · cases hrun
                exact .inl ⟨e, rfl, hne⟩

/-- Over a well-formed hierarchy the loop of the analysis ends, within its bound on the number of
steps, and the frames that an analysis gives solve the data-flow equations. -/
theorem analyze_ends_and_solves (owner : String) (m : Method) {h : Hierarchy}
    (wf : h.WellFormed) {w : Watch} (hw : w.IsLive) :
    (∀ entry c start, m.instructions.isEmpty = false → TypeFrame.entry owner m = .ok entry →
      context owner m h = .ok c →
      (Machine.initial m.instructions.size).mergeInto h 0 entry = .ok start → start.Ends c) ∧
    (analyze owner m h).answer w ≠ .error .unsettled ∧
    ∀ frames, m.instructions.isEmpty = false → (analyze owner m h).answer w = .ok frames →
      frames.Solves owner m h := by
  refine ⟨fun entry c start hne he hc hstart => ?_, fun hanswer => ?_, fun frames hne hok => ?_⟩
  · obtain ⟨hsound, hset⟩ := settled_of_start wf hne he hc hstart
    obtain ⟨-, -, hhierarchy, -⟩ := context_eq_ok hc
    exact Machine.ends_of_sound (hhierarchy ▸ wf) (covered_of_context hc) hsound hset
  · cases hne : m.instructions.isEmpty with
    | true =>
        rw [analyze, hne] at hanswer
        cases hanswer
    | false =>
        rcases answer_cases wf hw hne with ⟨e, herr, hsettled⟩ | ⟨frames, hok, -⟩
        · exact hsettled.2 (Except.error.inj (herr.symm.trans hanswer))
        · cases hok.symm.trans hanswer
  · rcases answer_cases wf hw hne with ⟨e, herr, -⟩ | ⟨frames', hok', hsolves⟩
    · cases herr.symm.trans hok
    · cases hok'.symm.trans hok
      exact hsolves

def siblings : Hierarchy :=
  ⟨fun name => if name = "a/Cat" ∨ name = "a/Dog" then some "a/Animal" else none, fun _ => false⟩

/-- A loop that moves its second parameter to the first: the two meet at its head. -/
def siblingLoop : Method where
  access := 0x0008
  name := "m"
  desc := "(La/Cat;La/Dog;)V"
  maxStack := 1
  maxLocals := 2
  instructions := .ofList [.label ⟨0⟩, .var .aload 1, .var .astore 0, .jump .goto ⟨0⟩]
  handlers := []
  declaredLocals := []

def siblingFrames : Frames :=
  let joined := TypeFrame.mk [.object "a/Animal", .object "a/Dog"] []
  #[some joined, some joined, some { joined with stack := [.object "a/Dog"] },
    some ⟨[.object "a/Dog", .object "a/Dog"], []⟩]

theorem wellFormed_siblings : siblings.WellFormed := by
  refine Hierarchy.wellFormed_of_shallow (fun name parent hp => ?_) (fun _ _ _ => rfl) (by decide)
  simp only [siblings, Option.ite_none_right_eq_some, Option.some.injEq] at hp
  rw [← hp.2]
  decide

theorem analyze_siblingLoop :
    siblings.WellFormed ∧ Watch.live.IsLive ∧ siblingLoop.instructions.isEmpty = false ∧
      (analyze "a/Owner" siblingLoop siblings).answer .live = .ok siblingFrames ∧
      siblingFrames.Solves "a/Owner" siblingLoop siblings :=
  have hok : (analyze "a/Owner" siblingLoop siblings).answer .live = .ok siblingFrames := by
    decide +kernel
  ⟨wellFormed_siblings, rfl, rfl, hok,
    (analyze_ends_and_solves "a/Owner" siblingLoop wellFormed_siblings (w := .live) rfl).2.2
      siblingFrames rfl hok⟩

end Analysis

end Injection
