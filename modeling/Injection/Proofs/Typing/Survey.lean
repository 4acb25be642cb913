import Injection.Proofs.Computation
import Injection.Typing.Survey

/-!
What a survey finds when classes do not change.

`Inquiry.against` and `Survey.against` answer every question from the same classes. Both respect
sequences, so the surveys of an analysis answered this way are what the analysis over the hierarchy
of these classes does.
-/

namespace Injection

variable {ε α β : Type}

namespace Inquiry

section

variable (class? : String → Option Class)

@[simp] theorem against_pure (a : α) : (pure a : Inquiry α).against class? = a := rfl

@[simp] theorem against_bind (q : Inquiry α) (f : α → Inquiry β) :
    (q >>= f).against class? = (f (q.against class?)).against class? := by
  induction q with
  | done a => rfl
  | ask name next ih => exact ih (class? name)

end

variable (index : ClassIndex)

@[simp] theorem against_superClass (name : String) :
    (superClass name).against index.class? = index.hierarchy.superClass name := rfl

@[simp] theorem against_isInterface (name : String) :
    (isInterface name).against index.class? = index.hierarchy.isInterface name := rfl

theorem against_chainFrom (room : Nat) (seen : List String) (current : String) :
    (chainFrom room seen current).against index.class? =
      index.hierarchy.chainFrom room seen current := by
  induction room generalizing seen current with
  | zero => rfl
  | succ room ih =>
      rw [chainFrom, Hierarchy.chainFrom, against_bind, against_superClass]
      cases index.hierarchy.superClass current with
      | none => rfl
      | some parent =>
          dsimp only
          split
          · rfl
          · rw [against_bind, ih, against_pure]

theorem against_chain (name : String) :
    (chain name).against index.class? = index.hierarchy.chain name :=
  against_chainFrom index _ _ _

theorem against_commonSuperClass (a b : String) :
    (commonSuperClass a b).against index.class? = index.hierarchy.commonSuperClass a b := by
  rw [commonSuperClass, Hierarchy.commonSuperClass]
  split
  · rfl
  · rw [against_bind, against_isInterface]
    cases index.hierarchy.isInterface a with
    | true => rfl
    | false =>
        rw [if_neg Bool.false_ne_true, against_bind, against_isInterface]
        cases index.hierarchy.isInterface b with
        | true => rfl
        | false =>
            rw [if_neg Bool.false_ne_true, against_bind, against_bind, against_chain, against_chain]
            rfl

theorem against_mergeDescriptors (a b : List Char) :
    (mergeDescriptors a b).against index.class? = index.hierarchy.mergeDescriptors a b := by
  fun_induction mergeDescriptors a b <;>
    simp_all [Hierarchy.mergeDescriptors, against_commonSuperClass]

theorem against_merge (a b : TypeValue) :
    (merge a b).against index.class? = index.hierarchy.merge a b := by
  unfold merge Hierarchy.merge
  split
  · rfl
  · split <;> simp [against_mergeDescriptors]

theorem against_mergeAll (known incoming : List TypeValue) :
    (mergeAll known incoming).against index.class? =
      known.zipWith index.hierarchy.merge incoming := by
  induction known generalizing incoming with
  | nil => rfl
  | cons v known ih =>
      cases incoming with
      | nil => rfl
      | cons w incoming =>
          simp only [mergeAll, against_bind, against_merge, ih, against_pure,
            List.zipWith_cons_cons]

/-- The stacks are merged from the bottom up, so they have to be of one height. -/
theorem against_mergeFrames {known incoming : TypeFrame}
    (hheight : known.stack.length = incoming.stack.length) :
    (mergeFrames known incoming).against index.class? =
      Machine.mergeFrames index.hierarchy known incoming := by
  simp only [mergeFrames, Machine.mergeFrames, against_bind, against_mergeAll, against_pure,
    ← List.reverse_zipWith hheight, List.reverse_reverse]

end Inquiry

namespace Query

theorem ofExcept_pure (a : α) : ofExcept (pure a : Except ε α) = pure a := rfl

theorem ofExcept_bind (r : Except ε α) (f : α → Except ε β) :
    ofExcept (r >>= f) = ofExcept r >>= fun a => ofExcept (f a) := by
  cases r <;> rfl

theorem ofExcept_foldlM (f : β → α → Except ε β) (b : β) (as : List α) :
    ofExcept (as.foldlM f b) = as.foldlM (fun b a => ofExcept (f b a)) b := by
  induction as generalizing b with
  | nil => rfl
  | cons a as ih => simp only [List.foldlM_cons, ofExcept_bind, ih]

end Query

namespace Survey

/-- The query that a survey is when classes do not change. -/
def against (class? : String → Option Class) (s : Survey ε α) : Query ε α :=
  fun w => (s w).against class?

section

variable (class? : String → Option Class)

@[simp] theorem against_pure (a : α) : (pure a : Survey ε α).against class? = pure a := rfl

@[simp] theorem against_ofQuery (q : Query ε α) : (ofQuery q).against class? = q := rfl

@[simp] theorem against_ofExcept (r : Except ε α) :
    (ofExcept r).against class? = Query.ofExcept r := rfl

@[simp] theorem against_bind (s : Survey ε α) (f : α → Survey ε β) :
    (s >>= f).against class? = s.against class? >>= fun a => (f a).against class? := by
  funext w
  rw [bind_apply]
  change ((s w : Inquiry _) >>= fun (r, w) => ExceptT.bindCont f r w).against class? = _
  rw [Inquiry.against_bind, against]
  rcases (s w).against class? with ⟨_ | a, w'⟩ <;> rfl

theorem against_ofInquiry (q : Inquiry α) :
    (ofInquiry q : Survey ε α).against class? = pure (q.against class?) := by
  funext w
  exact Inquiry.against_bind class? q _

@[simp] theorem against_foldlM (f : β → α → Survey ε β) (b : β) (as : List α) :
    (as.foldlM f b).against class? = as.foldlM (fun b a => (f b a).against class?) b := by
  induction as generalizing b with
  | nil => rfl
  | cons a as ih => simp only [List.foldlM_cons, against_bind, ih]

end

variable (index : ClassIndex)

theorem against_mergeInto (m : Machine) (position : Nat) (incoming : TypeFrame) :
    (mergeInto m position incoming).against index.class? =
      Query.ofExcept (m.mergeInto index.hierarchy position incoming) := by
  rw [mergeInto, Machine.mergeInto]
  cases m.frameAt? position with
  | none => rfl
  | some known =>
      by_cases hheight : known.stack.length = incoming.stack.length
      · simp only [hheight, ne_eq, not_true_eq_false, if_false, against_bind, against_ofInquiry,
          Inquiry.against_mergeFrames index hheight]
        rfl
      · simp only [hheight, ne_eq, not_false_eq_true, if_true]
        rfl

variable (owner : String) (is : InstructionList) (guarded : List GuardedRange)

theorem against_propagate (m : Machine) (position : Nat) (i : Instruction) (before : TypeFrame) :
    (propagate owner is guarded m position i before).against index.class? =
      Query.ofExcept (m.propagate ⟨owner, is, index.hierarchy, guarded⟩ position i before) := by
  simp only [propagate, Machine.propagate, against_bind, against_foldlM, against_mergeInto,
    against_ofExcept, Query.ofExcept_bind, Query.ofExcept_foldlM]
  -- Both sides merge into the same handlers and targets; what is left is the node that follows.
  congr 1
  funext m
  congr 1
  funext after
  congr 1
  funext m
  by_cases htransfer : i.isTransfer
  · simp only [htransfer, if_true]
    rfl
  · simp only [htransfer, Bool.false_eq_true, if_false]
    cases is.next? position with
    | none => rfl
    | some next => exact against_mergeInto index m next after

theorem against_step (m : Machine) :
    (step owner is guarded m).against index.class? =
      Query.ofExcept (m.step ⟨owner, is, index.hierarchy, guarded⟩) := by
  rw [step, Machine.step]
  cases m.pending with
  | nil => rfl
  | cons position pending =>
      dsimp only
      cases Machine.frameAt? ⟨m.frames, pending⟩ position with
      | none => rfl
      | some before =>
          cases is.get? position with
          | none => rfl
          | some i => exact against_propagate index owner is guarded _ position i before

theorem against_start (m : Method) :
    (start owner m).against index.class? =
      if m.instructions.isEmpty then pure ⟨[], .initial 0, 0⟩
      else do
        let entry ← Query.ofExcept (TypeFrame.entry owner m)
        let c ← Query.ofExcept (Analysis.context owner m index.hierarchy)
        let machine ← Query.ofExcept
          ((Machine.initial m.instructions.size).mergeInto index.hierarchy 0 entry)
        return ⟨c.guarded, machine, 0⟩ := by
  rw [start]
  split
  · rfl
  · simp only [against_bind, against_ofExcept, against_mergeInto, against_pure, Analysis.context,
      Query.ofExcept_bind, Query.ofExcept_pure, bind_assoc, pure_bind]

theorem against_turn (p : Progress) :
    (turn owner is p).against index.class? = do
      if (p.taken + 1) % Machine.lookInterval = 0 then Query.checkpoint .cancelled
      let machine ← Query.ofExcept (p.machine.step ⟨owner, is, index.hierarchy, p.guarded⟩)
      return { p with machine, taken := p.taken + 1 } := by
  rw [turn]
  split <;> simp only [against_bind, against_ofQuery, against_step, against_pure]

/-- A turn that succeeds is a step of the machine. -/
theorem turn_ensures (p : Progress) :
    ((turn owner is p).against index.class?).Ensures fun p' =>
      p.machine.step ⟨owner, is, index.hierarchy, p.guarded⟩ = .ok p'.machine ∧
        p'.guarded = p.guarded := by
  rw [against_turn]
  exact .after_look _ (.bind (Query.ensures_ofExcept fun _ => id) fun machine hstep =>
    Query.ensures_pure ⟨hstep, rfl⟩)

theorem run_of_idle (c : AnalysisContext) {m : Machine} (hidle : m.pending.isEmpty = true)
    (fuel count : Nat) : m.run c fuel count = pure m := by
  cases fuel <;> rw [Machine.run, if_pos hidle]

/-- The loop of an analysis takes one turn after the other. -/
theorem run_eq_turn {p : Progress} (hpending : p.machine.pending.isEmpty = false) (fuel : Nat) :
    p.machine.run ⟨owner, is, index.hierarchy, p.guarded⟩ (fuel + 1) p.taken =
      (turn owner is p).against index.class? >>= fun p' =>
        p'.machine.run ⟨owner, is, index.hierarchy, p'.guarded⟩ fuel p'.taken := by
  rw [Machine.run, hpending, if_neg Bool.false_ne_true, against_turn]
  by_cases hlook : (p.taken + 1) % Machine.lookInterval = 0
  · simp only [if_pos hlook, bind_assoc, pure_bind]
  · simp only [if_neg hlook, bind_assoc, pure_bind]

/-- An analysis is its start and then its turns. -/
theorem exists_analyze_eq (m : Method) : ∃ fuel, Analysis.analyze owner m index.hierarchy =
    (start owner m).against index.class? >>= fun p => Machine.frames <$>
      p.machine.run ⟨owner, m.instructions, index.hierarchy, p.guarded⟩ fuel p.taken := by
  refine ⟨match TypeFrame.entry owner m with
    | .ok entry => Analysis.stepLimit owner m entry
    | .error _ => 0, ?_⟩
  rw [against_start, Analysis.analyze, Analysis.context]
  split
  · rw [pure_bind, run_of_idle _ rfl, map_pure]
    rfl
  · cases TypeFrame.entry owner m with
    | error e => rfl
    | ok entry =>
        cases m.handlers.mapM (Analysis.guardedRange m.instructions) with
        | error e => rfl
        | ok guarded =>
            have hok {α : Type} (a : α) :
                (Query.ofExcept (.ok a) : Query AnalyzeError α) = pure a := rfl
            have hcontext (a : List GuardedRange) (f : List GuardedRange → AnalysisContext) :
                ((Except.ok a : Except AnalyzeError _) >>= fun a => pure (f a)) = .ok (f a) := rfl
            simp only [hok, hcontext, pure_bind, bind_pure_comp, bind_map_left]

end Survey

end Injection
