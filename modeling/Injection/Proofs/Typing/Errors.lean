import Injection.Proofs.Computation
import Injection.Typing.Analysis

/-!
Why an analysis fails: its token was cancelled, the types did not settle, an instruction or a merge
does not fit the types, or a label that control may go to is not placed in the method.
-/

namespace Injection

namespace AnalyzeError

/-- An error that the method itself gives rise to. -/
def OfMethod (e : AnalyzeError) : Prop := e ≠ .cancelled ∧ e ≠ .unsettled

def OfNode : AnalyzeError → Prop
  | stackUnderflow _ | stackMismatch _ | unsupportedSubroutine _ | invalidLocal ..
  | invalidDescriptor _ => True
  | missingLabel _ | cancelled | unsettled => False

theorem OfNode.ofMethod {e : AnalyzeError} (h : e.OfNode) : e.OfMethod := by
  cases e with
  | cancelled | unsettled => cases h
  | _ => simp [OfMethod]

def IsMissing (is : InstructionList) (l : Label) (e : AnalyzeError) : Prop :=
  e = .missingLabel l ∧ is.labelPosition? l = none

theorem IsMissing.ofMethod {is : InstructionList} {l : Label} {e : AnalyzeError}
    (h : e.IsMissing is l) : e.OfMethod := by
  simp [h.1, OfMethod]

end AnalyzeError

/-- A label to which control may go in a method, or that bounds a guarded range. -/
def Method.RefersTo (m : Method) (l : Label) : Prop :=
  (∃ i ∈ m.instructions.nodes.toList, l ∈ i.targets) ∨
    ∃ b ∈ m.handlers, l = b.start ∨ l = b.stop ∨ l = b.handler

namespace Machine

variable {c : AnalysisContext} {m : Machine} {e : AnalyzeError}

theorem execute_ofNode {owner : String} {position : Nat} {i : Instruction} {f : TypeFrame}
    (herr : Typing.execute owner position i f = .error e) : e.OfNode := by
  have onStack (r : Option (List TypeValue)) {e : AnalyzeError}
      (herr : Typing.onStack position f r = .error e) : e.OfNode := by
    cases r with
    | none =>
        cases herr
        trivial
    | some stack => cases herr
  unfold Typing.execute at herr
  dsimp only at herr
  repeat' split at herr
  all_goals first | exact onStack _ herr | (cases herr; trivial) | cases herr

theorem mergeInto_ofNode {h : Hierarchy} {position : Nat} {incoming : TypeFrame}
    (herr : m.mergeInto h position incoming = .error e) : e.OfNode := by
  unfold mergeInto at herr
  split at herr
  · cases herr
  · dsimp only at herr
    split at herr
    · cases herr
      trivial
    · cases herr

theorem positionOf_isMissing {is : InstructionList} {l : Label}
    (herr : positionOf is l = .error e) : e.IsMissing is l := by
  unfold positionOf at herr
  split at herr
  · cases herr
  · next hnone =>
      cases herr
      exact ⟨rfl, hnone⟩

/-- A step fails at its instruction, at a merge, or for a label that is not placed. -/
theorem step_error (herr : m.step c = .error e) :
    e.OfNode ∨ ∃ i ∈ c.instructions.nodes.toList, ∃ l ∈ i.targets, e.IsMissing c.instructions l := by
  unfold step at herr
  split at herr
  · cases herr
  · dsimp only at herr
    split at herr
    · next i _ hi =>
        simp only [propagate, bind_eq_error] at herr
        rcases herr with hfold | ⟨_, -, hexec | ⟨after, -, hfold | ⟨_, -, hnext⟩⟩⟩
        · exact .inl (foldlM_error (P := AnalyzeError.OfNode) (fun _ _ _ _ => mergeInto_ofNode) hfold)
        · exact .inl (execute_ofNode hexec)
        · refine foldlM_error (P := fun e => e.OfNode ∨ ∃ i ∈ c.instructions.nodes.toList,
            ∃ l ∈ i.targets, e.IsMissing c.instructions l) (fun l hl t e hturn => ?_) hfold
          rcases bind_eq_error.mp hturn with hplace | ⟨p, -, hmerge⟩
          · have hmem := Array.mem_toList_iff.mpr (Array.mem_of_getElem? hi)
            exact .inr ⟨i, hmem, l, hl, positionOf_isMissing hplace⟩
          · exact .inl (mergeInto_ofNode hmerge)
        · split at hnext
          · cases hnext
          · split at hnext
            · exact .inl (mergeInto_ofNode hnext)
            · cases hnext
    · cases herr

theorem step_ofMethod (herr : m.step c = .error e) : e.OfMethod := by
  rcases step_error herr with h | ⟨_, -, _, -, h⟩
  · exact h.ofMethod
  · exact h.ofMethod

/-- The loop fails with an error of a step, or because it was cancelled or did not settle. -/
theorem run_error {fuel count : Nat} {w : Watch} (herr : (run c fuel count m w).1 = .error e) :
    e = .cancelled ∨ e = .unsettled ∨ ∃ m' : Machine, m'.step c = .error e := by
  -- The token and the fuel have errors of their own; all others come from some step.
  induction fuel generalizing count m w with
  | zero =>
      rw [run] at herr
      split at herr
      · cases herr
      · cases herr
        exact .inr (.inl rfl)
  | succ fuel ih =>
      have hstep {w : Watch} (herr : ((Query.ofExcept (m.step c) >>=
          run c fuel (count + 1)) w).1 = .error e) :
          e = .cancelled ∨ e = .unsettled ∨ ∃ m' : Machine, m'.step c = .error e := by
        rw [bind_apply, Query.ofExcept_apply] at herr
        cases hm : m.step c with
        | error e' =>
            rw [hm] at herr
            cases herr
            exact .inr (.inr ⟨m, hm⟩)
        | ok m' =>
            rw [hm] at herr
            exact ih herr
      rw [run] at herr
      split at herr
      · cases herr
      · split at herr
        · rw [bind_apply, Query.checkpoint] at herr
          cases hcancelled : w.isCancelled with
          | true =>
              rw [hcancelled] at herr
              cases herr
              exact .inl rfl
          | false =>
              rw [hcancelled] at herr
              exact hstep herr
        · exact hstep herr

end Machine

namespace Analysis

variable {owner : String} {m : Method} {h : Hierarchy} {e : AnalyzeError}

theorem entry_ofNode (herr : TypeFrame.entry owner m = .error e) : e.OfNode := by
  unfold TypeFrame.entry at herr
  split at herr
  · cases herr
    trivial
  · cases herr

/-- A context fails for a label of a handler that is not placed. -/
theorem context_error (herr : context owner m h = .error e) :
    ∃ l, m.RefersTo l ∧ e.IsMissing m.instructions l := by
  rcases bind_eq_error.mp herr with hmap | ⟨_, -, hpure⟩
  · refine mapM_error (P := fun e => ∃ l, m.RefersTo l ∧ e.IsMissing m.instructions l)
      (fun b hb e hrange => ?_) hmap
    simp only [guardedRange, bind_eq_error] at hrange
    rcases hrange with hl | ⟨_, -, hl | ⟨_, -, hl | ⟨_, -, hpure⟩⟩⟩
    · exact ⟨_, .inr ⟨b, hb, .inl rfl⟩, Machine.positionOf_isMissing hl⟩
    · exact ⟨_, .inr ⟨b, hb, .inr (.inl rfl)⟩, Machine.positionOf_isMissing hl⟩
    · exact ⟨_, .inr ⟨b, hb, .inr (.inr rfl)⟩, Machine.positionOf_isMissing hl⟩
    · cases hpure
  · cases hpure

theorem context_ofMethod (herr : context owner m h = .error e) : e.OfMethod := by
  obtain ⟨l, -, hmissing⟩ := context_error herr
  exact hmissing.ofMethod

theorem instructions_of_context {c : AnalysisContext} (hc : context owner m h = .ok c) :
    c.instructions = m.instructions := by
  obtain ⟨guarded, -, hc⟩ := bind_eq_ok.mp hc
  cases hc
  rfl

/-- The parts of an analysis of a method with instructions. -/
theorem analyze_apply (hne : m.instructions.isEmpty = false) (w : Watch) :
    analyze owner m h w =
      (Query.ofExcept (TypeFrame.entry owner m) >>= fun entry =>
        Query.ofExcept (context owner m h) >>= fun c =>
          Query.ofExcept ((Machine.initial m.instructions.size).mergeInto h 0 entry) >>=
            fun start => start.run c (stepLimit owner m entry) 0 >>= fun machine =>
              pure machine.frames) w := by
  rw [analyze, hne]
  rfl

/-- The errors of an analysis. The label of the last one is not placed in the method. -/
theorem analyze_error {w : Watch} (herr : (analyze owner m h).answer w = .error e) :
    e = .cancelled ∨ e = .unsettled ∨ e.OfNode ∨ ∃ l, m.RefersTo l ∧ e.IsMissing m.instructions l := by
  change (analyze owner m h w).1 = .error e at herr
  -- The parts of an analysis in their order; each has its own errors.
  cases hempty : m.instructions.isEmpty with
  | true =>
      rw [analyze, hempty] at herr
      cases herr
  | false =>
      rw [analyze_apply hempty, bind_apply, Query.ofExcept_apply] at herr
      cases hentry : TypeFrame.entry owner m with
      | error e' =>
          rw [hentry] at herr
          cases herr
          exact .inr (.inr (.inl (entry_ofNode hentry)))
      | ok entry =>
          simp only [hentry, bind_apply, Query.ofExcept_apply] at herr
          cases hcontext : context owner m h with
          | error e' =>
              rw [hcontext] at herr
              cases herr
              exact .inr (.inr (.inr (context_error hcontext)))
          | ok c =>
              cases hstart : (Machine.initial m.instructions.size).mergeInto h 0 entry with
              | error e' =>
                  rw [hcontext, hstart] at herr
                  cases herr
                  exact .inr (.inr (.inl (Machine.mergeInto_ofNode hstart)))
              | ok start =>
                  simp only [hcontext, hstart] at herr
                  have hloop : (start.run c (stepLimit owner m entry) 0 w).1 = .error e := by
                    generalize start.run c (stepLimit owner m entry) 0 w = r at herr ⊢
                    obtain ⟨_ | machine, w'⟩ := r
                    · cases herr
                      rfl
                    · cases herr
                  rcases Machine.run_error hloop with he | he | ⟨m', hstep⟩
                  · exact .inl he
                  · exact .inr (.inl he)
                  · rcases Machine.step_error hstep with he | ⟨i, hi, l, hl, he⟩
                    · exact .inr (.inr (.inl he))
                    · have hinstructions := instructions_of_context hcontext
                      rw [hinstructions] at hi he
                      exact .inr (.inr (.inr ⟨l, .inl ⟨i, hi, hl⟩, he⟩))

end Analysis

end Injection
