import Injection.Proofs.Point.Visits
import Injection.Source.Builder
import Injection.Source.Candidates

/-!
The head of an initialized object, in source and in compiled code.

Compiled code has it behind the call of the other constructor: the last write to a field of the
object is looked for from the end of the code down to the call. In source all writes count, those
before the call too. So what source shows lies at the call or after it unless the constructor writes
to its fields before the call and at no time after, and then it is such an early write.
-/

namespace Injection

namespace InstructionList

variable {is : InstructionList} {p : Instruction → Bool} {i j : Nat}

theorem le_of_firstFrom {count : Nat} (hfirst : is.firstFrom p i count = some j) : i ≤ j := by
  induction count generalizing i with
  | zero => cases hfirst
  | succ count ih =>
      rw [firstFrom] at hfirst
      split at hfirst
      · cases hfirst
        exact Nat.le_refl _
      · exact Nat.le_of_succ_le (ih hfirst)

theorem lt_of_nextReal? (hnext : is.nextReal? i = some j) : i < j := le_of_firstFrom hnext

end InstructionList

namespace PointContext

variable {ctx : PointContext}

theorem lt_of_lastFieldWrite? {position write : Nat}
    (h : ctx.lastFieldWrite? position = some write) : position < write := by
  obtain ⟨⟨i, p⟩, hfind, rfl⟩ := Option.map_eq_some_iff.mp h
  have hwanted := List.find?_some hfind
  simp only [Bool.and_eq_true, decide_eq_true_eq] at hwanted
  exact hwanted.1

/-- In compiled code the head lies behind the call of the other constructor. -/
theorem lt_of_initializedHead? {enforce : Enforce} {call : ConstructorCall} {position : Nat}
    (h : ctx.initializedHead? enforce call = some position) : call.position < position := by
  rw [initializedHead?] at h
  split at h
  · exact InstructionList.lt_of_nextReal? h
  · cases hwrite : (ctx.lastFieldWrite? call.position).bind ctx.instructions.nextReal? with
    | none =>
        rw [hwrite] at h
        exact InstructionList.lt_of_nextReal? h
    | some after =>
        rw [hwrite] at h
        cases h
        obtain ⟨write, hlast, hnext⟩ := Option.bind_eq_some_iff.mp hwrite
        exact (lt_of_lastFieldWrite? hlast).trans (InstructionList.lt_of_nextReal? hnext)

end PointContext

namespace Source.SourceUnit

variable {u : SourceUnit} {call : ExprId} {before after : List Event}

def writesOwn (u : SourceUnit) (e : ExprId) : Bool :=
  match u.form e with
  | .writeField _ owner _ _ isStatic _ => !isStatic && owner = u.owner.name
  | _ => false

theorem ownWrite?_expr (u : SourceUnit) (e : ExprId) :
    u.ownWrite? (.event (.expr e)) = if u.writesOwn e then some (u.atExpr e none) else none := by
  cases hform : u.form e with
  | writeField receiver owner name desc isStatic value =>
      cases isStatic <;> simp [ownWrite?, writesOwn, hform]
  | _ => simp [ownWrite?, writesOwn, hform]

/-- What a head may be shown at: the call, a field that is initialized after it, or a write to a
field of the object that comes after it. -/
inductive ShownAfter (u : SourceUnit) (call : ExprId) (after : List Event) : SourceElement → Prop
  | call : ShownAfter u call after (.expr call)
  | initializer {position : Nat} (copied : position ∈ u.fieldInits) :
      ShownAfter u call after (.field position)
  | write {e : ExprId} (own : u.writesOwn e = true) (late : .expr e ∈ after) :
      ShownAfter u call after (.expr e)

structure WritesOnlyBefore (u : SourceUnit) (before after : List Event) : Prop where
  early : ∃ e, .expr e ∈ before ∧ u.writesOwn e = true
  inits : u.fieldInits = []
  late : ∀ e, .expr e ∈ after → u.writesOwn e = false

structure DelegatesOutside (u : SourceUnit) (before : List Event) (call : ExprId)
    (after : List Event) : Prop where
  constructor : u.isConstructor = true
  events : u.events = before ++ .expr call :: after
  first : ∀ event ∈ before, u.constructorCall? event = none
  called : ∃ receiver owner desc kind args,
    u.form call = .call receiver owner "<init>" desc kind args ∧ owner ≠ u.owner.name

namespace DelegatesOutside

theorem constructorCall?_eq (h : u.DelegatesOutside before call after) :
    u.constructorCall? (.expr call) = some call := by
  obtain ⟨_, _, _, _, _, hform, -⟩ := h.called
  simp [constructorCall?, hform]

theorem notMem (h : u.DelegatesOutside before call after) : .expr call ∉ before := fun hmem => by
  cases (h.first _ hmem).symm.trans h.constructorCall?_eq

theorem delegate?_eq (h : u.DelegatesOutside before call after) : u.delegate? = some call := by
  rw [delegate?, if_pos h.constructor, h.events, List.findSome?_append,
    List.findSome?_eq_none_iff.mpr h.first]
  simp [h.constructorCall?_eq]

theorem delegatesToOwn_eq (h : u.DelegatesOutside before call after) :
    u.delegatesToOwn = false := by
  obtain ⟨_, _, _, _, _, hform, hother⟩ := h.called
  simp [delegatesToOwn, h.delegate?_eq, hform, hother]

theorem writesOwn_eq (h : u.DelegatesOutside before call after) : u.writesOwn call = false := by
  obtain ⟨_, _, _, _, _, hform, -⟩ := h.called
  simp [writesOwn, hform]

end DelegatesOutside

def ownWrites (u : SourceUnit) (call : ExprId) (events : List Event) : List Sighting :=
  (events.flatMap fun e => Step.event e :: if e = .expr call then u.initSteps else []).filterMap
    u.ownWrite?

theorem filterMap_ownWrite?_steps (h : u.delegate? = some call) :
    u.steps.filterMap u.ownWrite? = u.ownWrites call u.events := by
  simp [steps, ownWrites, h]

theorem mem_ownWrites {events : List Event} {s : Sighting} :
    s ∈ u.ownWrites call events ↔
      (∃ e, .expr e ∈ events ∧ u.writesOwn e = true ∧ s = u.atExpr e none) ∨
      .expr call ∈ events ∧ ∃ position ∈ u.fieldInits, s = u.atField position none := by
  rw [ownWrites, List.mem_filterMap]
  constructor
  · rintro ⟨step, hstep, hwrite⟩
    obtain ⟨event, hevent, hstep⟩ := List.mem_flatMap.mp hstep
    rcases List.mem_cons.mp hstep with rfl | hinit
    · cases event with
      | expr e =>
          rw [ownWrite?_expr] at hwrite
          split at hwrite
          · cases hwrite
            exact .inl ⟨e, hevent, ‹_›, rfl⟩
          · cases hwrite
      | _ => cases hwrite
    · split at hinit
      · rename_i hcall
        obtain ⟨position, hposition, rfl⟩ := List.mem_map.mp hinit
        cases hwrite
        exact .inr ⟨hcall ▸ hevent, position, hposition, rfl⟩
      · cases hinit
  · rintro (⟨e, hevent, hown, rfl⟩ | ⟨hcall, position, hposition, rfl⟩)
    · refine ⟨.event (.expr e), List.mem_flatMap.mpr ⟨_, hevent, List.mem_cons_self⟩, ?_⟩
      rw [ownWrite?_expr, if_pos hown]
    · refine ⟨.fieldInit position, List.mem_flatMap.mpr ⟨_, hcall, ?_⟩, rfl⟩
      rw [if_pos rfl]
      exact List.mem_cons_of_mem _ (List.mem_map_of_mem hposition)

/-- Without a write after the call there is nothing to show but the writes before it. -/
theorem late_of_ownWrites_eq_nil (hlater : u.ownWrites call (.expr call :: after) = []) :
    u.fieldInits = [] ∧ ∀ e, .expr e ∈ after → u.writesOwn e = false := by
  have hnone (s : Sighting) : s ∉ u.ownWrites call (.expr call :: after) := by
    simp [hlater]
  constructor
  · refine List.eq_nil_iff_forall_not_mem.mpr fun position hposition => ?_
    exact hnone _ (mem_ownWrites.mpr (.inr ⟨List.mem_cons_self, position, hposition, rfl⟩))
  · refine fun e he => Bool.eq_false_iff.mpr fun hown => ?_
    exact hnone _ (mem_ownWrites.mpr (.inl ⟨e, List.mem_cons_of_mem _ he, hown, rfl⟩))

namespace DelegatesOutside

/-- What the head is shown at: the last write after the call, else the last write before it, else
the call. -/
theorem constructorHead_eq (h : u.DelegatesOutside before call after) {enforce : Enforce}
    (hfields : enforce ≠ .afterDelegate) :
    u.constructorHead enforce = (((u.ownWrites call (.expr call :: after)).getLast?.or
      (u.ownWrites call before).getLast?).or (some (u.atExpr call none))).getD u.atBody := by
  have hsplit : u.ownWrites call u.events =
      u.ownWrites call before ++ u.ownWrites call (.expr call :: after) := by
    rw [h.events, ownWrites, List.flatMap_append, List.filterMap_append]
    rfl
  rw [constructorHead, filterMap_ownWrite?_steps h.delegate?_eq, hsplit, List.getLast?_append,
    h.delegate?_eq]
  simp [h.constructor, h.delegatesToOwn_eq, hfields]

theorem shownAfter_of_mem_ownWrites (h : u.DelegatesOutside before call after) {s : Sighting}
    (hs : s ∈ u.ownWrites call (.expr call :: after)) : u.ShownAfter call after s.element := by
  rcases mem_ownWrites.mp hs with ⟨e, hevent, hown, rfl⟩ | ⟨-, position, hposition, rfl⟩
  · rcases List.mem_cons.mp hevent with hsame | hlate
    · cases hsame
      cases h.writesOwn_eq.symm.trans hown
    · exact .write hown hlate
  · exact .initializer hposition

/-- What is shown lies after the call, or is a write before it where there is none after. -/
theorem constructorHead_cases (h : u.DelegatesOutside before call after) {enforce : Enforce}
    (hfields : enforce ≠ .afterDelegate) :
    u.ShownAfter call after (u.constructorHead enforce).element ∧
        ¬u.WritesOnlyBefore before after ∨
      u.WritesOnlyBefore before after ∧ ∃ e, (u.constructorHead enforce).element = .expr e ∧
        .expr e ∈ before ∧ u.writesOwn e = true := by
  rw [h.constructorHead_eq hfields]
  cases hlast : (u.ownWrites call (.expr call :: after)).getLast? with
  | some s =>
      -- a write after the call hides the ones before it
      have hs := List.mem_of_getLast? hlast
      refine .inl ⟨h.shownAfter_of_mem_ownWrites hs, fun hearly => ?_⟩
      rcases mem_ownWrites.mp hs with ⟨e, hevent, hown, -⟩ | ⟨-, position, hposition, -⟩
      · rcases List.mem_cons.mp hevent with hsame | hlate
        · cases hsame
          cases h.writesOwn_eq.symm.trans hown
        · cases (hearly.late e hlate).symm.trans hown
      · rw [hearly.inits] at hposition
        cases hposition
  | none =>
      obtain ⟨hinits, hlate⟩ := late_of_ownWrites_eq_nil (List.getLast?_eq_none_iff.mp hlast)
      cases hfirst : (u.ownWrites call before).getLast? with
      | some s =>
          rcases mem_ownWrites.mp (List.mem_of_getLast? hfirst) with
            ⟨e, hevent, hown, rfl⟩ | ⟨hmem, -⟩
          · exact .inr ⟨⟨⟨e, hevent, hown⟩, hinits, hlate⟩, e, rfl, hevent, hown⟩
          · exact absurd hmem h.notMem
      | none =>
          refine .inl ⟨.call, fun hearly => ?_⟩
          obtain ⟨e, hevent, hown⟩ := hearly.early
          have hmem : u.atExpr e none ∈ u.ownWrites call before :=
            mem_ownWrites.mpr (.inl ⟨e, hevent, hown, rfl⟩)
          rw [List.getLast?_eq_none_iff.mp hfirst] at hmem
          cases hmem

/-- A write before the call is not shown in place of something after it. -/
theorem not_shownAfter (h : u.DelegatesOutside before call after)
    (hearly : u.WritesOnlyBefore before after) {e : ExprId} (hown : u.writesOwn e = true) :
    ¬u.ShownAfter call after (.expr e) := fun hshown => by
  cases hshown with
  | call => cases h.writesOwn_eq.symm.trans hown
  | write _ hlate => cases (hearly.late e hlate).symm.trans hown

/-- What is shown after the call did not come before it, as nothing comes twice. -/
theorem notMem_of_shownAfter (h : u.DelegatesOutside before call after) (honce : u.events.Nodup)
    {e : ExprId} (hshown : u.ShownAfter call after (.expr e)) : .expr e ∉ before := by
  rw [h.events] at honce
  have happart := (List.nodup_append.mp honce).2.2
  intro hmem
  cases hshown with
  | call => exact h.notMem hmem
  | write _ hlate => exact happart _ hmem _ (List.mem_cons_of_mem _ hlate) rfl

end DelegatesOutside

/-- A constructor that calls one of another class has one head in source, and it is the call, an
initialized field or a write after the call, unless the constructor writes to its fields before the
call and at no time after: then it is a write before the call. In compiled code the head always
lies behind the call. -/
theorem candidates_constructorHead_after_iff (h : u.DelegatesOutside before call after)
    {c : Criteria} {enforce : Enforce} (henforce : Enforce.parse (c.arg? "enforce") = .ok enforce)
    (hfields : enforce ≠ .afterDelegate) (selector : Option Selector) :
    (∃ shown, u.candidates (.builtin .constructorHead) c selector = .ok (some [shown]) ∧
      (u.ShownAfter call after shown.element ↔ ¬u.WritesOnlyBefore before after) ∧
      (u.events.Nodup → ∀ e, shown.element = .expr e →
        (.expr e ∈ before ↔ u.WritesOnlyBefore before after))) ∧
    ∀ (ctx : PointContext) enforce compiledCall position,
      ctx.initializedHead? enforce compiledCall = some position →
        compiledCall.position < position := by
  refine ⟨⟨⟨0, (u.constructorHead enforce).element, (u.constructorHead enforce).span,
    (u.constructorHead enforce).label⟩, ?_, ?_⟩, fun _ _ _ _ => PointContext.lt_of_initializedHead?⟩
  · rw [candidates, sightings, henforce]
    rfl
  rcases h.constructorHead_cases hfields with ⟨hshown, hlater⟩ | ⟨hearly, w, hw, hmem, hown⟩
  · refine ⟨iff_of_true hshown hlater, fun honce e he => iff_of_false ?_ hlater⟩
    replace he : (u.constructorHead enforce).element = .expr e := he
    rw [he] at hshown
    exact h.notMem_of_shownAfter honce hshown
  · rw [hw]
    refine ⟨iff_of_false (h.not_shownAfter hearly hown) (not_not.mpr hearly), fun _ e he => ?_⟩
    cases he
    exact iff_of_true hmem hearly

/-- The steps of a constructor that writes to a field of its object and calls the constructor of the
superclass, one statement each. -/
def writeAndDelegate : List BuildStep :=
  [.expr .this, .expr (.literal (.int 1)), .expr (.writeField (some 0) "k/M" "x" "I" false 1),
    .stmt (.expr 2), .expr .this,
    .expr (.call (some 3) "java/lang/Object" "<init>" "()V" .special []), .stmt (.expr 4)]

def writingUnit (statements : List StmtId) : SourceUnit :=
  let body := Body.build .forInstance writeAndDelegate statements
  ⟨⟨"k/M", some "java/lang/Object", [], [], .zero⟩, ⟨"<init>", "()V", 1, some body, .zero⟩, body,
    .stmt body.root, none⟩

/-- A write after the call is shown. -/
theorem candidates_constructorHead_lateWrite :
    (writingUnit [1, 0]).DelegatesOutside [.expr 3] 4 [.expr 0, .expr 1, .expr 2] ∧
      ∃ shown, (writingUnit [1, 0]).candidates (.builtin .constructorHead)
          (.ofValue "CTOR_HEAD") none = .ok (some [shown]) ∧
        (writingUnit [1, 0]).ShownAfter 4 [.expr 0, .expr 1, .expr 2] shown.element := by
  have h : (writingUnit [1, 0]).DelegatesOutside [.expr 3] 4 [.expr 0, .expr 1, .expr 2] :=
    ⟨by decide, by decide +kernel, by decide, some 3, "java/lang/Object", "()V",
      .special, [], by decide, by decide⟩
  have hstandard : Enforce.parse ((Criteria.ofValue "CTOR_HEAD").arg? "enforce") =
      .ok .standard := rfl
  obtain ⟨⟨shown, hcandidates, hafter, -⟩, -⟩ :=
    candidates_constructorHead_after_iff h hstandard nofun none
  refine ⟨h, shown, hcandidates, hafter.mpr fun hearly => ?_⟩
  have hlate : (writingUnit [1, 0]).writesOwn 2 = true := by decide
  cases (hearly.late 2 (by simp)).symm.trans hlate

/-- A write before the call is shown where there is none after it. -/
theorem candidates_constructorHead_earlyWrite :
    (writingUnit [0, 1]).DelegatesOutside [.expr 0, .expr 1, .expr 2, .expr 3] 4 [] ∧
      ((writingUnit [0, 1]).candidates (.builtin .constructorHead) (.ofValue "CTOR_HEAD") none).map
        (·.map (·.map (·.element))) = .ok (some [.expr 2]) ∧
      ¬(writingUnit [0, 1]).ShownAfter 4 [] (.expr 2) := by
  have h : (writingUnit [0, 1]).DelegatesOutside [.expr 0, .expr 1, .expr 2, .expr 3] 4 [] :=
    ⟨by decide, by decide +kernel, by decide, some 3, "java/lang/Object", "()V",
      .special, [], by decide, by decide⟩
  refine ⟨h, by decide +kernel, fun hshown => ?_⟩
  cases hshown with
  | write _ hlate => cases hlate

end Source.SourceUnit

end Injection
