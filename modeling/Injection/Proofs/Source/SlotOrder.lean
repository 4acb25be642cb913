import Injection.Proofs.Locals.Picking
import Injection.Source.Builder
import Injection.Source.Candidates
import Mathlib.Data.List.Basic
import Mathlib.Data.List.Induction
import Mathlib.Tactic.Common

/-!
The order of the locals known in source. A builder gives slots to locals in the order in which they
are created, while the locals known at a step of a unit come in the order of their first stores. So
these stand in the order of their slots exactly where they were first stored in the order of their
creation, and only there a place in the order means the same as in compiled code.
-/

namespace Injection.Source

/-! ### Building -/

namespace BuildStep

def kind? : BuildStep → Option LocalKind
  | declare kind _ _ => some kind
  | _ => none

def slots : BuildStep → Nat
  | declare kind _ desc => if kind = .lambdaParam then 0 else BodyBuilder.width desc
  | _ => 0

def ParamsFirst (steps : List BuildStep) : Prop :=
  steps.Pairwise fun step next =>
    next.kind? = some .param → step.kind? ≠ some .plain ∧ step.kind? ≠ some .loop

def slotsUpTo (first : Nat) (steps : List BuildStep) : Nat := first + (steps.map slots).sum

theorem slotsUpTo_concat (first : Nat) (steps : List BuildStep) (step : BuildStep) :
    slotsUpTo first (steps ++ [step]) = slotsUpTo first steps + step.slots := by
  simp [slotsUpTo, Nat.add_assoc]

theorem ParamsFirst.kinds {steps : List BuildStep} (h : ParamsFirst steps) :
    (steps.filterMap kind?).Pairwise fun kind next =>
      next = .param → kind ≠ .plain ∧ kind ≠ .loop := by
  rw [List.pairwise_filterMap]
  refine h.imp fun hfirst kind hkind next hnext hparam => ?_
  obtain ⟨hplain, hloop⟩ := hfirst (hnext.trans (congrArg some hparam))
  rw [hkind] at hplain hloop
  exact ⟨fun h => hplain (congrArg some h), fun h => hloop (congrArg some h)⟩

end BuildStep

namespace BodyBuilder

variable {first : Nat} {steps : List BuildStep} {b : BodyBuilder}

theorem one_le_width (desc : String) : 1 ≤ width desc := by
  rw [width]
  split <;> decide

@[simp] theorem advance_locals (b : BodyBuilder) : b.advance.locals = b.locals := by
  unfold advance
  split <;> rfl

@[simp] theorem advance_params (b : BodyBuilder) : b.advance.params = b.params := by
  unfold advance
  split <;> rfl

@[simp] theorem advance_nextSlot (b : BodyBuilder) : b.advance.nextSlot = b.nextSlot := by
  unfold advance
  split <;> rfl

def SlotsIncrease (v w : Local) : Prop :=
  ∀ slot next, v.slot = some slot → w.slot = some next → slot < next

/-- What holds of a builder after some steps, as long as no more slots are taken than there are. -/
structure IsAfter (first : Nat) (steps : List BuildStep) (b : BodyBuilder) : Prop where
  kinds : b.locals.toList.map (·.kind) = steps.filterMap (·.kind?)
  params : b.params = (List.range b.locals.size).filter fun l => b.locals[l]?.any (·.kind = .param)
  nextSlot : b.nextSlot = BuildStep.slotsUpTo first steps
  within : ∀ v ∈ b.locals.toList, ∀ slot, v.slot = some slot → first ≤ slot ∧ slot < b.nextSlot
  increasing : b.locals.toList.Pairwise SlotsIncrease

theorem isAfter_withSlot (first : Nat) : IsAfter first [] (withSlot first) where
  kinds := rfl
  params := rfl
  nextSlot := rfl
  within _ hv := nomatch hv
  increasing := .nil

theorem IsAfter.declare (h : IsAfter first steps b) {kind : LocalKind} {name desc : String}
    (hfits : BuildStep.slotsUpTo first (steps ++ [.declare kind name desc]) ≤ 65535) :
    IsAfter first (steps ++ [.declare kind name desc]) (b.declare kind name desc) := by
  let new : Local :=
    ⟨name, desc, kind, if kind = .lambdaParam then none else some b.nextSlot, b.nextSpan⟩
  have hlocals : (b.declare kind name desc).locals = b.locals.push new := rfl
  have hnext : (b.declare kind name desc).nextSlot =
      BuildStep.slotsUpTo first (steps ++ [.declare kind name desc]) := by
    rw [BuildStep.slotsUpTo_concat, ← h.nextSlot] at hfits ⊢
    by_cases hkind : kind = .lambdaParam
    · simp [BodyBuilder.declare, BuildStep.slots, hkind]
    · simp only [BuildStep.slots, hkind, if_false] at hfits ⊢
      simp only [BodyBuilder.declare, hkind, if_false]
      omega
  have hle : b.nextSlot ≤ (b.declare kind name desc).nextSlot := by
    rw [hnext, BuildStep.slotsUpTo_concat, h.nextSlot]
    exact Nat.le_add_right _ _
  -- The new local has the slot that was free, and what is free now lies behind it.
  have hnew {slot : Nat} (hslot : new.slot = some slot) :
      slot = b.nextSlot ∧ slot < (b.declare kind name desc).nextSlot := by
    by_cases hkind : kind = .lambdaParam
    · simp [new, hkind] at hslot
    · have hwidth := one_le_width desc
      simp only [new, hkind, if_false, Option.some.injEq] at hslot
      rw [hnext, BuildStep.slotsUpTo_concat, ← h.nextSlot]
      simp only [BuildStep.slots, hkind, if_false]
      omega
  refine ⟨?_, ?_, hnext, ?_, ?_⟩
  · rw [hlocals, Array.toList_push, List.map_append, h.kinds, List.filterMap_append]
    rfl
  · have hold : (List.range b.locals.size).filter
          (fun l => (b.locals.push new)[l]?.any (·.kind = .param)) = b.params := by
      rw [h.params]
      refine List.filter_congr fun l hl => ?_
      rw [Array.getElem?_push_lt (List.mem_range.mp hl), Array.getElem?_eq_getElem]
    rw [hlocals, Array.size_push, List.range_succ, List.filter_append, hold]
    by_cases hkind : kind = .param
    · simp [BodyBuilder.declare, hkind, new]
    · simp [BodyBuilder.declare, hkind, new]
  · intro v hv slot hslot
    rw [hlocals, Array.toList_push] at hv
    rcases List.mem_append.mp hv with hv | hv
    · obtain ⟨hfirst, hlt⟩ := h.within v hv slot hslot
      exact ⟨hfirst, Nat.lt_of_lt_of_le hlt hle⟩
    · cases List.mem_singleton.mp hv
      obtain ⟨heq, hlt⟩ := hnew hslot
      refine ⟨?_, hlt⟩
      rw [heq, h.nextSlot]
      exact Nat.le_add_right _ _
  · rw [hlocals, Array.toList_push, List.pairwise_append]
    refine ⟨h.increasing, List.pairwise_singleton _ _, fun v hv w hw slot next hslot hnext => ?_⟩
    cases List.mem_singleton.mp hw
    rw [(hnew hnext).1]
    exact (h.within v hv slot hslot).2

theorem IsAfter.apply (h : IsAfter first steps b) {step : BuildStep}
    (hfits : BuildStep.slotsUpTo first (steps ++ [step]) ≤ 65535) :
    IsAfter first (steps ++ [step]) (b.apply step) := by
  -- Only a declaration touches the locals.
  have same {b' : BodyBuilder} (hlocals : b'.locals = b.locals) (hparams : b'.params = b.params)
      (hnext : b'.nextSlot = b.nextSlot) (hkind : step.kind? = none) (hslots : step.slots = 0) :
      IsAfter first (steps ++ [step]) b' := by
    refine ⟨?_, ?_, ?_, ?_, ?_⟩
    · rw [hlocals, h.kinds, List.filterMap_append, List.filterMap_cons_none hkind]
      exact (List.append_nil _).symm
    · rw [hlocals, hparams]
      exact h.params
    · rw [hnext, h.nextSlot, BuildStep.slotsUpTo_concat, hslots]
      rfl
    · rw [hlocals, hnext]
      exact h.within
    · rw [hlocals]
      exact h.increasing
  cases step with
  | spanning span => exact same rfl rfl rfl rfl rfl
  | declare kind name desc => exact h.declare hfits
  | expr form => exact same (advance_locals b) (advance_params b) (advance_nextSlot b) rfl rfl
  | stmt form => exact same (advance_locals b) (advance_params b) (advance_nextSlot b) rfl rfl

theorem isAfter_foldl (hfits : BuildStep.slotsUpTo first steps ≤ 65535) :
    IsAfter first steps (steps.foldl .apply (withSlot first)) := by
  induction steps using List.reverseRecOn with
  | nil => exact isAfter_withSlot first
  | append_singleton steps step ih =>
      rw [List.foldl_append]
      have hle := hfits
      rw [BuildStep.slotsUpTo_concat] at hle
      exact (ih (Nat.le_trans (Nat.le_add_right _ _) hle)).apply hfits

namespace IsAfter

variable {v w : Local} {l m p : Nat}

theorem slot_lt_slot (h : IsAfter first steps b) (hv : b.locals.toList[l]? = some v)
    (hw : b.locals.toList[m]? = some w) (hlt : l < m) : SlotsIncrease v w := by
  obtain ⟨hl, rfl⟩ := List.getElem?_eq_some_iff.mp hv
  obtain ⟨hm, rfl⟩ := List.getElem?_eq_some_iff.mp hw
  exact List.pairwise_iff_getElem.mp h.increasing l m hl hm hlt

theorem mem_params (h : IsAfter first steps b) (hp : p ∈ b.params) :
    ∃ v, b.locals.toList[p]? = some v ∧ v.kind = .param := by
  rw [h.params, List.mem_filter] at hp
  obtain ⟨v, hv, hkind⟩ := (Option.any_eq_true ..).mp hp.2
  exact ⟨v, Array.getElem?_toList.trans hv, of_decide_eq_true hkind⟩

/-- A parameter is created before every local of the method that is none. -/
theorem param_lt (h : IsAfter first steps b) (hparams : BuildStep.ParamsFirst steps)
    (hp : p ∈ b.params) (hv : b.locals.toList[l]? = some v) (hparam : v.kind ≠ .param)
    (hlambda : v.kind ≠ .lambdaParam) : p < l := by
  obtain ⟨u, hu, hkind⟩ := h.mem_params hp
  rcases Nat.lt_trichotomy p l with hlt | rfl | hlt
  · exact hlt
  · cases hu.symm.trans hv
    exact absurd hkind hparam
  · have hkinds := hparams.kinds
    rw [← h.kinds, List.pairwise_map] at hkinds
    obtain ⟨hl, rfl⟩ := List.getElem?_eq_some_iff.mp hv
    obtain ⟨hp, rfl⟩ := List.getElem?_eq_some_iff.mp hu
    obtain ⟨hplain, hloop⟩ := List.pairwise_iff_getElem.mp hkinds l p hl hp hlt hkind
    cases hcase : b.locals.toList[l].kind with
    | param => exact absurd hcase hparam
    | plain => exact absurd hcase hplain
    | loop => exact absurd hcase hloop
    | lambdaParam => exact absurd hcase hlambda

end IsAfter

end BodyBuilder

namespace Body

variable {first : Nat} {steps : List BuildStep} {statements : List StmtId}

/-- The order of the locals of a body with the first free slot given: slots are in the order of
creation, and the parameters come first. -/
structure IsOrdered (first : Nat) (b : Body) : Prop where
  first_le : ∀ {l slot}, (b.local l).slot = some slot → first ≤ slot
  slot_lt_iff : ∀ {l m slot next}, (b.local l).slot = some slot → (b.local m).slot = some next →
    (slot < next ↔ l < m)
  params : b.params.Pairwise (· < ·)
  param_lt : ∀ {p l slot}, p ∈ b.params → (b.local l).slot = some slot →
    (b.local l).kind ≠ .param → (b.local l).kind ≠ .lambdaParam → p < l

/-- Outside of the table there are no slots. -/
theorem getElem?_of_slot {b : Body} {l slot : Nat} (h : (b.local l).slot = some slot) :
    b.locals.toList[l]? = some (b.local l) := by
  rw [Array.getElem?_toList]
  unfold Body.local at h ⊢
  by_cases hl : l < b.locals.size
  · simp [hl, Array.getD]
  · simp [hl, Array.getD] at h

theorem isOrdered_finish {b : BodyBuilder} (h : BodyBuilder.IsAfter first steps b)
    (hparams : BuildStep.ParamsFirst steps) : IsOrdered first (b.finish statements) := by
  have hlocals : (b.finish statements).locals = b.locals := BodyBuilder.advance_locals b
  have hlocal {l slot : Nat} (hslot : ((b.finish statements).local l).slot = some slot) :
      b.locals.toList[l]? = some ((b.finish statements).local l) := by
    rw [← hlocals]
    exact getElem?_of_slot hslot
  have hparams' : (b.finish statements).params = b.params := BodyBuilder.advance_params b
  refine ⟨fun {l slot} hslot => ?_, fun {l m slot next} hl hm => ?_, ?_,
    fun {p l slot} hp hslot => h.param_lt hparams (hparams' ▸ hp) (hlocal hslot)⟩
  · exact (h.within _ (List.mem_of_getElem? (hlocal hslot)) slot hslot).1
  · constructor
    · intro hlt
      rcases Nat.lt_trichotomy l m with hlm | rfl | hlm
      · exact hlm
      · cases hl.symm.trans hm
        exact absurd hlt (Nat.lt_irrefl _)
      · exact absurd (h.slot_lt_slot (hlocal hm) (hlocal hl) hlm _ _ hm hl) (Nat.lt_asymm hlt)
    · exact fun hlt => h.slot_lt_slot (hlocal hl) (hlocal hm) hlt _ _ hl hm
  · rw [hparams', h.params]
    exact List.pairwise_lt_range.filter _

theorem isOrdered_build (hparams : BuildStep.ParamsFirst steps)
    (hfits : BuildStep.slotsUpTo first steps ≤ 65535) :
    IsOrdered first (build (.withSlot first) steps statements) :=
  isOrdered_finish (BodyBuilder.isAfter_foldl hfits) hparams

end Body

/-! ### The replay of a unit -/

namespace SourceUnit

variable {u : SourceUnit} {use : LocalUse} {d : LocalDiscriminator}

def storedAfter (u : SourceUnit) (stored : List LocalId) (step : Step) : List LocalId :=
  match u.stored? step with
  | some l => if stored.contains l then stored else stored ++ [l]
  | none => stored

/-- The locals stored up to a step, itself included, in the order of their first stores. -/
def storedBy (u : SourceUnit) (steps : List Step) (i : Nat) : List LocalId :=
  (steps.take (i + 1)).foldl u.storedAfter []

def useAt? (u : SourceUnit) (use : LocalUse) (d : LocalDiscriminator) (stored : List LocalId)
    (step : Step) : Option Sighting := do
  let touch ← u.touch? use step
  let visible := u.visible stored touch.at?
  let subject ← u.subject? visible touch.subject
  if d.accepts subject visible then some (touch.sighting (some subject.name)) else none

theorem localUses_foldl (stored : List LocalId) (steps : List Step) :
    u.localUses use d stored steps = (List.range steps.length).filterMap fun i =>
      steps[i]?.bind (u.useAt? use d ((steps.take (i + 1)).foldl u.storedAfter stored)) := by
  induction steps generalizing stored with
  | nil => rfl
  | cons step steps ih =>
      have hstep : u.localUses use d stored (step :: steps) =
          (u.useAt? use d (u.storedAfter stored step) step).toList ++
            u.localUses use d (u.storedAfter stored step) steps := rfl
      rw [hstep, ih, List.length_cons, List.range_succ_eq_map, List.filterMap_cons,
        List.filterMap_map]
      simp only [List.getElem?_cons_zero, Option.bind_some, List.take_succ_cons, List.take_zero,
        List.foldl_cons, List.foldl_nil]
      cases u.useAt? use d (u.storedAfter stored step) step with
      | none => rfl
      | some sighting => rfl

def known (u : SourceUnit) (stored : List LocalId) (at? : Option StmtId) : List LocalId :=
  (stored.filter (u.inScope at?)).filter fun l => (u.body.local l).slot.isSome

variable {first : Nat}

theorem filterMap_slot_visibleLocal (isArg : Bool) (ls : List LocalId) :
    (ls.map (u.visibleLocal isArg)).filterMap (·.slot) =
      ls.filterMap fun l => (u.body.local l).slot := by
  rw [List.filterMap_map]
  rfl

/-- The slots of locals are in order if and only if the locals are in the order of creation. -/
theorem pairwise_slots_iff (h : u.body.IsOrdered first) (ls : List LocalId) :
    (ls.filterMap fun l => (u.body.local l).slot).Pairwise (· < ·) ↔
      (ls.filter fun l => (u.body.local l).slot.isSome).Pairwise (· < ·) := by
  rw [List.pairwise_filterMap, List.pairwise_filter]
  constructor
  · refine fun hls => hls.imp fun hlt hl hm => ?_
    obtain ⟨slot, hslot⟩ := Option.isSome_iff_exists.mp hl
    obtain ⟨next, hnext⟩ := Option.isSome_iff_exists.mp hm
    exact (h.slot_lt_iff hslot hnext).mp (hlt slot hslot next hnext)
  · refine fun hls => hls.imp fun hlt slot hslot next hnext => ?_
    exact (h.slot_lt_iff hslot hnext).mpr
      (hlt (Option.isSome_of_eq_some hslot) (Option.isSome_of_eq_some hnext))

/-- The receiver and the parameters are always in order and in front of the other locals. -/
theorem pairwise_slots_visible_iff (h : u.body.IsOrdered first) (hparams : u.params = u.body.params)
    (hreceiver : u.isInstance = true → 0 < first) (stored : List LocalId) (at? : Option StmtId) :
    ((u.visible stored at?).filterMap (·.slot)).Pairwise (· < ·) ↔
      (u.known stored at?).Pairwise (· < ·) := by
  rw [visible, List.filterMap_append, List.filterMap_append, filterMap_slot_visibleLocal,
    filterMap_slot_visibleLocal, hparams, List.pairwise_append, List.pairwise_append,
    pairwise_slots_iff h (stored.filter (u.inScope at?))]
  constructor
  · exact fun hall => hall.2.1
  · intro hknown
    have hslot {ls : List LocalId} {slot : Nat}
        (hmem : slot ∈ ls.filterMap fun l => (u.body.local l).slot) :
        ∃ l ∈ ls, (u.body.local l).slot = some slot := List.mem_filterMap.mp hmem
    have hfront {slot : Nat} (hmem : slot ∈ List.filterMap (·.slot)
        (if u.isInstance then [u.receiver] else [])) : slot = 0 ∧ 0 < first := by
      by_cases hinstance : u.isInstance = true
      · rw [if_pos hinstance] at hmem
        exact ⟨List.mem_singleton.mp hmem, hreceiver hinstance⟩
      · rw [if_neg hinstance] at hmem
        cases hmem
    -- The receiver is in slot 0, the parameters come before all other locals; both are in order.
    refine ⟨⟨?_, ?_, fun slot hs next hn => ?_⟩, hknown, fun slot hs next hn => ?_⟩
    · by_cases hinstance : u.isInstance = true
      · rw [if_pos hinstance]
        exact List.pairwise_singleton _ _
      · rw [if_neg hinstance]
        exact .nil
    · exact (pairwise_slots_iff h u.body.params).mpr (h.params.filter _)
    · obtain ⟨rfl, hfirst⟩ := hfront hs
      obtain ⟨p, -, hp⟩ := hslot hn
      exact Nat.lt_of_lt_of_le hfirst (h.first_le hp)
    · obtain ⟨l, hl, hlslot⟩ := hslot hn
      rcases List.mem_append.mp hs with hs | hs
      · obtain ⟨rfl, hfirst⟩ := hfront hs
        exact Nat.lt_of_lt_of_le hfirst (h.first_le hlslot)
      · obtain ⟨p, hp, hpslot⟩ := hslot hs
        have hscope := List.of_mem_filter hl
        simp only [inScope, Bool.and_eq_true, decide_eq_true_eq] at hscope
        exact (h.slot_lt_iff hpslot hlslot).mpr
          (h.param_lt hp hlslot hscope.1.1 hscope.1.2)

end SourceUnit

def BodyBuilder.forMethod (isStatic : Bool) : BodyBuilder :=
  if isStatic then forStatic else forInstance

namespace SourceUnit

open LocalDiscriminator (accepts_ordinal_iff)

/-- The replay of a method tests each use of a local among the locals known there. These are in the
order of their slots if and only if those that were stored are in the order of their creation, and
then a place in the order counts slots. -/
theorem localUses_inSlotOrder_iff {owner : SourceClass} {method : SourceMethod}
    {steps : List BuildStep} {statements : List StmtId}
    (hbody : method.body = some (Body.build (.forMethod method.isStatic) steps statements))
    (hparams : BuildStep.ParamsFirst steps)
    (hfits : BuildStep.slotsUpTo (BodyBuilder.forMethod method.isStatic).nextSlot steps ≤ 65535)
    (hunit : SourceUnit.ofMethod? owner method = some u) (use : LocalUse) :
    (∀ d, u.localUses use d [] u.steps = (List.range u.steps.length).filterMap fun i =>
      u.steps[i]?.bind (u.useAt? use d (u.storedBy u.steps i))) ∧
    ∀ i step touch, u.steps[i]? = some step → u.touch? use step = some touch →
      let visible := u.visible (u.storedBy u.steps i) touch.at?
      ((visible.filterMap (·.slot)).Pairwise (· < ·) ↔
        (u.known (u.storedBy u.steps i) touch.at?).Pairwise (· < ·)) ∧
      ((∀ v ∈ visible, v.slot.isSome) → (visible.filterMap (·.slot)).Pairwise (· < ·) →
        ∀ (d : LocalDiscriminator) subject n, subject ∈ visible → d.index = none →
          d.names = [] → d.ordinal = some n →
          (d.accepts subject visible = true ↔ d.counts subject = true ∧
            (visible.filter d.counts).countP
              (fun v => v.slot.getD 0 < subject.slot.getD 0) = n)) := by
  rw [SourceUnit.ofMethod?, hbody] at hunit
  cases hunit
  have hstart : BodyBuilder.forMethod method.isStatic =
      .withSlot (BodyBuilder.forMethod method.isStatic).nextSlot := by
    cases method.isStatic <;> rfl
  have hordered : Body.IsOrdered (BodyBuilder.forMethod method.isStatic).nextSlot
      (Body.build (.withSlot (BodyBuilder.forMethod method.isStatic).nextSlot) steps statements) :=
    Body.isOrdered_build hparams hfits
  rw [← hstart] at hordered
  refine ⟨fun d => localUses_foldl [] _, fun i step touch _ _ => ⟨?_, ?_⟩⟩
  · refine pairwise_slots_visible_iff hordered rfl (fun hinstance => ?_) _ _
    have hstatic : method.isStatic = false := by simpa [isInstance] using hinstance
    rw [hstatic]
    exact Nat.zero_lt_one
  · exact fun hslots horder d subject n hsubject hindex hnames hordinal =>
      accepts_ordinal_iff hslots horder hsubject hindex hnames hordinal

def storeSteps (first second : LocalId) : List BuildStep :=
  [.declare .plain "x" "I", .declare .plain "y" "I", .stmt (.declare 0 none),
    .stmt (.declare 1 none), .expr (.literal (.int 1)), .expr (.writeLocal first 0),
    .stmt (.expr 1), .expr (.literal (.int 2)), .expr (.writeLocal second 2), .stmt (.expr 3)]

def storeBody (first second : LocalId) : Body :=
  Body.build (.forMethod true) (storeSteps first second) [0, 1, 2, 3]

def storeMethod (first second : LocalId) : SourceMethod :=
  ⟨"m", "()V", 0x0008, some (storeBody first second), .zero⟩

def storeUnit (first second : LocalId) : SourceUnit :=
  ⟨⟨"k/M", some "java/lang/Object", [], [], .zero⟩, storeMethod first second,
    storeBody first second, .stmt (storeBody first second).root, none⟩

def nthInt (n : Nat) : LocalDiscriminator := ⟨some "I", none, some n, [], false⟩

/-- Where the first local is stored first, the slots are in order, and the second variable of the
type is the second local. -/
theorem localUses_inSlotOrder_iff_storeUnit :
    (storeMethod 0 1).body =
        some (Body.build (.forMethod (storeMethod 0 1).isStatic) (storeSteps 0 1) [0, 1, 2, 3]) ∧
      BuildStep.ParamsFirst (storeSteps 0 1) ∧
      (storeUnit 0 1).steps[3]? = some (.event (.expr 3)) ∧
      ((storeUnit 0 1).known ((storeUnit 0 1).storedBy (storeUnit 0 1).steps 3)
        (some 3)).Pairwise (· < ·) ∧
      ((storeUnit 0 1).localUses .store (nthInt 1) [] (storeUnit 0 1).steps).map (·.label) =
        [some "y"] := by
  have hparams : BuildStep.ParamsFirst (storeSteps 0 1) := by
    simp [BuildStep.ParamsFirst, storeSteps, BuildStep.kind?]
  have hfits : BuildStep.slotsUpTo (BodyBuilder.forMethod (storeMethod 0 1).isStatic).nextSlot
      (storeSteps 0 1) ≤ 65535 := by decide
  have hunit : SourceUnit.ofMethod? (storeUnit 0 1).owner (storeMethod 0 1) =
      some (storeUnit 0 1) := rfl
  have hstep : (storeUnit 0 1).steps[3]? = some (.event (.expr 3)) := by decide +kernel
  have howner : (storeUnit 0 1).nesting.owner? 3 = some 3 := by decide +kernel
  have htouch : (storeUnit 0 1).touch? .store (.event (.expr 3)) =
      some ⟨some 1, (storeUnit 0 1).atExpr 3, some 3⟩ := by
    rw [← howner]
    rfl
  obtain ⟨horder, -⟩ := (localUses_inSlotOrder_iff rfl hparams hfits hunit .store).2 3 _ _ hstep
    htouch
  exact ⟨rfl, hparams, hstep, horder.mp (by decide +kernel), by decide +kernel⟩

/-- Where the second local is stored first, the slots are in the order 1, 0 in the end, and the first
variable of the type is the second local. -/
theorem storeUnit_outOfOrder :
    SourceUnit.ofMethod? (storeUnit 1 0).owner (storeMethod 1 0) = some (storeUnit 1 0) ∧
      BuildStep.ParamsFirst (storeSteps 1 0) ∧
      (storeUnit 1 0).steps[3]? = some (.event (.expr 3)) ∧
      (∃ touch, (storeUnit 1 0).touch? .store (.event (.expr 3)) = some touch ∧
        ¬ (((storeUnit 1 0).visible ((storeUnit 1 0).storedBy (storeUnit 1 0).steps 3)
          touch.at?).filterMap (·.slot)).Pairwise (· < ·)) ∧
      ((storeUnit 1 0).localUses .store (nthInt 0) [] (storeUnit 1 0).steps).map (·.label) =
        [some "y"] := by
  have hparams : BuildStep.ParamsFirst (storeSteps 1 0) := by
    simp [BuildStep.ParamsFirst, storeSteps, BuildStep.kind?]
  exact ⟨rfl, hparams, by decide +kernel, ⟨_, rfl, by decide +kernel⟩, by decide +kernel⟩

end SourceUnit

end Injection.Source
