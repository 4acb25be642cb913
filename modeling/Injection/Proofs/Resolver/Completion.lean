import Injection.Proofs.Point.Labels
import Injection.Proofs.Resolver.Selection

/-!
What completion offers can be asked for. A walk that is given a target offers those candidates of
the walk without one that the target accepts; so the label of a candidate, where it reads back,
selects every candidate with this label.
-/

namespace Injection

/-! ### Walks with and without a target -/

@[simp] theorem Selector.allows_none (owner name desc : String) :
    allows none owner name desc = true := rfl

namespace Element

/-- Tells what a target accepts: a selector decides about members, the target of an allocation
about allocations. -/
def isWanted (selector : Option Selector) (target : AllocationTarget) : Element → Bool
  | method owner name desc | field owner name desc => Selector.allows selector owner name desc
  | allocation className desc => target.accepts className desc
  | place | constant _ | localVariable .. => true

theorem isWanted_none (e : Element) : e.isWanted none ⟨none, none⟩ = true := by
  cases e <;> rfl

end Element

namespace PointKind

def refersToMembers : PointKind → Bool
  | invoke | invokeAssign | field | new => true
  | _ => false

end PointKind

namespace PointContext

variable {kind : PointKind} {ctx : PointContext}

/-- What the walk of a kind offers at a node, if nothing more is asked of it than a target. -/
def offer? (kind : PointKind) (ctx : PointContext) (target : AllocationTarget)
    (node : Instruction × Nat) : Option Candidate :=
  match kind with
  | .invoke => (ctx.invocation? node).bind fun v => some (v.candidate v.position [])
  | .invokeAssign => (ctx.invocation? node).bind fun v =>
    if v.isVoid then none
    else (ctx.afterAssignment? v).map fun p => v.candidate p [.invocation v.position]
  | .field => ctx.fieldCandidate? none 0 node.1 node.2
  | .new => ctx.allocationCandidate? target node.1 node.2
  | _ => none

theorem invocation?_eq_filter (ctx : PointContext) (selector : Option Selector)
    (node : Instruction × Nat) :
    { ctx with selector }.invocation? node =
      ({ ctx with selector := none }.invocation? node).filter fun v =>
        Selector.allows selector v.owner v.name v.desc := by
  obtain ⟨i, position⟩ := node
  cases i with
  | method op owner name desc ofInterface =>
      by_cases hname : name = "<init>"
      · simp [invocation?, hname]
      · cases hallows : Selector.allows selector owner name desc <;>
          simp [invocation?, selects, hname, hallows, Option.filter_some]
  | _ => rfl

theorem fieldCandidate?_eq_filter (ctx : PointContext) (selector : Option Selector)
    (target : AllocationTarget) (fuzz : Nat) (i : Instruction) (position : Nat) :
    { ctx with selector }.fieldCandidate? none fuzz i position =
      ({ ctx with selector := none }.fieldCandidate? none fuzz i position).filter fun x =>
        x.element.isWanted selector target := by
  cases i with
  | field op owner name desc =>
      have hsame : { ctx with selector }.wantsOpcode op =
          { ctx with selector := none }.wantsOpcode op := rfl
      cases hopcode : { ctx with selector := none }.wantsOpcode op <;>
        cases hallows : Selector.allows selector owner name desc <;>
          simp [fieldCandidate?, fieldDecorations?, selects, hsame, hopcode, hallows,
            Element.isWanted, Option.filter_some]
  | _ => rfl

theorem allocationCandidate?_eq_filter (ctx : PointContext) (selector : Option Selector)
    (target : AllocationTarget) (i : Instruction) (position : Nat) :
    { ctx with selector }.allocationCandidate? target i position =
      ({ ctx with selector := none }.allocationCandidate? ⟨none, none⟩ i position).filter fun x =>
        x.element.isWanted selector target := by
  have hcall : { ctx with selector }.constructorOf? position =
      { ctx with selector := none }.constructorOf? position := rfl
  unfold allocationCandidate?
  split
  · rename_i className
    dsimp only
    rw [hcall]
    generalize { ctx with selector := none }.constructorOf? position = call?
    have hall : AllocationTarget.accepts ⟨none, none⟩ className (call?.map (·.desc)) = true := rfl
    cases haccepts : target.accepts className (call?.map (·.desc)) <;>
      simp [hall, haccepts, Element.isWanted, Option.filter_some]
  · rfl

/-- A target takes away the candidates that it does not accept, and no others. -/
theorem offer?_eq_filter (kind : PointKind) (ctx : PointContext) (selector : Option Selector)
    (target : AllocationTarget) (node : Instruction × Nat) :
    offer? kind { ctx with selector } target node =
      (offer? kind { ctx with selector := none } ⟨none, none⟩ node).filter fun x =>
        x.element.isWanted selector target := by
  cases kind with
  | invoke =>
      simp only [offer?, invocation?_eq_filter ctx selector]
      cases { ctx with selector := none }.invocation? node with
      | none => rfl
      | some v =>
          cases hallows : Selector.allows selector v.owner v.name v.desc <;>
            simp [hallows, Invocation.candidate, Element.isWanted, Option.filter_some]
  | invokeAssign =>
      simp only [offer?, invocation?_eq_filter ctx selector]
      cases { ctx with selector := none }.invocation? node with
      | none => rfl
      | some v =>
          have hafter : { ctx with selector }.afterAssignment? v =
              { ctx with selector := none }.afterAssignment? v := rfl
          cases hallows : Selector.allows selector v.owner v.name v.desc <;>
            cases hvoid : v.isVoid <;>
              cases hplace : { ctx with selector := none }.afterAssignment? v <;>
                simp [hallows, hvoid, hafter, hplace, Invocation.candidate, Element.isWanted,
                  Option.filter_some]
  | field => exact fieldCandidate?_eq_filter ctx selector target 0 node.1 node.2
  | new => exact allocationCandidate?_eq_filter ctx selector target node.1 node.2
  | _ => rfl

/-- Only the opcode matters of what else is asked. -/
theorem offer?_of_opcode (kind : PointKind) (ctx : PointContext) {c c' : Criteria}
    (hopcode : c.opcode = c'.opcode) (target : AllocationTarget) (node : Instruction × Nat) :
    offer? kind { ctx with criteria := c } target node =
      offer? kind { ctx with criteria := c' } target node := by
  have hwants (op : Opcode) : { ctx with criteria := c }.wantsOpcode op =
      { ctx with criteria := c' }.wantsOpcode op := by
    simp only [wantsOpcode, Criteria.opcode?, hopcode]
  cases kind with
  | field =>
      simp only [offer?]
      unfold fieldCandidate?
      split
      · rw [hwants]
        rfl
      · rfl
  | _ => rfl

theorem lt_size_of_offer? {target : AllocationTarget} {node : Instruction × Nat} {x : Candidate}
    (hnode : node ∈ ctx.positioned) (h : ctx.offer? kind target node = some x) :
    x.position < ctx.instructions.size := by
  obtain ⟨i, position⟩ := node
  have hlt := lt_size_of_mem_positioned hnode
  cases kind with
  | invoke =>
      obtain ⟨v, hv, h⟩ := Option.bind_eq_some_iff.mp h
      cases h
      rwa [← position_of_invocation? hv] at hlt
  | invokeAssign =>
      obtain ⟨v, hv, h⟩ := Option.bind_eq_some_iff.mp h
      split at h
      · cases h
      · obtain ⟨p, hp, rfl⟩ := Option.map_eq_some_iff.mp h
        exact lt_size_of_afterAssignment? hp
  | field =>
      rw [position_of_fieldCandidate? h]
      exact hlt
  | new =>
      rw [position_of_allocationCandidate? h]
      exact hlt
  | _ => cases h

/-- A walk for allocations offers allocations, any other one members. -/
theorem element_of_offer? {target : AllocationTarget} {node : Instruction × Nat} {x : Candidate}
    (h : ctx.offer? kind target node = some x) :
    (kind = .new ∧ ∃ className desc, x.element = .allocation className desc) ∨
      kind ≠ .new ∧ ∃ owner name desc,
        x.element = .method owner name desc ∨ x.element = .field owner name desc := by
  obtain ⟨i, position⟩ := node
  cases kind with
  | invoke =>
      obtain ⟨v, -, h⟩ := Option.bind_eq_some_iff.mp h
      cases h
      exact .inr ⟨by simp, v.owner, v.name, v.desc, .inl rfl⟩
  | invokeAssign =>
      obtain ⟨v, -, h⟩ := Option.bind_eq_some_iff.mp h
      split at h
      · cases h
      · obtain ⟨p, -, rfl⟩ := Option.map_eq_some_iff.mp h
        exact .inr ⟨by simp, v.owner, v.name, v.desc, .inl rfl⟩
  | field =>
      simp only [offer?] at h
      unfold fieldCandidate? at h
      split at h
      · rename_i op owner name desc
        split at h
        · obtain ⟨decorations, -, rfl⟩ := Option.map_eq_some_iff.mp h
          exact .inr ⟨by simp, owner, name, desc, .inr rfl⟩
        · cases h
      · cases h
  | new =>
      simp only [offer?] at h
      unfold allocationCandidate? at h
      split at h
      · rename_i className
        dsimp only at h
        split at h
        · cases h
          exact .inl ⟨rfl, className, _, rfl⟩
        · cases h
      · cases h
  | _ => cases h

/-- What a kind offers is what it offers node by node. -/
theorem offered_eq (ctx : PointContext) (hkind : kind.refersToMembers = true)
    {target : AllocationTarget} (hopcode : ctx.criteria.opcode? = none)
    (hargs : ctx.criteria.args = [])
    (htarget : kind = .new → AllocationTarget.parse ctx.criteria.target = .ok target) :
    kind.offered ctx = .ok (ctx.positioned.filterMap (ctx.offer? kind target)) := by
  have calls (offer? : Invocation → Option Candidate) :
      (ctx.invocationVisits offer?).filterMap Visit.offer? =
        ctx.positioned.filterMap fun node => (ctx.invocation? node).bind offer? :=
    (filterMap_offer?_invocationVisits offer?).trans List.filterMap_filterMap
  rw [PointKind.offered]
  cases kind with
  | invoke => exact congrArg _ (calls _)
  | invokeAssign => exact congrArg _ (calls _)
  | field =>
      have hfuzz : ctx.fuzz =
          .ok (min (max ctx.options.defaultFuzz 1) (max ctx.options.maxFuzz 1)) := by
        rw [PointContext.fuzz, Criteria.arg?, hargs]
        rfl
      have hvisits : ctx.fieldVisits = .ok (visits ctx.positioned fun i position =>
          pure (ctx.fieldCandidate? none 0 i position)) := by
        rw [fieldVisits, requireOpcode, hopcode, hfuzz, Criteria.arg?, hargs]
        rfl
      rw [PointKind.visits, hvisits]
      exact congrArg _ (filterMap_offer?_visits fun _ _ => Visit.isSteady_pure _)
  | new =>
      rw [PointKind.visits, allocationVisits, htarget rfl]
      exact congrArg _ (filterMap_offer?_visits fun _ _ => Visit.isSteady_pure _)
  | _ => cases hkind

end PointContext

/-! ### Labels that select -/

namespace Criteria

def ofTarget (value : String) (target : Option String) : Criteria := { ofValue value with target }

theorem opcode?_ofTarget (value : String) (target : Option String) :
    (ofTarget value target).opcode? = none := by
  have hopen : ((-1 : Int32) < 0 || 255 < (-1 : Int32)) = true := by decide
  exact if_pos hopen

theorem ordinalFilters_ofTarget (value : String) (target : Option String) :
    (ofTarget value target).ordinalFilters = [] := by
  have hnone : (ofTarget value target).ordinal? = none := if_pos (by decide : (-1 : Int32) < 0)
  rw [ordinalFilters, hnone]
  rfl

end Criteria

namespace Resolver

variable {r : Resolver} {t : Target} {kind : PointKind} {s : Session}

def contextOf (r : Resolver) (t : Target) (c : Criteria) (selector : Option Selector) :
    PointContext :=
  ⟨t.owner.name, t.method, c, selector, none, r.options⟩

def candidates (r : Resolver) (t : Target) (kind : PointKind) : List Candidate :=
  let ctx := r.contextOf t (.ofValue kind.code) none
  ctx.positioned.filterMap (ctx.offer? kind ⟨none, none⟩)

def answered (xs : List Candidate) : List Match :=
  xs.zipIdx.map fun (x, i) => x.toMatch i x.position

theorem filterMap_offer? (selector : Option Selector) (target : AllocationTarget)
    (text? : Option String) :
    let ctx := r.contextOf t (.ofTarget kind.code text?) selector
    ctx.positioned.filterMap (ctx.offer? kind target) =
      (r.candidates t kind).filter fun x => x.element.isWanted selector target := by
  dsimp only
  rw [candidates, List.filter_filterMap]
  refine List.filterMap_congr fun node _ => ?_
  exact (PointContext.offer?_eq_filter kind (r.contextOf t (.ofTarget kind.code text?) none)
    selector target node).trans (congrArg _ (PointContext.offer?_of_opcode kind
      (r.contextOf t (.ofValue kind.code) none) rfl _ node))

theorem lt_size_of_mem_candidates {x : Candidate} (hx : x ∈ r.candidates t kind) :
    x.position < t.method.instructions.size := by
  obtain ⟨node, hnode, hoffer⟩ := List.mem_filterMap.mp hx
  exact PointContext.lt_size_of_offer? hnode hoffer

variable {generated? : Option (List LocalVariable)}

theorem needsLocals_of_refersToMembers (hkind : kind.refersToMembers = true) :
    kind.needsLocals = false := by
  cases kind <;> first | rfl | cases hkind

/-- The walk for a target and for nothing else: no candidate is moved or rejected. -/
theorem runWith_yields_answered (generated? : Option (List LocalVariable))
    (hkind : kind.refersToMembers = true)
    (hlookup : r.registry.lookup? kind.code = some (.builtin kind)) (mode : Mode)
    (hmode : mode ≠ .first) {text? : Option String} {wanted : Option Selector}
    (target : AllocationTarget) (hcriteria : mode = .completion → text? = none)
    (hwanted : selector (.builtin kind) (.ofTarget kind.code text?) mode = .ok wanted)
    (htarget : kind = .new → AllocationTarget.parse text? = .ok target) :
    ∃ outcome, outcome.results =
        answered ((r.candidates t kind).filter fun x => x.element.isWanted wanted target) ∧
      Yields (r.Knows t generated?)
        (r.runWith t (.ofTarget kind.code text?) mode (pure [])) (.ok outcome) := by
  let xs := (r.candidates t kind).filter fun x => x.element.isWanted wanted target
  let c := Collector.new t.method mode 0 []
  refine ⟨(c.gather xs).outcome, ?_, ?_⟩
  · have hstay : ∀ x ∈ xs, c.shifted? x.position = some x.position := by
      intro x hx
      rw [Collector.shifted?]
      split
      · rfl
      · exact InstructionList.offset?_zero (lt_size_of_mem_candidates (List.mem_of_mem_filter hx))
    rw [Collector.outcome, Collector.results_gather_moved hmode, Candidate.moveAll_of_stay hstay]
    exact (List.nil_append _).trans (ResultFilter.runAll_nil _)
  · have hsame : (if mode = .completion then completionCriteria (.ofTarget kind.code text?)
        else .ofTarget kind.code text?) = .ofTarget kind.code text? := by
      split
      · rw [hcriteria ‹_›]
        rfl
      · rfl
    have hfind := kind.find_yields (r.contextOf t (.ofTarget kind.code text?) wanted) c
    rw [PointContext.offered_eq (r.contextOf t (.ofTarget kind.code text?) wanted) hkind
      (Criteria.opcode?_ofTarget kind.code text?) rfl htarget,
      filterMap_offer? wanted target text?] at hfind
    have hpoint : r.lookup (.ofTarget kind.code text?) = .ok (.builtin kind) := lookup_eq_ok hlookup
    rw [runWith, hpoint]
    refine (Request.yields_ofQuery (Query.yields_checkpoint _)).bind ?_
    refine (Request.yields_ofExcept _).bind ?_
    dsimp only
    rw [hsame, hwanted]
    refine (Request.yields_ofExcept _).bind ?_
    have hlocals : (InjectionPoint.builtin kind).needsLocals = false :=
      needsLocals_of_refersToMembers hkind
    rw [hlocals]
    refine (yields_pure none).bind ((yields_pure []).bind ?_)
    rw [← Criteria.ordinalFilters, Criteria.ordinalFilters_ofTarget]
    exact (Request.yields_ofQuery hfind).bind (yields_pure _)

/-- Completion answers with all candidates. -/
theorem resolve_completion_yields (hkind : kind.refersToMembers = true)
    (hlookup : r.registry.lookup? kind.code = some (.builtin kind)) :
    Yields (r.Knows t generated?) (r.resolve (.ofValue kind.code) t .completion)
      (.ok (answered (r.candidates t kind))) := by
  have hall : (r.candidates t kind).filter (fun x => x.element.isWanted none ⟨none, none⟩) =
      r.candidates t kind :=
    List.filter_eq_self.mpr fun x _ => Element.isWanted_none x.element
  have hwanted : selector (.builtin kind) (.ofTarget kind.code none) .completion = .ok none := rfl
  obtain ⟨outcome, hresults, hrun⟩ := runWith_yields_answered (t := t) generated? hkind hlookup
    .completion (by simp) ⟨none, none⟩ (fun _ => rfl) hwanted (fun _ => rfl)
  rw [hall] at hresults
  rw [resolve, ← hresults, AtSpec.ofValue, run, sliceFilter]
  refine hrun.bind ?_
  simp only [ne_eq, not_true_eq_false, decide_false, Bool.and_false, Bool.false_eq_true, if_false]
  exact yields_pure _

/-- A request for a target answers with the candidates that the target accepts. -/
theorem resolve_target_yields (hkind : kind.refersToMembers = true)
    (hlookup : r.registry.lookup? kind.code = some (.builtin kind)) {label : String}
    {wanted : Option Selector} {target : AllocationTarget}
    (hwanted : selector (.builtin kind) (.ofTarget kind.code (some label)) .all = .ok wanted)
    (htarget : kind = .new → AllocationTarget.parse (some label) = .ok target)
    (hsome : ∃ x ∈ r.candidates t kind, x.element.isWanted wanted target = true) :
    Yields (r.Knows t generated?)
      (r.resolve ((AtSpec.ofValue kind.code).apply (.target label)) t .all)
      (.ok (answered
        ((r.candidates t kind).filter fun x => x.element.isWanted wanted target))) := by
  obtain ⟨outcome, hresults, hrun⟩ := runWith_yields_answered (t := t) generated? hkind hlookup
    .all (by simp) target (fun h => nomatch h) hwanted htarget
  have hne : outcome.results ≠ [] := by
    obtain ⟨x, hx, hxwanted⟩ := hsome
    rw [hresults, answered, Ne, List.map_eq_nil_iff, List.zipIdx_eq_nil_iff]
    exact List.ne_nil_of_mem (List.mem_filter.mpr ⟨hx, hxwanted⟩)
  have hconclude : outcome.conclude = .ok outcome.results := by
    rw [Outcome.conclude, if_neg (by simpa using hne)]
  have hrun' : Yields (r.Knows t generated?)
      (r.run t ((AtSpec.ofValue kind.code).apply (.target label)) .all) (.ok outcome) := by
    rw [AtSpec.ofValue, AtSpec.apply, AtSpec.withCriteria, run, AtSpec.slice?, sliceFilter]
    exact hrun
  rw [← hresults, ← hconclude]
  exact resolve_yields (by simp) hrun'

/-- The label of a candidate, where it reads back, is a target that accepts every candidate with
this label. -/
theorem exists_target_of_label (hkind : kind.refersToMembers = true) {x : Candidate}
    {label : String} (hx : x ∈ r.candidates t kind) (hname : x.element.isNameable = true)
    (hlabel : x.element.label? = some label) :
    ∃ wanted target,
      selector (.builtin kind) (.ofTarget kind.code (some label)) .all = .ok wanted ∧
      (kind = .new → AllocationTarget.parse (some label) = .ok target) ∧
      ∀ y ∈ r.candidates t kind, y.element.isNameable = true → y.element.label? = some label →
        y.element.isWanted wanted target = true := by
  have element {y : Candidate} (hy : y ∈ r.candidates t kind) :
      (kind = .new ∧ ∃ className desc, y.element = .allocation className desc) ∨
        kind ≠ .new ∧ ∃ owner name desc,
          y.element = .method owner name desc ∨ y.element = .field owner name desc := by
    obtain ⟨node, -, hoffer⟩ := List.mem_filterMap.mp hy
    exact PointContext.element_of_offer? hoffer
  -- Equal labels are read as equal targets, so one reading serves all candidates of the label.
  rcases element hx with ⟨rfl, className, desc?, helement⟩ | ⟨hnew, owner, name, desc, helement⟩
  · -- The target of an allocation is read by the walk itself.
    rw [helement] at hname hlabel
    obtain ⟨target, hparse, -⟩ := Element.exists_target_of_label hname hlabel
    refine ⟨none, target, rfl, fun _ => hparse, fun y hy hyname hylabel => ?_⟩
    rcases element hy with ⟨-, className', desc?', hyelement⟩ | ⟨hne, -⟩
    · rw [hyelement] at hyname hylabel ⊢
      obtain ⟨target', hparse', haccepts⟩ := Element.exists_target_of_label hyname hylabel
      cases hparse.symm.trans hparse'
      exact haccepts
    · exact absurd rfl hne
  · obtain ⟨s, hparse, -⟩ := Element.exists_selector_of_label helement hname hlabel
    have hselector : selector (.builtin kind) (.ofTarget kind.code (some label)) .all =
        .ok (some s) := by
      have huses : (InjectionPoint.builtin kind).usesSelector = true := by
        cases kind with
        | invoke | invokeAssign | field => rfl
        | new => exact absurd rfl hnew
        | _ => cases hkind
      simp only [selector, huses, Criteria.ofTarget, hparse, reduceCtorEq, decide_false,
        Bool.not_true, Bool.or_self, Bool.false_eq_true, if_false]
    refine ⟨some s, ⟨none, none⟩, hselector, fun h => absurd h hnew,
      fun y hy hyname hylabel => ?_⟩
    rcases element hy with ⟨h, -⟩ | ⟨-, owner', name', desc', hyelement⟩
    · exact absurd h hnew
    · obtain ⟨s', hparse', haccepts⟩ := Element.exists_selector_of_label hyelement hyname hylabel
      cases hparse.symm.trans hparse'
      rcases hyelement with hyelement | hyelement <;> rw [hyelement] <;> exact haccepts

theorem mem_answered {xs : List Candidate} {m : Match} :
    m ∈ answered xs → ∃ x ∈ xs, m = x.toMatch m.index x.position := by
  intro hm
  obtain ⟨⟨x, i⟩, hmem, rfl⟩ := List.mem_map.mp hm
  exact ⟨x, List.fst_mem_of_mem_zipIdx hmem, rfl⟩

theorem exists_mem_answered {xs : List Candidate} {x : Candidate} (hx : x ∈ xs) :
    ∃ index, x.toMatch index x.position ∈ answered xs := by
  obtain ⟨i, hi, rfl⟩ := List.mem_iff_getElem.mp hx
  refine ⟨i, List.mem_map.mpr ⟨(xs[i], i), ?_, rfl⟩⟩
  exact List.mem_zipIdx_iff_getElem?.mpr (List.getElem?_eq_getElem hi)

theorem firsts_sublist {α κ : Type} [DecidableEq κ] (key : α → κ) (seen : List κ) (as : List α) :
    (firsts key seen as).Sublist as := by
  induction as generalizing seen with
  | nil => exact .slnil
  | cons a as ih =>
      rw [firsts]
      split
      · exact (ih seen).cons a
      · exact (ih _).cons_cons a

/-- What completion offers can be asked for. Every item whose label stands for elements that can
be named is a target for which the same kind of annotation finds at least all the candidates with
this label. -/
theorem completions_select (hkind : kind.refersToMembers = true)
    (hlookup : r.registry.lookup? kind.code = some (.builtin kind)) {s s' : Session}
    (hlive : s.watch.IsLive) (hlive' : s'.watch.IsLive) :
    ∃ items offered,
      (r.completions (.ofValue kind.code) t).answer s = .ok items ∧
      (r.resolve (.ofValue kind.code) t .completion).answer s = .ok offered ∧
      ∀ item ∈ items,
        (∀ m ∈ offered, m.element.label? = some item.label → m.element.isNameable = true) →
        ∃ results,
          (r.resolve ((AtSpec.ofValue kind.code).apply (.target item.label)) t .all).answer s' =
            .ok results ∧
          ∀ m ∈ offered, m.element.label? = some item.label →
            ∃ index, { m with index } ∈ results := by
  obtain ⟨generated?, hs⟩ := r.exists_knows t hlive
  obtain ⟨generated?', hs'⟩ := r.exists_knows t hlive'
  have hoffered : Yields (r.Knows t generated?)
      (r.resolve (.ofValue kind.code) t .completion) _ := resolve_completion_yields hkind hlookup
  have hitems : Yields (r.Knows t generated?) (r.completions (.ofValue kind.code) t) _ :=
    hoffered.bind (yields_pure _)
  refine ⟨_, _, hitems.answer_eq hs, hoffered.answer_eq hs, fun item hitem hnameable => ?_⟩
  -- The item stands for some candidate, which can be named.
  obtain ⟨m, hm, hmitem⟩ := List.mem_filterMap.mp ((firsts_sublist _ _ _).subset hitem)
  obtain ⟨label, hlabel, rfl⟩ := Option.map_eq_some_iff.mp hmitem
  obtain ⟨x, hx, hmx⟩ := mem_answered hm
  have hname := hnameable m hm hlabel
  rw [hmx] at hname hlabel
  obtain ⟨wanted, target, hwanted, htarget, haccepts⟩ :=
    exists_target_of_label hkind hx hname hlabel
  refine ⟨_, (resolve_target_yields hkind hlookup hwanted htarget
    ⟨x, hx, haccepts x hx hname hlabel⟩).answer_eq hs', fun m' hm' hlabel' => ?_⟩
  obtain ⟨y, hy, hmy⟩ := mem_answered hm'
  have hyname := hnameable m' hm' hlabel'
  rw [hmy] at hyname hlabel'
  have hywanted : y ∈ (r.candidates t kind).filter fun x => x.element.isWanted wanted target :=
    List.mem_filter.mpr ⟨hy, haccepts y hy hyname hlabel'⟩
  obtain ⟨index, hindex⟩ := exists_mem_answered hywanted
  refine ⟨index, ?_⟩
  rw [hmy]
  exact hindex

theorem completions_select_threeCalls :
    PointKind.invoke.refersToMembers = true ∧ freshSession.watch.IsLive ∧
      classless.registry.lookup? PointKind.invoke.code = some (.builtin .invoke) ∧
      (classless.completions (.ofValue "INVOKE") threeCalls).answer freshSession =
        .ok [⟨"La/Log;write()V", some "INVOKESTATIC a/Log.write ()V"⟩] ∧
      (∀ m ∈ [callMatch 0 0, callMatch 1 1, callMatch 2 2], m.element.isNameable = true) ∧
      ∃ results,
        (classless.resolve ((AtSpec.ofValue "INVOKE").apply (.target "La/Log;write()V"))
          threeCalls .all).answer freshSession = .ok results ∧
        ∀ m ∈ [callMatch 0 0, callMatch 1 1, callMatch 2 2],
          ∃ index, { m with index } ∈ results := by
  have hlookup : classless.registry.lookup? PointKind.invoke.code = some (.builtin .invoke) := rfl
  have hoffered : (classless.resolve (.ofValue "INVOKE") threeCalls .completion).answer
      freshSession = .ok [callMatch 0 0, callMatch 1 1, callMatch 2 2] := by decide +kernel
  have hitems : (classless.completions (.ofValue "INVOKE") threeCalls).answer freshSession =
      .ok [⟨"La/Log;write()V", some "INVOKESTATIC a/Log.write ()V"⟩] := by decide +kernel
  have hlabels : ∀ m ∈ [callMatch 0 0, callMatch 1 1, callMatch 2 2],
      m.element.label? = some "La/Log;write()V" := by decide +kernel
  have hnameable : ∀ m ∈ [callMatch 0 0, callMatch 1 1, callMatch 2 2],
      m.element.isNameable = true := by decide +kernel
  obtain ⟨items, offered, hcompletions, hresolve, hselect⟩ :=
    completions_select (r := classless) (t := threeCalls) (s := freshSession) rfl hlookup rfl
      (show freshSession.watch.IsLive from rfl)
  cases hitems.symm.trans hcompletions
  cases hoffered.symm.trans hresolve
  obtain ⟨results, hresults, hall⟩ := hselect _ (List.mem_singleton_self _)
    fun m hm _ => hnameable m hm
  exact ⟨rfl, rfl, hlookup, hitems, hnameable, results, hresults,
    fun m hm => hall m hm (hlabels m hm)⟩

def arrayClone : Target where
  owner := ⟨0, 52, 0x0021, "a/A", some "java/lang/Object", [], none, [], []⟩
  method := {
    access := 0x0009
    name := "m"
    desc := "([I)Ljava/lang/Object;"
    maxStack := 1
    maxLocals := 1
    instructions := .ofList [.var .aload 0,
      .method .invokevirtual "[I" "clone" "()Ljava/lang/Object;" false, .plain .areturn]
    handlers := []
    declaredLocals := [] }

/-- The label of a member of an array is offered, but is no selector. -/
theorem completion_unselectable_arrayClone :
    (classless.completions (.ofValue "INVOKE") arrayClone).answer freshSession =
        .ok [⟨"L[I;clone()Ljava/lang/Object;",
          some "INVOKEVIRTUAL [I.clone ()Ljava/lang/Object;"⟩] ∧
      (classless.resolve ((AtSpec.ofValue "INVOKE").apply
        (.target "L[I;clone()Ljava/lang/Object;")) arrayClone .all).answer freshSession =
        .error (.invalidSelector "L[I;clone()Ljava/lang/Object;") := by
  constructor
  · decide +kernel
  · decide +kernel

end Resolver

end Injection
