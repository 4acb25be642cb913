import Injection.Proofs.Point.Visits
import Injection.Resolver

/-!
Asking for less. A walk that is asked for its kind and the opcode alone offers every element that
the full request finds, and at the same place. For the kinds other than constants a target and the
other settings only take candidates away; for a constant they also decide which ones there are.
-/

namespace Injection

def Candidate.IsAmong (x : Candidate) (ys : List Candidate) : Prop :=
  ∃ y ∈ ys, y.position = x.position ∧ y.element = x.element

/-- The same walk, asked for its kind and the opcode alone. -/
def PointContext.widened (ctx : PointContext) : PointContext :=
  { ctx with criteria := Resolver.completionCriteria ctx.criteria, selector := none }

theorem LocalDiscriminator.acceptsSlot_empty (table : LocalTable) (slot first stop : Nat) :
    empty.acceptsSlot table slot first stop = true := by
  simp [acceptsSlot, accepts, counts, empty]

namespace PointContext

variable {ctx : PointContext} {i : Instruction} {position : Nat} {x : Candidate}

/-- A candidate that refers to nothing has no label. -/
theorem label?_of_mem_places {places : List Nat}
    (hx : x ∈ (places.map fun p => (pure (some (.place p)) : Visit)).filterMap Visit.offer?) :
    x.element.label? = none := by
  obtain ⟨v, hv, hoffer⟩ := List.mem_filterMap.mp hx
  obtain ⟨p, -, rfl⟩ := List.mem_map.mp hv
  cases hoffer
  rfl

theorem label?_of_constructorHead {visits : List Visit} (h : ctx.constructorHeadVisits = .ok visits)
    (hx : x ∈ visits.filterMap Visit.offer?) : x.element.label? = none := by
  obtain ⟨enforce, -, h⟩ := bind_eq_ok.mp h
  dsimp only at h
  split at h
  · cases h
    exact label?_of_mem_places hx
  · cases h
    exact label?_of_mem_places hx

theorem exists_constructorHeadVisits_widened (ctx : PointContext) :
    ∃ wide, ctx.widened.constructorHeadVisits = .ok wide := by
  cases hwide : ctx.widened.constructorHeadVisits with
  | ok wide => exact ⟨wide, rfl⟩
  | error e =>
      rcases bind_eq_error.mp hwide with h | ⟨enforce, -, h⟩
      · cases h
      · dsimp only at h
        split at h <;> cases h

/-! ### Calls -/

theorem invocation?_widened {v : Invocation} (h : ctx.invocation? (i, position) = some v) :
    ctx.widened.invocation? (i, position) = some v := by
  unfold invocation? at h
  split at h
  · rename_i op owner name desc ofInterface position heq
    cases heq
    split at h
    · rename_i hselected
      cases h
      have hname : name ≠ "<init>" := by
        rintro rfl
        simp at hselected
      exact if_pos (by simp [hname, selects, widened, Selector.allows])
    · cases h
  · cases h

/-- A test of calls that tests less lets more of them through. -/
theorem isAmong_invocations {offer? wide? : Invocation → Option Candidate}
    (hoffer : ∀ v x, offer? v = some x → wide? v = some x)
    (hx : x ∈ ctx.invocations.filterMap offer?) :
    x.IsAmong (ctx.widened.invocations.filterMap wide?) := by
  obtain ⟨v, hv, hsome⟩ := List.mem_filterMap.mp hx
  obtain ⟨⟨i, position⟩, hnode, hcall⟩ := List.mem_filterMap.mp hv
  refine ⟨x, List.mem_filterMap.mpr ⟨v, List.mem_filterMap.mpr ⟨(i, position), hnode, ?_⟩, ?_⟩,
    rfl, rfl⟩
  · exact invocation?_widened hcall
  · exact hoffer v x hsome

/-- A call that takes a certain text takes a text. -/
theorem takesText_widened {v : Invocation}
    (h : (if v.desc = Invocation.textConsumer &&
        (ctx.pushedText? v).any fun text => (ctx.criteria.arg? "ldc").all (· = text) then
      some (v.candidate v.position []) else none) = some x) :
    (if v.desc = Invocation.textConsumer &&
        (ctx.widened.pushedText? v).any fun text =>
          (ctx.widened.criteria.arg? "ldc").all (· = text) then
      some (v.candidate v.position []) else none) = some x := by
  split at h
  · rename_i htakes
    obtain ⟨hdesc, htext⟩ := Bool.and_eq_true_iff.mp htakes
    rw [← h]
    refine if_pos (Bool.and_eq_true_iff.mpr ⟨hdesc, ?_⟩)
    change (ctx.pushedText? v).any (fun _ => true) = true
    cases hpushed : ctx.pushedText? v with
    | none =>
        rw [hpushed] at htext
        cases htext
    | some text => rfl
  · cases h

/-! ### Members, allocations and variables -/

/-- Of a field access only its instruction and the decorations are left when it is not told how
its array is used. -/
theorem fieldCandidate?_widened {use? : Option ArrayUse} {fuzz : Nat}
    (h : ctx.fieldCandidate? use? fuzz i position = some x) (fuzz' : Nat) :
    ∃ y, ctx.widened.fieldCandidate? none fuzz' i position = some y ∧
      y.position = x.position ∧ y.element = x.element := by
  unfold fieldCandidate? at h
  split at h
  · rename_i op owner name desc
    split at h
    · rename_i hselected
      obtain ⟨decorations, -, rfl⟩ := Option.map_eq_some_iff.mp h
      have hopcode : ctx.wantsOpcode op = true := (Bool.and_eq_true_iff.mp hselected).2
      refine ⟨⟨position, .field owner name desc, some owner, []⟩, ?_, rfl, rfl⟩
      exact if_pos (Bool.and_eq_true_iff.mpr ⟨rfl, hopcode⟩)
    · cases h
  · cases h

theorem allocationCandidate?_widened {target : AllocationTarget}
    (h : ctx.allocationCandidate? target i position = some x) :
    ctx.widened.allocationCandidate? ⟨none, none⟩ i position = some x := by
  unfold allocationCandidate? at h
  split at h
  · dsimp only at h
    split at h
    · cases h
      rfl
    · cases h
  · cases h

theorem acceptsLocal_widened (table? : Option LocalTable) (slot : UInt16) :
    ctx.widened.acceptsLocal table? slot = true :=
  LocalDiscriminator.acceptsSlot_empty _ _ _ _

/-- Without a description every variable is wanted, and it is looked up in the same table. -/
theorem offer?_localStop_widened {use : LocalUse}
    (h : (ctx.localStop use i position).offer? = some x) :
    (ctx.widened.localStop use i position).offer? = some x := by
  unfold localStop at h ⊢
  cases haccess : use.access? i with
  | none =>
      rw [haccess] at h
      cases h
  | some access =>
      obtain ⟨op, slot⟩ := access
      rw [haccess] at h
      dsimp only at h ⊢
      cases hopcode : ctx.wantsOpcode op with
      | false =>
          rw [hopcode] at h
          cases h
      | true =>
          have hopcode' : ctx.widened.wantsOpcode op = true := hopcode
          rw [hopcode] at h
          rw [hopcode']
          obtain ⟨table?, htable⟩ := ctx.tableAt_yields (use.probe ctx.instructions position)
          let found : Candidate :=
            ⟨position, .localVariable slot (table?.bind fun t => t.slot? slot.toNat), none, []⟩
          have hstop (d : PointContext) : Yields Watch.IsLive
              (if d.acceptsLocal table? slot then return some found else return none : Visit)
              (.ok (if d.acceptsLocal table? slot then some found else none)) := by
            split <;> exact yields_pure _
          have hnarrow := (Visit.offer?_eq (htable.bind (hstop ctx))).symm.trans h
          refine (Visit.offer?_eq (htable.bind (hstop ctx.widened))).trans ?_
          rw [acceptsLocal_widened, if_pos rfl]
          split at hnarrow
          · exact hnarrow
          · cases hnarrow

/-- A walk over the nodes whose stops offer more. -/
theorem isAmong_visits {nodes : List (Instruction × Nat)} {stop wide : Instruction → Nat → Visit}
    (hstop : ∀ node ∈ nodes, (stop node.1 node.2).IsSteady)
    (hwide : ∀ node ∈ nodes, (wide node.1 node.2).IsSteady)
    (hoffer : ∀ i position x, (stop i position).offer? = some x →
      ∃ y, (wide i position).offer? = some y ∧ y.position = x.position ∧ y.element = x.element)
    (hx : x ∈ (visits nodes stop).filterMap Visit.offer?) :
    x.IsAmong ((visits nodes wide).filterMap Visit.offer?) := by
  rw [filterMap_offer?_visits hstop] at hx
  rw [filterMap_offer?_visits hwide]
  obtain ⟨⟨i, position⟩, hnode, hsome⟩ := List.mem_filterMap.mp hx
  obtain ⟨y, hy, hsame⟩ := hoffer i position x hsome
  exact ⟨y, List.mem_filterMap.mpr ⟨(i, position), hnode, hy⟩, hsame⟩

theorem isAmong_fieldVisits {visits : List Visit} (h : ctx.fieldVisits = .ok visits) :
    ∃ wide, ctx.widened.fieldVisits = .ok wide ∧
      ∀ x ∈ visits.filterMap Visit.offer?, x.IsAmong (wide.filterMap Visit.offer?) := by
  obtain ⟨⟨⟩, hopcode, h⟩ := bind_eq_ok.mp h
  obtain ⟨use?, -, h⟩ := bind_eq_ok.mp h
  obtain ⟨fuzz, -, h⟩ := bind_eq_ok.mp h
  cases h
  have hopcode' : ctx.widened.requireOpcode Opcode.isField = .ok () := hopcode
  refine ⟨_, bind_eq_ok.mpr ⟨(), hopcode', rfl⟩, fun x hx => ?_⟩
  refine isAmong_visits (fun _ _ => Visit.isSteady_pure _) (fun _ _ => Visit.isSteady_pure _) ?_ hx
  exact fun i position x hsome => fieldCandidate?_widened hsome _

theorem isAmong_allocationVisits {visits : List Visit} (h : ctx.allocationVisits = .ok visits) :
    ∃ wide, ctx.widened.allocationVisits = .ok wide ∧
      ∀ x ∈ visits.filterMap Visit.offer?, x.IsAmong (wide.filterMap Visit.offer?) := by
  obtain ⟨target, -, h⟩ := bind_eq_ok.mp h
  cases h
  refine ⟨_, rfl, fun x hx => ?_⟩
  refine isAmong_visits (fun _ _ => Visit.isSteady_pure _) (fun _ _ => Visit.isSteady_pure _) ?_ hx
  exact fun i position x hsome => ⟨x, allocationCandidate?_widened hsome, rfl, rfl⟩

theorem isAmong_localVisits {use : LocalUse} {visits : List Visit}
    (h : ctx.localVisits use = .ok visits) :
    ∃ wide, ctx.widened.localVisits use = .ok wide ∧
      ∀ x ∈ visits.filterMap Visit.offer?, x.IsAmong (wide.filterMap Visit.offer?) := by
  rw [localVisits_eq] at h
  obtain ⟨⟨⟩, hopcode, h⟩ := bind_eq_ok.mp h
  cases h
  have hopcode' : ctx.widened.requireOpcode use.accepts = .ok () := hopcode
  have steady (d : PointContext) : ∀ node ∈ d.positioned,
      (d.localStop use node.1 node.2).IsSteady := fun node hnode =>
    (offersIn_localStop hnode).isSteady
  refine ⟨PointContext.visits ctx.widened.positioned (ctx.widened.localStop use), ?_,
    fun x hx => ?_⟩
  · rw [localVisits_eq, hopcode']
    rfl
  · refine isAmong_visits (steady ctx) (steady ctx.widened) ?_ hx
    exact fun i position x hsome => ⟨x, offer?_localStop_widened hsome, rfl, rfl⟩

end PointContext

/-- A walk that is asked for less begins when the full one does, and offers every element with a
label that the full one offers. -/
theorem PointKind.exists_offered_widened {kind : PointKind} (hkind : kind ≠ .constant)
    {ctx : PointContext} {xs : List Candidate} (h : kind.offered ctx = .ok xs) :
    ∃ ys, kind.offered ctx.widened = .ok ys ∧
      ∀ x ∈ xs, x.element.label? ≠ none → x.IsAmong ys := by
  obtain ⟨visits, hvisits, rfl⟩ := offered_eq_ok.mp h
  have same (hsame : kind.visits ctx.widened = .ok visits) :
      ∃ ys, kind.offered ctx.widened = .ok ys ∧
        ∀ x ∈ visits.filterMap Visit.offer?, x.element.label? ≠ none → x.IsAmong ys :=
    ⟨_, offered_eq_ok.mpr ⟨visits, hsame, rfl⟩, fun x hx _ => ⟨x, hx, rfl, rfl⟩⟩
  have more {wide : List Visit} (hwide : kind.visits ctx.widened = .ok wide)
      (hmore : ∀ x ∈ visits.filterMap Visit.offer?, x.IsAmong (wide.filterMap Visit.offer?)) :
      ∃ ys, kind.offered ctx.widened = .ok ys ∧
        ∀ x ∈ visits.filterMap Visit.offer?, x.element.label? ≠ none → x.IsAmong ys :=
    ⟨_, offered_eq_ok.mpr ⟨wide, hwide, rfl⟩, fun x hx _ => hmore x hx⟩
  have calls {offer? wide? : Invocation → Option Candidate}
      (hvisits : ctx.invocationVisits offer? = visits)
      (hwide : kind.visits ctx.widened = .ok (ctx.widened.invocationVisits wide?))
      (hoffer : ∀ v x, offer? v = some x → wide? v = some x) :
      ∃ ys, kind.offered ctx.widened = .ok ys ∧
        ∀ x ∈ visits.filterMap Visit.offer?, x.element.label? ≠ none → x.IsAmong ys := by
    refine more hwide fun x hx => ?_
    rw [← hvisits, PointContext.filterMap_offer?_invocationVisits] at hx
    rw [PointContext.filterMap_offer?_invocationVisits]
    exact PointContext.isAmong_invocations hoffer hx
  -- A kind reads its own settings only; a walk that has none of them offers at least as much.
  cases kind with
  | head | «return» | tail | jump => exact same hvisits
  | invoke => exact calls (Except.ok.inj hvisits) rfl fun _ _ => id
  | invokeAssign => exact calls (Except.ok.inj hvisits) rfl fun _ _ => id
  | invokeString =>
      exact calls (Except.ok.inj hvisits) rfl fun v x => PointContext.takesText_widened
  | field =>
      obtain ⟨wide, hwide, hmore⟩ := PointContext.isAmong_fieldVisits hvisits
      exact more hwide hmore
  | new =>
      obtain ⟨wide, hwide, hmore⟩ := PointContext.isAmong_allocationVisits hvisits
      exact more hwide hmore
  | constant => exact absurd rfl hkind
  | load | store =>
      obtain ⟨wide, hwide, hmore⟩ := PointContext.isAmong_localVisits hvisits
      exact more hwide hmore
  | constructorHead =>
      obtain ⟨wide, hwide⟩ := ctx.exists_constructorHeadVisits_widened
      exact ⟨_, offered_eq_ok.mpr ⟨wide, hwide, rfl⟩, fun x hx hlabel =>
        absurd (PointContext.label?_of_constructorHead hvisits hx) hlabel⟩

end Injection
