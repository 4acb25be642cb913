import Injection.Point.Registry
import Injection.Proofs.Locals.Answers
import Injection.Proofs.Point.Filtering

/-!
The walks of the built-in kinds. While the token lives, every stop of a walk offers the same
candidate each time, one that lies on a node of the method; so a walk comes down to taking a fixed
list of candidates.
-/

namespace Injection

namespace InstructionList

variable {is : InstructionList} {p : Instruction → Bool} {i j : Nat}

theorem lt_size_of_firstFrom {count : Nat} (hfirst : is.firstFrom p i count = some j) :
    j < is.size := by
  induction count generalizing i with
  | zero => cases hfirst
  | succ count ih =>
      rw [firstFrom] at hfirst
      split at hfirst
      · rename_i hholds
        cases hfirst
        by_contra hsize
        have hget : is.get? j = none := Array.getElem?_eq_none (Nat.le_of_not_lt hsize)
        rw [holds, hget] at hholds
        cases hholds
      · exact ih hfirst

theorem lt_size_of_firstReal? (hfirst : is.firstReal? = some j) : j < is.size :=
  lt_size_of_firstFrom hfirst

theorem lt_size_of_nextReal? (hnext : is.nextReal? i = some j) : j < is.size :=
  lt_size_of_firstFrom hnext

end InstructionList

def Visit.offer? (v : Visit) : Option Candidate :=
  match (v.run.run .live).1 with
  | .ok offer => offer
  | .error _ => none

/-- A stop that offers the same whenever it is made while the token lives. -/
def Visit.IsSteady (v : Visit) : Prop := Yields Watch.IsLive v (.ok v.offer?)

/-- A stop that gives the same answer while the token lives, and offers nothing but a candidate at
one of `size` positions. -/
def Visit.OffersIn (size : Nat) (v : Visit) : Prop :=
  ∃ offer, Yields Watch.IsLive v (.ok offer) ∧ ∀ x, offer = some x → x.position < size

namespace Visit

variable {size : Nat} {v : Visit}

theorem offer?_eq {offer : Option Candidate} (h : Yields Watch.IsLive v (.ok offer)) :
    v.offer? = offer := by
  obtain ⟨w, -, hrun⟩ := h .live rfl
  simp only [offer?, ExceptT.run, StateT.run, hrun]

theorem isSteady_pure (offer : Option Candidate) : Visit.IsSteady (pure offer) := yields_pure offer

theorem OffersIn.isSteady (h : v.OffersIn size) : v.IsSteady := by
  obtain ⟨offer, hv, -⟩ := h
  rwa [IsSteady, offer?_eq hv]

theorem OffersIn.lt_size (h : v.OffersIn size) {x : Candidate} (hx : v.offer? = some x) :
    x.position < size := by
  obtain ⟨offer, hv, hlt⟩ := h
  exact hlt x (offer?_eq hv ▸ hx)

theorem offersIn_pure {offer : Option Candidate} (h : ∀ x, offer = some x → x.position < size) :
    Visit.OffersIn size (pure offer) :=
  ⟨offer, yields_pure offer, h⟩

theorem offersIn_place {position : Nat} (h : position < size) :
    Visit.OffersIn size (pure (some (.place position))) :=
  offersIn_pure fun _ hx => Option.some.inj hx ▸ h

/-- A stop that finds something out before it offers. -/
theorem OffersIn.after {α : Type} {q : Query ResolveError α} {f : α → Visit} {a : α}
    (hq : Yields Watch.IsLive q (.ok a)) (hf : (f a).OffersIn size) :
    Visit.OffersIn size (q >>= f) := by
  obtain ⟨offer, hoffer, hx⟩ := hf
  exact ⟨offer, hq.bind hoffer, hx⟩

end Visit

/-- Stops that look at the token before they offer. -/
theorem Visit.filterMap_offer? {α : Type} {look : α → Query ResolveError Unit}
    (hlook : ∀ a, Yields Watch.IsLive (look a) (.ok ())) {stop : α → Visit} {stops : List α}
    (hstop : ∀ a ∈ stops, (stop a).IsSteady) :
    (stops.map fun a => do look a; stop a).filterMap offer? =
      stops.filterMap fun a => (stop a).offer? := by
  rw [List.filterMap_map]
  exact List.filterMap_congr fun a ha => offer?_eq ((hlook a).bind (hstop a ha))

/-- A walk takes what its stops offer. -/
theorem Collector.walk_yields {visits : List Visit}
    (h : ∀ v ∈ visits, v.IsSteady) (c : Collector) :
    Yields Watch.IsLive (c.walk visits) (.ok (c.gather (visits.filterMap Visit.offer?))) := by
  induction visits generalizing c with
  | nil => exact yields_pure c
  | cons v visits ih =>
      obtain ⟨hv, hrest⟩ := List.forall_mem_cons.mp h
      refine hv.bind ?_
      cases hoffer : v.offer? with
      | none =>
          rw [List.filterMap_cons_none hoffer]
          exact ih hrest c
      | some x =>
          rw [List.filterMap_cons_some hoffer, gather]
          dsimp only
          rcases hadd : c.add x with ⟨c', enough⟩
          cases enough with
          | false => exact ih hrest c'
          | true => exact yields_pure c'

namespace PointContext

variable {ctx : PointContext}

theorem lt_size_of_mem_positioned {i : Instruction} {position : Nat}
    (hmem : (i, position) ∈ ctx.positioned) : position < ctx.instructions.size := by
  have hlt := List.snd_lt_of_mem_zipIdx hmem
  simpa [InstructionList.size] using hlt

theorem yields_checkpoint (position : Nat) : Yields Watch.IsLive (checkpoint position) (.ok ()) := by
  rw [checkpoint]
  split
  · exact Query.yields_checkpoint _
  · exact yields_pure ()

/-- What the stops at nodes offer. -/
theorem filterMap_offer?_visits {nodes : List (Instruction × Nat)}
    {stop : Instruction → Nat → Visit}
    (hstop : ∀ node ∈ nodes, (stop node.1 node.2).IsSteady) :
    (visits nodes stop).filterMap Visit.offer? =
      nodes.filterMap fun node => (stop node.1 node.2).offer? :=
  Visit.filterMap_offer? (fun node : Instruction × Nat => yields_checkpoint node.2) hstop

theorem filterMap_offer?_invocationVisits (candidate? : Invocation → Option Candidate) :
    (ctx.invocationVisits candidate?).filterMap Visit.offer? =
      ctx.invocations.filterMap candidate? := by
  have hstop : ∀ v ∈ ctx.invocations, Visit.IsSteady (pure (candidate? v)) :=
    fun v _ => Visit.isSteady_pure _
  exact Visit.filterMap_offer? (fun _ => Query.yields_checkpoint _) hstop

/-- The stops at nodes, each with a look at the token now and then. -/
theorem offersIn_visits {nodes : List (Instruction × Nat)} {candidate? : Instruction → Nat → Visit}
    {size : Nat} (h : ∀ i position, (i, position) ∈ nodes → (candidate? i position).OffersIn size) :
    ∀ v ∈ visits nodes candidate?, v.OffersIn size := by
  intro v hv
  obtain ⟨⟨i, position⟩, hmem, rfl⟩ := List.mem_map.mp hv
  exact .after (yields_checkpoint position) (h i position hmem)

theorem offersIn_placeIf {wanted : Instruction → Bool} {i : Instruction} {position size : Nat}
    (h : position < size) : (placeIf wanted i position).OffersIn size := by
  rw [placeIf]
  refine Visit.offersIn_pure fun x hx => ?_
  split at hx
  · cases hx
    exact h
  · cases hx

theorem offersIn_headVisits : ∀ v ∈ ctx.headVisits, v.OffersIn ctx.instructions.size := by
  intro v hv
  obtain ⟨position, hmem, rfl⟩ := List.mem_map.mp hv
  exact Visit.offersIn_place (InstructionList.lt_size_of_firstReal? (Option.mem_toList.mp hmem))

theorem offersIn_returnVisits : ∀ v ∈ ctx.returnVisits, v.OffersIn ctx.instructions.size :=
  offersIn_visits fun _ _ hmem => offersIn_placeIf (lt_size_of_mem_positioned hmem)

theorem offersIn_tailVisits : ∀ v ∈ ctx.tailVisits, v.OffersIn ctx.instructions.size :=
  offersIn_visits fun _ _ hmem =>
    offersIn_placeIf (lt_size_of_mem_positioned (List.mem_reverse.mp (List.mem_of_mem_take hmem)))

theorem offersIn_jumpVisits {visits : List Visit} (h : ctx.jumpVisits = .ok visits) :
    ∀ v ∈ visits, v.OffersIn ctx.instructions.size := by
  obtain ⟨-, -, h⟩ := bind_eq_ok.mp h
  cases h
  exact offersIn_visits fun _ _ hmem => offersIn_placeIf (lt_size_of_mem_positioned hmem)

theorem lt_size_of_initializedHead? {enforce : Enforce} {delegate : ConstructorCall}
    {position : Nat} (h : ctx.initializedHead? enforce delegate = some position) :
    position < ctx.instructions.size := by
  rw [initializedHead?] at h
  split at h
  · exact InstructionList.lt_size_of_nextReal? h
  · cases hwrite : (ctx.lastFieldWrite? delegate.position).bind ctx.instructions.nextReal? with
    | none =>
        rw [hwrite] at h
        exact InstructionList.lt_size_of_nextReal? h
    | some after =>
        rw [hwrite] at h
        cases h
        obtain ⟨write, -, hnext⟩ := Option.bind_eq_some_iff.mp hwrite
        exact InstructionList.lt_size_of_nextReal? hnext

theorem offersIn_constructorHeadVisits {visits : List Visit}
    (h : ctx.constructorHeadVisits = .ok visits) :
    ∀ v ∈ visits, v.OffersIn ctx.instructions.size := by
  obtain ⟨enforce, -, h⟩ := bind_eq_ok.mp h
  dsimp only at h
  split at h
  · cases h
    exact offersIn_headVisits
  · cases h
    intro v hv
    obtain ⟨position, hmem, rfl⟩ := List.mem_map.mp hv
    exact Visit.offersIn_place (lt_size_of_initializedHead? (Option.mem_toList.mp hmem))

theorem position_of_invocation? {v : Invocation} {i : Instruction} {position : Nat}
    (h : ctx.invocation? (i, position) = some v) : v.position = position := by
  unfold invocation? at h
  split at h
  · split at h
    · cases h
      simp_all
    · cases h
  · cases h

theorem offersIn_invocationVisits {candidate? : Invocation → Option Candidate}
    (h : ∀ v x, v.position < ctx.instructions.size → candidate? v = some x →
      x.position < ctx.instructions.size) :
    ∀ v ∈ ctx.invocationVisits candidate?, v.OffersIn ctx.instructions.size := by
  intro visit hvisit
  obtain ⟨v, hmem, rfl⟩ := List.mem_map.mp hvisit
  obtain ⟨⟨i, position⟩, hnode, hv⟩ := List.mem_filterMap.mp hmem
  refine .after (Query.yields_checkpoint _) (Visit.offersIn_pure fun x hx => h v x ?_ hx)
  rw [position_of_invocation? hv]
  exact lt_size_of_mem_positioned hnode

theorem offersIn_invokeVisits : ∀ v ∈ ctx.invokeVisits, v.OffersIn ctx.instructions.size :=
  offersIn_invocationVisits fun v x hv hx => by
    cases hx
    exact hv

theorem lt_size_of_afterAssignment? {v : Invocation} {position : Nat}
    (h : ctx.afterAssignment? v = some position) : position < ctx.instructions.size := by
  obtain ⟨after, hafter, h⟩ := Option.bind_eq_some_iff.mp h
  dsimp only at h
  split at h
  · exact InstructionList.lt_size_of_nextReal? h
  · cases h
    exact InstructionList.lt_size_of_nextReal? hafter

theorem offersIn_assignVisits : ∀ v ∈ ctx.assignVisits, v.OffersIn ctx.instructions.size :=
  offersIn_invocationVisits fun v x _ hx => by
    split at hx
    · cases hx
    · obtain ⟨position, hposition, rfl⟩ := Option.map_eq_some_iff.mp hx
      exact lt_size_of_afterAssignment? hposition

theorem offersIn_textVisits : ∀ v ∈ ctx.textVisits, v.OffersIn ctx.instructions.size :=
  offersIn_invocationVisits fun v x hv hx => by
    split at hx
    · cases hx
      exact hv
    · cases hx

theorem position_of_fieldCandidate? {use? : Option ArrayUse} {fuzz position : Nat}
    {i : Instruction} {x : Candidate} (h : ctx.fieldCandidate? use? fuzz i position = some x) :
    x.position = position := by
  unfold fieldCandidate? at h
  split at h
  · split at h
    · obtain ⟨decorations, -, rfl⟩ := Option.map_eq_some_iff.mp h
      rfl
    · cases h
  · cases h

theorem offersIn_fieldVisits {visits : List Visit} (h : ctx.fieldVisits = .ok visits) :
    ∀ v ∈ visits, v.OffersIn ctx.instructions.size := by
  obtain ⟨-, -, h⟩ := bind_eq_ok.mp h
  obtain ⟨use?, -, h⟩ := bind_eq_ok.mp h
  obtain ⟨fuzz, -, h⟩ := bind_eq_ok.mp h
  cases h
  refine offersIn_visits fun i position hmem => Visit.offersIn_pure fun x hx => ?_
  rw [position_of_fieldCandidate? hx]
  exact lt_size_of_mem_positioned hmem

theorem position_of_allocationCandidate? {target : AllocationTarget} {position : Nat}
    {i : Instruction} {x : Candidate} (h : ctx.allocationCandidate? target i position = some x) :
    x.position = position := by
  unfold allocationCandidate? at h
  split at h
  · dsimp only at h
    split at h
    · cases h
      rfl
    · cases h
  · cases h

theorem offersIn_allocationVisits {visits : List Visit} (h : ctx.allocationVisits = .ok visits) :
    ∀ v ∈ visits, v.OffersIn ctx.instructions.size := by
  obtain ⟨target, -, h⟩ := bind_eq_ok.mp h
  cases h
  refine offersIn_visits fun i position hmem => Visit.offersIn_pure fun x hx => ?_
  rw [position_of_allocationCandidate? hx]
  exact lt_size_of_mem_positioned hmem

theorem offersIn_constantVisits {visits : List Visit} (h : ctx.constantVisits = .ok visits) :
    ∀ v ∈ visits, v.OffersIn ctx.instructions.size := by
  obtain ⟨query, -, h⟩ := bind_eq_ok.mp h
  cases h
  refine offersIn_visits fun i position hmem => Visit.offersIn_pure fun x hx => ?_
  obtain ⟨value, -, rfl⟩ := Option.map_eq_some_iff.mp hx
  exact lt_size_of_mem_positioned hmem

theorem tableAt_yields (ctx : PointContext) (position : Nat) :
    ∃ table?, Yields Watch.IsLive (ctx.tableAt position) (.ok table?) := by
  rw [tableAt]
  split
  · exact ⟨none, yields_pure none⟩
  · rename_i locals _
    obtain ⟨r, hr, hgood⟩ := locals.localsAt_steady position
    cases r with
    | ok table =>
        refine ⟨some table, fun w hw => ?_⟩
        obtain ⟨w', hw', hrun⟩ := hr w hw
        refine ⟨w', hw', ?_⟩
        simp only [ExceptT.run, StateT.run, hrun]
    | error e =>
        cases e with
        | cancelled => exact absurd rfl (hgood _ rfl)
        | unavailable reason =>
            refine ⟨none, fun w hw => ?_⟩
            obtain ⟨w', hw', hrun⟩ := hr w hw
            refine ⟨w', hw', ?_⟩
            simp only [ExceptT.run, StateT.run, hrun]

def localStop (ctx : PointContext) (use : LocalUse) (i : Instruction) (position : Nat) : Visit :=
  match use.access? i with
  | none => return none
  | some (op, slot) => do
    if !ctx.wantsOpcode op then return none
    let table? ← ctx.tableAt (use.probe ctx.instructions position)
    if ctx.acceptsLocal table? slot then
      return some ⟨position,
        .localVariable slot (table?.bind fun t => t.slot? slot.toNat), none, []⟩
    else return none

theorem localVisits_eq (ctx : PointContext) (use : LocalUse) :
    ctx.localVisits use = (do
      ctx.requireOpcode use.accepts
      return visits ctx.positioned (ctx.localStop use)) := rfl

theorem offersIn_localStop {use : LocalUse} {i : Instruction} {position : Nat}
    (hmem : (i, position) ∈ ctx.positioned) :
    (ctx.localStop use i position).OffersIn ctx.instructions.size := by
  have nothing : Visit.OffersIn ctx.instructions.size (pure none) :=
    Visit.offersIn_pure fun _ hx => nomatch hx
  unfold localStop
  split
  · exact nothing
  · rename_i op slot _
    split
    · exact nothing
    · obtain ⟨table?, htable⟩ := ctx.tableAt_yields (use.probe ctx.instructions position)
      refine .after htable ?_
      split
      · exact Visit.offersIn_pure fun x hx => Option.some.inj hx ▸ lt_size_of_mem_positioned hmem
      · exact nothing

theorem offersIn_localVisits {use : LocalUse} {visits : List Visit}
    (h : ctx.localVisits use = .ok visits) :
    ∀ v ∈ visits, v.OffersIn ctx.instructions.size := by
  rw [localVisits_eq] at h
  obtain ⟨-, -, h⟩ := bind_eq_ok.mp h
  cases h
  exact offersIn_visits fun _ _ => offersIn_localStop

end PointContext

/-- Every stop of a walk for a built-in kind offers a candidate of the method, or nothing. -/
theorem PointKind.offersIn_visits {kind : PointKind} {ctx : PointContext} {visits : List Visit}
    (h : kind.visits ctx = .ok visits) : ∀ v ∈ visits, v.OffersIn ctx.instructions.size := by
  cases kind with
  | head =>
      cases h
      exact PointContext.offersIn_headVisits
  | «return» =>
      cases h
      exact PointContext.offersIn_returnVisits
  | tail =>
      cases h
      exact PointContext.offersIn_tailVisits
  | invoke =>
      cases h
      exact PointContext.offersIn_invokeVisits
  | invokeAssign =>
      cases h
      exact PointContext.offersIn_assignVisits
  | invokeString =>
      cases h
      exact PointContext.offersIn_textVisits
  | field => exact PointContext.offersIn_fieldVisits h
  | new => exact PointContext.offersIn_allocationVisits h
  | constant => exact PointContext.offersIn_constantVisits h
  | load => exact PointContext.offersIn_localVisits h
  | store => exact PointContext.offersIn_localVisits h
  | constructorHead => exact PointContext.offersIn_constructorHeadVisits h
  | jump => exact PointContext.offersIn_jumpVisits h

/-- The candidates that a kind offers in a method, or why its walk does not begin. -/
def PointKind.offered (kind : PointKind) (ctx : PointContext) :
    Except ResolveError (List Candidate) :=
  (kind.visits ctx).map (·.filterMap Visit.offer?)

theorem PointKind.offered_eq_ok {kind : PointKind} {ctx : PointContext} {xs : List Candidate} :
    kind.offered ctx = .ok xs ↔
      ∃ visits, kind.visits ctx = .ok visits ∧ visits.filterMap Visit.offer? = xs := map_eq_ok

theorem PointKind.lt_size_of_mem_offered {kind : PointKind} {ctx : PointContext}
    {xs : List Candidate} (h : kind.offered ctx = .ok xs) :
    ∀ x ∈ xs, x.position < ctx.instructions.size := by
  obtain ⟨visits, hvisits, rfl⟩ := offered_eq_ok.mp h
  intro x hx
  obtain ⟨v, hv, hoffer⟩ := List.mem_filterMap.mp hx
  exact (offersIn_visits hvisits v hv).lt_size hoffer

/-! ### Settings refused -/

/-- An error that refuses the annotation: neither that nothing was found nor that the request was
cancelled. -/
def ResolveError.IsRefusal (e : ResolveError) : Prop :=
  e ≠ .cancelled ∧ ∀ blamed, e ≠ .noMatch blamed

theorem Enforce.parse_refuses {text : Option String} {e : ResolveError}
    (h : Enforce.parse text = .error e) : e.IsRefusal := by
  unfold parse at h
  split at h <;> cases h
  exact ⟨nofun, nofun⟩

theorem ArrayUse.parse_refuses {text : Option String} {e : ResolveError}
    (h : ArrayUse.parse text = .error e) : e.IsRefusal := by
  unfold parse at h
  split at h <;> cases h
  exact ⟨nofun, nofun⟩

theorem AllocationTarget.parse_refuses {text : Option String} {e : ResolveError}
    (h : AllocationTarget.parse text = .error e) : e.IsRefusal := by
  unfold parse at h
  split at h
  · cases h
  · dsimp only at h
    split at h <;> cases h
    exact ⟨nofun, nofun⟩

theorem ConstantQuery.parse_refuses {c : Criteria} {e : ResolveError}
    (h : ConstantQuery.parse c = .error e) : e.IsRefusal := by
  rcases bind_eq_error.mp h with hvalue | ⟨value, -, h⟩
  · unfold parseValue at hvalue
    split at hvalue
    · cases hvalue
    · split at hvalue <;> cases hvalue
      exact ⟨nofun, nofun⟩
    · cases hvalue
      exact ⟨nofun, nofun⟩
  · split at h
    · cases h
    · split at h
      · rcases bind_eq_error.mp h with hconditions | ⟨conditions, -, h⟩
        · refine mapM_error (P := ResolveError.IsRefusal) (fun name _ e hname => ?_) hconditions
          split at hname <;> cases hname
          exact ⟨nofun, nofun⟩
        · cases h
      · cases h
        exact ⟨nofun, nofun⟩

namespace PointContext

variable {ctx : PointContext} {e : ResolveError}

theorem requireOpcode_refuses {allowed : Opcode → Bool}
    (h : ctx.requireOpcode allowed = .error e) : e.IsRefusal := by
  rw [requireOpcode] at h
  split at h <;> cases h
  exact ⟨nofun, nofun⟩

theorem fuzz_refuses (h : ctx.fuzz = .error e) : e.IsRefusal := by
  unfold fuzz at h
  split at h
  · cases h
  · split at h <;> cases h
    exact ⟨nofun, nofun⟩

theorem fieldVisits_refuses (h : ctx.fieldVisits = .error e) : e.IsRefusal := by
  rcases bind_eq_error.mp h with h | ⟨-, -, h⟩
  · exact requireOpcode_refuses h
  rcases bind_eq_error.mp h with h | ⟨use?, -, h⟩
  · exact ArrayUse.parse_refuses h
  rcases bind_eq_error.mp h with h | ⟨fuzz, -, h⟩
  · exact fuzz_refuses h
  · cases h

theorem constructorHeadVisits_refuses (h : ctx.constructorHeadVisits = .error e) :
    e.IsRefusal := by
  rcases bind_eq_error.mp h with h | ⟨enforce, -, h⟩
  · exact Enforce.parse_refuses h
  · dsimp only at h
    split at h <;> cases h

/-- A walk behind one check of the settings fails in this check only. -/
theorem refuses_of_check {α : Type} {check : Except ResolveError α} {visits : α → List Visit}
    (hcheck : ∀ e, check = .error e → e.IsRefusal)
    (h : (do return visits (← check)) = Except.error e) : e.IsRefusal := by
  rcases bind_eq_error.mp h with h | ⟨a, -, h⟩
  · exact hcheck e h
  · cases h

end PointContext

/-- A walk that does not begin was refused for its settings. -/
theorem PointKind.visits_refuses {kind : PointKind} {ctx : PointContext} {e : ResolveError}
    (h : kind.visits ctx = .error e) : e.IsRefusal := by
  cases kind with
  | field => exact PointContext.fieldVisits_refuses h
  | new => exact PointContext.refuses_of_check (fun _ => AllocationTarget.parse_refuses) h
  | constant => exact PointContext.refuses_of_check (fun _ => ConstantQuery.parse_refuses) h
  | load => exact PointContext.refuses_of_check (fun _ => PointContext.requireOpcode_refuses) h
  | store => exact PointContext.refuses_of_check (fun _ => PointContext.requireOpcode_refuses) h
  | constructorHead => exact PointContext.constructorHeadVisits_refuses h
  | jump => exact PointContext.refuses_of_check (fun _ => PointContext.requireOpcode_refuses) h
  | head | «return» | tail | invoke | invokeAssign | invokeString => cases h

theorem PointKind.offered_refuses {kind : PointKind} {ctx : PointContext} {e : ResolveError}
    (h : kind.offered ctx = .error e) : e.IsRefusal := visits_refuses (map_eq_error.mp h)

end Injection
