import Injection.Proofs.Source.Units
import Injection.Proofs.Source.Visiting
import Mathlib.Data.Prod.Lex

/-!
The order of the events of a walk. A walk that ends goes into every part of a node, so its events
are those of the node itself and, between them, those of the parts. In a tree they are all
different: an operand is evaluated before the expression that has it, and a new object is allocated
before the operands of its constructor, once and for all.
-/

namespace Injection.Source

open scoped List

def Event.node : Event → WalkRoot
  | allocate e | expr e => .expr e
  | store s | result s | throw s | iterator s | hasNext s | next s => .stmt s

def Event.expr? : Event → Option ExprId
  | .expr e => some e
  | _ => none

/-- A statement is higher than any expression; of two statements or two expressions the one with
the larger place is. -/
def WalkRoot.height : WalkRoot → ℕ ×ₗ ℕ
  | .expr e => toLex (0, e)
  | .stmt s => toLex (1, s)

namespace WalkItem

def event? : WalkItem → Option Event
  | event e => some e
  | part _ => none

def part? : WalkItem → Option WalkRoot
  | event _ => none
  | part n => some n

def events (told : WalkRoot → List Event) : WalkItem → List Event
  | event e => [e]
  | part n => told n

@[simp] theorem filterMap_event?_event (e : Event) (items : List WalkItem) :
    (event e :: items).filterMap event? = e :: items.filterMap event? := rfl

@[simp] theorem filterMap_event?_part (n : WalkRoot) (items : List WalkItem) :
    (part n :: items).filterMap event? = items.filterMap event? := rfl

@[simp] theorem filterMap_part?_event (e : Event) (items : List WalkItem) :
    (event e :: items).filterMap part? = items.filterMap part? := rfl

@[simp] theorem filterMap_part?_part (n : WalkRoot) (items : List WalkItem) :
    (part n :: items).filterMap part? = n :: items.filterMap part? := rfl

theorem nodup_of_filterMap {items : List WalkItem} (hevents : (items.filterMap event?).Nodup)
    (hparts : (items.filterMap part?).Nodup) : items.Nodup := by
  induction items with
  | nil => exact .nil
  | cons item items ih =>
      cases item with
      | event e =>
          obtain ⟨hnotMem, hevents⟩ := List.nodup_cons.mp hevents
          refine List.nodup_cons.mpr ⟨fun hmem => hnotMem ?_, ih hevents hparts⟩
          exact List.mem_filterMap.mpr ⟨_, hmem, rfl⟩
      | part n =>
          obtain ⟨hnotMem, hparts⟩ := List.nodup_cons.mp hparts
          refine List.nodup_cons.mpr ⟨fun hmem => hnotMem ?_, ih hevents hparts⟩
          exact List.mem_filterMap.mpr ⟨_, hmem, rfl⟩

end WalkItem

namespace Body

variable {b : Body} {n m root : WalkRoot} {e : ExprId} {event : Event}

/-! ### What a walk does at a node -/

def allocation (b : Body) (e : ExprId) : List Event :=
  match (b.expr e).form with
  | .create .. => [.allocate e]
  | _ => []

theorem allocation_eq (b : Body) (e : ExprId) :
    b.allocation e = [] ∨ b.allocation e = [.allocate e] := by
  unfold allocation
  split
  · exact .inr rfl
  · exact .inl rfl

theorem outline_expr (b : Body) (e : ExprId) :
    b.outline (.expr e) = (b.allocation e).map .event ++
      (b.expr e).form.children.map (fun c => .part (.expr c)) ++ [.event (.expr e)] := by
  rw [outline, allocation]
  cases (b.expr e).form <;> rfl

/-- The parts that a walk goes into are those that the node refers to. -/
theorem filterMap_part?_outline (b : Body) (n : WalkRoot) :
    (b.outline n).filterMap WalkItem.part? = b.parts n := by
  cases n with
  | expr e => simp [outline_expr, parts, WalkItem.part?, Function.comp_def]
  | stmt s =>
      rw [outline, parts]
      cases (b.stmt s).form with
      | declare name value => cases value <;> simp [StmtForm.parts, WalkItem.part?]
      | branch condition yes no => cases no <;> simp [StmtForm.parts, WalkItem.part?]
      | loopOver item collection kind body => cases kind <;> simp [StmtForm.parts, WalkItem.part?]
      | result value => cases value <;> simp [StmtForm.parts, WalkItem.part?]
      | block | expr | loop | throw | localClass | empty =>
          simp [StmtForm.parts, WalkItem.part?, Function.comp_def]

/-- The events of a node itself are different, and all of its own code. -/
theorem nodup_outline_events (b : Body) (n : WalkRoot) :
    ((b.outline n).filterMap WalkItem.event?).Nodup ∧
      ∀ event ∈ (b.outline n).filterMap WalkItem.event?, event.node = n := by
  cases n with
  | expr e =>
      rw [outline_expr]
      rcases b.allocation_eq e with heq | heq <;>
        simp [heq, WalkItem.event?, Event.node, Function.comp_def]
  | stmt s =>
      rw [outline]
      cases (b.stmt s).form with
      | declare name value => cases value <;> simp [WalkItem.event?, Event.node]
      | branch condition yes no => cases no <;> simp [WalkItem.event?]
      | loopOver item collection kind body => cases kind <;> simp [WalkItem.event?, Event.node]
      | result value => cases value <;> simp [WalkItem.event?, Event.node]
      | block | expr | loop | throw | localClass | empty =>
          simp [WalkItem.event?, Event.node, Function.comp_def]

theorem mem_outline_part : .part m ∈ b.outline n ↔ m ∈ b.parts n := by
  rw [← filterMap_part?_outline, List.mem_filterMap]
  constructor
  · exact fun h => ⟨_, h, rfl⟩
  · rintro ⟨item, hitem, h⟩
    cases item with
    | event => cases h
    | part => cases h; exact hitem

theorem node_of_mem_outline (h : .event event ∈ b.outline n) : event.node = n :=
  (b.nodup_outline_events n).2 event (List.mem_filterMap.mpr ⟨_, h, rfl⟩)

theorem mem_flatMap_outline {told : WalkRoot → List Event} :
    event ∈ (b.outline n).flatMap (WalkItem.events told) ↔
      .event event ∈ b.outline n ∨ ∃ m ∈ b.parts n, event ∈ told m := by
  rw [List.mem_flatMap]
  constructor
  · rintro ⟨item, hitem, h⟩
    cases item with
    | event e => exact .inl (List.mem_singleton.mp h ▸ hitem)
    | part m => exact .inr ⟨m, mem_outline_part.mp hitem, h⟩
  · rintro (hitem | ⟨m, hm, h⟩)
    · exact ⟨_, hitem, List.mem_singleton_self _⟩
    · exact ⟨_, mem_outline_part.mpr hm, h⟩

/-! ### The events of a walk -/

/-- A walk tells events of the nodes that it reaches only. -/
theorem reaches_of_mem_eventsWithin {depth : Nat} (h : event ∈ b.eventsWithin depth n) :
    b.Reaches n event.node := by
  induction depth generalizing n with
  | zero => cases h
  | succ depth ih =>
      rcases mem_flatMap_outline.mp h with hown | ⟨m, hm, hmem⟩
      · rw [node_of_mem_outline hown]
        exact .refl
      · exact .head hm (ih hmem)

theorem reaches_of_mem_events (h : event ∈ b.events n) : b.Reaches n event.node :=
  reaches_of_mem_eventsWithin h

/-- A walk that ends does not depend on how far it may go down. -/
theorem EndsWithin.events_eq {depth depth' : Nat} (h : b.EndsWithin depth n)
    (hle : depth ≤ depth') : b.eventsWithin depth' n = b.eventsWithin depth n := by
  induction depth generalizing n depth' with
  | zero => exact h.elim
  | succ depth ih =>
      obtain ⟨depth', rfl⟩ : ∃ d, depth' = d + 1 := ⟨depth' - 1, by omega⟩
      rw [eventsWithin, eventsWithin]
      refine List.flatMap_congr fun item hitem => ?_
      cases item with
      | event e => rfl
      | part m => exact ih (h m (mem_outline_part.mp hitem)) (by omega)

/-- The events of a walk that ends are those of its outline. -/
theorem Ends.events_eq (hn : b.Ends n) :
    b.events n = (b.outline n).flatMap (WalkItem.events b.events) := by
  rw [events, eventsWithin]
  refine List.flatMap_congr fun item hitem => ?_
  cases item with
  | event e => rfl
  | part m => exact (EndsWithin.events_eq (hn m (mem_outline_part.mp hitem)) (Nat.le_succ _)).symm

/-- The walk as it runs when nothing bounds how far it goes down, with the events it has told when it
ends. -/
inductive Tells (b : Body) : WalkRoot → List Event → Prop
  | node {n : WalkRoot} {told : WalkRoot → List Event} : (∀ m ∈ b.parts n, Tells b m (told m)) →
      Tells b n ((b.outline n).flatMap (WalkItem.events told))

/-- A walk that ends tells the events, and no others. -/
theorem Ends.tells_iff (hn : b.Ends n) {events : List Event} :
    b.Tells n events ↔ b.events n = events := by
  constructor
  · intro h
    induction h with
    | node _ ih =>
        rw [hn.events_eq]
        refine List.flatMap_congr fun item hitem => ?_
        cases item with
        | event e => rfl
        | part m =>
            have hm := mem_outline_part.mp hitem
            exact ih m hm (hn.part hm)
  · rintro rfl
    induction hn using Ends.induction with
    | node n hn ih =>
        rw [hn.events_eq]
        exact .node ih

def values (b : Body) (n : WalkRoot) : List ExprId := (b.events n).filterMap Event.expr?

theorem lambdas_eq_filter (b : Body) (root : WalkRoot) :
    b.lambdas root = (b.values root).filter fun e => (b.expr e).form.isLambda := by
  rw [lambdas, values, List.filter_filterMap]
  refine List.filterMap_congr fun event _ => ?_
  cases event with
  | expr e => rw [eventLambda?, Event.expr?, Option.filter]
  | _ => rfl

theorem mem_values_iff_mem_events : e ∈ b.values n ↔ .expr e ∈ b.events n := by
  have hexpr (event : Event) : event.expr? = some e ↔ event = .expr e := by
    cases event <;> simp [Event.expr?]
  simp [values, List.mem_filterMap, hexpr]

theorem reaches_of_mem_values (h : e ∈ b.values n) : b.Reaches n (.expr e) :=
  reaches_of_mem_events (mem_values_iff_mem_events.mp h)

namespace Ends

theorem events_expr (hn : b.Ends (.expr e)) : b.events (.expr e) =
    b.allocation e ++ ((b.expr e).form.children.flatMap fun c => b.events (.expr c)) ++
      [.expr e] := by
  rw [hn.events_eq, outline_expr]
  simp [List.flatMap_map, WalkItem.events]

/-- What a walk tells of a node that it reaches stands together. -/
theorem infix_of_reaches (hn : b.Ends n) (h : b.Reaches n m) : b.events m <:+: b.events n := by
  induction h using Relation.ReflTransGen.head_induction_on with
  | refl => exact List.infix_rfl
  | @head whole m hm _ ih =>
      rw [hn.events_eq, List.flatMap_def]
      exact (ih (hn.part hm)).trans
        (List.infix_of_mem_flatten (List.mem_map.mpr ⟨_, mem_outline_part.mpr hm, rfl⟩))

theorem mem_values_iff_reaches (hn : b.Ends n) : e ∈ b.values n ↔ b.Reaches n (.expr e) := by
  refine ⟨reaches_of_mem_values, fun h => mem_values_iff_mem_events.mpr ?_⟩
  have hself : .expr e ∈ b.events (.expr e) := by
    rw [(hn.of_reaches h).events_expr]
    exact List.mem_append_right _ (List.mem_singleton_self _)
  exact (hn.infix_of_reaches h).subset hself

/-- In a tree no event is told twice. -/
theorem nodup_events (hn : b.Ends n) (hb : b.IsTree) : (b.events n).Nodup := by
  induction hn using Ends.induction with
  | node n hn ih =>
      have houtline : (b.outline n).Nodup := by
        refine WalkItem.nodup_of_filterMap (b.nodup_outline_events n).1 ?_
        rw [filterMap_part?_outline]
        exact hb.nodup_parts n
      -- An event of the node itself is told in no part, from where no way leads back to the node.
      have hown {event : Event} {m : WalkRoot} (hevent : .event event ∈ b.outline n)
          (hm : .part m ∈ b.outline n) : event ∉ b.events m := by
        intro hmem
        have hreaches := reaches_of_mem_events hmem
        rw [node_of_mem_outline hevent] at hreaches
        exact hn.acyclic (Relation.TransGen.head'_iff.mpr ⟨m, mem_outline_part.mp hm, hreaches⟩)
      rw [hn.events_eq, List.nodup_flatMap]
      refine ⟨fun item hitem => ?_, houtline.imp_of_mem fun {item item'} hitem hitem' hne => ?_⟩
      · cases item with
        | event event => exact List.nodup_singleton event
        | part m => exact ih m (mem_outline_part.mp hitem)
      · intro event hevent hevent'
        cases item with
        | event own =>
            cases List.mem_singleton.mp hevent
            cases item' with
            | event own' =>
                cases List.mem_singleton.mp hevent'
                exact hne rfl
            | part m' => exact hown hitem hitem' hevent'
        | part m =>
            cases item' with
            | event own' =>
                cases List.mem_singleton.mp hevent'
                exact hown hitem' hitem hevent
            | part m' =>
                exact hne (congrArg WalkItem.part (hb.eq_of_reaches hn (mem_outline_part.mp hitem)
                  (mem_outline_part.mp hitem') (reaches_of_mem_events hevent)
                  (reaches_of_mem_events hevent')))

end Ends

namespace IsTree

variable (hb : b.IsTree)
include hb

/-- An expression is evaluated in one unit only. -/
theorem unit_eq {root root' : WalkRoot} (hroot : b.IsUnit root) (hroot' : b.IsUnit root')
    (h : e ∈ b.values root) (h' : e ∈ b.values root') : root = root' :=
  hb.unit_eq_of_reaches hroot hroot' (reaches_of_mem_values h) (reaches_of_mem_values h')

/-- A walk over a unit comes to a lambda expression once. -/
theorem nodup_lambdas (hroot : b.IsUnit root) : (b.lambdas root).Nodup := by
  refine ((hb.ends_of_isUnit hroot).nodup_events hb).filterMap fun event event' l hl hl' => ?_
  have hlambda {event : Event} (h : l ∈ b.eventLambda? event) : event = .expr l := by
    unfold eventLambda? at h
    split at h
    · split at h
      · cases h
        rfl
      · cases h
    · cases h
  rw [hlambda hl, hlambda hl']

end IsTree

/-! ### Bodies built from the leaves up -/

/-- Every node refers to nodes of its unit that stand in front of it: an expression to expressions,
and a statement to statements and to any expressions. -/
def IsBottomUp (b : Body) : Prop := ∀ n ∈ b.nodes, ∀ m ∈ b.parts n, m.height < n.height

instance (b : Body) : Decidable b.IsBottomUp :=
  inferInstanceAs (Decidable (∀ n ∈ b.nodes, ∀ m ∈ b.parts n, m.height < n.height))

/-- No way leads back to where it came from, as it goes on to nodes further in front only. -/
theorem IsBottomUp.ends (hup : b.IsBottomUp) (n : WalkRoot) : b.Ends n := by
  have hlt {n m : WalkRoot} (h : Relation.TransGen b.HasPart n m) : m.height < n.height := by
    induction h with
    | single hm => exact hup _ (mem_nodes_of_mem_parts hm) _ hm
    | tail _ hm ih => exact (hup _ (mem_nodes_of_mem_parts hm) _ hm).trans ih
  exact ends_of_acyclic fun m _ hcycle => lt_irrefl _ (hlt hcycle)

/-- What a walk over a unit tells and when. -/
structure WalksInOrder (b : Body) (root : WalkRoot) : Prop where
  once : (b.events root).Nodup
  /-- An operand is evaluated before the expression that has it. -/
  operands : ∀ e c, .expr e ∈ b.events root → c ∈ (b.expr e).form.children →
    [.expr c, .expr e] <+ b.events root
  /-- An object is allocated before anything happens in the operands of its constructor. -/
  allocations : ∀ e className desc args anonymous,
    (b.expr e).form = .create className desc args anonymous → .expr e ∈ b.events root →
      .allocate e :: (args.flatMap fun c => b.events (.expr c)) ++ [.expr e] <:+: b.events root
  /-- The lambda expressions of the unit are those among the expressions that are told. -/
  lambdas : b.lambdas root = (b.values root).filter (fun e => (b.expr e).form.isLambda) ∧
    b.walk root (fun found event => (found ++ (b.eventLambda? event).toList, false)) [] =
      (b.lambdas root, false)
  /-- A visitor sees the events up to the one at which it asks to stop. -/
  stops : ∀ {σ : Type} (visit : σ → Event → σ × Bool) (start : σ),
    ∃ shown, shown <+: b.events root ∧
      b.walk root (recording visit) (start, []) =
        (((b.walk root visit start).1, shown), (b.walk root visit start).2) ∧
      ((b.walk root visit start).2 = false → shown = b.events root)

theorem Ends.walksInOrder (hroot : b.Ends root) (hb : b.IsTree) : b.WalksInOrder root where
  once := hroot.nodup_events hb
  operands := by
    intro e c he hc
    have hreaches := reaches_of_mem_events he
    have hends := hroot.of_reaches hreaches
    refine List.Sublist.trans ?_ (hroot.infix_of_reaches hreaches).sublist
    have hpart : .expr c ∈ b.parts (.expr e) := List.mem_map_of_mem hc
    have hself : .expr c ∈ b.events (.expr c) := by
      rw [(hends.part hpart).events_expr]
      exact List.mem_append_right _ (List.mem_singleton_self _)
    have hmem : .expr c ∈ (b.expr e).form.children.flatMap fun c => b.events (.expr c) :=
      List.mem_flatMap.mpr ⟨c, hc, hself⟩
    rw [Event.node, hends.events_expr]
    exact (List.singleton_sublist.mpr (List.mem_append_right _ hmem)).append (.refl [Event.expr e])
  allocations := by
    intro e className desc args anonymous hform he
    have hreaches := reaches_of_mem_events he
    have hinfix := hroot.infix_of_reaches hreaches
    rw [Event.node, (hroot.of_reaches hreaches).events_expr, allocation, hform] at hinfix
    exact hinfix
  lambdas := by
    refine ⟨lambdas_eq_filter b root, ?_⟩
    rw [walk_eq_visitUntil, visitUntil_collecting, List.nil_append, Body.lambdas]
  stops := by
    intro σ visit start
    simp only [walk_eq_visitUntil]
    exact visitUntil_recording (b.events root) [] start

end Body

end Injection.Source
