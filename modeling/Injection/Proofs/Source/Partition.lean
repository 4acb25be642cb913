import Injection.Proofs.Source.EventOrder
import Injection.Source.Builder
import Mathlib.Data.List.Chain
import Mathlib.Data.List.Perm.Subperm

/-!
The units of a body: the unit of its root and those of the lambda expressions in its units. The
walks over all of them tell every event once, and they evaluate every expression of the body.
-/

namespace Injection.Source

namespace Body

variable {b : Body} {n m root root' : WalkRoot} {e l : ExprId} {depth depth' : Nat}

/-! ### Units by their depth -/

def unitsAt (b : Body) : (depth : Nat) → List WalkRoot
  | 0 => [.stmt b.root]
  | depth + 1 => (b.unitsAt depth).flatMap fun root => (b.lambdas root).filterMap b.lambdaRoot?

/-- The roots of all units. There are no more lambda expressions around a unit than expressions. -/
def units (b : Body) : List WalkRoot := (List.range (b.exprs.size + 1)).flatMap b.unitsAt

theorem mem_unitsAt_succ : root ∈ b.unitsAt (depth + 1) ↔
    ∃ outer ∈ b.unitsAt depth, ∃ l ∈ b.lambdas outer, b.lambdaRoot? l = some root := by
  simp [unitsAt, List.mem_flatMap, List.mem_filterMap]

theorem isUnit_of_mem_unitsAt (h : root ∈ b.unitsAt depth) : b.IsUnit root := by
  cases depth with
  | zero => exact .inl (List.mem_singleton.mp h)
  | succ depth =>
      obtain ⟨outer, -, l, -, hl⟩ := mem_unitsAt_succ.mp h
      exact .inr ⟨l, hl⟩

theorem mem_lambdas : l ∈ b.lambdas root ↔ l ∈ b.values root ∧ (b.expr l).form.isLambda = true := by
  rw [lambdas_eq_filter, List.mem_filter]

theorem isLambda_of_lambdaRoot? (h : b.lambdaRoot? l = some root) :
    (b.expr l).form.isLambda = true := by
  unfold lambdaRoot? at h
  split at h
  · rename_i hform
    rw [hform]
    rfl
  · rename_i hform
    rw [hform]
    rfl
  · cases h

/-- There is no lambda expression outside of the table. -/
theorem lt_size_of_lambdaRoot? (h : b.lambdaRoot? l = some root) : l < b.exprs.size := by
  by_contra hl
  have hmissing : b.expr l = ⟨.missing, .zero⟩ := by
    simp [expr, Array.getD, hl]
  rw [lambdaRoot?, hmissing] at h
  cases h

namespace IsTree

variable (hb : b.IsTree)
include hb

/-- A unit has one depth. -/
theorem depth_eq (h : root ∈ b.unitsAt depth) (h' : root ∈ b.unitsAt depth') : depth = depth' := by
  induction depth generalizing root depth' with
  | zero =>
      obtain rfl := List.mem_singleton.mp h
      cases depth' with
      | zero => rfl
      | succ depth' =>
          obtain ⟨-, -, l, -, hl⟩ := mem_unitsAt_succ.mp h'
          exact absurd hl (hb.lambdaRoot?_ne_root l)
  | succ depth ih =>
      obtain ⟨outer, houter, l, hl, hroot⟩ := mem_unitsAt_succ.mp h
      cases depth' with
      | zero =>
          obtain rfl := List.mem_singleton.mp h'
          exact absurd hroot (hb.lambdaRoot?_ne_root l)
      | succ depth' =>
          obtain ⟨outer', houter', l', hl', hroot'⟩ := mem_unitsAt_succ.mp h'
          obtain rfl := hb.lambda_eq hroot hroot'
          obtain rfl := hb.unit_eq (isUnit_of_mem_unitsAt houter) (isUnit_of_mem_unitsAt houter')
            (mem_lambdas.mp hl).1 (mem_lambdas.mp hl').1
          rw [ih houter houter']

theorem nodup_unitsAt (depth : Nat) : (b.unitsAt depth).Nodup := by
  induction depth with
  | zero => exact List.nodup_singleton _
  | succ depth ih =>
      refine List.nodup_flatMap.mpr ⟨fun outer houter => ?_, ih.imp_of_mem ?_⟩
      · exact (hb.nodup_lambdas (isUnit_of_mem_unitsAt houter)).filterMap
          fun l l' root hl hl' => hb.lambda_eq hl hl'
      · intro outer outer' houter houter' hne root hroot hroot'
        obtain ⟨l, hl, hlambda⟩ := List.mem_filterMap.mp hroot
        obtain ⟨l', hl', hlambda'⟩ := List.mem_filterMap.mp hroot'
        obtain rfl := hb.lambda_eq hlambda hlambda'
        exact hne (hb.unit_eq (isUnit_of_mem_unitsAt houter) (isUnit_of_mem_unitsAt houter')
          (mem_lambdas.mp hl).1 (mem_lambdas.mp hl').1)

theorem nodup_units : b.units.Nodup := by
  refine List.nodup_flatMap.mpr ⟨fun depth _ => hb.nodup_unitsAt depth, ?_⟩
  exact List.nodup_range.imp fun hne root h h' => hne (hb.depth_eq h h')

/-- Around a unit there are as many different lambda expressions as its depth says. -/
theorem exists_around (h : root ∈ b.unitsAt depth) :
    ∃ around : List ExprId, around.length = depth ∧ around.Nodup ∧ ∀ l ∈ around,
      l < b.exprs.size ∧ ∃ outer depth', depth' < depth ∧ outer ∈ b.unitsAt depth' ∧
        l ∈ b.lambdas outer := by
  induction depth generalizing root with
  | zero => exact ⟨[], rfl, .nil, List.forall_mem_nil _⟩
  | succ depth ih =>
      obtain ⟨outer, houter, l, hl, hroot⟩ := mem_unitsAt_succ.mp h
      obtain ⟨around, hlength, hnodup, haround⟩ := ih houter
      refine ⟨l :: around, by rw [List.length_cons, hlength], List.nodup_cons.mpr ⟨?_, hnodup⟩,
        List.forall_mem_cons.mpr ⟨⟨lt_size_of_lambdaRoot? hroot, outer, depth,
          Nat.lt_succ_self depth, houter, hl⟩, fun l' hl' => ?_⟩⟩
      · -- The lambda expression would be in a second unit, less deep than its own.
        intro hmem
        obtain ⟨-, outer', depth', hlt, houter', hl'⟩ := haround l hmem
        obtain rfl := hb.unit_eq (isUnit_of_mem_unitsAt houter) (isUnit_of_mem_unitsAt houter')
          (mem_lambdas.mp hl).1 (mem_lambdas.mp hl').1
        exact absurd (hb.depth_eq houter houter') (Nat.ne_of_gt hlt)
      · obtain ⟨hsize, outer', depth', hlt, houter'⟩ := haround l' hl'
        exact ⟨hsize, outer', depth', Nat.lt_succ_of_lt hlt, houter'⟩

theorem depth_le (h : root ∈ b.unitsAt depth) : depth ≤ b.exprs.size := by
  obtain ⟨around, hlength, hnodup, haround⟩ := hb.exists_around h
  have hsubset : around ⊆ List.range b.exprs.size := fun l hl =>
    List.mem_range.mpr (haround l hl).1
  have hle := (hnodup.subperm hsubset).length_le
  rwa [hlength, List.length_range] at hle

theorem mem_units : root ∈ b.units ↔ ∃ depth, root ∈ b.unitsAt depth := by
  refine ⟨fun h => ?_, fun ⟨depth, h⟩ => ?_⟩
  · obtain ⟨depth, -, h⟩ := List.mem_flatMap.mp h
    exact ⟨depth, h⟩
  · exact List.mem_flatMap.mpr ⟨depth,
      List.mem_range.mpr (Nat.lt_succ_of_le (hb.depth_le h)), h⟩

theorem isUnit_of_mem_units (h : root ∈ b.units) : b.IsUnit root := by
  obtain ⟨depth, h⟩ := hb.mem_units.mp h
  exact isUnit_of_mem_unitsAt h

/-- The lambda expressions in units have units. -/
theorem mem_units_of_lambda (h : root ∈ b.units) (hl : l ∈ b.lambdas root)
    (hroot : b.lambdaRoot? l = some root') : root' ∈ b.units := by
  obtain ⟨depth, h⟩ := hb.mem_units.mp h
  exact hb.mem_units.mpr ⟨depth + 1, mem_unitsAt_succ.mpr ⟨root, h, l, hl, hroot⟩⟩

end IsTree

/-! ### The nodes of a body -/

def references (b : Body) : WalkRoot → List WalkRoot
  | .expr e => b.parts (.expr e) ++ (b.lambdaRoot? e).toList
  | .stmt s => b.parts (.stmt s)

def Contains (b : Body) (n : WalkRoot) : Prop :=
  Relation.ReflTransGen (fun n m => m ∈ b.references n) (.stmt b.root) n

theorem mem_references : m ∈ b.references n ↔
    m ∈ b.parts n ∨ ∃ l, n = .expr l ∧ b.lambdaRoot? l = some m := by
  cases n <;> simp [references]

/-- What a walk from a node of the body reaches is in the body. -/
theorem Contains.of_reaches (hn : b.Contains n) (h : b.Reaches n m) : b.Contains m :=
  hn.trans (Relation.ReflTransGen.mono (fun _ _ hm => mem_references.mpr (.inl hm)) _ _ h)

theorem contains_of_mem_unitsAt (h : root ∈ b.unitsAt depth) : b.Contains root := by
  induction depth generalizing root with
  | zero =>
      rw [List.mem_singleton.mp h]
      exact .refl
  | succ depth ih =>
      obtain ⟨outer, houter, l, hl, hroot⟩ := mem_unitsAt_succ.mp h
      have hlambda := (ih houter).of_reaches (reaches_of_mem_values (mem_lambdas.mp hl).1)
      exact hlambda.tail (mem_references.mpr (.inr ⟨l, rfl, hroot⟩))

/-- Every node of the body is reached in one of its units. -/
theorem Contains.exists_unit (h : b.Contains n) (hb : b.IsTree) :
    ∃ root ∈ b.units, b.Reaches root n := by
  induction h with
  | refl => exact ⟨_, hb.mem_units.mpr ⟨0, List.mem_singleton_self _⟩, .refl⟩
  | tail _ hm ih =>
      obtain ⟨root, hroot, hreaches⟩ := ih
      rcases mem_references.mp hm with hpart | ⟨l, rfl, hl⟩
      · exact ⟨root, hroot, hreaches.tail hpart⟩
      · have hends := hb.ends_of_isUnit (hb.isUnit_of_mem_units hroot)
        have hmem : l ∈ b.lambdas root :=
          mem_lambdas.mpr ⟨hends.mem_values_iff_reaches.mpr hreaches, isLambda_of_lambdaRoot? hl⟩
        exact ⟨_, hb.mem_units_of_lambda hroot hmem hl, .refl⟩

/-! ### The walks over all units -/

/-- The walks over the units of a tree tell every event once. They evaluate the expressions of the
body, in the order of evaluation, and nothing else. -/
theorem IsTree.units_partition (hb : b.IsTree) (hup : b.IsBottomUp) :
    (b.units.flatMap b.events).Nodup ∧
      (∀ e, .expr e ∈ b.units.flatMap b.events ↔ b.Contains (.expr e)) ∧
      (∀ root ∈ b.units, ∀ l ∈ b.lambdas root, ∀ root', b.lambdaRoot? l = some root' →
        root' ∈ b.units) ∧
      ∀ root, b.WalksInOrder root := by
  refine ⟨?_, fun e => ⟨fun h => ?_, fun h => ?_⟩,
    fun root hroot l hl root' => hb.mem_units_of_lambda hroot hl,
    fun root => (hup.ends root).walksInOrder hb⟩
  · refine List.nodup_flatMap.mpr ⟨fun root _ => (hup.ends root).nodup_events hb,
      hb.nodup_units.imp_of_mem fun {root root'} hroot hroot' hne event h h' => hne ?_⟩
    exact hb.unit_eq_of_reaches (hb.isUnit_of_mem_units hroot) (hb.isUnit_of_mem_units hroot')
      (reaches_of_mem_events h) (reaches_of_mem_events h')
  · obtain ⟨root, hroot, he⟩ := List.mem_flatMap.mp h
    obtain ⟨depth, hroot⟩ := hb.mem_units.mp hroot
    exact (contains_of_mem_unitsAt hroot).of_reaches (reaches_of_mem_events he)
  · obtain ⟨root, hroot, hreaches⟩ := h.exists_unit hb
    exact List.mem_flatMap.mpr ⟨root, hroot,
      mem_values_iff_mem_events.mp ((hup.ends root).mem_values_iff_reaches.mpr hreaches)⟩

/-- An object that is made from a lambda expression whose block has another one in it. -/
def nestedBody : Body :=
  .build .forStatic
    [.expr .this, .expr (.lambda [] (.expr 0)), .stmt (.expr 1), .expr (.lambda [] (.block 0)),
      .expr (.create "a/B" "(Ljava/lang/Runnable;)V" [2] none), .stmt (.expr 3)] [1]

/-- The receiver in the inner lambda expression is evaluated in one of the units, and the object is
allocated before its argument. -/
theorem units_partition_nestedBody :
    nestedBody.IsTree ∧ nestedBody.IsBottomUp ∧
      (nestedBody.units.flatMap nestedBody.events).Nodup ∧
      .expr 0 ∈ nestedBody.units.flatMap nestedBody.events ∧
      [Event.allocate 3, .expr 2, .expr 3] <:+: nestedBody.events (.stmt nestedBody.root) := by
  have hb : nestedBody.IsTree := by decide
  have hup : nestedBody.IsBottomUp := by decide
  obtain ⟨hnodup, hmem, -, hwalks⟩ := hb.units_partition hup
  have hcontains : nestedBody.Contains (.expr 0) :=
    List.relationReflTransGen_of_exists_isChain_cons
      [.stmt 1, .expr 3, .expr 2, .stmt 0, .expr 1, .expr 0] (by decide) rfl
  have hreaches : nestedBody.Reaches (.stmt nestedBody.root) (.expr 3) :=
    List.relationReflTransGen_of_exists_isChain_cons [.stmt 1, .expr 3] (by decide) rfl
  have hargument : nestedBody.events (.expr 2) = [.expr 2] := (hup.ends _).events_expr
  have hallocation := (hwalks (.stmt nestedBody.root)).allocations 3 _ _ _ _ rfl
    (mem_values_iff_mem_events.mp ((hup.ends _).mem_values_iff_reaches.mpr hreaches))
  rw [List.flatMap_singleton, hargument] at hallocation
  exact ⟨hb, hup, hnodup, (hmem 0).mpr hcontains, hallocation⟩

end Body

end Injection.Source
