import Injection.Source.Walk
import Mathlib.Data.List.Nodup
import Mathlib.Data.List.Pairwise
import Mathlib.Data.List.Perm.Subperm
import Mathlib.Logic.Relation

/-!
The units of a body. In a body that is a tree no node is referred to from two places. A walk over
one of its units then ends, since there is no way back to a node it is in, and no node is reached in
two units.
-/

namespace Injection.Source

/-! ### References -/

namespace StmtForm

def parts : StmtForm → List WalkRoot
  | block statements => statements.map .stmt
  | declare _ value | result value => value.toList.map .expr
  | expr value | throw value => [.expr value]
  | branch condition yes no => .expr condition :: .stmt yes :: no.toList.map .stmt
  | loop condition body => [.expr condition, .stmt body]
  | loopOver _ collection _ body => [.expr collection, .stmt body]
  | localClass _ | empty => []

end StmtForm

/-- What can refer to a node: the body to its root, a node to its parts, and a lambda expression to
its own body. -/
inductive Place where
  | root
  | part (whole : WalkRoot)
  | lambda (e : ExprId)
deriving DecidableEq

namespace Body

variable {b : Body} {n m : WalkRoot} {p q : Place} {e : ExprId}

/-- The nodes that a node refers to and that belong to its unit. -/
def parts (b : Body) : WalkRoot → List WalkRoot
  | .stmt s => (b.stmt s).form.parts
  | .expr e => (b.expr e).form.children.map .expr

def referred (b : Body) : Place → List WalkRoot
  | .root => [.stmt b.root]
  | .part whole => b.parts whole
  | .lambda e => (b.lambdaRoot? e).toList

def places (b : Body) : List Place :=
  .root :: ((List.range b.stmts.size).map fun s => .part (.stmt s)) ++
    (List.range b.exprs.size).flatMap fun e => [.part (.expr e), .lambda e]

/-- No node is referred to from two places, nor twice from one. -/
def IsTree (b : Body) : Prop := (b.places.flatMap b.referred).Nodup

instance (b : Body) : Decidable b.IsTree := inferInstanceAs (Decidable (List.Nodup _))

/-- There is nothing to refer to outside of the tables. -/
theorem mem_places (h : n ∈ b.referred p) : p ∈ b.places := by
  have hexpr {e : ExprId} (he : ¬e < b.exprs.size) : b.expr e = ⟨.missing, .zero⟩ := by
    simp [expr, Array.getD, he]
  have hstmt {s : StmtId} (hs : ¬s < b.stmts.size) : b.stmt s = ⟨.empty, .zero⟩ := by
    simp [stmt, Array.getD, hs]
  cases p with
  | root => exact List.mem_cons_self
  | part whole =>
      cases whole with
      | stmt s =>
          by_cases hs : s < b.stmts.size
          · simp [places, hs]
          · rw [referred, parts, hstmt hs] at h
            cases h
      | expr e =>
          by_cases he : e < b.exprs.size
          · simp [places, he]
          · rw [referred, parts, hexpr he] at h
            cases h
  | lambda e =>
      by_cases he : e < b.exprs.size
      · simp [places, he]
      · rw [referred, lambdaRoot?, hexpr he] at h
        cases h

namespace IsTree

variable (hb : b.IsTree)
include hb

theorem place_eq (hp : n ∈ b.referred p) (hq : n ∈ b.referred q) : p = q := by
  by_contra hne
  have : Std.Symm (Function.onFun List.Disjoint b.referred) := ⟨fun _ _ h _ ha ha' => h ha' ha⟩
  exact (List.nodup_flatMap.mp hb).2.forall (mem_places hp) (mem_places hq) hne hp hq

theorem nodup_parts (n : WalkRoot) : (b.parts n).Nodup := by
  cases hparts : b.parts n with
  | nil => exact .nil
  | cons m ms =>
      have hm : m ∈ b.referred (.part n) := by
        rw [referred, hparts]
        exact List.mem_cons_self
      have hnodup := (List.nodup_flatMap.mp hb).1 _ (mem_places hm)
      rwa [referred, hparts] at hnodup

theorem whole_eq {whole whole' : WalkRoot} (h : n ∈ b.parts whole) (h' : n ∈ b.parts whole') :
    whole = whole' :=
  Place.part.inj (hb.place_eq (p := .part whole) (q := .part whole') h h')

theorem lambda_eq {l l' : ExprId} (h : b.lambdaRoot? l = some n) (h' : b.lambdaRoot? l' = some n) :
    l = l' :=
  Place.lambda.inj (hb.place_eq (p := .lambda l) (q := .lambda l')
    (Option.mem_toList.mpr h) (Option.mem_toList.mpr h'))

theorem lambdaRoot?_ne_root (l : ExprId) : b.lambdaRoot? l ≠ some (.stmt b.root) := fun h =>
  nomatch hb.place_eq (p := .lambda l) (q := .root) (Option.mem_toList.mpr h) List.mem_cons_self

end IsTree

end Body

/-! ### What a walk reaches -/

namespace Body

variable {b : Body} {n m : WalkRoot}

def HasPart (b : Body) (n m : WalkRoot) : Prop := m ∈ b.parts n

instance (b : Body) : DecidableRel b.HasPart := fun n m =>
  inferInstanceAs (Decidable (m ∈ b.parts n))

def Reaches (b : Body) : WalkRoot → WalkRoot → Prop := Relation.ReflTransGen b.HasPart

/-! ### Walks that end -/

/-- No walk from the node goes down further than `depth` nodes. -/
def EndsWithin (b : Body) : (depth : Nat) → WalkRoot → Prop
  | 0, _ => False
  | depth + 1, n => ∀ m ∈ b.parts n, b.EndsWithin depth m

theorem EndsWithin.mono {depth depth' : Nat} (h : b.EndsWithin depth n) (hle : depth ≤ depth') :
    b.EndsWithin depth' n := by
  induction depth generalizing n depth' with
  | zero => exact h.elim
  | succ depth ih =>
      obtain ⟨depth', rfl⟩ : ∃ d, depth' = d + 1 := ⟨depth' - 1, by omega⟩
      exact fun m hm => ih (h m hm) (by omega)

def Ends (b : Body) (n : WalkRoot) : Prop := b.EndsWithin (b.size + 1) n

theorem Ends.part (h : b.Ends n) (hm : m ∈ b.parts n) : b.Ends m :=
  EndsWithin.mono (h m hm) (Nat.le_succ _)

/-- What holds of a node when it holds of all its parts holds of every node whose walk ends. -/
theorem Ends.induction {P : ∀ n, b.Ends n → Prop}
    (node : ∀ n (hn : b.Ends n), (∀ m (hm : m ∈ b.parts n), P m (hn.part hm)) → P n hn)
    (hn : b.Ends n) : P n hn := by
  have hwithin (depth : Nat) (n : WalkRoot) (hdepth : b.EndsWithin depth n) (hn : b.Ends n) :
      P n hn := by
    induction depth generalizing n with
    | zero => exact hdepth.elim
    | succ depth ih => exact node n hn fun m hm => ih m (hdepth m hm) (hn.part hm)
  exact hwithin _ n hn hn

/-- No way leads back to a node whose walk ends. -/
theorem Ends.acyclic (hn : b.Ends n) : ¬Relation.TransGen b.HasPart n n := by
  induction hn using Ends.induction with
  | node n _ ih =>
      intro hcycle
      obtain ⟨m, hm, hback⟩ := Relation.TransGen.head'_iff.mp hcycle
      exact ih m hm (Relation.TransGen.tail'_iff.mpr ⟨n, hback, hm⟩)

theorem Ends.of_reaches (hn : b.Ends n) (h : b.Reaches n m) : b.Ends m := by
  induction h with
  | refl => exact hn
  | tail _ hm ih => exact ih.part hm

def nodes (b : Body) : List WalkRoot :=
  (List.range b.stmts.size).map .stmt ++ (List.range b.exprs.size).map .expr

theorem mem_nodes_of_mem_parts (h : m ∈ b.parts n) : n ∈ b.nodes := by
  have hplace : Place.part n ∈ b.places := mem_places h
  cases n <;> simpa [places, nodes] using hplace

/-- Where no way leads back to a node, a walk comes through no more nodes than there are, each of
them once. -/
theorem ends_of_acyclic (h : ∀ m, b.Reaches n m → ¬Relation.TransGen b.HasPart m m) :
    b.Ends n := by
  -- The nodes above on the way down are all different.
  have hbelow (depth : Nat) (above : List WalkRoot) (m : WalkRoot)
      (hlength : above.length + depth = b.size + 1) (hnodup : above.Nodup)
      (habove : ∀ a ∈ above, a ∈ b.nodes ∧ Relation.TransGen b.HasPart a m)
      (hreaches : b.Reaches n m) : b.EndsWithin depth m := by
    induction depth generalizing above m with
    | zero =>
        have hle := (hnodup.subperm fun a ha => (habove a ha).1).length_le
        simp only [nodes, List.length_append, List.length_map, List.length_range] at hle
        rw [Nat.add_zero, size] at hlength
        omega
    | succ depth ih =>
        intro m' hm'
        have hnew : m ∉ above := fun hmem => h m hreaches (habove m hmem).2
        refine ih (m :: above) m' (by rw [List.length_cons]; omega)
          (List.nodup_cons.mpr ⟨hnew, hnodup⟩) ?_ (hreaches.tail hm')
        refine List.forall_mem_cons.mpr ⟨⟨mem_nodes_of_mem_parts hm', .single hm'⟩, fun a ha => ?_⟩
        exact ⟨(habove a ha).1, (habove a ha).2.tail hm'⟩
  exact hbelow (b.size + 1) [] n (Nat.zero_add _) .nil (List.forall_mem_nil _) .refl

def IsUnit (b : Body) (root : WalkRoot) : Prop :=
  root = .stmt b.root ∨ ∃ l, b.lambdaRoot? l = some root

namespace IsTree

variable (hb : b.IsTree)
include hb

/-- Of two nodes above a third, one is above the other. -/
theorem reaches_total {n' : WalkRoot} (h : b.Reaches n m) (h' : b.Reaches n' m) :
    b.Reaches n n' ∨ b.Reaches n' n := by
  have hunique : Relator.RightUnique (Function.swap b.HasPart) := fun _ _ _ => hb.whole_eq
  have htotal := Relation.ReflTransGen.total_of_right_unique hunique h.swap h'.swap
  exact htotal.symm.imp Relation.reflTransGen_swap.mp Relation.reflTransGen_swap.mp

/-- The parts of a node whose walk ends have nothing in common. -/
theorem eq_of_reaches {whole m' : WalkRoot} (hwhole : b.Ends whole) (hm : m ∈ b.parts whole)
    (hm' : m' ∈ b.parts whole) (h : b.Reaches m n) (h' : b.Reaches m' n) : m = m' := by
  have hbelow {m m' : WalkRoot} (hm : m ∈ b.parts whole) (hm' : m' ∈ b.parts whole)
      (h : b.Reaches m m') : m = m' := by
    rcases Relation.ReflTransGen.cases_tail h with heq | ⟨whole', hreach, hpart⟩
    · exact heq.symm
    · rw [hb.whole_eq hpart hm'] at hreach
      exact absurd (Relation.TransGen.head'_iff.mpr ⟨m, hm, hreach⟩) hwhole.acyclic
  rcases hb.reaches_total h h' with h | h
  · exact hbelow hm hm' h
  · exact (hbelow hm' hm h).symm

/-- A unit is no part of another one. -/
theorem not_mem_parts_of_isUnit {root : WalkRoot} (hroot : b.IsUnit root) : root ∉ b.parts n := by
  intro hmem
  have hpart : root ∈ b.referred (.part n) := hmem
  rcases hroot with rfl | ⟨l, hl⟩
  · cases hb.place_eq (q := .root) hpart List.mem_cons_self
  · cases hb.place_eq (q := .lambda l) hpart (Option.mem_toList.mpr hl)

/-- A node is reached from one unit only. -/
theorem unit_eq_of_reaches {root root' : WalkRoot} (hroot : b.IsUnit root)
    (hroot' : b.IsUnit root') (h : b.Reaches root n) (h' : b.Reaches root' n) : root = root' := by
  have htop {root root' : WalkRoot} (hroot' : b.IsUnit root') (h : b.Reaches root root') :
      root = root' := by
    rcases Relation.ReflTransGen.cases_tail h with heq | ⟨whole, -, hpart⟩
    · exact heq.symm
    · exact absurd hpart (hb.not_mem_parts_of_isUnit hroot')
  rcases hb.reaches_total h h' with h | h
  · exact htop hroot' h
  · exact (htop hroot h).symm

/-- The way up from a node of a unit leads to the root of the unit, from where it does not go on. So
it never comes back to the node. -/
theorem ends_of_isUnit {root : WalkRoot} (hroot : b.IsUnit root) : b.Ends root := by
  refine ends_of_acyclic fun m hreaches => ?_
  induction hreaches with
  | refl =>
      intro hcycle
      obtain ⟨whole, -, hpart⟩ := Relation.TransGen.tail'_iff.mp hcycle
      exact hb.not_mem_parts_of_isUnit hroot hpart
  | tail _ hm ih =>
      intro hcycle
      obtain ⟨whole, hback, hpart⟩ := Relation.TransGen.tail'_iff.mp hcycle
      rw [hb.whole_eq hpart hm] at hback
      exact ih (Relation.TransGen.head'_iff.mpr ⟨_, hm, hback⟩)

end IsTree

end Body

end Injection.Source
