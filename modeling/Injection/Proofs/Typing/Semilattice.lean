import Injection.Proofs.Typing.Join
import Mathlib.Order.Lattice

/-!
The values of a well-formed hierarchy as a semilattice.

`merge` is the least upper bound of `ValueLe`, so its laws are those of a join and no case of the
merge is looked at again: arrays, interfaces and classes that no hierarchy knows are below the
same top class.
-/

namespace Injection.Hierarchy

namespace WellFormed

variable {h : Hierarchy} (wf : h.WellFormed)

/-- Values in the order of what they leave open, joined by merging. -/
abbrev semilattice : SemilatticeSup TypeValue where
  le := h.ValueLe
  le_refl := valueLe_refl
  le_trans _ _ _ := wf.valueLe_trans
  le_antisymm _ _ := wf.valueLe_antisymm
  sup := h.merge
  le_sup_left a b := (wf.valueLe_merge a b).1
  le_sup_right a b := (wf.valueLe_merge a b).2
  sup_le _ _ _ := wf.merge_valueLe

include wf

theorem merge_comm (a b : TypeValue) : h.merge a b = h.merge b a :=
  letI := wf.semilattice
  sup_comm a b

theorem merge_assoc (a b c : TypeValue) :
    h.merge (h.merge a b) c = h.merge a (h.merge b c) :=
  letI := wf.semilattice
  sup_assoc a b c

theorem merge_valueLe_iff {a b c : TypeValue} :
    h.ValueLe (h.merge a b) c ↔ h.ValueLe a c ∧ h.ValueLe b c :=
  @sup_le_iff TypeValue wf.semilattice a b c

end WellFormed

/-- Over a well-formed hierarchy merging is a join: idempotent, commutative and associative, with
unset as its absorbing top, and the least value above both. -/
theorem merge_isJoin {h : Hierarchy} (wf : h.WellFormed) :
    (∀ a, h.merge a a = a) ∧
    (∀ a b, h.merge a b = h.merge b a) ∧
    (∀ a b c, h.merge (h.merge a b) c = h.merge a (h.merge b c)) ∧
    (∀ a, h.merge a .unset = .unset ∧ h.merge .unset a = .unset) ∧
    (∀ a b c, h.ValueLe (h.merge a b) c ↔ h.ValueLe a c ∧ h.ValueLe b c) ∧
    ∀ a, h.ValueLe a .unset :=
  ⟨h.merge_self, wf.merge_comm, wf.merge_assoc,
    fun a => ⟨h.merge_unset_right a, h.merge_unset_left a⟩, fun _ _ _ => wf.merge_valueLe_iff,
    valueLe_unset⟩

/-- Two classes below a third that does not reach the top class, and an interface. -/
def pets : Hierarchy :=
  ⟨fun name => if name = "a/Cat" ∨ name = "a/Dog" then some "a/Animal" else none,
    fun name => name = "a/Pet"⟩

theorem wellFormed_pets : pets.WellFormed := by
  have parent_eq {name parent : String} (hp : pets.superClass name = some parent) :
      parent = "a/Animal" := by
    simp only [pets, Option.ite_none_right_eq_some, Option.some.injEq] at hp
    exact hp.2.symm
  refine wellFormed_of_shallow (fun name parent hp => ?_) (fun name parent hp => ?_) (by decide)
  all_goals
    rw [parent_eq hp]
    decide

/-- The order of merging two classes and an interface does not matter, also inside of arrays. -/
theorem merge_pets :
    pets.WellFormed ∧
    pets.merge (.reference "[[La/Cat;") (.reference "[[La/Dog;") = .reference "[[La/Animal;" ∧
    pets.merge (.reference "[[La/Animal;") (.reference "[[La/Pet;") =
      .reference "[[Ljava/lang/Object;" ∧
    pets.merge (.reference "[[La/Cat;")
        (pets.merge (.reference "[[La/Dog;") (.reference "[[La/Pet;")) =
      .reference "[[Ljava/lang/Object;" := by
  have hcats : pets.merge (.reference "[[La/Cat;") (.reference "[[La/Dog;") =
      .reference "[[La/Animal;" := by decide +kernel
  have hpets : pets.merge (.reference "[[La/Animal;") (.reference "[[La/Pet;") =
      .reference "[[Ljava/lang/Object;" := by decide +kernel
  refine ⟨wellFormed_pets, hcats, hpets, ?_⟩
  rw [← (merge_isJoin wellFormed_pets).2.2.1, hcats, hpets]

end Injection.Hierarchy
