import Injection.Typing.Hierarchy
import Mathlib.Tactic.Common

/-!
Superclasses in a well-formed hierarchy.

`Subclass` is the order in which `commonSuperClass` is the least upper bound: an interface stands
below nothing but itself and the top class. `level` counts the classes on the way up and falls
with every strict step of that order.
-/

namespace Injection.Hierarchy

open TypeValue (objectClass)

def ancestor? (h : Hierarchy) : (steps : Nat) → (name : String) → Option String
  | 0, name => some name
  | steps + 1, name => (h.superClass name).bind (h.ancestor? steps)

/-- What a hierarchy promises: going up never comes back, passes at most 64 classes, never
meets an interface, and ends at the top class if it gets there. -/
structure WellFormed (h : Hierarchy) : Prop where
  acyclic : ∀ steps name, h.ancestor? (steps + 1) name ≠ some name
  depth : ∀ name, h.ancestor? maxDepth name = none
  classes : ∀ name parent, h.superClass name = some parent → h.isInterface parent = false
  top : h.superClass objectClass = none

def lineage (h : Hierarchy) : (room : Nat) → (name : String) → List String
  | 0, _ => []
  | room + 1, name =>
    name :: match h.superClass name with
      | some parent => h.lineage room parent
      | none => []

/-- The order of classes: each is below its superclasses, and all are below the top class. -/
def Subclass (h : Hierarchy) (a b : String) : Prop :=
  a = b ∨ b = objectClass ∨ (h.isInterface a = false ∧ ∃ n, h.ancestor? n a = some b)

def level (h : Hierarchy) (name : String) : Nat := (h.lineage maxDepth name).length

variable {h : Hierarchy}

theorem ancestor?_add (m n : Nat) (name : String) :
    h.ancestor? (m + n) name = (h.ancestor? m name).bind (h.ancestor? n) := by
  induction m generalizing name with
  | zero => simp [ancestor?]
  | succ m ih =>
      rw [Nat.succ_add]
      simp only [ancestor?, Option.bind_assoc]
      congr 1
      funext parent
      exact ih parent

theorem ancestor?_one (name : String) : h.ancestor? 1 name = h.superClass name := by
  simp [ancestor?]

/-- A count that is one higher than at the superclass counts the steps of going up. -/
theorem eq_add_of_ancestor? (count : String → Nat)
    (hsucc : ∀ a parent, h.superClass a = some parent → count a = count parent + 1) {n : Nat}
    {a b : String} (hab : h.ancestor? n a = some b) : count a = count b + n := by
  induction n generalizing a with
  | zero =>
      have : a = b := by simpa [ancestor?] using hab
      rw [this, Nat.add_zero]
  | succ n ih =>
      cases hp : h.superClass a with
      | none => simp [ancestor?, hp] at hab
      | some parent =>
          simp only [ancestor?, hp, Option.bind_some] at hab
          rw [hsucc a parent hp, ih hab]
          omega

/-- No superclass has a superclass itself. -/
theorem ancestor?_two_of_shallow
    (hparent : ∀ name parent, h.superClass name = some parent → h.superClass parent = none)
    (name : String) : h.ancestor? 2 name = none := by
  rw [show (2 : Nat) = 1 + 1 from rfl, ancestor?]
  cases hp : h.superClass name with
  | none => rfl
  | some parent => rw [Option.bind_some, ancestor?_one, hparent name parent hp]

theorem wellFormed_of_shallow
    (hparent : ∀ name parent, h.superClass name = some parent → h.superClass parent = none)
    (hclasses : ∀ name parent, h.superClass name = some parent → h.isInterface parent = false)
    (htop : h.superClass objectClass = none) : h.WellFormed := by
  have two := ancestor?_two_of_shallow hparent
  refine ⟨fun steps name => ?_, fun name => ?_, hclasses, htop⟩
  · cases steps with
    | zero =>
        intro hself
        rw [Nat.zero_add, ancestor?_one] at hself
        have := hparent name name hself
        rw [hself] at this
        cases this
    | succ steps =>
        rw [Nat.add_assoc, Nat.add_comm, ancestor?_add, two, Option.bind_none]
        simp
  · rw [show maxDepth = 2 + 62 from rfl, ancestor?_add, two, Option.bind_none]

/-! ### The way up as a list -/

theorem mem_lineage {room : Nat} {a b : String} :
    b ∈ h.lineage room a ↔ ∃ n < room, h.ancestor? n a = some b := by
  induction room generalizing a with
  | zero => simp [lineage]
  | succ room ih =>
      simp only [lineage, List.mem_cons]
      constructor
      · rintro (rfl | hb)
        · exact ⟨0, by omega, rfl⟩
        · cases hp : h.superClass a with
          | none => simp [hp] at hb
          | some parent =>
              obtain ⟨n, hn, hn'⟩ := ih.mp (by simpa [hp] using hb)
              exact ⟨n + 1, by omega, by simpa [ancestor?, hp] using hn'⟩
      · rintro ⟨n, hn, hb⟩
        cases n with
        | zero => exact .inl (by simpa [ancestor?] using hb.symm)
        | succ n =>
            cases hp : h.superClass a with
            | none => simp [ancestor?, hp] at hb
            | some parent =>
                simp only [ancestor?, hp, Option.bind_some] at hb
                exact .inr (ih.mpr ⟨n, by omega, hb⟩)

theorem lineage_succ {room : Nat} {name parent : String}
    (hp : h.superClass name = some parent) :
    h.lineage (room + 1) name = name :: h.lineage room parent := by
  rw [lineage, hp]

theorem length_lineage_le (room : Nat) (name : String) : (h.lineage room name).length ≤ room := by
  induction room generalizing name with
  | zero => simp [lineage]
  | succ room ih =>
      simp only [lineage, List.length_cons]
      cases hp : h.superClass name with
      | none => simp
      | some parent => simpa using ih parent

/-- More room changes nothing once the way up has ended. -/
theorem lineage_succ_eq {room : Nat} {name : String} (hend : h.ancestor? room name = none) :
    h.lineage (room + 1) name = h.lineage room name := by
  induction room generalizing name with
  | zero => simp [ancestor?] at hend
  | succ room ih =>
      rw [lineage, lineage]
      cases hp : h.superClass name with
      | none => rfl
      | some parent =>
          simp only [ancestor?, hp, Option.bind_some] at hend
          simp only [ih hend]

/-- What follows a class on the way up is its own way up. -/
theorem exists_lineage_of_append {room : Nat} {a b : String} {before after : List String}
    (heq : h.lineage room a = before ++ b :: after) :
    ∃ room', h.lineage room' b = b :: after := by
  induction room generalizing a before with
  | zero => simp [lineage] at heq
  | succ room ih =>
      cases before with
      | nil =>
          have hab : a = b := by
            simp only [lineage, List.nil_append, List.cons.injEq] at heq
            exact heq.1
          exact ⟨room + 1, by rw [← hab, heq, hab]; rfl⟩
      | cons c before =>
          simp only [lineage, List.cons_append, List.cons.injEq] at heq
          cases hp : h.superClass a with
          | none => simp [hp] at heq
          | some parent =>
              simp only [hp] at heq
              exact ih heq.2

namespace WellFormed

variable (wf : h.WellFormed)

include wf

theorem chainFrom_eq {room : Nat} {seen : List String} {name : String}
    (hseen : ∀ s ∈ seen, ∃ n, h.ancestor? (n + 1) s = some name) :
    h.chainFrom room seen name = h.lineage (room + 1) name := by
  induction room generalizing seen name with
  | zero =>
      rw [chainFrom, lineage]
      cases h.superClass name <;> rfl
  | succ room ih =>
      rw [chainFrom, lineage]
      cases hp : h.superClass name with
      | none => rfl
      | some parent =>
          have hup : ∀ s ∈ name :: seen, ∃ n, h.ancestor? (n + 1) s = some parent := by
            intro s hs
            rcases List.mem_cons.mp hs with rfl | hs
            · exact ⟨0, by rw [ancestor?_one, hp]⟩
            · obtain ⟨n, hn⟩ := hseen s hs
              exact ⟨n + 1, by rw [ancestor?_add, hn, Option.bind_some, ancestor?_one, hp]⟩
          have hnew : (name :: seen).contains parent = false := by
            rw [List.contains_eq_mem, decide_eq_false_iff_not]
            intro hmem
            obtain ⟨n, hn⟩ := hup parent hmem
            exact wf.acyclic n parent hn
          simp only [hnew, Bool.false_eq_true, if_false]
          rw [ih hup]

theorem chain_eq (name : String) : h.chain name = h.lineage maxDepth name :=
  wf.chainFrom_eq (by simp)

theorem ancestor?_eq_none {n : Nat} (hn : maxDepth ≤ n) (name : String) :
    h.ancestor? n name = none := by
  obtain ⟨k, rfl⟩ := Nat.exists_eq_add_of_le hn
  rw [ancestor?_add, wf.depth, Option.bind_none]

theorem mem_chain {a b : String} : b ∈ h.chain a ↔ ∃ n, h.ancestor? n a = some b := by
  rw [wf.chain_eq, mem_lineage]
  constructor
  · rintro ⟨n, -, hn⟩
    exact ⟨n, hn⟩
  · rintro ⟨n, hn⟩
    refine ⟨n, ?_, hn⟩
    by_contra hle
    rw [wf.ancestor?_eq_none (by omega)] at hn
    cases hn

theorem not_isInterface {n : Nat} {a b : String} (ha : h.isInterface a = false)
    (hab : h.ancestor? n a = some b) : h.isInterface b = false := by
  cases n with
  | zero =>
      have : a = b := by simpa [ancestor?] using hab
      exact this ▸ ha
  | succ n =>
      rw [ancestor?_add] at hab
      cases hc : h.ancestor? n a with
      | none => simp [hc] at hab
      | some c =>
          rw [hc, Option.bind_some, ancestor?_one] at hab
          exact wf.classes c b hab

theorem eq_objectClass {n : Nat} {b : String} (hb : h.ancestor? n objectClass = some b) :
    b = objectClass := by
  cases n with
  | zero => simpa [ancestor?] using hb.symm
  | succ n => simp [ancestor?, wf.top] at hb

theorem level_succ {a parent : String} (hp : h.superClass a = some parent) :
    h.level a = h.level parent + 1 := by
  -- The bound is named, since unfolding the recursion at the numeral is slow.
  obtain ⟨room, hroom⟩ : ∃ room, maxDepth = room + 1 := ⟨63, rfl⟩
  have hend : h.ancestor? room parent = none := by
    have := wf.depth a
    rwa [hroom, ancestor?, hp, Option.bind_some] at this
  rw [level, level, hroom, lineage_succ hp, lineage_succ_eq hend, List.length_cons]

theorem level_eq_add {n : Nat} {a b : String} (hab : h.ancestor? n a = some b) :
    h.level a = h.level b + n :=
  eq_add_of_ancestor? h.level (fun _ _ => wf.level_succ) hab

/-! ### The nearest common superclass is the least upper bound -/

theorem subclass_trans {a b c : String} (hab : h.Subclass a b) (hbc : h.Subclass b c) :
    h.Subclass a c := by
  rcases hab with rfl | rfl | ⟨ha, m, hm⟩
  · exact hbc
  · rcases hbc with rfl | rfl | ⟨-, n, hn⟩
    · exact .inr (.inl rfl)
    · exact .inr (.inl rfl)
    · exact .inr (.inl (wf.eq_objectClass hn))
  · rcases hbc with rfl | rfl | ⟨-, n, hn⟩
    · exact .inr (.inr ⟨ha, m, hm⟩)
    · exact .inr (.inl rfl)
    · exact .inr (.inr ⟨ha, m + n, by rw [ancestor?_add, hm, Option.bind_some, hn]⟩)

/-- Strictly below means lower in the hierarchy, or below the top class. -/
theorem eq_or_level_lt {a b : String} (hab : h.Subclass a b) :
    a = b ∨ b = objectClass ∨ h.level b < h.level a := by
  rcases hab with hab | hb | ⟨-, n, hn⟩
  · exact .inl hab
  · exact .inr (.inl hb)
  · cases n with
    | zero => exact .inl (by simpa [ancestor?] using hn)
    | succ n => exact .inr (.inr (by have := wf.level_eq_add hn; omega))

theorem subclass_antisymm {a b : String} (hab : h.Subclass a b) (hba : h.Subclass b a) :
    a = b := by
  have top {c : String} (hc : h.Subclass objectClass c) : objectClass = c := by
    rcases hc with hc | hc | ⟨-, n, hn⟩
    · exact hc
    · exact hc.symm
    · exact (wf.eq_objectClass hn).symm
  rcases wf.eq_or_level_lt hab with rfl | rfl | hlt
  · rfl
  · exact (top hba).symm
  · rcases wf.eq_or_level_lt hba with rfl | rfl | hlt'
    · rfl
    · exact top hab
    · omega

/-- The class that `commonSuperClass` finds is the first on the way up from `b` that is also on
the way up from `a`. -/
theorem commonSuperClass_cases (a b : String) :
    (a = b ∧ h.commonSuperClass a b = a) ∨
    (h.commonSuperClass a b = objectClass ∧ a ≠ b ∧
      (h.isInterface a = true ∨ h.isInterface b = true ∨
        ∀ c n m, h.ancestor? n a = some c → h.ancestor? m b ≠ some c)) ∨
    (h.isInterface a = false ∧ h.isInterface b = false ∧
      (∃ n, h.ancestor? n a = some (h.commonSuperClass a b)) ∧
      (∃ n, h.ancestor? n b = some (h.commonSuperClass a b)) ∧
      ∀ c n m, h.ancestor? n a = some c → h.ancestor? m b = some c →
        ∃ k, h.ancestor? k (h.commonSuperClass a b) = some c) := by
  unfold commonSuperClass
  by_cases hab : a = b
  · exact .inl ⟨hab, if_pos hab⟩
  rw [if_neg hab]
  by_cases hi : (h.isInterface a || h.isInterface b) = true
  · rw [if_pos hi]
    rw [Bool.or_eq_true] at hi
    exact .inr (.inl ⟨rfl, hab, hi.elim .inl fun hb => .inr (.inl hb)⟩)
  rw [if_neg hi]
  simp only [Bool.or_eq_true, not_or, Bool.not_eq_true] at hi
  cases hf : (h.chain b).find? (h.chain a).contains with
  | none =>
      refine .inr (.inl ⟨rfl, hab, .inr (.inr fun c n m hn hm => ?_)⟩)
      have hc := List.find?_eq_none.mp hf c (wf.mem_chain.mpr ⟨m, hm⟩)
      rw [List.contains_eq_mem, decide_eq_true_eq] at hc
      exact hc (wf.mem_chain.mpr ⟨n, hn⟩)
  | some c =>
      rw [Option.getD_some]
      obtain ⟨hca, before, after, hsplit, hbefore⟩ := List.find?_eq_some_iff_append.mp hf
      rw [List.contains_eq_mem, decide_eq_true_eq] at hca
      have hcb : c ∈ h.chain b := by rw [hsplit]; simp
      refine .inr (.inr ⟨hi.1, hi.2, wf.mem_chain.mp hca, wf.mem_chain.mp hcb, ?_⟩)
      intro d n m hn hm
      have hdb : d ∈ h.chain b := wf.mem_chain.mpr ⟨m, hm⟩
      rw [hsplit] at hdb
      -- The first common class is not passed by `d`, so `d` is on its way up.
      rcases List.mem_append.mp hdb with hd | hd
      · have := hbefore d hd
        rw [Bool.not_eq_true', List.contains_eq_mem, decide_eq_false_iff_not] at this
        exact absurd (wf.mem_chain.mpr ⟨n, hn⟩) this
      · rw [wf.chain_eq] at hsplit
        obtain ⟨room, hroom⟩ := exists_lineage_of_append hsplit
        rw [← hroom] at hd
        obtain ⟨k, -, hk⟩ := mem_lineage.mp hd
        exact ⟨k, hk⟩

theorem subclass_commonSuperClass_left (a b : String) :
    h.Subclass a (h.commonSuperClass a b) := by
  rcases wf.commonSuperClass_cases a b with ⟨-, heq⟩ | ⟨heq, -⟩ | ⟨ha, -, hup, -⟩
  · exact .inl heq.symm
  · exact .inr (.inl heq)
  · exact .inr (.inr ⟨ha, hup⟩)

theorem subclass_commonSuperClass_right (a b : String) :
    h.Subclass b (h.commonSuperClass a b) := by
  rcases wf.commonSuperClass_cases a b with ⟨rfl, heq⟩ | ⟨heq, -⟩ | ⟨-, hb, -, hup, -⟩
  · exact .inl heq.symm
  · exact .inr (.inl heq)
  · exact .inr (.inr ⟨hb, hup⟩)

theorem commonSuperClass_subclass {a b c : String} (hac : h.Subclass a c)
    (hbc : h.Subclass b c) : h.Subclass (h.commonSuperClass a b) c := by
  by_cases hc : c = objectClass
  · exact .inr (.inl hc)
  have up {d : String} (hd : h.Subclass d c) :
      d = c ∨ h.isInterface d = false ∧ ∃ n, h.ancestor? (n + 1) d = some c := by
    rcases hd with hd | hd | ⟨hi, n, hn⟩
    · exact .inl hd
    · exact absurd hd hc
    · cases n with
      | zero => exact .inl (by simpa [ancestor?] using hn)
      | succ n => exact .inr ⟨hi, n, hn⟩
  have reach {d : String} (hd : h.Subclass d c) : ∃ n, h.ancestor? n d = some c := by
    rcases up hd with rfl | ⟨-, n, hn⟩
    · exact ⟨0, rfl⟩
    · exact ⟨n + 1, hn⟩
  -- Of two classes below `c` at most one is `c`, and the other goes up to it.
  have class_of_ne {d e : String} (hd : h.Subclass d c) (he : h.Subclass e c) (hde : d ≠ e) :
      h.isInterface d = false := by
    rcases up hd with rfl | ⟨hi, -⟩
    · rcases up he with rfl | ⟨hi, n, hn⟩
      · exact absurd rfl hde
      · exact wf.not_isInterface hi hn
    · exact hi
  obtain ⟨n, hn⟩ := reach hac
  obtain ⟨m, hm⟩ := reach hbc
  rcases wf.commonSuperClass_cases a b with ⟨-, heq⟩ | ⟨-, hab, hno⟩ | ⟨ha, -, ⟨k, hk⟩, -, hall⟩
  · rwa [heq]
  · rcases hno with hi | hi | hno
    · rw [class_of_ne hac hbc hab] at hi
      cases hi
    · rw [class_of_ne hbc hac (Ne.symm hab)] at hi
      cases hi
    · exact absurd hm (hno c n m hn)
  · exact .inr (.inr ⟨wf.not_isInterface ha hk, hall c n m hn hm⟩)

end WellFormed

end Injection.Hierarchy
