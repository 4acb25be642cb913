import Injection.Proofs.Typing.Join
import Mathlib.Data.Nat.Find

/-!
What merging uses up over any hierarchy in which going up comes to an end.

Where the way up is longer than the search for a common superclass, or where an interface has
subclasses, merging is no join: its answer may be below neither side's superclasses. All that is
left is that a merge turns null into a reference, keeps a value, or lowers its `rank`, and this is
what the loop of the analysis needs to end.
-/

namespace Injection

namespace Hierarchy

open TypeValue (objectClass)

/-- Going up from any class comes to an end, and nothing is above the top class. -/
structure Grounded (h : Hierarchy) : Prop where
  ends : ∀ name, ∃ steps, h.ancestor? steps name = none
  top : h.superClass objectClass = none

variable {h : Hierarchy}

/-- Every class on a chain is reached by going up. -/
theorem exists_ancestor_of_mem_chainFrom {room : Nat} {seen : List String} {a b : String}
    (hb : b ∈ h.chainFrom room seen a) : ∃ n, h.ancestor? n a = some b := by
  induction room generalizing seen a with
  | zero =>
      rw [chainFrom, List.mem_singleton] at hb
      exact ⟨0, by rw [hb]; rfl⟩
  | succ room ih =>
      rw [chainFrom] at hb
      cases hp : h.superClass a with
      | none =>
          simp only [hp, List.mem_singleton] at hb
          exact ⟨0, by rw [hb]; rfl⟩
      | some parent =>
          simp only [hp] at hb
          split at hb
          · rw [List.mem_singleton] at hb
            exact ⟨0, by rw [hb]; rfl⟩
          · rcases List.mem_cons.mp hb with rfl | hb
            · exact ⟨0, rfl⟩
            · obtain ⟨n, hn⟩ := ih hb
              exact ⟨n + 1, by rw [ancestor?, hp, Option.bind_some, hn]⟩

namespace Grounded

variable (hg : h.Grounded)

include hg

/-! ### Classes -/

def wayUp (name : String) : Nat := Nat.find (hg.ends name)

theorem wayUp_pos (name : String) : 0 < hg.wayUp name := by
  rw [wayUp, Nat.find_pos]
  simp [ancestor?]

theorem wayUp_succ {a parent : String} (hp : h.superClass a = some parent) :
    hg.wayUp a = hg.wayUp parent + 1 := by
  have step (n : Nat) : h.ancestor? (n + 1) a = h.ancestor? n parent := by
    rw [ancestor?, hp, Option.bind_some]
  rw [wayUp, Nat.find_eq_iff]
  refine ⟨?_, fun n hn hnone => ?_⟩
  · rw [step]
    exact Nat.find_spec (hg.ends parent)
  · cases n with
    | zero => cases hnone
    | succ n =>
        rw [step] at hnone
        exact Nat.find_min (hg.ends parent) (Nat.lt_of_succ_lt_succ hn) hnone

theorem wayUp_add {n : Nat} {a b : String} (hab : h.ancestor? n a = some b) :
    hg.wayUp a = hg.wayUp b + n :=
  eq_add_of_ancestor? hg.wayUp (fun _ _ => hg.wayUp_succ) hab

def classRank (name : String) : Nat := if name = objectClass then 0 else hg.wayUp name

theorem classRank_pos {name : String} (hne : name ≠ objectClass) : 0 < hg.classRank name := by
  rw [classRank, if_neg hne]
  exact hg.wayUp_pos name

/-- The top class ranks below all others. -/
theorem eq_or_classRank_lt_top (name : String) :
    objectClass = name ∨ hg.classRank objectClass < hg.classRank name := by
  by_cases hne : name = objectClass
  · exact .inl hne.symm
  · right
    have := hg.classRank_pos hne
    rwa [classRank, if_pos rfl]

theorem eq_or_classRank_lt_ancestor {n : Nat} {a b : String} (hab : h.ancestor? n a = some b) :
    b = a ∨ hg.classRank b < hg.classRank a := by
  cases n with
  | zero => exact .inl (by simpa [ancestor?] using hab.symm)
  | succ n =>
      have ha : a ≠ objectClass := by
        rintro rfl
        simp [ancestor?, hg.top] at hab
      by_cases hb : b = objectClass
      · exact hb ▸ hg.eq_or_classRank_lt_top a
      · right
        rw [classRank, classRank, if_neg ha, if_neg hb, hg.wayUp_add hab]
        omega

/-- A common superclass other than the first class ranks below it. -/
theorem eq_or_classRank_lt (a b : String) :
    h.commonSuperClass a b = a ∨ hg.classRank (h.commonSuperClass a b) < hg.classRank a := by
  unfold commonSuperClass
  split
  · exact .inl rfl
  · split
    · exact hg.eq_or_classRank_lt_top a
    · cases hfind : (h.chain b).find? (h.chain a).contains with
      | none => exact hg.eq_or_classRank_lt_top a
      | some c =>
          have hc : c ∈ h.chain a := by simpa using List.find?_some hfind
          obtain ⟨n, hn⟩ := exists_ancestor_of_mem_chainFrom hc
          exact hg.eq_or_classRank_lt_ancestor hn

/-! ### Descriptors and values -/

def descriptorRank : List Char → Nat
  | '[' :: item => descriptorRank item + 1
  | desc =>
    match classNameOf? desc with
    | some name => hg.classRank name
    | none => 1

/-- The number of times that merging may change a value that is not null. -/
def rank : TypeValue → Nat
  | .unset => 0
  | .reference desc => hg.descriptorRank desc.toList + 1
  | _ => 1

theorem descriptorRank_classChars (name : String) :
    hg.descriptorRank (classChars name) = hg.classRank name := by
  have hname : classNameOf? (classChars name) = some name := classNameOf?_classChars name
  unfold descriptorRank
  split
  · rename_i heq
    cases heq
  · rw [hname]

theorem descriptorRank_top : hg.descriptorRank topDescriptor = 0 := by
  rw [topDescriptor_eq, descriptorRank_classChars, classRank, if_pos rfl]

/-- The top descriptor ranks below all others. -/
theorem eq_or_descriptorRank_lt_top (desc : List Char) :
    topDescriptor = desc ∨ hg.descriptorRank topDescriptor < hg.descriptorRank desc := by
  by_cases hne : desc = topDescriptor
  · exact .inl hne.symm
  · right
    rw [descriptorRank_top]
    unfold descriptorRank
    split
    · exact Nat.succ_pos _
    · split
      · rename_i name hname
        rw [classNameOf?_eq_some_iff] at hname
        refine hg.classRank_pos fun heq => hne ?_
        rw [hname, heq, topDescriptor_eq]
      · exact Nat.one_pos

theorem eq_or_descriptorRank_lt (a b : List Char) :
    h.mergeDescriptors a b = a ∨
      hg.descriptorRank (h.mergeDescriptors a b) < hg.descriptorRank a := by
  fun_induction mergeDescriptors h a b with
  | case1 a => exact .inl rfl
  | case2 a b _ _ ih =>
      rcases ih with heq | hlt
      · exact .inl (by rw [heq])
      · right
        simp only [descriptorRank]
        omega
  | case3 a b => exact hg.eq_or_descriptorRank_lt_top _
  | case4 a => exact .inl rfl
  | case5 a b => exact hg.eq_or_descriptorRank_lt_top _
  | case6 a b _ _ _ c d hd hc =>
      rw [classNameOf?_eq_some_iff] at hc
      have hmerged : 'L' :: (h.commonSuperClass c d).toList ++ [';'] =
          classChars (h.commonSuperClass c d) := rfl
      rw [hc, hmerged, descriptorRank_classChars, descriptorRank_classChars, classChars_inj]
      exact hg.eq_or_classRank_lt c d
  | case7 a b => exact hg.eq_or_descriptorRank_lt_top _

/-- A merge keeps a value, gives a reference for null, or lowers the rank. -/
theorem merge_cases (a b : TypeValue) :
    h.merge a b = a ∨ (a = .null ∧ h.merge a b ≠ .null) ∨
      (a ≠ .null ∧ h.merge a b ≠ .null ∧ hg.rank (h.merge a b) < hg.rank a) := by
  unfold merge
  split
  · exact .inl rfl
  · split
    · exact .inr (.inl ⟨rfl, by simp⟩)
    · exact .inl rfl
    · rename_i x y _
      rcases hg.eq_or_descriptorRank_lt x.toList y.toList with heq | hlt
      · exact .inl (by rw [heq, String.ofList_toList])
      · refine .inr (.inr ⟨by simp, by simp, ?_⟩)
        simp only [rank, String.toList_ofList]
        omega
    · cases a <;> simp [rank]

end Grounded

end Hierarchy

end Injection
