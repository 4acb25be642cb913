import Injection.Proofs.Typing.Ancestry

/-!
Merging is a join.

Descriptors and values are ordered by what they leave open, and over a well-formed hierarchy
`merge` gives the least value above both. The order has finite height: `descriptorHeight` and
`height` fall with every strict step, and array nesting bounds them.
-/

namespace Injection

def arrayNesting : List Char → Nat
  | '[' :: item => arrayNesting item + 1
  | _ => 0

theorem arrayNesting_le_length (desc : List Char) : arrayNesting desc ≤ desc.length := by
  fun_induction arrayNesting desc with
  | case1 item ih => simpa using ih
  | case2 => exact Nat.zero_le _

namespace TypeValue

def nesting : TypeValue → Nat
  | reference desc => arrayNesting desc.toList
  | _ => 0

end TypeValue

namespace Hierarchy

open TypeValue (objectClass)

def classChars (name : String) : List Char := 'L' :: name.toList ++ [';']

theorem topDescriptor_eq : topDescriptor = classChars objectClass := by decide

theorem classChars_inj {a b : String} : classChars a = classChars b ↔ a = b := by
  simp [classChars, String.toList_inj]

theorem classNameOf?_eq_some_iff {desc : List Char} {name : String} :
    classNameOf? desc = some name ↔ desc = classChars name := by
  constructor
  · intro hd
    unfold classNameOf? at hd
    split at hd
    · rename_i rest
      split at hd
      · rename_i init hrev
        cases hd
        have : rest = init.reverse ++ [';'] := by
          rw [← List.reverse_reverse rest, hrev, List.reverse_cons]
        simp [classChars, this]
      · cases hd
    · cases hd
  · rintro rfl
    simp [classNameOf?, classChars]

@[simp] theorem classNameOf?_classChars (name : String) :
    classNameOf? (classChars name) = some name :=
  classNameOf?_eq_some_iff.mpr rfl

@[simp] theorem head?_classChars (name : String) : (classChars name).head? = some 'L' := rfl

/-- The order of descriptors: a class is below its superclasses, an array of references is below
the arrays of what is above its items, and everything is below the top class. -/
def DescriptorLe (h : Hierarchy) : (a b : List Char) → Prop
  | '[' :: a, '[' :: b => a = b ∨ (startsReference a = true ∧ h.DescriptorLe a b)
  | a, b =>
    a = b ∨ b = topDescriptor ∨
      ∃ c d, a = classChars c ∧ b = classChars d ∧ h.Subclass c d

/-- The order of values: null is below every reference, and everything is below unset. -/
def ValueLe (h : Hierarchy) : (a b : TypeValue) → Prop
  | .reference x, .reference y => h.DescriptorLe x.toList y.toList
  | a, b => a = b ∨ b = .unset ∨ (a = .null ∧ ∃ y, b = .reference y)

variable {h : Hierarchy}

/-! ### The order of descriptors -/

theorem descriptorLe_refl (a : List Char) : h.DescriptorLe a a := by
  unfold DescriptorLe
  split <;> exact .inl rfl

theorem descriptorLe_top (a : List Char) : h.DescriptorLe a topDescriptor := by
  unfold DescriptorLe
  split
  · rename_i heq
    rw [topDescriptor_eq] at heq
    cases heq
  · exact .inr (.inl rfl)

theorem descriptorLe_classChars {c d : String} (hcd : h.Subclass c d) :
    h.DescriptorLe (classChars c) (classChars d) := by
  unfold DescriptorLe
  split
  · rename_i heq _
    cases heq
  · exact .inr (.inr ⟨c, d, rfl, rfl, hcd⟩)

theorem descriptorLe_array {a b : List Char} (ha : startsReference a = true)
    (hab : h.DescriptorLe a b) : h.DescriptorLe ('[' :: a) ('[' :: b) := by
  rw [DescriptorLe]
  exact .inr ⟨ha, hab⟩

/-- All ways in which one descriptor is below another. -/
theorem descriptorLe_cases {a b : List Char} (hab : h.DescriptorLe a b) :
    a = b ∨ b = topDescriptor ∨ (∃ c d, a = classChars c ∧ b = classChars d ∧ h.Subclass c d) ∨
      ∃ x y, a = '[' :: x ∧ b = '[' :: y ∧ startsReference x = true ∧ h.DescriptorLe x y := by
  unfold DescriptorLe at hab
  split at hab
  · rcases hab with rfl | ⟨hx, hxy⟩
    · exact .inl rfl
    · exact .inr (.inr (.inr ⟨_, _, rfl, rfl, hx, hxy⟩))
  · rcases hab with hab | hab | hab
    · exact .inl hab
    · exact .inr (.inl hab)
    · exact .inr (.inr (.inl hab))

theorem array_ne_classChars (item : List Char) (name : String) :
    '[' :: item ≠ classChars name := by
  intro heq
  cases heq

theorem array_ne_top (item : List Char) : '[' :: item ≠ topDescriptor := by
  rw [topDescriptor_eq]
  exact array_ne_classChars item objectClass

theorem startsReference_of_le {a b : List Char} (ha : startsReference a = true)
    (hab : h.DescriptorLe a b) : startsReference b = true := by
  rcases descriptorLe_cases hab with rfl | rfl | ⟨c, d, -, rfl, -⟩ | ⟨x, y, -, rfl, -⟩
  · exact ha
  · rw [topDescriptor_eq]
    rfl
  · rfl
  · rfl

/-- Two descriptors that are not both arrays have only the top class above them, unless both are
classes. -/
theorem upperBound_cases {a b c : List Char} (hne : a ≠ b)
    (hnot : ∀ x y, a = '[' :: x → b = '[' :: y → False) (hac : h.DescriptorLe a c)
    (hbc : h.DescriptorLe b c) :
    c = topDescriptor ∨ ∃ d e f, a = classChars d ∧ b = classChars e ∧ c = classChars f ∧
      h.Subclass d f ∧ h.Subclass e f := by
  rcases descriptorLe_cases hac with rfl | hc | ⟨d, f, ha, rfl, hdf⟩ | ⟨x, y, ha, rfl, -⟩
  · rcases descriptorLe_cases hbc with rfl | hc | ⟨e, d, hb, ha, hed⟩ | ⟨x, y, hb, ha, -⟩
    · exact absurd rfl hne
    · exact .inl hc
    · exact .inr ⟨d, e, d, ha, hb, ha, .inl rfl, hed⟩
    · exact (hnot y x ha hb).elim
  · exact .inl hc
  · rcases descriptorLe_cases hbc with rfl | hc | ⟨e, f', hb, hf, hef⟩ | ⟨x, y, -, hy, -⟩
    · exact .inr ⟨d, f, f, ha, rfl, rfl, hdf, .inl rfl⟩
    · exact .inl hc
    · rw [classChars_inj] at hf
      exact .inr ⟨d, e, f, ha, hb, rfl, hdf, hf ▸ hef⟩
    · exact absurd hy.symm (array_ne_classChars y f)
  · rcases descriptorLe_cases hbc with rfl | hc | ⟨_, f, -, hf, -⟩ | ⟨x', _, hb, -⟩
    · exact (hnot x y ha rfl).elim
    · exact .inl hc
    · exact absurd hf (array_ne_classChars y f)
    · exact (hnot x x' ha hb).elim

/-! ### The order of values -/

theorem valueLe_refl (a : TypeValue) : h.ValueLe a a := by
  cases a with
  | reference x => exact descriptorLe_refl _
  | _ => exact .inl rfl

theorem valueLe_unset (a : TypeValue) : h.ValueLe a .unset := by
  cases a <;> exact .inr (.inl rfl)

theorem null_valueLe (x : String) : h.ValueLe .null (.reference x) := .inr (.inr ⟨rfl, x, rfl⟩)

/-- All ways in which one value is below another. -/
theorem valueLe_cases {a b : TypeValue} (hab : h.ValueLe a b) :
    a = b ∨ b = .unset ∨ (a = .null ∧ ∃ y, b = .reference y) ∨
      ∃ x y, a = .reference x ∧ b = .reference y ∧ h.DescriptorLe x.toList y.toList := by
  unfold ValueLe at hab
  split at hab
  · exact .inr (.inr (.inr ⟨_, _, rfl, rfl, hab⟩))
  · rcases hab with hab | hab | hab
    · exact .inl hab
    · exact .inr (.inl hab)
    · exact .inr (.inr (.inl hab))

/-! ### Laws of merging over any hierarchy -/

theorem merge_self (h : Hierarchy) (a : TypeValue) : h.merge a a = a := if_pos rfl

theorem merge_unset_left (h : Hierarchy) (a : TypeValue) : h.merge .unset a = .unset := by
  unfold merge
  split <;> rfl

theorem merge_unset_right (h : Hierarchy) (a : TypeValue) : h.merge a .unset = .unset := by
  unfold merge
  split
  · assumption
  · cases a <;> rfl

namespace WellFormed

variable (wf : h.WellFormed)

include wf

theorem eq_top_of_le {b : List Char} (hb : h.DescriptorLe topDescriptor b) :
    b = topDescriptor := by
  rcases descriptorLe_cases hb with rfl | rfl | ⟨c, d, hc, rfl, hcd⟩ | ⟨x, y, hx, -⟩
  · rfl
  · rfl
  · rw [topDescriptor_eq, classChars_inj] at hc
    subst hc
    rw [topDescriptor_eq, classChars_inj]
    exact (wf.subclass_antisymm hcd (.inr (.inl rfl))).symm
  · exact absurd hx.symm (array_ne_top x)

theorem descriptorLe_trans {a b c : List Char} (hab : h.DescriptorLe a b)
    (hbc : h.DescriptorLe b c) : h.DescriptorLe a c := by
  induction a generalizing b c with
  | nil =>
      rcases descriptorLe_cases hab with rfl | rfl | ⟨_, _, ha, -⟩ | ⟨_, _, ha, -⟩
      · exact hbc
      · rw [wf.eq_top_of_le hbc]
        exact descriptorLe_top []
      · cases ha
      · cases ha
  | cons x a ih =>
      rcases descriptorLe_cases hab with rfl | rfl | ⟨d, e, ha, rfl, hde⟩ | ⟨i, j, ha, rfl, hi, hij⟩
      · exact hbc
      · rw [wf.eq_top_of_le hbc]
        exact descriptorLe_top _
      · rw [ha] at hab ⊢
        rcases descriptorLe_cases hbc with rfl | rfl | ⟨e', f, he, rfl, hef⟩ | ⟨_, _, he, -⟩
        · exact hab
        · exact descriptorLe_top _
        · rw [classChars_inj] at he
          exact descriptorLe_classChars (wf.subclass_trans hde (he ▸ hef))
        · exact absurd he.symm (array_ne_classChars _ e)
      · cases ha
        rcases descriptorLe_cases hbc with rfl | rfl | ⟨_, _, hj, -⟩ | ⟨j', k, hj, rfl, -, hjk⟩
        · exact hab
        · exact descriptorLe_top _
        · exact absurd hj (array_ne_classChars j _)
        · cases hj
          exact descriptorLe_array hi (ih hij hjk)

/-! ### Merged descriptors are least upper bounds -/

theorem descriptorLe_merge (a b : List Char) :
    h.DescriptorLe a (h.mergeDescriptors a b) ∧ h.DescriptorLe b (h.mergeDescriptors a b) := by
  fun_induction mergeDescriptors h a b with
  | case1 a => exact ⟨descriptorLe_refl _, descriptorLe_refl _⟩
  | case2 a b hne hrefs ih =>
      rw [Bool.and_eq_true] at hrefs
      exact ⟨descriptorLe_array hrefs.1 ih.1, descriptorLe_array hrefs.2 ih.2⟩
  | case3 => exact ⟨descriptorLe_top _, descriptorLe_top _⟩
  | case4 a => exact ⟨descriptorLe_refl _, descriptorLe_refl _⟩
  | case5 => exact ⟨descriptorLe_top _, descriptorLe_top _⟩
  | case6 a b _ _ _ c d hc hd =>
      rw [classNameOf?_eq_some_iff] at hc hd
      rw [hc, hd]
      exact ⟨descriptorLe_classChars (wf.subclass_commonSuperClass_left c d),
        descriptorLe_classChars (wf.subclass_commonSuperClass_right c d)⟩
  | case7 => exact ⟨descriptorLe_top _, descriptorLe_top _⟩

theorem descriptorLe_antisymm {a b : List Char} (hab : h.DescriptorLe a b)
    (hba : h.DescriptorLe b a) : a = b := by
  induction a generalizing b with
  | nil =>
      rcases descriptorLe_cases hab with hab | rfl | ⟨_, _, ha, -⟩ | ⟨_, _, ha, -⟩
      · exact hab
      · exact wf.eq_top_of_le hba
      · cases ha
      · cases ha
  | cons x a ih =>
      rcases descriptorLe_cases hab with hab | rfl | ⟨d, e, ha, rfl, hde⟩ | ⟨i, j, ha, rfl, -, hij⟩
      · exact hab
      · exact wf.eq_top_of_le hba
      · rw [ha] at hba ⊢
        rcases descriptorLe_cases hba with heq | heq | ⟨e', d', he, hd, hed⟩ | ⟨_, _, he, -⟩
        · exact heq.symm
        · rw [topDescriptor_eq, classChars_inj] at heq
          subst heq
          rw [classChars_inj]
          exact wf.subclass_antisymm hde (.inr (.inl rfl))
        · rw [classChars_inj] at he hd ⊢
          subst he hd
          exact wf.subclass_antisymm hde hed
        · exact absurd he.symm (array_ne_classChars _ e)
      · cases ha
        rcases descriptorLe_cases hba with heq | heq | ⟨_, _, hj, -⟩ | ⟨j', i', hj, hi, -, hji⟩
        · exact heq.symm
        · exact absurd heq (array_ne_top _)
        · exact absurd hj (array_ne_classChars j _)
        · cases hj
          cases hi
          rw [ih hij hji]

theorem merge_descriptorLe {a b c : List Char} (hac : h.DescriptorLe a c)
    (hbc : h.DescriptorLe b c) : h.DescriptorLe (h.mergeDescriptors a b) c := by
  fun_induction mergeDescriptors h a b generalizing c with
  | case1 a => exact hac
  | case4 a => exact hac
  | case2 a b hne hrefs ih =>
      rw [Bool.and_eq_true] at hrefs
      have hstart : startsReference (h.mergeDescriptors a b) = true :=
        startsReference_of_le hrefs.1 (wf.descriptorLe_merge a b).1
      rcases descriptorLe_cases hac with rfl | rfl | ⟨_, _, ha, -⟩ | ⟨x, y, hx, rfl, -, hxy⟩
      · refine descriptorLe_array hstart (ih (descriptorLe_refl a) ?_)
        rw [DescriptorLe] at hbc
        exact hbc.elim (fun heq => absurd heq.symm hne) And.right
      · exact descriptorLe_top _
      · exact absurd ha (array_ne_classChars a _)
      · cases hx
        refine descriptorLe_array hstart (ih hxy ?_)
        rw [DescriptorLe] at hbc
        exact hbc.elim (fun heq => heq ▸ descriptorLe_refl _) And.right
  | case3 a b hne hrefs =>
      -- An array with items of another kind has nothing above it but the top class.
      rw [Bool.and_eq_true] at hrefs
      rcases descriptorLe_cases hac with rfl | rfl | ⟨_, _, ha, -⟩ | ⟨x, y, hx, rfl, hsx, hxy⟩
      · rw [DescriptorLe] at hbc
        rcases hbc with rfl | ⟨hb, hba⟩
        · exact absurd rfl hne
        · exact absurd ⟨startsReference_of_le hb hba, hb⟩ hrefs
      · exact descriptorLe_top _
      · exact absurd ha (array_ne_classChars a _)
      · cases hx
        rw [DescriptorLe] at hbc
        rcases hbc with rfl | ⟨hb, -⟩
        · exact absurd ⟨hsx, startsReference_of_le hsx hxy⟩ hrefs
        · exact absurd ⟨hsx, hb⟩ hrefs
  | case5 a b hnot hne hhead =>
      rcases upperBound_cases hne hnot hac hbc with rfl | ⟨d, e, f, rfl, rfl, -⟩
      · exact descriptorLe_top _
      · simp at hhead
  | case6 a b hnot hne _ d e hd he =>
      rcases upperBound_cases hne hnot hac hbc with rfl | ⟨d', e', f, rfl, rfl, rfl, hdf, hef⟩
      · exact descriptorLe_top _
      · rw [classNameOf?_classChars, Option.some_inj] at hd he
        subst hd he
        exact descriptorLe_classChars (wf.commonSuperClass_subclass hdf hef)
  | case7 a b hnot hne _ hnames =>
      rcases upperBound_cases hne hnot hac hbc with rfl | ⟨d, e, f, rfl, rfl, -⟩
      · exact descriptorLe_top _
      · exact absurd (classNameOf?_classChars e) (hnames d e (classNameOf?_classChars d))

/-! ### Merged values are least upper bounds -/

theorem valueLe_trans {a b c : TypeValue} (hab : h.ValueLe a b) (hbc : h.ValueLe b c) :
    h.ValueLe a c := by
  rcases valueLe_cases hbc with rfl | rfl | ⟨rfl, z, rfl⟩ | ⟨y, z, rfl, rfl, hyz⟩
  · exact hab
  · exact valueLe_unset a
  · rcases valueLe_cases hab with rfl | hb | ⟨-, y, hb⟩ | ⟨x, y, -, hb, -⟩
    · exact hbc
    all_goals cases hb
  · rcases valueLe_cases hab with rfl | hb | ⟨rfl, -⟩ | ⟨x, y', rfl, hb, hxy⟩
    · exact hbc
    · cases hb
    · exact null_valueLe z
    · cases hb
      exact wf.descriptorLe_trans hxy hyz

theorem valueLe_antisymm {a b : TypeValue} (hab : h.ValueLe a b) (hba : h.ValueLe b a) :
    a = b := by
  rcases valueLe_cases hab with hab | rfl | ⟨rfl, y, rfl⟩ | ⟨x, y, rfl, rfl, hxy⟩
  · exact hab
  · rcases valueLe_cases hba with hba | hba | ⟨hb, -⟩ | ⟨_, _, hb, -⟩
    · exact hba.symm
    · exact hba
    all_goals cases hb
  · rcases valueLe_cases hba with hba | hba | ⟨hb, -⟩ | ⟨_, _, -, ha, -⟩
    · exact hba.symm
    · cases hba
    · cases hb
    · cases ha
  · rw [String.toList_inj.mp (wf.descriptorLe_antisymm hxy hba)]

theorem valueLe_merge (a b : TypeValue) :
    h.ValueLe a (h.merge a b) ∧ h.ValueLe b (h.merge a b) := by
  unfold merge
  split
  · rename_i hab
    exact ⟨valueLe_refl a, hab ▸ valueLe_refl a⟩
  · split
    · exact ⟨null_valueLe _, valueLe_refl _⟩
    · exact ⟨valueLe_refl _, null_valueLe _⟩
    · rename_i x y _
      have := wf.descriptorLe_merge x.toList y.toList
      simpa [ValueLe] using this
    · exact ⟨valueLe_unset a, valueLe_unset b⟩

theorem merge_valueLe {a b c : TypeValue} (hac : h.ValueLe a c) (hbc : h.ValueLe b c) :
    h.ValueLe (h.merge a b) c := by
  unfold merge
  split
  · exact hac
  · rename_i hne
    split
    · exact hbc
    · exact hac
    · rename_i x y
      cases c with
      | reference z => simpa [ValueLe] using wf.merge_descriptorLe hac hbc
      | unset => exact valueLe_unset _
      | _ => simp [ValueLe] at hac
    · rename_i hnr hrn hrr
      -- Only references and null have anything but unset above both of them.
      have hc : c = .unset := by
        rcases valueLe_cases hac with rfl | rfl | ⟨rfl, z, rfl⟩ | ⟨x, z, rfl, rfl, -⟩
        · rcases valueLe_cases hbc with rfl | rfl | ⟨rfl, z, rfl⟩ | ⟨y, z, rfl, rfl, -⟩
          · exact absurd rfl hne
          · rfl
          · exact absurd rfl (hrn z rfl)
          · exact absurd rfl (hrr z y rfl)
        · rfl
        · rcases valueLe_cases hbc with rfl | hb | ⟨rfl, -⟩ | ⟨y, _, rfl, -⟩
          · exact absurd rfl (hnr z rfl)
          · cases hb
          · exact absurd rfl hne
          · exact absurd rfl (hnr y rfl)
        · rcases valueLe_cases hbc with rfl | hb | ⟨rfl, -⟩ | ⟨y, _, rfl, -⟩
          · exact absurd rfl (hrr x z rfl)
          · cases hb
          · exact absurd rfl (hrn x rfl)
          · exact absurd rfl (hrr x y rfl)
      rw [hc]
      exact valueLe_unset _

/-- A merge changes nothing exactly when the other value is below. -/
theorem merge_eq_left_iff {a b : TypeValue} : h.merge a b = a ↔ h.ValueLe b a := by
  constructor
  · intro heq
    have := (wf.valueLe_merge a b).2
    rwa [heq] at this
  · intro hba
    exact wf.valueLe_antisymm (wf.merge_valueLe (valueLe_refl a) hba) (wf.valueLe_merge a b).1

end WellFormed

/-! ### The height of the order -/

def descriptorHeight (h : Hierarchy) : List Char → Nat
  | '[' :: item => if startsReference item then h.descriptorHeight item + 1 else 1
  | desc =>
    match classNameOf? desc with
    | some name => if name = objectClass then 0 else h.level name
    | none => 1

/-- The number of strict steps up that a value may take among values of limited nesting. -/
def height (h : Hierarchy) (nesting : Nat) : TypeValue → Nat
  | .unset => 0
  | .null => nesting + 66
  | .reference desc => h.descriptorHeight desc.toList + 1
  | _ => 1

theorem descriptorHeight_array (item : List Char) :
    h.descriptorHeight ('[' :: item) =
      if startsReference item then h.descriptorHeight item + 1 else 1 := by
  rw [descriptorHeight]

theorem descriptorHeight_classChars (name : String) :
    h.descriptorHeight (classChars name) = if name = objectClass then 0 else h.level name := by
  have hname : classNameOf? (classChars name) = some name := classNameOf?_classChars name
  unfold descriptorHeight
  split
  · rename_i heq
    cases heq
  · rw [hname]

theorem level_pos (name : String) : 0 < h.level name := by
  obtain ⟨room, hroom⟩ : ∃ room, maxDepth = room + 1 := ⟨63, rfl⟩
  rw [level, hroom, lineage, List.length_cons]
  exact Nat.succ_pos _

theorem level_le (name : String) : h.level name ≤ 64 := length_lineage_le _ _

theorem descriptorHeight_pos {desc : List Char} (hd : desc ≠ topDescriptor) :
    0 < h.descriptorHeight desc := by
  unfold descriptorHeight
  split
  · split <;> omega
  · split
    · rename_i name hname
      rw [classNameOf?_eq_some_iff] at hname
      split
      · rename_i heq
        rw [hname, heq, ← topDescriptor_eq] at hd
        exact absurd rfl hd
      · exact level_pos name
    · exact Nat.one_pos

theorem descriptorHeight_le (desc : List Char) :
    h.descriptorHeight desc ≤ arrayNesting desc + 64 := by
  fun_induction arrayNesting desc with
  | case1 item ih =>
      rw [descriptorHeight_array]
      split <;> omega
  | case2 desc hplain =>
      unfold descriptorHeight
      split
      · exact absurd rfl (hplain _)
      · split
        · split
          · omega
          · exact Nat.le_trans (level_le _) (Nat.le_add_left _ _)
        · omega

theorem WellFormed.descriptorHeight_lt (wf : h.WellFormed) {a b : List Char}
    (hab : h.DescriptorLe a b) (hne : a ≠ b) : h.descriptorHeight b < h.descriptorHeight a := by
  induction a generalizing b with
  | nil =>
      -- A strict step leads to the top class, or to a class further up, or is one between items.
      rcases descriptorLe_cases hab with rfl | rfl | ⟨_, _, ha, -⟩ | ⟨_, _, ha, -⟩
      · exact absurd rfl hne
      · rw [topDescriptor_eq, descriptorHeight_classChars, if_pos rfl]
        exact descriptorHeight_pos hne
      · cases ha
      · cases ha
  | cons x a ih =>
      rcases descriptorLe_cases hab with rfl | rfl | ⟨c, d, ha, rfl, hcd⟩ | ⟨i, j, ha, rfl, hi, hij⟩
      · exact absurd rfl hne
      · rw [topDescriptor_eq, descriptorHeight_classChars, if_pos rfl]
        exact descriptorHeight_pos hne
      · rw [ha] at hne ⊢
        rw [Ne, classChars_inj] at hne
        rw [descriptorHeight_classChars, descriptorHeight_classChars]
        have hc : c ≠ objectClass := by
          rintro rfl
          exact hne (wf.subclass_antisymm hcd (.inr (.inl rfl)))
        rw [if_neg hc]
        split
        · exact level_pos c
        · rename_i hd
          rcases wf.eq_or_level_lt hcd with hcd | hcd | hcd
          · exact absurd hcd hne
          · exact absurd hcd hd
          · exact hcd
      · cases ha
        have hj : startsReference j = true := startsReference_of_le hi hij
        rw [descriptorHeight_array, descriptorHeight_array, if_pos hi, if_pos hj]
        have := ih hij (fun heq => hne (by rw [heq]))
        omega

theorem height_le {nesting : Nat} {v : TypeValue} (hv : v.nesting ≤ nesting) :
    h.height nesting v ≤ nesting + 66 := by
  cases v with
  | reference desc =>
      have := descriptorHeight_le (h := h) desc.toList
      simp only [TypeValue.nesting] at hv
      simp only [height]
      omega
  | _ => simp only [height]; omega

theorem WellFormed.height_lt (wf : h.WellFormed) {nesting : Nat} {a b : TypeValue}
    (hab : h.ValueLe a b) (hne : a ≠ b) (hb : b.nesting ≤ nesting) :
    h.height nesting b < h.height nesting a := by
  rcases valueLe_cases hab with rfl | rfl | ⟨rfl, y, rfl⟩ | ⟨x, y, rfl, rfl, hxy⟩
  · exact absurd rfl hne
  · cases a <;> simp [height] at hne ⊢
  · have := descriptorHeight_le (h := h) y.toList
    simp only [TypeValue.nesting] at hb
    simp only [height]
    omega
  · simp only [height]
    have := wf.descriptorHeight_lt hxy (fun heq => hne (by rw [String.toList_inj.mp heq]))
    omega

/-! ### Merging adds no array levels -/

theorem arrayNesting_merge_le (a b : List Char) :
    arrayNesting (h.mergeDescriptors a b) ≤ max (arrayNesting a) (arrayNesting b) := by
  have top : arrayNesting topDescriptor = 0 := by decide
  fun_induction mergeDescriptors h a b with
  | case1 a => exact Nat.le_max_left _ _
  | case2 a b _ _ ih => simp only [arrayNesting]; omega
  | case3 => omega
  | case4 => exact Nat.le_max_left _ _
  | case5 => omega
  | case6 => simp [arrayNesting]
  | case7 => omega

theorem nesting_merge_le {nesting : Nat} {a b : TypeValue} (ha : a.nesting ≤ nesting)
    (hb : b.nesting ≤ nesting) : (h.merge a b).nesting ≤ nesting := by
  unfold merge
  split
  · exact ha
  · split
    · exact hb
    · exact ha
    · rename_i x y _
      have := arrayNesting_merge_le (h := h) x.toList y.toList
      simp only [TypeValue.nesting, String.toList_ofList] at ha hb ⊢
      omega
    · exact Nat.zero_le _

end Hierarchy

end Injection
