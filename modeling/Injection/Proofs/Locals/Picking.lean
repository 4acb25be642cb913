import Injection.Locals.Discriminator
import Mathlib.Data.List.Nodup
import Mathlib.Data.List.Pairwise
import Mathlib.Data.List.Range
import Mathlib.Tactic.Common

/-!
What a description by type or by place picks from a table.

In a table that is indexed by slot the visible variables are in the order of their slots, so that a
place in the order is the number of variables that count in the slots before, and a type without a
place picks the only variable that counts. Either way one slot is picked at most, and an empty slot
never.
-/

namespace Injection

namespace LocalTable

def IsIndexed (t : LocalTable) : Prop := ∀ slot v, t.slot? slot = some v → v.slot.toNat = slot

theorem lt_length_of_slot? {t : LocalTable} {slot : Nat} {v : LocalVariable}
    (h : t.slot? slot = some v) : slot < t.length :=
  (List.getElem?_eq_some_iff.mp (Option.join_eq_some_iff.mp h)).1

theorem isIndexed_iff {t : LocalTable} :
    t.IsIndexed ↔ ∀ slot < t.length, (t.slot? slot).all (·.slot.toNat = slot) = true := by
  simp only [Option.all_eq_true, decide_eq_true_eq]
  exact ⟨fun h slot _ v hv => h slot v hv, fun h slot v hv => h slot (lt_length_of_slot? hv) v hv⟩

instance (t : LocalTable) : Decidable t.IsIndexed := decidable_of_iff' _ isIndexed_iff

end LocalTable

namespace LocalDiscriminator

variable {d : LocalDiscriminator}

/-! ### Places in the order -/

/-- In a list in the order of its keys, an item stands at the number of the smaller keys. -/
theorem getElem?_eq_some_iff_countP {α : Type} {key : α → Nat} {l : List α} {x : α} {n : Nat}
    (hl : l.Pairwise (key · < key ·)) (hx : x ∈ l) :
    l[n]? = some x ↔ l.countP (key · < key x) = n := by
  induction l generalizing n with
  | nil => cases hx
  | cons a l ih =>
      obtain ⟨ha, hl⟩ := List.pairwise_cons.mp hl
      rcases List.mem_cons.mp hx with rfl | hmem
      · have hnone : (x :: l).countP (key · < key x) = 0 := by
          rw [List.countP_eq_zero]
          intro y hy
          rcases List.mem_cons.mp hy with rfl | hy
          · simp
          · simpa using Nat.le_of_lt (ha y hy)
        rw [hnone]
        cases n with
        | zero => simp
        | succ n =>
            have hlater : l[n]? ≠ some x := fun h =>
              Nat.lt_irrefl _ (ha x (List.mem_of_getElem? h))
            simp [hlater]
      · have hlt := ha x hmem
        rw [List.countP_cons, if_pos (decide_eq_true hlt)]
        cases n with
        | zero =>
            have hne : a ≠ x := by
              rintro rfl
              exact Nat.lt_irrefl _ hlt
            simp [hne]
        | succ n =>
            rw [List.getElem?_cons_succ, ih hl hmem]
            omega

/-- A description by a place asks for the variable at the place among those that count. -/
theorem accepts_of_ordinal {visible : List VisibleLocal} {subject : VisibleLocal} {n : Nat}
    (hindex : d.index = none) (hnames : d.names = []) (hordinal : d.ordinal = some n) :
    d.accepts subject visible = true ↔
      d.counts subject = true ∧ (visible.filter d.counts)[n]? = some subject := by
  rw [accepts, hindex, hnames, hordinal, Bool.and_eq_true]
  cases d.desc <;> simp

/-- A description by a type alone asks for a variable that is the only one to count. -/
theorem accepts_of_desc {visible : List VisibleLocal} {subject : VisibleLocal} {desc : String}
    (hindex : d.index = none) (hnames : d.names = []) (hdesc : d.desc = some desc)
    (hordinal : d.ordinal = none) :
    d.accepts subject visible = true ↔
      d.counts subject = true ∧ (visible.filter d.counts).length = 1 := by
  rw [accepts, hindex, hnames, hdesc, hordinal, Bool.and_eq_true, decide_eq_true_eq]

/-- Where the visible variables are in the order of their slots, a place in the order is the number
of the variables that count and have a smaller slot. -/
theorem accepts_ordinal_iff {visible : List VisibleLocal} {subject : VisibleLocal} {n : Nat}
    (hslots : ∀ v ∈ visible, v.slot.isSome)
    (horder : (visible.filterMap (·.slot)).Pairwise (· < ·)) (hsubject : subject ∈ visible)
    (hindex : d.index = none) (hnames : d.names = []) (hordinal : d.ordinal = some n) :
    d.accepts subject visible = true ↔ d.counts subject = true ∧
      (visible.filter d.counts).countP (fun v => v.slot.getD 0 < subject.slot.getD 0) = n := by
  have hkeys : visible.Pairwise fun v w => v.slot.getD 0 < w.slot.getD 0 := by
    refine (List.pairwise_filterMap.mp horder).imp_of_mem fun {v w} hv hw hlt => ?_
    obtain ⟨slot, hslot⟩ := Option.isSome_iff_exists.mp (hslots v hv)
    obtain ⟨next, hnext⟩ := Option.isSome_iff_exists.mp (hslots w hw)
    rw [hslot, hnext]
    exact hlt slot hslot next hnext
  rw [accepts_of_ordinal hindex hnames hordinal]
  refine and_congr_right fun hcounts => ?_
  exact getElem?_eq_some_iff_countP (hkeys.filter _)
    (List.mem_filter.mpr ⟨hsubject, hcounts⟩)

/-! ### The variables of a table -/

variable {table : LocalTable} {first stop slot : Nat}

def seenIn? (table : LocalTable) (first stop slot : Nat) : Option VisibleLocal :=
  (table.slot? slot).map fun v => ⟨v.name, v.desc, some slot, first ≤ slot && slot < stop⟩

/-- Tells a slot whose variable counts for a description by type or by place: it has the type, if
one is given, and is a parameter, if only parameters are wanted. -/
def countsIn (d : LocalDiscriminator) (table : LocalTable) (first stop slot : Nat) : Bool :=
  (table.slot? slot).any fun v =>
    d.desc.all (· = v.desc) && (!d.argsOnly || first ≤ slot && slot < stop)

theorem countsIn_eq (d : LocalDiscriminator) (table : LocalTable) (first stop slot : Nat) :
    d.countsIn table first stop slot = (seenIn? table first stop slot).any d.counts := by
  rw [countsIn, seenIn?, Option.any_map]
  rfl

theorem slot_of_seenIn? {v : VisibleLocal} (h : seenIn? table first stop slot = some v) :
    v.slot = some slot := by
  obtain ⟨w, -, rfl⟩ := Option.map_eq_some_iff.mp h
  rfl

theorem lt_length_of_seenIn? {v : VisibleLocal} (h : seenIn? table first stop slot = some v) :
    slot < table.length := by
  obtain ⟨w, hw, -⟩ := Option.map_eq_some_iff.mp h
  exact LocalTable.lt_length_of_slot? hw

theorem eq_map_slot? (table : LocalTable) : table = (List.range table.length).map table.slot? := by
  refine List.ext_getElem (by simp) fun i hi _ => ?_
  simp [LocalTable.slot?, hi]

/-- The visible variables of an indexed table, slot by slot. -/
theorem visibleIn_eq (htable : table.IsIndexed) (first stop : Nat) :
    visibleIn table first stop =
      (List.range table.length).filterMap (seenIn? table first stop) := by
  rw [visibleIn, LocalTable.present, List.map_filterMap]
  conv_lhs => rw [eq_map_slot? table, List.filterMap_map]
  refine List.filterMap_congr fun i _ => ?_
  cases hslot : table.slot? i with
  | none => simp [seenIn?, hslot]
  | some v => simp [seenIn?, hslot, htable i v hslot]

theorem mem_visibleIn (htable : table.IsIndexed) {v : VisibleLocal} :
    v ∈ visibleIn table first stop ↔ ∃ slot, seenIn? table first stop slot = some v := by
  rw [visibleIn_eq htable, List.mem_filterMap]
  constructor
  · rintro ⟨slot, -, hv⟩
    exact ⟨slot, hv⟩
  · rintro ⟨slot, hv⟩
    exact ⟨slot, List.mem_range.mpr (lt_length_of_seenIn? hv), hv⟩

theorem find?_visibleIn (htable : table.IsIndexed) (first stop slot : Nat) :
    (visibleIn table first stop).find? (·.slot = some slot) = seenIn? table first stop slot := by
  have hseen {v : VisibleLocal} (hv : v ∈ visibleIn table first stop)
      (hslot : v.slot = some slot) : seenIn? table first stop slot = some v := by
    obtain ⟨i, hi⟩ := (mem_visibleIn htable).mp hv
    obtain rfl := Option.some.inj ((slot_of_seenIn? hi).symm.trans hslot)
    exact hi
  cases hfind : (visibleIn table first stop).find? (·.slot = some slot) with
  | none =>
      cases hv : seenIn? table first stop slot with
      | none => rfl
      | some v =>
          have hmem := (mem_visibleIn htable).mpr ⟨slot, hv⟩
          exact absurd (decide_eq_true (slot_of_seenIn? hv)) (List.find?_eq_none.mp hfind v hmem)
  | some v =>
      exact (hseen (List.mem_of_find?_eq_some hfind) (by simpa using List.find?_some hfind)).symm

theorem acceptsSlot_of_seenIn? (htable : table.IsIndexed) {v : VisibleLocal}
    (hv : seenIn? table first stop slot = some v) :
    d.acceptsSlot table slot first stop = d.accepts v (visibleIn table first stop) := by
  rw [acceptsSlot, find?_visibleIn htable, hv]
  rfl

/-- A description by type or by place accepts no empty slot: there is no variable that it could be
at the place, and no type that it could have. -/
theorem acceptsSlot_of_empty (htable : table.IsIndexed)
    (hempty : seenIn? table first stop slot = none) (hindex : d.index = none)
    (hnames : d.names = [])
    (hasks : d.ordinal.isSome = true ∨ ∃ desc, d.desc = some desc ∧ desc ≠ "") :
    ¬d.acceptsSlot table slot first stop = true := by
  rw [acceptsSlot, find?_visibleIn htable, hempty]
  intro haccepts
  cases hordinal : d.ordinal with
  | some n =>
      have hnth := ((accepts_of_ordinal hindex hnames hordinal).mp haccepts).2
      have hmem := List.mem_of_mem_filter (List.mem_of_getElem? hnth)
      obtain ⟨i, hi⟩ := (mem_visibleIn htable).mp hmem
      obtain rfl : slot = i := Option.some.inj (slot_of_seenIn? hi)
      cases hempty.symm.trans hi
  | none =>
      obtain ⟨desc, hdesc, hne⟩ := hasks.resolve_left (by simp [hordinal])
      have hcounts := ((accepts_of_desc hindex hnames hdesc hordinal).mp haccepts).1
      rw [counts, hdesc, Bool.and_eq_true] at hcounts
      exact hne (of_decide_eq_true hcounts.1)

/-- Counting below a bound. -/
theorem countP_range_below (p : Nat → Bool) {n m : Nat} (hle : n ≤ m) :
    (List.range m).countP (fun i => i < n && p i) = (List.range n).countP p := by
  obtain ⟨k, rfl⟩ := Nat.exists_eq_add_of_le hle
  rw [List.range_add, List.countP_append, List.countP_map]
  have hbelow : (List.range n).countP (fun i => i < n && p i) = (List.range n).countP p :=
    List.countP_congr fun i hi => by simp [List.mem_range.mp hi]
  have habove : (List.range k).countP ((fun i => decide (i < n) && p i) ∘ (n + ·)) = 0 :=
    List.countP_eq_zero.mpr fun i _ => by simp
  rw [hbelow, habove, Nat.add_zero]

theorem countP_range_lt {p : Nat → Bool} {n m : Nat} (hn : p n = true) (hlt : n < m) :
    (List.range n).countP p < (List.range m).countP p := by
  have hsucc : (List.range (n + 1)).countP p = (List.range n).countP p + 1 := by
    simp [List.range_succ, hn]
  have hle := (List.range_sublist.mpr (show n + 1 ≤ m from hlt)).countP_le (p := p)
  omega

/-- The variables that count and have a smaller slot, counted slot by slot. -/
theorem countP_smaller (htable : table.IsIndexed) (d : LocalDiscriminator) (first stop : Nat)
    (hslot : slot < table.length) :
    ((visibleIn table first stop).filter d.counts).countP (fun v => v.slot.getD 0 < slot) =
      (List.range slot).countP (d.countsIn table first stop) := by
  rw [← countP_range_below _ (Nat.le_of_lt hslot), visibleIn_eq htable, List.countP_filter,
    List.countP_filterMap]
  refine List.countP_congr fun i _ => ?_
  rw [countsIn_eq]
  cases hv : seenIn? table first stop i with
  | none => simp
  | some v => simp [slot_of_seenIn? hv]

/-- A place picks the slot that has so many slots in front of it that count. -/
theorem acceptsSlot_ordinal_iff (htable : table.IsIndexed) (hindex : d.index = none)
    (hnames : d.names = []) {n : Nat} (hordinal : d.ordinal = some n) :
    d.acceptsSlot table slot first stop = true ↔
      d.countsIn table first stop slot = true ∧
        (List.range slot).countP (d.countsIn table first stop) = n := by
  rw [countsIn_eq]
  cases hv : seenIn? table first stop slot with
  | none =>
      have hempty := acceptsSlot_of_empty htable hv hindex hnames (.inl (by simp [hordinal]))
      simp [hempty]
  | some v =>
      have hmem := (mem_visibleIn htable).mpr ⟨slot, hv⟩
      have hslots : ∀ w ∈ visibleIn table first stop, w.slot.isSome := fun w hw => by
        obtain ⟨i, hi⟩ := (mem_visibleIn htable).mp hw
        rw [slot_of_seenIn? hi]
        rfl
      have horder : ((visibleIn table first stop).filterMap (·.slot)).Pairwise (· < ·) := by
        rw [visibleIn_eq htable, List.filterMap_filterMap, List.pairwise_filterMap]
        refine List.pairwise_lt_range.imp fun {i j} hlt k hk l hl => ?_
        obtain ⟨w, hw, hk⟩ := Option.bind_eq_some_iff.mp hk
        obtain ⟨u, hu, hl⟩ := Option.bind_eq_some_iff.mp hl
        obtain rfl := Option.some.inj ((slot_of_seenIn? hw).symm.trans hk)
        obtain rfl := Option.some.inj ((slot_of_seenIn? hu).symm.trans hl)
        exact hlt
      rw [acceptsSlot_of_seenIn? htable hv,
        accepts_ordinal_iff hslots horder hmem hindex hnames hordinal, slot_of_seenIn? hv,
        Option.getD_some, countP_smaller htable d first stop (lt_length_of_seenIn? hv),
        Option.any_some]

/-- A type without a place picks the only slot that counts. -/
theorem acceptsSlot_desc_iff (htable : table.IsIndexed) (hindex : d.index = none)
    (hnames : d.names = []) {desc : String} (hdesc : d.desc = some desc) (hne : desc ≠ "")
    (hordinal : d.ordinal = none) :
    d.acceptsSlot table slot first stop = true ↔
      d.countsIn table first stop slot = true ∧
        ∀ i, d.countsIn table first stop i = true → i = slot := by
  have hcounted (i : Nat) (hi : d.countsIn table first stop i = true) :
      ∃ v, seenIn? table first stop i = some v ∧
        v ∈ (visibleIn table first stop).filter d.counts := by
    rw [countsIn_eq, Option.any_eq_true] at hi
    obtain ⟨v, hv, hcounts⟩ := hi
    exact ⟨v, hv, List.mem_filter.mpr ⟨(mem_visibleIn htable).mpr ⟨i, hv⟩, hcounts⟩⟩
  -- The slot is accepted when its variable counts and the list of those that count has one item.
  cases hv : seenIn? table first stop slot with
  | none =>
      have hempty := acceptsSlot_of_empty htable hv hindex hnames (.inr ⟨desc, hdesc, hne⟩)
      simp [hempty, countsIn_eq, hv]
  | some v =>
      have hcounts : d.countsIn table first stop slot = d.counts v := by
        rw [countsIn_eq, hv, Option.any_some]
      rw [acceptsSlot_of_seenIn? htable hv, accepts_of_desc hindex hnames hdesc hordinal, hcounts]
      refine and_congr_right fun hv' => ⟨fun hone i hi => ?_, fun honly => ?_⟩
      · -- The only item of the list is what is seen in either slot.
        obtain ⟨only, honly⟩ := List.length_eq_one_iff.mp hone
        obtain ⟨w, hw, hwmem⟩ := hcounted i hi
        obtain ⟨u, hu, humem⟩ := hcounted slot (hcounts.trans hv')
        rw [honly, List.mem_singleton] at hwmem humem
        rw [hwmem] at hw
        rw [humem] at hu
        exact Option.some.inj ((slot_of_seenIn? hw).symm.trans (slot_of_seenIn? hu))
      · have hsame : ∀ i, d.countsIn table first stop i = true ↔ (i == slot) = true := fun i => by
          rw [beq_iff_eq]
          exact ⟨honly i, fun hi => hi ▸ hcounts.trans hv'⟩
        rw [← List.countP_eq_length_filter, visibleIn_eq htable, List.countP_filterMap]
        have hcount : (List.range table.length).countP (d.countsIn table first stop) =
            (List.range table.length).count slot :=
          List.countP_congr fun i _ => hsame i
        rw [List.count_eq_one_of_mem List.nodup_range
          (List.mem_range.mpr (lt_length_of_seenIn? hv))] at hcount
        rw [← hcount]
        exact List.countP_congr fun i _ => by
          rw [countsIn_eq]
          cases seenIn? table first stop i <;> simp

/-- In an indexed table a description by type or by place picks one variable at most: with a place
the one that has so many in front of it that count, with a type alone the only one that counts. -/
theorem acceptsSlot_picks_one {table : LocalTable} (htable : table.IsIndexed)
    {d : LocalDiscriminator} (hindex : d.index = none) (hnames : d.names = [])
    (hasks : d.ordinal.isSome = true ∨ ∃ desc, d.desc = some desc ∧ desc ≠ "")
    (first stop : Nat) :
    (∀ slot slot', d.acceptsSlot table slot first stop = true →
      d.acceptsSlot table slot' first stop = true → slot = slot') ∧
    (∀ n, d.ordinal = some n → ∀ slot, d.acceptsSlot table slot first stop = true ↔
      d.countsIn table first stop slot = true ∧
        (List.range slot).countP (d.countsIn table first stop) = n) ∧
    (d.ordinal = none → ∀ slot, d.acceptsSlot table slot first stop = true ↔
      d.countsIn table first stop slot = true ∧
        ∀ i, d.countsIn table first stop i = true → i = slot) := by
  have hplace (n : Nat) (hordinal : d.ordinal = some n) (slot : Nat) :
      d.acceptsSlot table slot first stop = true ↔ d.countsIn table first stop slot = true ∧
        (List.range slot).countP (d.countsIn table first stop) = n :=
    acceptsSlot_ordinal_iff htable hindex hnames hordinal
  have htype (hordinal : d.ordinal = none) (slot : Nat) :
      d.acceptsSlot table slot first stop = true ↔ d.countsIn table first stop slot = true ∧
        ∀ i, d.countsIn table first stop i = true → i = slot := by
    obtain ⟨desc, hdesc, hne⟩ := hasks.resolve_left (by simp [hordinal])
    exact acceptsSlot_desc_iff htable hindex hnames hdesc hne hordinal
  refine ⟨fun slot slot' h h' => ?_, hplace, htype⟩
  cases hordinal : d.ordinal with
  | some n =>
      obtain ⟨hcounts, hn⟩ := (hplace n hordinal slot).mp h
      obtain ⟨hcounts', hn'⟩ := (hplace n hordinal slot').mp h'
      rcases Nat.lt_trichotomy slot slot' with hlt | rfl | hlt
      · have hless := countP_range_lt hcounts hlt
        omega
      · rfl
      · have hless := countP_range_lt hcounts' hlt
        omega
  | none => exact ((htype hordinal slot').mp h').2 slot ((htype hordinal slot).mp h).1

def twoNumbers : LocalTable :=
  [some ⟨"this", "La/A;", 0, 0, 9⟩, some ⟨"a", "I", 1, 0, 9⟩, none,
    some ⟨"s", "Ljava/lang/String;", 3, 0, 9⟩, some ⟨"b", "I", 4, 2, 9⟩]

/-- A place picks the second number, and the type alone picks the only parameter. -/
theorem acceptsSlot_picks_one_twoNumbers :
    twoNumbers.IsIndexed ∧
      (∀ slot, acceptsSlot ⟨some "I", none, some 1, [], false⟩ twoNumbers slot 1 2 = true ↔
        slot = 4) ∧
      ∀ slot, acceptsSlot ⟨some "I", none, none, [], true⟩ twoNumbers slot 1 2 = true ↔
        slot = 1 := by
  have htable : twoNumbers.IsIndexed := by decide
  obtain ⟨hsame, hplace, -⟩ := acceptsSlot_picks_one htable
    (d := ⟨some "I", none, some 1, [], false⟩) rfl rfl (.inl rfl) 1 2
  obtain ⟨hsame', -, -⟩ := acceptsSlot_picks_one htable
    (d := ⟨some "I", none, none, [], true⟩) rfl rfl (.inr ⟨"I", rfl, by decide⟩) 1 2
  have hsecond : acceptsSlot ⟨some "I", none, some 1, [], false⟩ twoNumbers 4 1 2 = true :=
    (hplace 1 rfl 4).mpr (by decide)
  have honly : acceptsSlot ⟨some "I", none, none, [], true⟩ twoNumbers 1 1 2 = true := by decide
  exact ⟨htable, fun slot => ⟨fun h => hsame slot 4 h hsecond, fun h => h ▸ hsecond⟩,
    fun slot => ⟨fun h => hsame' slot 1 h honly, fun h => h ▸ honly⟩⟩

end LocalDiscriminator

end Injection
