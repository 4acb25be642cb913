import Injection.Locals.Variable
import Mathlib.Data.List.Induction
import Mathlib.Data.List.Pairwise
import Mathlib.Order.Nat

/-!
The scan over the values of one slot.

`SlotScan.advance` is one step of the scan and `SlotScan.emitted` the variables that it closes.
`SlotScan.Tracks` is what the scan remembers of the values before a position: the open stretch has
the descriptor of the value at hand, which is its own or the last one known. From it follow, for a
whole history, that the stretches are not empty and lie one after the other, and that a position of
the history is covered by a stretch exactly when its value has a descriptor in this sense.
-/

namespace Injection

namespace LocalVariable

namespace SlotScan

/-- The value that a scan goes by: an unset slot holds none. -/
def valueOf (v : TypeValue) : Option TypeValue := if v = .unset then none else some v

def advance (s : SlotScan) (e : Nat × TypeValue) : SlotScan :=
  if valueOf e.2 = s.current then s else s.next e.1 (valueOf e.2)

def emitted (slot : Nat) (s : SlotScan) (e : Nat × TypeValue) : List LocalVariable :=
  if valueOf e.2 = s.current then [] else s.close slot e.1

theorem stretches_cons (slot stop : Nat) (s : SlotScan) (e : Nat × TypeValue)
    (history : List (Nat × TypeValue)) :
    s.stretches slot stop (e :: history) =
      s.emitted slot e ++ (s.advance e).stretches slot stop history := by
  rw [stretches, emitted, advance, valueOf]
  split <;> split <;> simp_all

/-- The descriptor to go by for a value: its own, or else the one known from before. An unset value
has none. -/
def descriptorOf (known : Option String) (v : TypeValue) : Option String :=
  (valueOf v).bind fun v => v.descriptor? <|> known

def knownAfter (known : Option String) (history : List (Nat × TypeValue)) : Option String :=
  history.foldl (fun known e => e.2.descriptor? <|> known) known

/-- What a scan remembers when all values before a position are passed and `known` is the last
descriptor among them. -/
structure Tracks (s : SlotScan) (position : Nat) (known : Option String) : Prop where
  lastKnown : s.lastKnown = known
  started : ∀ o ∈ s.opened, o.1 < position
  opened : s.opened.map Prod.snd = s.current.bind fun v => v.descriptor? <|> known
  own : ∀ v ∈ s.current, ∀ d, v.descriptor? = some d → known = some d

theorem tracks_start : start.Tracks 0 none :=
  ⟨rfl, nofun, rfl, nofun⟩

theorem Tracks.mono {s : SlotScan} {position later : Nat} {known : Option String}
    (h : s.Tracks position known) (hle : position ≤ later) : s.Tracks later known :=
  ⟨h.lastKnown, fun o ho => (h.started o ho).trans_le hle, h.opened, h.own⟩

/-- A value without a scan value has no descriptor. -/
theorem descriptor?_of_valueOf_none {v : TypeValue} (h : valueOf v = none) :
    v.descriptor? = none := by
  rw [valueOf] at h
  split at h
  · rename_i hunset
    rw [hunset]
    rfl
  · cases h

theorem valueOf_eq_some {v u : TypeValue} (h : valueOf v = some u) : v = u := by
  rw [valueOf] at h
  split at h
  · cases h
  · exact Option.some.inj h

variable {s : SlotScan} {position : Nat} {known : Option String} {e : Nat × TypeValue}

theorem valueOf_of_descriptor? {v : TypeValue} {d : String} (h : v.descriptor? = some d) :
    valueOf v = some v := by
  rw [valueOf, if_neg]
  rintro rfl
  cases h

/-- One step of the scan takes the value into account. -/
theorem Tracks.advance (h : s.Tracks position known) (hle : position ≤ e.1) :
    (s.advance e).Tracks (e.1 + 1) (e.2.descriptor? <|> known) ∧
      (s.advance e).current = valueOf e.2 := by
  rw [SlotScan.advance]
  split
  · rename_i hsame
    -- The descriptor of a value seen before is known already.
    have hknown : (e.2.descriptor? <|> known) = known := by
      cases hd : e.2.descriptor? with
      | none => rfl
      | some d => exact (h.own e.2 (hsame ▸ valueOf_of_descriptor? hd) d hd).symm
    rw [hknown]
    exact ⟨h.mono (hle.trans (Nat.le_succ _)), hsame.symm⟩
  · rw [next, h.lastKnown]
    cases hv : valueOf e.2 with
    | none =>
        rw [descriptor?_of_valueOf_none hv]
        exact ⟨⟨rfl, nofun, rfl, nofun⟩, rfl⟩
    | some u =>
        obtain rfl := valueOf_eq_some hv
        rw [Option.bind_some]
        cases hd : e.2.descriptor? with
        | some d =>
            refine ⟨⟨rfl, ?_, by simp [hd], by simp [hd]⟩, rfl⟩
            rintro _ ⟨⟩
            exact Nat.lt_succ_self _
        | none =>
            cases known with
            | some d =>
                refine ⟨⟨rfl, ?_, by simp [hd], by simp [hd]⟩, rfl⟩
                rintro _ ⟨⟩
                exact Nat.lt_succ_self _
            | none => exact ⟨⟨rfl, nofun, by simp [hd], by simp [hd]⟩, rfl⟩

theorem start_eq_of_next {o : Nat × String} {value : Option TypeValue}
    (ho : o ∈ (s.next position value).opened) : o.1 = position := by
  rw [next] at ho
  split at ho
  · cases ho
    rfl
  · cases ho

/-- What is open behind a value started with it, or was open before and goes on with it. -/
theorem start_eq_or_same_of_advance {o : Nat × String} (ho : o ∈ (s.advance e).opened) :
    o.1 = e.1 ∨ valueOf e.2 = s.current ∧ o ∈ s.opened := by
  rw [SlotScan.advance] at ho
  split at ho
  · exact .inr ⟨‹_›, ho⟩
  · exact .inl (start_eq_of_next ho)

/-! ### Where the stretches lie -/

variable {slot stop : Nat} {history : List (Nat × TypeValue)} {v : LocalVariable}

theorem mem_close : v ∈ s.close slot stop ↔ ∃ o ∈ s.opened, v = generatedIn slot o.1 stop o.2 := by
  rw [close, Option.mem_toList, Option.map_eq_some_iff]
  simp only [Option.mem_def, eq_comm]

/-- A stretch that is closed was open before, with the value at hand. -/
theorem Tracks.of_mem_close (h : s.Tracks position known) (hv : v ∈ s.close slot stop) :
    v.start < position ∧ v.stop = stop ∧
      ∃ u, s.current = some u ∧ ∃ o ∈ s.opened, o.1 = v.start := by
  obtain ⟨o, ho, rfl⟩ := mem_close.mp hv
  have hopened := h.opened
  rw [ho, Option.map_some] at hopened
  obtain ⟨u, hu, -⟩ := Option.bind_eq_some_iff.mp hopened.symm
  exact ⟨h.started o ho, rfl, u, hu, o, ho, rfl⟩

theorem mem_emitted (hv : v ∈ s.emitted slot e) :
    valueOf e.2 ≠ s.current ∧ v ∈ s.close slot e.1 := by
  rw [emitted] at hv
  split at hv
  · cases hv
  · exact ⟨‹_›, hv⟩

structure Ordered (position stop : Nat) (history : List (Nat × TypeValue)) : Prop where
  increasing : history.Pairwise (·.1 < ·.1)
  within : ∀ e ∈ history, position ≤ e.1 ∧ e.1 < stop

theorem Ordered.head (h : Ordered position stop (e :: history)) : position ≤ e.1 ∧ e.1 < stop :=
  h.within e List.mem_cons_self

theorem Ordered.tail (h : Ordered position stop (e :: history)) :
    Ordered (e.1 + 1) stop history := by
  obtain ⟨hhead, htail⟩ := List.pairwise_cons.mp h.increasing
  exact ⟨htail, fun e' he' => ⟨hhead e' he', (h.within e' (List.mem_cons_of_mem _ he')).2⟩⟩

/-- No stretch starts before the open one and the values to come. -/
theorem le_start_of_mem {lower : Nat} (hopened : ∀ o ∈ s.opened, lower ≤ o.1)
    (hhistory : ∀ e ∈ history, lower ≤ e.1) (hv : v ∈ s.stretches slot stop history) :
    lower ≤ v.start := by
  induction history generalizing s with
  | nil =>
      obtain ⟨o, ho, rfl⟩ := mem_close.mp hv
      exact hopened o ho
  | cons e history ih =>
      have he := hhistory e List.mem_cons_self
      rw [stretches_cons] at hv
      rcases List.mem_append.mp hv with hv | hv
      · obtain ⟨o, ho, rfl⟩ := mem_close.mp (mem_emitted hv).2
        exact hopened o ho
      · refine ih (fun o ho => ?_) (fun e' he' => hhistory e' (List.mem_cons_of_mem _ he')) hv
        rcases start_eq_or_same_of_advance ho with hnew | ⟨-, ho⟩
        · exact hnew ▸ he
        · exact hopened o ho

/-- After a change of value no stretch starts before it. -/
theorem le_start_of_changed (hordered : Ordered position stop (e :: history))
    (hne : valueOf e.2 ≠ s.current) (hv : v ∈ (s.advance e).stretches slot stop history) :
    e.1 ≤ v.start := by
  refine le_start_of_mem (fun o ho => ?_) (fun e' he' => ?_) hv
  · rcases start_eq_or_same_of_advance ho with hnew | ⟨hsame, -⟩
    · exact hnew.ge
    · exact absurd hsame hne
  · exact (Nat.le_succ _).trans (hordered.tail.within e' he').1

/-- The open stretch is closed first, at a place from the position on, and the others follow. -/
theorem exists_stretches_eq (slot : Nat) (h : s.Tracks position known)
    (hordered : Ordered position stop history) (hle : position ≤ stop) :
    ∃ place rest, s.stretches slot stop history = s.close slot place ++ rest ∧
      position ≤ place ∧ ∀ v ∈ rest, place ≤ v.start := by
  induction history generalizing s position known with
  | nil => exact ⟨stop, [], (List.append_nil _).symm, hle, nofun⟩
  | cons e history ih =>
      obtain ⟨hpos, hlt⟩ := hordered.head
      rw [stretches_cons]
      by_cases hsame : valueOf e.2 = s.current
      · obtain ⟨place, rest, heq, hplace, hrest⟩ :=
          ih (h.mono (hpos.trans (Nat.le_succ _))) hordered.tail hlt
        refine ⟨place, rest, ?_, by omega, hrest⟩
        rw [emitted, if_pos hsame, SlotScan.advance, if_pos hsame, List.nil_append, heq]
      · refine ⟨e.1, (s.advance e).stretches slot stop history, ?_, hpos,
          fun v hv => le_start_of_changed hordered hsame hv⟩
        rw [emitted, if_neg hsame]

theorem Tracks.close_separate (h : s.Tracks position known) (slot : Nat) {place : Nat}
    (hpos : position ≤ place) (hstop : place ≤ stop) :
    (∀ v ∈ s.close slot place, v.start < v.stop ∧ v.stop ≤ stop) ∧
      (s.close slot place).Pairwise (·.stop ≤ ·.start) := by
  refine ⟨fun v hv => ?_, ?_⟩
  · obtain ⟨o, ho, rfl⟩ := mem_close.mp hv
    exact ⟨(h.started o ho).trans_le hpos, hstop⟩
  · rw [close]
    cases s.opened with
    | none => exact .nil
    | some o => exact List.pairwise_singleton _ _

/-- The stretches are not empty, end before the end, and lie one after the other. -/
theorem stretches_separate (slot : Nat) (h : s.Tracks position known)
    (hordered : Ordered position stop history) (hle : position ≤ stop) :
    (∀ v ∈ s.stretches slot stop history, v.start < v.stop ∧ v.stop ≤ stop) ∧
      (s.stretches slot stop history).Pairwise (·.stop ≤ ·.start) := by
  induction history generalizing s position known with
  | nil => exact h.close_separate slot hle (Nat.le_refl _)
  | cons e history ih =>
      obtain ⟨hpos, hlt⟩ := hordered.head
      obtain ⟨hrest, hpairs⟩ := ih (h.advance hpos).1 hordered.tail hlt
      obtain ⟨hclosed, hclosedPairs⟩ := h.close_separate slot hpos hlt.le
      rw [stretches_cons]
      refine ⟨fun v hv => (List.mem_append.mp hv).elim (fun hv => hclosed v (mem_emitted hv).2)
        (hrest v), List.pairwise_append.mpr ⟨?_, hpairs, fun a ha b hb => ?_⟩⟩
      · rw [emitted]
        split
        · exact .nil
        · exact hclosedPairs
      · obtain ⟨hne, ha⟩ := mem_emitted ha
        obtain ⟨o, -, rfl⟩ := mem_close.mp ha
        exact le_start_of_changed hordered hne hb

/-! ### What the stretches cover -/

def covering (position : Nat) (table : List LocalVariable) : List String :=
  (table.filter (·.contains position)).map (·.desc)

theorem covering_append (a b : List LocalVariable) :
    covering position (a ++ b) = covering position a ++ covering position b := by
  rw [covering, List.filter_append, List.map_append, covering, covering]

theorem covering_eq_nil {table : List LocalVariable}
    (h : ∀ v ∈ table, v.stop ≤ position ∨ position < v.start) : covering position table = [] := by
  rw [covering, List.map_eq_nil_iff, List.filter_eq_nil_iff]
  intro v hv
  rw [contains, Bool.and_eq_true, decide_eq_true_eq, decide_eq_true_eq]
  have := h v hv
  omega

theorem covering_singleton (h : v.contains position = true) : covering position [v] = [v.desc] := by
  simp [covering, h]

/-- A position that the scan has passed, at or after the start of the open stretch, is covered by
that stretch alone. -/
theorem covering_of_passed (slot : Nat) (h : s.Tracks position known)
    (hordered : Ordered position stop history) (hle : position ≤ stop) {place : Nat}
    (hopened : ∀ o ∈ s.opened, o.1 ≤ place) (hlt : place < position) :
    covering place (s.stretches slot stop history) = (s.opened.map Prod.snd).toList := by
  obtain ⟨closed, rest, heq, hclosed, hrest⟩ := exists_stretches_eq slot h hordered hle
  have hnil : covering place rest = [] :=
    covering_eq_nil fun v hv => .inr ((hlt.trans_le hclosed).trans_le (hrest v hv))
  rw [heq, covering_append, hnil, List.append_nil, close]
  cases ho : s.opened with
  | none => rfl
  | some o =>
      have hstart := hopened o ho
      have hcontains : (generatedIn slot o.1 closed o.2).contains place = true :=
        Bool.and_eq_true_iff.mpr
          ⟨decide_eq_true hstart, decide_eq_true (hlt.trans_le hclosed)⟩
      exact covering_singleton hcontains

/-- A position of the history is covered by one stretch, with the descriptor to go by for its value,
or by none when there is no descriptor. -/
theorem covering_of_mem (slot : Nat) {pre post : List (Nat × TypeValue)}
    (h : s.Tracks position known) (hordered : Ordered position stop (pre ++ e :: post)) :
    covering e.1 (s.stretches slot stop (pre ++ e :: post)) =
      (descriptorOf (knownAfter known pre) e.2).toList := by
  induction pre generalizing s position known with
  | nil =>
      obtain ⟨hpos, hlt⟩ := hordered.head
      obtain ⟨htracks, hcurrent⟩ := h.advance hpos
      have hemitted : covering e.1 (s.emitted slot e) = [] := by
        refine covering_eq_nil fun v hv => .inl ?_
        obtain ⟨o, -, rfl⟩ := mem_close.mp (mem_emitted hv).2
        exact Nat.le_refl _
      rw [List.nil_append, stretches_cons, covering_append, hemitted, List.nil_append,
        covering_of_passed slot htracks hordered.tail hlt
          (fun o ho => Nat.le_of_lt_succ (htracks.started o ho)) (Nat.lt_succ_self _),
        htracks.opened, hcurrent, knownAfter, List.foldl_nil, descriptorOf]
      cases hv : valueOf e.2 with
      | none => rfl
      | some u =>
          rw [← valueOf_eq_some hv, Option.bind_some, Option.bind_some]
          cases e.2.descriptor? <;> rfl
  | cons e' pre ih =>
      have hpos := (Ordered.head hordered).1
      have htail : Ordered (e'.1 + 1) stop (pre ++ e :: post) := Ordered.tail hordered
      have hlt : e'.1 < e.1 := (htail.within e (by simp)).1
      have hemitted : covering e.1 (s.emitted slot e') = [] := by
        refine covering_eq_nil fun v hv => .inl ?_
        obtain ⟨o, -, rfl⟩ := mem_close.mp (mem_emitted hv).2
        exact hlt.le
      rw [List.cons_append, stretches_cons, covering_append, hemitted, List.nil_append,
        ih (h.advance hpos).1 htail]
      rfl

theorem exists_generatedIn (hv : v ∈ s.stretches slot stop history) :
    ∃ first last desc, v = generatedIn slot first last desc := by
  induction history generalizing s with
  | nil =>
      obtain ⟨o, -, rfl⟩ := mem_close.mp hv
      exact ⟨_, _, _, rfl⟩
  | cons e history ih =>
      rw [stretches_cons] at hv
      rcases List.mem_append.mp hv with hv | hv
      · obtain ⟨o, -, rfl⟩ := mem_close.mp (mem_emitted hv).2
        exact ⟨_, _, _, rfl⟩
      · exact ih hv

/-- Every stretch is of one value, which the slot holds at its start and wherever the history has a
value within it. A stretch that was open before is of the value at hand. -/
theorem exists_value_of_mem (h : s.Tracks position known)
    (hordered : Ordered position stop history) (hv : v ∈ s.stretches slot stop history) :
    ∃ u, (v.start < position → s.current = some u ∧ ∃ o ∈ s.opened, o.1 = v.start) ∧
      (position ≤ v.start → (v.start, u) ∈ history) ∧
      ∀ e ∈ history, v.contains e.1 = true → valueOf e.2 = some u := by
  induction history generalizing s position known with
  | nil =>
      obtain ⟨hstart, -, u, hu, ho⟩ := h.of_mem_close hv
      exact ⟨u, fun _ => ⟨hu, ho⟩, fun hle => absurd hstart (Nat.not_lt.mpr hle), nofun⟩
  | cons e history ih =>
      obtain ⟨hpos, hlt⟩ := hordered.head
      rw [stretches_cons] at hv
      rcases List.mem_append.mp hv with hv | hv
      · obtain ⟨hstart, hstop, u, hu, ho⟩ := h.of_mem_close (mem_emitted hv).2
        refine ⟨u, fun _ => ⟨hu, ho⟩, fun hle => absurd hstart (Nat.not_lt.mpr hle), ?_⟩
        -- The history goes on where the stretch stops.
        intro e' he' hcontains
        rw [contains, Bool.and_eq_true, decide_eq_true_eq, decide_eq_true_eq, hstop] at hcontains
        rcases List.mem_cons.mp he' with rfl | he'
        · exact absurd hcontains.2 (Nat.lt_irrefl _)
        · have := (hordered.tail.within e' he').1
          omega
      · obtain ⟨htracks, hcurrent⟩ := h.advance hpos
        obtain ⟨u, hopen, hlater, hall⟩ := ih htracks hordered.tail hv
        have hself (hle : v.start ≤ e.1) : valueOf e.2 = some u :=
          hcurrent.symm.trans (hopen (Nat.lt_succ_of_le hle)).1
        refine ⟨u, fun hstart => ?_, fun hle => ?_, fun e' he' hcontains => ?_⟩
        · obtain ⟨-, o, ho, heq⟩ := hopen (by omega)
          rcases start_eq_or_same_of_advance ho with hnew | ⟨hsame, ho⟩
          · omega
          · exact ⟨hsame.symm.trans (hself (by omega)), o, ho, heq⟩
        · rcases Nat.lt_or_ge e.1 v.start with hgt | hge
          · exact List.mem_cons_of_mem _ (hlater hgt)
          · -- The stretch starts with this value, since nothing open started so late.
            have hstart : v.start = e.1 := by
              obtain ⟨-, o, ho, heq⟩ := hopen (by omega)
              rcases start_eq_or_same_of_advance ho with hnew | ⟨-, ho⟩
              · exact heq.symm.trans hnew
              · have := h.started o ho
                omega
            rw [hstart, ← valueOf_eq_some (hself hge)]
            exact List.mem_cons_self
        · rcases List.mem_cons.mp he' with rfl | he'
          · rw [contains, Bool.and_eq_true, decide_eq_true_eq] at hcontains
            exact hself hcontains.1
          · exact hall e' he' hcontains

/-! ### The last descriptor -/

theorem knownAfter_concat (known : Option String) (history : List (Nat × TypeValue))
    (e : Nat × TypeValue) :
    knownAfter known (history ++ [e]) = (e.2.descriptor? <|> knownAfter known history) := by
  rw [knownAfter, List.foldl_append]
  rfl

theorem exists_of_knownAfter {d : String} (h : knownAfter none history = some d) :
    ∃ pre e post, history = pre ++ e :: post ∧ e.2.descriptor? = some d ∧
      ∀ e' ∈ post, e'.2.descriptor? = none := by
  induction history using List.reverseRecOn with
  | nil => cases h
  | append_singleton history e ih =>
      rw [knownAfter_concat] at h
      cases hd : e.2.descriptor? with
      | some d' =>
          rw [hd] at h
          cases h
          exact ⟨history, e, [], rfl, hd, nofun⟩
      | none =>
          rw [hd] at h
          obtain ⟨pre, e', post, rfl, hd', hpost⟩ := ih h
          refine ⟨pre, e', post ++ [e], by simp, hd', fun u hu => ?_⟩
          rcases List.mem_append.mp hu with hu | hu
          · exact hpost u hu
          · rwa [List.mem_singleton.mp hu]

theorem descriptor?_of_knownAfter_none (h : knownAfter none history = none) :
    ∀ e ∈ history, e.2.descriptor? = none := by
  induction history using List.reverseRecOn with
  | nil => nofun
  | append_singleton history e ih =>
      rw [knownAfter_concat] at h
      cases hd : e.2.descriptor? with
      | some d =>
          rw [hd] at h
          cases h
      | none =>
          rw [hd] at h
          intro u hu
          rcases List.mem_append.mp hu with hu | hu
          · exact ih h u hu
          · rwa [List.mem_singleton.mp hu]

end SlotScan

end LocalVariable

end Injection
