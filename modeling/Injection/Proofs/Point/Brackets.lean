import Injection.Point.Allocation
import Mathlib.Tactic.Common

/-!
Allocations and constructor calls as brackets. An allocation opens a bracket and a constructor call
closes the one opened last, so what stands between an allocation and its call closes all that it
opens and nothing else. The call of the other constructor, with which a constructor begins, is the
first that closes nothing.
-/

namespace Injection

namespace ConstructorCall

/-! ### Open brackets -/

/-- The number of allocated objects whose constructor is still to be called, after an instruction
with `pending` such objects in front of it. A call on an object that was not allocated there has no
such number. -/
def pendingAfter? (pending : Nat) (i : Instruction) : Option Nat :=
  if i.isAllocation then some (pending + 1)
  else
    match i.constructorCall?, pending with
    | none, _ => some pending
    | some _, 0 => none
    | some _, pending + 1 => some pending

def pendingAfterAll? (pending : Nat) (code : List Instruction) : Option Nat :=
  code.foldlM pendingAfter? pending

variable {pending n k : Nat} {i : Instruction} {code front back : List Instruction}
  {call : String × String}

theorem constructorCall?_of_isAllocation (hi : i.isAllocation = true) :
    i.constructorCall? = none := by
  unfold Instruction.isAllocation at hi
  split at hi
  · rfl
  · cases hi

theorem isAllocation_of_constructorCall? (hi : i.constructorCall? = some call) :
    i.isAllocation = false := by
  cases h : i.isAllocation with
  | false => rfl
  | true => cases (constructorCall?_of_isAllocation h).symm.trans hi

/-- The three things that an instruction can be. -/
theorem pendingAfter?_cases (i : Instruction) :
    (i.isAllocation = true ∧ i.constructorCall? = none ∧
      ∀ pending, pendingAfter? pending i = some (pending + 1)) ∨
    (∃ call, i.isAllocation = false ∧ i.constructorCall? = some call ∧
      pendingAfter? 0 i = none ∧ ∀ pending, pendingAfter? (pending + 1) i = some pending) ∨
    (i.isAllocation = false ∧ i.constructorCall? = none ∧
      ∀ pending, pendingAfter? pending i = some pending) := by
  cases hcall : i.constructorCall? with
  | none =>
      cases halloc : i.isAllocation with
      | true => exact .inl ⟨rfl, rfl, fun pending => by simp [pendingAfter?, halloc]⟩
      | false => exact .inr (.inr ⟨rfl, rfl, fun pending => by simp [pendingAfter?, halloc, hcall]⟩)
  | some call =>
      have halloc := isAllocation_of_constructorCall? hcall
      refine .inr (.inl ⟨call, halloc, rfl, ?_, fun pending => ?_⟩)
      · simp [pendingAfter?, halloc, hcall]
      · simp [pendingAfter?, halloc, hcall]

/-- Only a call with nothing pending has no count after it. -/
theorem pendingAfter?_eq_none_iff :
    pendingAfter? pending i = none ↔ pending = 0 ∧ ∃ call, i.constructorCall? = some call := by
  rcases pendingAfter?_cases i with ⟨-, hcall, hall⟩ | ⟨call, -, hcall, hzero, hsucc⟩ |
    ⟨-, hcall, hall⟩
  · simp [hall, hcall]
  · cases pending with
    | zero => simp [hzero, hcall]
    | succ pending => simp [hsucc]
  · simp [hall, hcall]

@[simp] theorem pendingAfterAll?_nil : pendingAfterAll? pending [] = some pending := rfl

theorem pendingAfterAll?_cons :
    pendingAfterAll? pending (i :: code) =
      (pendingAfter? pending i).bind (pendingAfterAll? · code) :=
  List.foldlM_cons

theorem pendingAfterAll?_append :
    pendingAfterAll? pending (front ++ back) =
      (pendingAfterAll? pending front).bind (pendingAfterAll? · back) :=
  List.foldlM_append

/-- Objects allocated further in front stay pending. -/
theorem pendingAfterAll?_add (h : pendingAfterAll? pending code = some n) (k : Nat) :
    pendingAfterAll? (pending + k) code = some (n + k) := by
  induction code generalizing pending with
  | nil =>
      cases h
      rfl
  | cons i code ih =>
      rw [pendingAfterAll?_cons] at h ⊢
      obtain ⟨m, hi, hm⟩ := Option.bind_eq_some_iff.mp h
      have hstep : pendingAfter? (pending + k) i = some (m + k) := by
        rcases pendingAfter?_cases i with ⟨-, -, hall⟩ | ⟨call, -, -, hzero, hsucc⟩ | ⟨-, -, hall⟩
        · rw [hall] at hi ⊢
          cases hi
          exact congrArg some (Nat.add_right_comm pending k 1)
        · cases pending with
          | zero =>
              rw [hzero] at hi
              cases hi
          | succ pending =>
              rw [hsucc] at hi
              cases hi
              rw [Nat.add_right_comm, hsucc]
        · rw [hall] at hi ⊢
          cases hi
          rfl
      rw [hstep]
      exact ih hm

theorem exists_pendingAfterAll?_of_front (hfront : front <+: code)
    (h : pendingAfterAll? pending code = some n) :
    ∃ m, pendingAfterAll? pending front = some m := by
  obtain ⟨back, rfl⟩ := hfront
  rw [pendingAfterAll?_append] at h
  obtain ⟨m, hm, -⟩ := Option.bind_eq_some_iff.mp h
  exact ⟨m, hm⟩

/-- Where an object is pending, either it was allocated in front of the stretch and nothing in the
stretch is called on it, or the stretch allocates one and then closes all that it opens. -/
theorem exists_open (h : pendingAfterAll? pending code = some (n + 1)) :
    (∃ k, pending = k + (n + 1) ∧ pendingAfterAll? k code = some 0) ∨
      ∃ front i back, code = front ++ i :: back ∧ i.isAllocation = true ∧
        pendingAfterAll? 0 back = some 0 := by
  induction code generalizing pending with
  | nil =>
      cases h
      exact .inl ⟨0, (Nat.zero_add _).symm, rfl⟩
  | cons i code ih =>
      have further (h : ∃ front j back, code = front ++ j :: back ∧ j.isAllocation = true ∧
          pendingAfterAll? 0 back = some 0) :
          ∃ front j back, i :: code = front ++ j :: back ∧ j.isAllocation = true ∧
            pendingAfterAll? 0 back = some 0 := by
        obtain ⟨front, j, back, rfl, hj, hback⟩ := h
        exact ⟨i :: front, j, back, rfl, hj, hback⟩
      rw [pendingAfterAll?_cons] at h
      -- The node opens, closes, or does neither. The bracket left open is this node if what follows
      -- closes all others.
      rcases pendingAfter?_cases i with ⟨hi, -, hall⟩ | ⟨call, -, -, hzero, hsucc⟩ | ⟨-, -, hall⟩
      · rw [hall, Option.bind_some] at h
        rcases ih h with ⟨k, hk, hcode⟩ | hlater
        · cases k with
          | zero => exact .inr ⟨[], i, code, rfl, hi, hcode⟩
          | succ k =>
              refine .inl ⟨k, by omega, ?_⟩
              rw [pendingAfterAll?_cons, hall]
              exact hcode
        · exact .inr (further hlater)
      · cases pending with
        | zero =>
            rw [hzero] at h
            cases h
        | succ pending =>
            rw [hsucc, Option.bind_some] at h
            rcases ih h with ⟨k, hk, hcode⟩ | hlater
            · refine .inl ⟨k + 1, by omega, ?_⟩
              rw [pendingAfterAll?_cons, hsucc]
              exact hcode
            · exact .inr (further hlater)
      · rw [hall, Option.bind_some] at h
        rcases ih h with ⟨k, hk, hcode⟩ | hlater
        · refine .inl ⟨k, hk, ?_⟩
          rw [pendingAfterAll?_cons, hall]
          exact hcode
        · exact .inr (further hlater)

/-! ### The first call that closes nothing -/

variable {first : Nat} {c : ConstructorCall}

theorem firstUnpaired_cons (pending : Nat) (i : Instruction) (position : Nat)
    (rest : List (Instruction × Nat)) :
    firstUnpaired pending ((i, position) :: rest) =
      match pendingAfter? pending i with
      | some n => firstUnpaired n rest
      | none => i.constructorCall?.map fun (owner, desc) => ⟨position, owner, desc⟩ := by
  rw [firstUnpaired.eq_def]
  dsimp only
  rcases pendingAfter?_cases i with ⟨hi, -, hall⟩ | ⟨call, hi, hcall, hzero, hsucc⟩ |
    ⟨hi, hcall, hall⟩
  · rw [hall, if_pos hi]
  · rw [hi, if_neg Bool.false_ne_true, hcall]
    cases pending with
    | zero =>
        rw [hzero]
        rfl
    | succ pending => rw [hsucc]
  · rw [hall, hi, if_neg Bool.false_ne_true, hcall]

/-- The first call that closes nothing stands where all that was opened is closed. -/
theorem firstUnpaired_eq_some_iff :
    firstUnpaired pending (code.zipIdx first) = some c ↔
      ∃ k, c.position = first + k ∧
        code[k]?.bind Instruction.constructorCall? = some (c.owner, c.desc) ∧
        pendingAfterAll? pending (code.take k) = some 0 := by
  induction code generalizing pending first with
  | nil => simp [firstUnpaired]
  | cons i code ih =>
      -- A later call stands in the rest of the code, where the count goes on.
      have later {n : Nat} (hi : pendingAfter? pending i = some n) :
          (∃ k, c.position = first + k ∧
            (i :: code)[k]?.bind Instruction.constructorCall? = some (c.owner, c.desc) ∧
            pendingAfterAll? pending ((i :: code).take k) = some 0) ↔
          ∃ k, c.position = first + 1 + k ∧
            code[k]?.bind Instruction.constructorCall? = some (c.owner, c.desc) ∧
            pendingAfterAll? n (code.take k) = some 0 := by
        constructor
        · rintro ⟨k, hposition, hcall, hcount⟩
          cases k with
          | zero =>
              cases hcount
              cases (pendingAfter?_eq_none_iff.mpr ⟨rfl, _, hcall⟩).symm.trans hi
          | succ k =>
              rw [List.take_succ_cons, pendingAfterAll?_cons, hi] at hcount
              exact ⟨k, by omega, hcall, hcount⟩
        · rintro ⟨k, hposition, hcall, hcount⟩
          refine ⟨k + 1, by omega, hcall, ?_⟩
          rw [List.take_succ_cons, pendingAfterAll?_cons, hi]
          exact hcount
      rw [List.zipIdx_cons, firstUnpaired_cons]
      cases hi : pendingAfter? pending i with
      | some n => exact ih.trans (later hi).symm
      | none =>
          constructor
          · intro h
            obtain ⟨call, hcall, hc⟩ := Option.map_eq_some_iff.mp h
            cases hc
            exact ⟨0, rfl, hcall, congrArg some (pendingAfter?_eq_none_iff.mp hi).1⟩
          · rintro ⟨k, hposition, hcall, hcount⟩
            cases k with
            | zero =>
                obtain ⟨position, owner, desc⟩ := c
                cases hposition
                have hcall : i.constructorCall? = some (owner, desc) := hcall
                rw [hcall]
                rfl
            | succ k =>
                rw [List.take_succ_cons, pendingAfterAll?_cons, hi] at hcount
                cases hcount

theorem firstUnpaired_eq_none_iff :
    firstUnpaired pending (code.zipIdx first) = none ↔
      ∃ n, pendingAfterAll? pending code = some n := by
  induction code generalizing pending first with
  | nil => simp [firstUnpaired]
  | cons i code ih =>
      rw [List.zipIdx_cons, firstUnpaired_cons, pendingAfterAll?_cons]
      cases hi : pendingAfter? pending i with
      | some n => exact ih
      | none =>
          obtain ⟨-, call, hcall⟩ := pendingAfter?_eq_none_iff.mp hi
          simp [hcall]

/-! ### What stands between two positions -/

def between (code : List Instruction) (a p : Nat) : List Instruction :=
  (code.drop (a + 1)).take (p - (a + 1))

variable {a b p q : Nat}

theorem take_eq_append_between (hi : code[a]? = some i) (hlt : a < p) :
    code.take p = code.take a ++ i :: between code a p := by
  obtain ⟨ha, rfl⟩ := List.getElem?_eq_some_iff.mp hi
  calc code.take p = code.take (a + (1 + (p - (a + 1)))) := by congr 1; omega
    _ = code.take a ++ ((code.drop a).take (1 + (p - (a + 1)))) := List.take_add
    _ = code.take a ++ code[a] :: between code a p := by
      rw [List.drop_eq_getElem_cons ha, Nat.add_comm, List.take_succ_cons, between]

theorem between_eq_append_between (hi : code[b]? = some i) (hab : a < b) (hbp : b < p) :
    between code a p = between code a b ++ i :: between code b p := by
  have hdrop : (code.drop (a + 1))[b - (a + 1)]? = some i := by
    rw [List.getElem?_drop, Nat.add_sub_cancel' hab, hi]
  have hrest : between (code.drop (a + 1)) (b - (a + 1)) (p - (a + 1)) = between code b p := by
    have hfrom : a + 1 + (b - (a + 1) + 1) = b + 1 := by omega
    have hcount : p - (a + 1) - (b - (a + 1) + 1) = p - (b + 1) := by omega
    rw [between, between, List.drop_drop, hfrom, hcount]
  rw [← hrest]
  exact take_eq_append_between hdrop (by omega)

theorem between_front (h : p ≤ q) : between code a p <+: between code a q :=
  List.take_prefix_take_left (Nat.sub_le_sub_right h (a + 1))

theorem drop_zipIdx (code : List Instruction) (k : Nat) :
    code.zipIdx.drop k = (code.drop k).zipIdx k := by
  apply List.ext_getElem?
  intro j
  rw [List.getElem?_drop, List.getElem?_zipIdx, List.getElem?_zipIdx, List.getElem?_drop,
    Nat.zero_add]

def StandsIn (c : ConstructorCall) (code : List Instruction) : Prop :=
  code[c.position]?.bind Instruction.constructorCall? = some (c.owner, c.desc)

theorem StandsIn.exists_getElem? (h : c.StandsIn code) :
    ∃ i, code[c.position]? = some i ∧ i.constructorCall? = some (c.owner, c.desc) :=
  Option.bind_eq_some_iff.mp h

theorem StandsIn.eq_of_position {d : ConstructorCall} (hc : c.StandsIn code) (hd : d.StandsIn code)
    (h : c.position = d.position) : c = d := by
  obtain ⟨position, owner, desc⟩ := c
  obtain ⟨_, owner', desc'⟩ := d
  cases h
  cases hc.symm.trans hd
  rfl

/-- Where a call stands in counted code, an object is pending. -/
theorem StandsIn.exists_pending (hc : c.StandsIn code) (hlt : c.position < k)
    (h : pendingAfterAll? 0 (code.take k) = some n) :
    ∃ m, pendingAfterAll? 0 (code.take c.position) = some (m + 1) := by
  obtain ⟨i, hi, hcall⟩ := hc.exists_getElem?
  rw [take_eq_append_between hi hlt, pendingAfterAll?_append] at h
  obtain ⟨m, hfront, hrest⟩ := Option.bind_eq_some_iff.mp h
  rw [pendingAfterAll?_cons] at hrest
  obtain ⟨l, hstep, -⟩ := Option.bind_eq_some_iff.mp hrest
  cases m with
  | succ m => exact ⟨m, hfront⟩
  | zero => cases (pendingAfter?_eq_none_iff.mpr ⟨rfl, _, hcall⟩).symm.trans hstep

/-- The object that is allocated at a position is initialized by the call: what stands between them
closes all that it opens and nothing else. -/
structure Closes (c : ConstructorCall) (code : List Instruction) (a : Nat) : Prop where
  opens : ∃ i, code[a]? = some i ∧ i.isAllocation = true
  lt : a < c.position
  standsIn : c.StandsIn code
  balanced : pendingAfterAll? 0 (between code a c.position) = some 0

theorem pendingAfter?_of_isAllocation (hi : i.isAllocation = true) :
    pendingAfter? pending i = some (pending + 1) :=
  if_pos hi

theorem firstUnpaired_drop_eq_some_iff :
    firstUnpaired 0 (code.zipIdx.drop (a + 1)) = some c ↔
      a < c.position ∧ c.StandsIn code ∧
        pendingAfterAll? 0 (between code a c.position) = some 0 := by
  rw [drop_zipIdx, firstUnpaired_eq_some_iff]
  constructor
  · rintro ⟨k, hposition, hcall, hcount⟩
    rw [List.getElem?_drop, ← hposition] at hcall
    refine ⟨by omega, hcall, ?_⟩
    rwa [between, hposition, Nat.add_sub_cancel_left]
  · rintro ⟨hlt, hcall, hcount⟩
    refine ⟨c.position - (a + 1), by omega, ?_, hcount⟩
    rwa [List.getElem?_drop, Nat.add_sub_cancel' hlt]

theorem delegate?_eq_some_iff :
    delegate? code.zipIdx = some c ↔
      c.StandsIn code ∧ pendingAfterAll? 0 (code.take c.position) = some 0 := by
  rw [delegate?, firstUnpaired_eq_some_iff]
  constructor
  · rintro ⟨k, hposition, hcall, hcount⟩
    rw [Nat.zero_add] at hposition
    cases hposition
    exact ⟨hcall, hcount⟩
  · rintro ⟨hcall, hcount⟩
    exact ⟨c.position, (Nat.zero_add _).symm, hcall, hcount⟩

theorem delegate?_eq_none_iff :
    delegate? code.zipIdx = none ↔ ∃ n, pendingAfterAll? 0 code = some n :=
  firstUnpaired_eq_none_iff

/-! ### The pairs -/

variable {d : ConstructorCall}

/-- Of two allocations with a call, the pair of the later one lies behind the pair of the earlier
one or within it. -/
theorem Closes.lt_of_lt (hc : c.Closes code a) (hd : d.Closes code b) (hab : a < b) :
    c.position < b ∨ d.position < c.position := by
  by_contra hcross
  obtain ⟨hb, hdc⟩ := not_or.mp hcross
  obtain ⟨i, hi, halloc⟩ := hd.opens
  -- The call does not stand where the second object is allocated.
  have hne : b ≠ c.position := by
    rintro rfl
    obtain ⟨j, hj, hcall⟩ := hc.standsIn.exists_getElem?
    cases hi.symm.trans hj
    cases (constructorCall?_of_isAllocation halloc).symm.trans hcall
  have hsplit := hc.balanced
  rw [between_eq_append_between hi hab (by omega), pendingAfterAll?_append] at hsplit
  obtain ⟨m, -, hrest⟩ := Option.bind_eq_some_iff.mp hsplit
  rw [pendingAfterAll?_cons, pendingAfter?_of_isAllocation halloc, Option.bind_some] at hrest
  -- What follows the second allocation up to the first call closes it, but not from its own start.
  obtain ⟨n, hn⟩ := exists_pendingAfterAll?_of_front
    (between_front (Nat.le_of_not_lt hdc)) hd.balanced
  have hshift := pendingAfterAll?_add hn (m + 1)
  rw [Nat.zero_add] at hshift
  cases hshift.symm.trans hrest

theorem Closes.eq_of_position (hc : c.Closes code a) (hd : d.Closes code b)
    (h : c.position = d.position) : a = b := by
  rcases Nat.lt_trichotomy a b with hab | hab | hab
  · have := hc.lt_of_lt hd hab
    have := hd.lt
    omega
  · exact hab
  · have := hd.lt_of_lt hc hab
    have := hc.lt
    omega

/-- A call closes some allocation if and only if an object is pending in front of it. -/
theorem StandsIn.exists_closes_iff (hc : c.StandsIn code)
    (h : pendingAfterAll? 0 (code.take c.position) = some n) :
    (∃ a, c.Closes code a) ↔ n ≠ 0 := by
  constructor
  · rintro ⟨a, ha⟩
    obtain ⟨i, hi, halloc⟩ := ha.opens
    rw [take_eq_append_between hi ha.lt, pendingAfterAll?_append] at h
    obtain ⟨m, -, hrest⟩ := Option.bind_eq_some_iff.mp h
    rw [pendingAfterAll?_cons, pendingAfter?_of_isAllocation halloc, Option.bind_some] at hrest
    have hshift := pendingAfterAll?_add ha.balanced (m + 1)
    rw [Nat.zero_add] at hshift
    cases hshift.symm.trans hrest
    exact Nat.succ_ne_zero m
  · intro hn
    obtain ⟨m, rfl⟩ := Nat.exists_eq_succ_of_ne_zero hn
    rcases exists_open h with ⟨k, hk, -⟩ | ⟨front, i, back, hsplit, halloc, hback⟩
    · omega
    · have hlen : front.length < c.position := by
        have hle := List.length_take_le c.position code
        rw [hsplit, List.length_append, List.length_cons] at hle
        omega
      have hi : code[front.length]? = some i := by
        rw [← List.getElem?_take_of_lt hlen, hsplit, List.getElem?_append_right (Nat.le_refl _),
          Nat.sub_self]
        rfl
      have hparts := hsplit.symm.trans (take_eq_append_between hi hlen)
      have hfront : front.length = (code.take front.length).length := by
        obtain ⟨hlt, -⟩ := List.getElem?_eq_some_iff.mp hi
        exact (List.length_take_of_le (Nat.le_of_lt hlt)).symm
      have hsame := (List.append_inj hparts hfront).2
      refine ⟨front.length, ⟨i, hi, halloc⟩, hlen, hc, ?_⟩
      rw [← (List.cons.inj hsame).2]
      exact hback

theorem exists_closes_of_delegate?_eq_none (h : delegate? code.zipIdx = none)
    (hd : d.StandsIn code) : ∃ a, d.Closes code a := by
  obtain ⟨n, hn⟩ := delegate?_eq_none_iff.mp h
  obtain ⟨i, hi, -⟩ := hd.exists_getElem?
  obtain ⟨hlt, -⟩ := List.getElem?_eq_some_iff.mp hi
  obtain ⟨m, hm⟩ := hd.exists_pending hlt (by rwa [List.take_length])
  exact (hd.exists_closes_iff hm).mpr (Nat.succ_ne_zero m)

/-- A call is the first that closes nothing if and only if it closes no allocation and all calls in
front of it close one. -/
theorem delegate?_eq_some_iff_unpaired :
    delegate? code.zipIdx = some c ↔
      c.StandsIn code ∧ (¬ ∃ a, c.Closes code a) ∧
        ∀ d : ConstructorCall, d.StandsIn code → d.position < c.position →
          ∃ a, d.Closes code a := by
  have forward {c : ConstructorCall} (h : delegate? code.zipIdx = some c) :
      c.StandsIn code ∧ (¬ ∃ a, c.Closes code a) ∧
        ∀ d : ConstructorCall, d.StandsIn code → d.position < c.position →
          ∃ a, d.Closes code a := by
    obtain ⟨hc, hcount⟩ := delegate?_eq_some_iff.mp h
    refine ⟨hc, fun hpaired => (hc.exists_closes_iff hcount).mp hpaired rfl, fun d hd hlt => ?_⟩
    obtain ⟨m, hm⟩ := hd.exists_pending hlt hcount
    exact (hd.exists_closes_iff hm).mpr (Nat.succ_ne_zero m)
  refine ⟨forward, fun ⟨hc, hunpaired, hearlier⟩ => ?_⟩
  cases hfound : delegate? code.zipIdx with
  | none => exact absurd (exists_closes_of_delegate?_eq_none hfound hc) hunpaired
  | some d =>
      -- The one that is found and the given one are both the first.
      obtain ⟨hd, hunpaired', hearlier'⟩ := forward hfound
      rcases Nat.lt_trichotomy d.position c.position with hlt | heq | hlt
      · exact absurd (hearlier d hd hlt) hunpaired'
      · exact congrArg some (hd.eq_of_position hc heq)
      · exact absurd (hearlier' c hc hlt) hunpaired

theorem delegate?_eq_none_iff_paired :
    delegate? code.zipIdx = none ↔
      ∀ d : ConstructorCall, d.StandsIn code → ∃ a, d.Closes code a := by
  refine ⟨fun h d hd => exists_closes_of_delegate?_eq_none h hd, fun hall => ?_⟩
  cases hfound : delegate? code.zipIdx with
  | none => rfl
  | some c =>
      obtain ⟨hc, hunpaired, -⟩ := delegate?_eq_some_iff_unpaired.mp hfound
      exact absurd (hall c hc) hunpaired

end ConstructorCall

namespace PointContext

variable {ctx : PointContext}

def Pairs (ctx : PointContext) (a : Nat) (c : ConstructorCall) : Prop :=
  (∃ i, ctx.instructions.get? a = some i ∧ i.isAllocation = true) ∧ ctx.constructorOf? a = some c

def Calls (ctx : PointContext) (c : ConstructorCall) : Prop :=
  (ctx.instructions.get? c.position).bind Instruction.constructorCall? = some (c.owner, c.desc)

/-- The allocations of a method and its calls of constructors pair like brackets, and the call of
the other constructor is the first that is left over. -/
structure PairsLikeBrackets (ctx : PointContext) : Prop where
  /-- The pairs are of an allocation and a later call. -/
  ordered : ∀ a c, ctx.Pairs a c → a < c.position ∧ ctx.Calls c
  /-- No call is given to two allocations. -/
  single : ∀ a b c d, ctx.Pairs a c → ctx.Pairs b d → c.position = d.position → a = b
  /-- The pairs do not cross. -/
  nested : ∀ a b c d, ctx.Pairs a c → ctx.Pairs b d → a < b →
    c.position < b ∨ d.position < c.position
  delegate : ∀ c, ConstructorCall.delegate? ctx.positioned = some c ↔
    ctx.Calls c ∧ (¬ ∃ a, ctx.Pairs a c) ∧
      ∀ d, ctx.Calls d → d.position < c.position → ∃ a, ctx.Pairs a d
  noDelegate : ConstructorCall.delegate? ctx.positioned = none ↔
    ∀ d, ctx.Calls d → ∃ a, ctx.Pairs a d

theorem standsIn_toList_iff {c : ConstructorCall} :
    c.StandsIn ctx.instructions.nodes.toList ↔ ctx.Calls c := by
  rw [ConstructorCall.StandsIn, Array.getElem?_toList]
  rfl

theorem closes_toList_iff {c : ConstructorCall} {a : Nat} :
    c.Closes ctx.instructions.nodes.toList a ↔ ctx.Pairs a c := by
  rw [Pairs, constructorOf?, positioned, ConstructorCall.firstUnpaired_drop_eq_some_iff,
    InstructionList.get?, ← Array.getElem?_toList]
  exact ⟨fun h => ⟨h.opens, h.lt, h.standsIn, h.balanced⟩,
    fun ⟨hopens, hlt, hc, hcount⟩ => ⟨hopens, hlt, hc, hcount⟩⟩

theorem pairsLikeBrackets (ctx : PointContext) : ctx.PairsLikeBrackets where
  ordered _ _ h := by
    have hc := closes_toList_iff.mpr h
    exact ⟨hc.lt, standsIn_toList_iff.mp hc.standsIn⟩
  single _ _ _ _ hc hd := (closes_toList_iff.mpr hc).eq_of_position (closes_toList_iff.mpr hd)
  nested _ _ _ _ hc hd := (closes_toList_iff.mpr hc).lt_of_lt (closes_toList_iff.mpr hd)
  delegate c := by
    rw [positioned, ConstructorCall.delegate?_eq_some_iff_unpaired]
    simp only [standsIn_toList_iff, closes_toList_iff]
  noDelegate := by
    rw [positioned, ConstructorCall.delegate?_eq_none_iff_paired]
    simp only [standsIn_toList_iff, closes_toList_iff]

/-- The constructor of the superclass is given a new object: its call is the second one. -/
example :
    ConstructorCall.delegate?
      [(.type .newObject "Inner", 0), (.method .invokespecial "Inner" "<init>" "()V" false, 1),
        (.method .invokespecial "Outer" "<init>" "(LInner;)V" false, 2)] =
      some ⟨2, "Outer", "(LInner;)V"⟩ := by
  decide

end PointContext

end Injection
