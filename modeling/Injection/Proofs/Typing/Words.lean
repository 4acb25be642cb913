import Injection.Typing.Execute
import Mathlib.Data.List.Basic

/-!
Moves of typed values are moves of machine words. A stack of values stands for a stack of words in
which a long or double takes two places. Every move takes two blocks of words from the top. Where
neither block ends inside a value, the blocks are stacks of values themselves, and moving the values
moves their words.
-/

namespace Injection

/-! ### The words of a stack -/

/-- A machine word on the stack: a part of a value, counted from the top. -/
structure StackWord where
  value : TypeValue
  part : Nat
deriving DecidableEq

namespace StackWord

def ofValue (v : TypeValue) : List StackWord := (List.range v.size).map (mk v)

def ofStack (s : List TypeValue) : List StackWord := s.flatMap ofValue

/-- The cut under the given number of words goes through a value: the word below it does not begin
one. -/
def Splits (s : List TypeValue) (depth : Nat) : Prop :=
  ((ofStack s)[depth]?).any (·.part ≠ 0) = true

instance (s : List TypeValue) (depth : Nat) : Decidable (Splits s depth) :=
  inferInstanceAs (Decidable (_ = true))

variable {s above below : List TypeValue} {v : TypeValue} {depth : Nat}

@[simp] theorem length_ofValue : (ofValue v).length = v.size := by simp [ofValue]

@[simp] theorem ofStack_nil : ofStack [] = [] := rfl

@[simp] theorem ofStack_cons : ofStack (v :: s) = ofValue v ++ ofStack s := rfl

@[simp] theorem ofStack_append : ofStack (above ++ below) = ofStack above ++ ofStack below :=
  List.flatMap_append

theorem size_eq_one_or_two (v : TypeValue) : v.size = 1 ∨ v.size = 2 := by
  cases v <;> simp [TypeValue.size]

theorem splits_append (h : (ofStack above).length ≤ depth) :
    Splits (above ++ below) depth ↔ Splits below (depth - (ofStack above).length) := by
  rw [Splits, Splits, ofStack_append, List.getElem?_append_right h]

/-- The second word of a value does not begin it. -/
theorem splits_one (hv : v.size = 2) : Splits (v :: s) 1 := by
  rw [Splits, ofStack_cons, ofValue, hv]
  rfl

/-- A cut that goes through no value leaves values above and below. -/
theorem exists_append_of_not_splits (hdepth : depth ≤ (ofStack s).length)
    (hwhole : ¬Splits s depth) :
    ∃ above below, s = above ++ below ∧ (ofStack above).length = depth := by
  induction s generalizing depth with
  | nil => exact ⟨[], [], rfl, (Nat.le_zero.mp hdepth).symm⟩
  | cons v s ih =>
      by_cases hzero : depth = 0
      · exact ⟨[], v :: s, rfl, hzero.symm⟩
      have hle : v.size ≤ depth := by
        by_contra hlt
        rcases size_eq_one_or_two v with hv | hv
        · omega
        · -- The one cut inside of the first value is between its two words.
          have hone : depth = 1 := by omega
          exact hwhole (hone ▸ splits_one hv)
      have hlength : (ofStack [v]).length = v.size := by simp
      have hcut : Splits ([v] ++ s) depth ↔ Splits s (depth - (ofStack [v]).length) :=
        splits_append (hlength.symm ▸ hle)
      rw [hlength] at hcut
      rw [ofStack_cons, List.length_append, length_ofValue] at hdepth
      obtain ⟨above, below, rfl, habove⟩ :=
        ih (Nat.sub_le_iff_le_add'.mpr hdepth) fun h => hwhole (hcut.mpr h)
      refine ⟨v :: above, below, rfl, ?_⟩
      rw [ofStack_cons, List.length_append, length_ofValue, habove]
      omega

theorem eq_nil_of_length (h : (ofStack s).length = 0) : s = [] := by
  cases s with
  | nil => rfl
  | cons v s =>
      rw [ofStack_cons, List.length_append, length_ofValue] at h
      have := size_eq_one_or_two v
      omega

theorem exists_of_length_one (h : (ofStack s).length = 1) : ∃ v, s = [v] ∧ v.size = 1 := by
  cases s with
  | nil => cases h
  | cons v s =>
      rw [ofStack_cons, List.length_append, length_ofValue] at h
      have := size_eq_one_or_two v
      exact ⟨v, by rw [show s = [] from eq_nil_of_length (by omega)], by omega⟩

/-- Two words are a value of two words or two values of one word each. -/
theorem exists_of_length_two (h : (ofStack s).length = 2) :
    (∃ v, s = [v] ∧ v.size = 2) ∨ ∃ v w, s = [v, w] ∧ v.size = 1 ∧ w.size = 1 := by
  cases s with
  | nil => cases h
  | cons v s =>
      rw [ofStack_cons, List.length_append, length_ofValue] at h
      rcases size_eq_one_or_two v with hv | hv
      · obtain ⟨w, rfl, hw⟩ := exists_of_length_one (show (ofStack s).length = 1 by omega)
        exact .inr ⟨v, w, rfl, hv, hw⟩
      · exact .inl ⟨v, by rw [show s = [] from eq_nil_of_length (by omega)], hv⟩

end StackWord

/-! ### The blocks of a move -/

namespace StackMove

open StackWord

def opcode : StackMove → Opcode
  | pop => .pop
  | pop2 => .pop2
  | dup => .dup
  | dupX1 => .dupX1
  | dupX2 => .dupX2
  | dup2 => .dup2
  | dup2X1 => .dup2X1
  | dup2X2 => .dup2X2
  | swap => .swap

@[simp] theorem ofOpcode?_opcode (move : StackMove) : ofOpcode? move.opcode = some move := by
  cases move <;> decide

/-- The number of words in the block at the top, which a move drops, copies or exchanges. -/
def upper : StackMove → Nat
  | pop | dup | dupX1 | dupX2 | swap => 1
  | pop2 | dup2 | dup2X1 | dup2X2 => 2

def lower : StackMove → Nat
  | pop | pop2 | dup | dup2 => 0
  | dupX1 | dup2X1 | swap => 1
  | dupX2 | dup2X2 => 2

def depth (move : StackMove) : Nat := move.upper + move.lower

def rearrange {α : Type} (move : StackMove) (upper lower : List α) : List α :=
  match move with
  | pop | pop2 => lower
  | swap => lower ++ upper
  | dup | dupX1 | dupX2 | dup2 | dup2X1 | dup2X2 => upper ++ lower ++ upper

variable {move : StackMove}

theorem ofStack_rearrange (upper lower : List TypeValue) :
    ofStack (move.rearrange upper lower) = move.rearrange (ofStack upper) (ofStack lower) := by
  cases move <;> simp [rearrange]

theorem words_append {α : Type} {upper lower : List α} (hupper : upper.length = move.upper)
    (hlower : lower.length = move.lower) (rest : List α) :
    move.words (upper ++ lower ++ rest) = some (move.rearrange upper lower ++ rest) := by
  cases move with
  | pop | dup =>
      obtain ⟨a, rfl⟩ := List.length_eq_one_iff.mp hupper
      cases List.length_eq_zero_iff.mp hlower
      rfl
  | pop2 | dup2 =>
      obtain ⟨a, b, rfl⟩ := List.length_eq_two.mp hupper
      cases List.length_eq_zero_iff.mp hlower
      rfl
  | dupX1 | swap =>
      obtain ⟨a, rfl⟩ := List.length_eq_one_iff.mp hupper
      obtain ⟨b, rfl⟩ := List.length_eq_one_iff.mp hlower
      rfl
  | dupX2 =>
      obtain ⟨a, rfl⟩ := List.length_eq_one_iff.mp hupper
      obtain ⟨b, c, rfl⟩ := List.length_eq_two.mp hlower
      rfl
  | dup2X1 =>
      obtain ⟨a, b, rfl⟩ := List.length_eq_two.mp hupper
      obtain ⟨c, rfl⟩ := List.length_eq_one_iff.mp hlower
      rfl
  | dup2X2 =>
      obtain ⟨a, b, rfl⟩ := List.length_eq_two.mp hupper
      obtain ⟨c, d, rfl⟩ := List.length_eq_two.mp hlower
      rfl

/-- The move on values does the same with blocks of values of the same widths. -/
theorem apply_append {upper lower : List TypeValue} (hupper : (ofStack upper).length = move.upper)
    (hlower : (ofStack lower).length = move.lower) (rest : List TypeValue) :
    move.apply (upper ++ lower ++ rest) = some (move.rearrange upper lower ++ rest) := by
  cases move with
  | pop | dup =>
      obtain ⟨v, rfl, -⟩ := exists_of_length_one hupper
      cases eq_nil_of_length hlower
      rfl
  | pop2 | dup2 =>
      cases eq_nil_of_length hlower
      rcases exists_of_length_two hupper with ⟨v, rfl, hv⟩ | ⟨v, w, rfl, hv, -⟩ <;>
        simp [apply, rearrange, hv]
  | dupX1 | swap =>
      obtain ⟨v, rfl, -⟩ := exists_of_length_one hupper
      obtain ⟨w, rfl, -⟩ := exists_of_length_one hlower
      rfl
  | dupX2 =>
      obtain ⟨v, rfl, -⟩ := exists_of_length_one hupper
      rcases exists_of_length_two hlower with ⟨w, rfl, hw⟩ | ⟨w, x, rfl, hw, -⟩ <;>
        simp [apply, rearrange, hw]
  | dup2X1 =>
      obtain ⟨w, rfl, -⟩ := exists_of_length_one hlower
      rcases exists_of_length_two hupper with ⟨v, rfl, hv⟩ | ⟨v, x, rfl, hv, -⟩ <;>
        simp [apply, rearrange, hv]
  | dup2X2 =>
      rcases exists_of_length_two hupper with ⟨v, rfl, hv⟩ | ⟨v, x, rfl, hv, -⟩ <;>
        rcases exists_of_length_two hlower with ⟨w, rfl, hw⟩ | ⟨w, y, rfl, hw, -⟩ <;>
          simp [apply, rearrange, hv, hw]

/-- A move that succeeds found the words it needs. -/
theorem depth_le_of_apply {s s' : List TypeValue} (h : move.apply s = some s') :
    move.depth ≤ (ofStack s).length := by
  have hpos (v : TypeValue) : 1 ≤ v.size := by
    have := size_eq_one_or_two v
    omega
  -- Every way through the move names the values it took and the widths it read.
  unfold apply at h
  repeat' split at h
  all_goals cases h
  all_goals
    simp only [ofStack_cons, List.length_append, length_ofValue, depth, upper, lower]
    grind

end StackMove

namespace Typing

open StackWord

/-- A move of values is the move of their words wherever it cuts through no value. With fewer words
than it needs there is no move at all. -/
theorem execute_move_words (owner : String) (position : Nat) (move : StackMove) (f : TypeFrame) :
    (move.depth ≤ (ofStack f.stack).length →
      ¬Splits f.stack move.upper → ¬Splits f.stack move.depth →
      ∃ stack, execute owner position (.plain move.opcode) f = .ok { f with stack } ∧
        move.words (ofStack f.stack) = some (ofStack stack)) ∧
    ((ofStack f.stack).length < move.depth →
      execute owner position (.plain move.opcode) f = .error (.stackUnderflow position)) := by
  have hexecute : execute owner position (.plain move.opcode) f =
      onStack position f (move.apply f.stack) := by
    simp only [execute, plain, StackMove.ofOpcode?_opcode]
  rw [hexecute]
  refine ⟨fun hdepth hupper hlower => ?_, fun hshort => ?_⟩
  · obtain ⟨upper, below, hstack, hlength⟩ :=
      exists_append_of_not_splits (Nat.le_of_add_right_le hdepth) hupper
    rw [hstack] at hdepth hlower ⊢
    -- Without the upper block, the second cut is one of what is left.
    rw [splits_append (hlength ▸ Nat.le_add_right _ _), hlength, StackMove.depth,
      Nat.add_sub_cancel_left] at hlower
    rw [ofStack_append, List.length_append, hlength, StackMove.depth,
      Nat.add_le_add_iff_left] at hdepth
    obtain ⟨lower, rest, rfl, hlength'⟩ := exists_append_of_not_splits hdepth hlower
    refine ⟨move.rearrange upper lower ++ rest, ?_, ?_⟩
    · rw [← List.append_assoc, StackMove.apply_append hlength hlength']
      rfl
    · rw [ofStack_append, ofStack_append, ← List.append_assoc,
        StackMove.words_append hlength hlength', ofStack_append, StackMove.ofStack_rearrange]
  · cases happly : move.apply f.stack with
    | none => rfl
    | some stack => exact absurd (StackMove.depth_le_of_apply happly) (Nat.not_le_of_lt hshort)

/-- A number and a reference are copied under a double. Under a long there is no third word. -/
theorem execute_move_words_wide :
    (∃ stack, execute "a/A" 0 (.plain .dup2X2) ⟨[], [.int, .null, .double, .float]⟩ =
        .ok ⟨[], stack⟩ ∧
      StackMove.dup2X2.words (ofStack [.int, .null, .double, .float]) = some (ofStack stack)) ∧
    execute "a/A" 1 (.plain .dupX2) ⟨[], [.long]⟩ = .error (.stackUnderflow 1) :=
  ⟨(execute_move_words "a/A" 0 .dup2X2 ⟨[], [.int, .null, .double, .float]⟩).1
      (by decide) (by decide) (by decide),
    (execute_move_words "a/A" 1 .dupX2 ⟨[], [.long]⟩).2 (by decide)⟩

end Typing

end Injection
