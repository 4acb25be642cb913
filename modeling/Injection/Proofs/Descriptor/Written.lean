import Injection.Descriptor
import Mathlib.Data.List.TakeWhile
import Mathlib.Tactic.Common

/-!
What the readers of type descriptors accept is the written form of what they give back, and the
names of classes in that are such as can be written.
-/

namespace Injection

theorem BaseType.eq_letter_of_ofLetter? {c : Char} {type : BaseType}
    (hc : BaseType.ofLetter? c = some type) : c = type.letter := by
  unfold BaseType.ofLetter? at hc
  split at hc <;> cases hc <;> rfl

namespace FieldType

/-- The names of classes in the type can be written: there is something to write, and no semicolon
ends the name early. -/
def IsWritable : FieldType → Prop
  | base _ => True
  | object name => name ≠ "" ∧ ';' ∉ name.toList
  | array component => component.IsWritable

theorem written_of_read {cs rest : List Char} {t : FieldType}
    (hread : read cs = .ok (t, rest)) : t.IsWritable ∧ t.chars ++ rest = cs := by
  -- Only an array reads on, so the induction serves its items.
  induction cs generalizing t rest with
  | nil => simp [read] at hread
  | cons c cs ih =>
      unfold read at hread
      split at hread
      · rename_i heq
        cases heq
        cases hr : read cs with
        | error e => simp [hr, bind, Except.bind] at hread
        | ok p =>
            simp only [hr, bind, Except.bind, pure, Except.pure, Except.ok.injEq,
              Prod.mk.injEq] at hread
            obtain ⟨hwritable, hchars⟩ := ih hr
            rw [← hread.1, ← hread.2, chars, List.cons_append, hchars]
            exact ⟨hwritable, rfl⟩
      · rename_i heq
        cases heq
        split at hread
        · rename_i c name d after htake hdrop
          cases hread
          have hsplit := List.takeWhile_append_dropWhile (p := (· ≠ ';')) (l := cs)
          have hd : d = ';' := by
            have := List.head?_dropWhile_not (· ≠ ';') cs
            rw [hdrop] at this
            simpa using this
          refine ⟨⟨by simp, fun hmem => ?_⟩, ?_⟩
          · rw [String.toList_ofList, ← htake] at hmem
            simpa using List.mem_takeWhile_imp hmem
          · rw [htake, hdrop, hd] at hsplit
            simpa [chars] using hsplit
        · cases hread
      · rename_i d more _ _ heq
        cases heq
        split at hread
        · rename_i type hletter
          cases hread
          rw [chars, BaseType.eq_letter_of_ofLetter? hletter]
          exact ⟨trivial, rfl⟩
        · cases hread
      · cases hread

end FieldType

namespace ReturnType

def IsWritable : ReturnType → Prop
  | void => True
  | type t => t.IsWritable

theorem written_of_read {cs rest : List Char} {r : ReturnType}
    (hread : read cs = .ok (r, rest)) : r.IsWritable ∧ r.chars ++ rest = cs := by
  unfold read at hread
  split at hread
  · cases hread
    exact ⟨trivial, rfl⟩
  · cases hr : FieldType.read cs with
    | error e => simp [hr, bind, Except.bind] at hread
    | ok p =>
        simp only [hr, bind, Except.bind, pure, Except.pure, Except.ok.injEq,
          Prod.mk.injEq] at hread
        rw [← hread.1, ← hread.2]
        exact FieldType.written_of_read hr

end ReturnType

namespace MethodDescriptor

def IsWritable (m : MethodDescriptor) : Prop :=
  (∀ p ∈ m.params, p.IsWritable) ∧ m.result.IsWritable

theorem written_of_readParams {cs rest : List Char} {params : List FieldType}
    (hread : readParams cs = some (params, rest)) :
    (∀ p ∈ params, p.IsWritable) ∧ params.flatMap FieldType.chars ++ ')' :: rest = cs := by
  fun_induction readParams cs generalizing params rest with
  | case1 => cases hread
  | case2 more =>
      cases hread
      exact ⟨List.forall_mem_nil _, rfl⟩
  | case3 => cases hread
  | case4 => cases hread
  | case5 c more hc t after hfirst _ ts rest' hmore ih =>
      cases hread
      obtain ⟨hwritable, hchars⟩ := FieldType.written_of_read hfirst
      obtain ⟨hall, hchars'⟩ := ih hmore
      refine ⟨List.forall_mem_cons.mpr ⟨hwritable, hall⟩, ?_⟩
      rw [List.flatMap_cons, List.append_assoc, hchars', hchars]

theorem written_of_parse {text : String} {m : MethodDescriptor} (hparse : parse text = .ok m) :
    m.IsWritable ∧ m.chars = text.toList := by
  unfold parse at hparse
  dsimp only at hparse
  split at hparse
  · rename_i read hread
    cases hparse
    split at hread
    · rename_i cs htext
      split at hread
      · rename_i params rest hparams
        split at hread
        · rename_i result hresult
          cases hread
          obtain ⟨hall, hchars⟩ := written_of_readParams hparams
          obtain ⟨hwritable, hchars'⟩ := ReturnType.written_of_read hresult
          refine ⟨⟨hall, hwritable⟩, ?_⟩
          rw [htext, chars, ← hchars, ← hchars', List.append_nil, List.cons_append]
        · cases hread
      · cases hread
    · cases hread
  · cases hparse

theorem chars_of_parse {text : String} {m : MethodDescriptor} (hparse : parse text = .ok m) :
    m.chars = text.toList :=
  (written_of_parse hparse).2

/-- No type of a method is written longer than the method's own type. -/
theorem length_chars_le {m : MethodDescriptor} :
    (∀ p ∈ m.params, p.chars.length ≤ m.chars.length) ∧
      m.result.chars.length ≤ m.chars.length := by
  constructor
  · intro p hp
    have hmem : p.chars ∈ m.params.map FieldType.chars := List.mem_map_of_mem hp
    have hle := (List.sublist_flatten_of_mem hmem).length_le
    simp only [chars, List.flatMap, List.length_append, List.length_cons]
    omega
  · simp only [chars, List.length_append, List.length_cons]
    omega

end MethodDescriptor

end Injection
