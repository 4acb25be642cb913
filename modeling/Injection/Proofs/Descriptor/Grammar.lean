import Injection.Proofs.Descriptor.Written

/-!
Type descriptors and their trees are in bijection. Every tree whose class names can be written is
read back from its written form, whatever follows it, and every text that is read is the written
form of such a tree.
-/

namespace Injection

namespace FieldType

variable {t : FieldType} {cs rest : List Char}

theorem read_letter (type : BaseType) (rest : List Char) :
    read (type.letter :: rest) = .ok (base type, rest) := by
  cases type <;> rfl

theorem read_object {name : String} (hname : name ≠ "" ∧ ';' ∉ name.toList) (rest : List Char) :
    read ('L' :: (name.toList ++ ';' :: rest)) = .ok (object name, rest) := by
  have hletters : ∀ c ∈ name.toList, decide (c ≠ ';') = true := fun c hc =>
    decide_eq_true fun heq => hname.2 (heq ▸ hc)
  have htake : (name.toList ++ ';' :: rest).takeWhile (· ≠ ';') = name.toList := by
    rw [List.takeWhile_append_of_pos hletters, List.takeWhile_cons_of_neg (by simp),
      List.append_nil]
  have hdrop : (name.toList ++ ';' :: rest).dropWhile (· ≠ ';') = ';' :: rest := by
    rw [List.dropWhile_append_of_pos hletters, List.dropWhile_cons_of_neg (by simp)]
  rw [read, htake, hdrop]
  cases hcs : name.toList with
  | nil => exact absurd (String.toList_eq_nil_iff.mp hcs) hname.1
  | cons c cs =>
      dsimp only
      rw [← hcs, String.ofList_toList]

/-- A written type is read back and what follows it is left. -/
theorem read_chars_append (ht : t.IsWritable) (rest : List Char) :
    read (t.chars ++ rest) = .ok (t, rest) := by
  induction t with
  | base type => exact read_letter type rest
  | object name => simpa [chars] using read_object ht rest
  | array component ih =>
      rw [chars, List.cons_append, read, ih ht]
      rfl

theorem read_eq_ok_iff : read cs = .ok (t, rest) ↔ t.IsWritable ∧ t.chars ++ rest = cs :=
  ⟨written_of_read, fun ⟨ht, hcs⟩ => hcs ▸ read_chars_append ht rest⟩

theorem parse_eq_ok_iff {text : String} :
    parse text = .ok t ↔ t.IsWritable ∧ t.descriptor = text := by
  have hdescriptor : t.descriptor = text ↔ t.chars ++ [] = text.toList := by
    rw [List.append_nil, descriptor, ← String.toList_inj, String.toList_ofList]
  rw [hdescriptor, ← read_eq_ok_iff, parse]
  cases hread : read text.toList with
  | error e => simp [bind, Except.bind]
  | ok p =>
      obtain ⟨t', rest⟩ := p
      cases rest <;>
        simp [bind, Except.bind, pure, Except.pure, throw, throwThe, MonadExceptOf.throw]

/-- No type of a field begins like the end of the parameters or like `void`. -/
theorem exists_chars_eq_cons (t : FieldType) : ∃ c cs, t.chars = c :: cs ∧ c ≠ ')' ∧ c ≠ 'V' := by
  cases t with
  | base type => cases type <;> exact ⟨_, _, rfl, by decide⟩
  | object name => exact ⟨_, _, rfl, by decide⟩
  | array component => exact ⟨_, _, rfl, by decide⟩

end FieldType

namespace ReturnType

variable {r : ReturnType} {cs rest : List Char}

theorem read_chars_append (hr : r.IsWritable) (rest : List Char) :
    read (r.chars ++ rest) = .ok (r, rest) := by
  cases r with
  | void => rfl
  | type t =>
      obtain ⟨c, more, ht, -, hvoid⟩ := t.exists_chars_eq_cons
      have hread := FieldType.read_chars_append hr rest
      rw [ht, List.cons_append] at hread
      rw [chars, ht, List.cons_append, read, hread]
      · rfl
      · exact fun _ h => hvoid (List.cons.inj h).1

end ReturnType

namespace MethodDescriptor

variable {params : List FieldType} {cs rest : List Char}

theorem readParams_append (hparams : ∀ p ∈ params, p.IsWritable) (rest : List Char) :
    readParams (params.flatMap FieldType.chars ++ ')' :: rest) = some (params, rest) := by
  induction params with
  | nil => rw [List.flatMap_nil, List.nil_append, readParams, if_pos rfl]
  | cons p params ih =>
      -- The first letter of a type tells it from the end of the parameters.
      obtain ⟨hp, hparams⟩ := List.forall_mem_cons.mp hparams
      obtain ⟨c, more, hchars, hclose, -⟩ := p.exists_chars_eq_cons
      have hread := FieldType.read_chars_append hp
        (params.flatMap FieldType.chars ++ ')' :: rest)
      rw [hchars, List.cons_append] at hread
      rw [List.flatMap_cons, List.append_assoc, hchars, List.cons_append, readParams,
        if_neg hclose]
      split
      · rename_i e he
        cases hread.symm.trans he
      · rename_i t after ht
        cases hread.symm.trans ht
        rw [ih hparams]

theorem parse_eq_ok_iff {text : String} {m : MethodDescriptor} :
    parse text = .ok m ↔ m.IsWritable ∧ m.descriptor = text := by
  have hdescriptor : m.descriptor = text ↔ m.chars = text.toList := by
    rw [descriptor, ← String.toList_inj, String.toList_ofList]
  rw [hdescriptor]
  refine ⟨written_of_parse, fun ⟨hm, htext⟩ => ?_⟩
  have hresult : ReturnType.read m.result.chars = .ok (m.result, []) := by
    simpa using ReturnType.read_chars_append hm.2 []
  rw [chars, List.cons_append] at htext
  rw [parse, ← htext]
  simp only [readParams_append hm.1, hresult]

end MethodDescriptor

/-- The texts that are read as types are the written forms of the types whose names can be written,
and each of these reads back as it was. -/
theorem descriptors_bijective :
    (∀ text t, FieldType.parse text = .ok t ↔ t.IsWritable ∧ t.descriptor = text) ∧
      ∀ text m, MethodDescriptor.parse text = .ok m ↔ m.IsWritable ∧ m.descriptor = text :=
  ⟨fun _ _ => FieldType.parse_eq_ok_iff, fun _ _ => MethodDescriptor.parse_eq_ok_iff⟩

end Injection
