import Injection.Proofs.Descriptor.Written
import Injection.Proofs.Typing.Join
import Injection.Typing.Execute

/-!
What executing an instruction does to a frame.

`Typing.Effect` tells the few things that the many instructions can do, and `effect_of_execute` is
the one place that opens `execute`. `TypeFrame.Grows` is what follows of the frames before and
after: the same number of locals, at most two more stack entries, and no array type nested deeper
than a bound that covers the frame before, the listing of the instruction and the name of the
owner.
-/

namespace Injection

namespace TypeFrame

structure Within (nesting : Nat) (f : TypeFrame) : Prop where
  locals : ∀ v ∈ f.locals, v.nesting ≤ nesting
  stack : ∀ v ∈ f.stack, v.nesting ≤ nesting

structure Grows (nesting : Nat) (f f' : TypeFrame) : Prop where
  locals : f'.locals.length = f.locals.length
  stack : f'.stack.length ≤ f.stack.length + 2
  within : f.Within nesting → f'.Within nesting

theorem Within.take {nesting : Nat} {f : TypeFrame} {stack : List TypeValue}
    (hf : f.Within nesting) (hs : stack.Sublist f.stack) : { f with stack }.Within nesting :=
  ⟨hf.locals, fun v hv => hf.stack v (hs.subset hv)⟩

theorem Within.give {nesting : Nat} {f : TypeFrame} {given : List TypeValue}
    (hf : f.Within nesting) (hgiven : ∀ v ∈ given, v.nesting ≤ nesting) :
    { f with stack := given ++ f.stack }.Within nesting :=
  ⟨hf.locals, List.forall_mem_append.mpr ⟨hgiven, hf.stack⟩⟩

theorem Grows.refl (nesting : Nat) (f : TypeFrame) : f.Grows nesting f :=
  ⟨rfl, Nat.le_add_right _ _, id⟩

end TypeFrame

/-! ### The nesting of the types that instructions name -/

namespace Instruction

def listed : Instruction → List String
  | type _ desc | newMultiArray desc _ => [desc]
  | field _ owner name desc | method _ owner name desc _ => [owner, name, desc]
  | invokeDynamic name desc .. | ldc (.dynamic name desc ..) => [name, desc]
  | _ => []

theorem length_le_text {i : Instruction} {n : String} (hn : n ∈ i.listed) :
    n.length ≤ i.text.length := by
  unfold listed at hn
  split at hn
  all_goals simp only [List.mem_cons, List.not_mem_nil, or_false] at hn
  · rename_i op desc
    change _ ≤ (op.mnemonic ++ " " ++ desc).length
    simp only [String.length_append]
    grind
  · rename_i desc dims
    change _ ≤ ("MULTIANEWARRAY " ++ desc ++ " " ++ toString dims.toNat).length
    simp only [String.length_append]
    grind
  · rename_i op owner name desc
    change _ ≤ (op.mnemonic ++ " " ++ owner ++ "." ++ name ++ " : " ++ desc).length
    simp only [String.length_append]
    grind
  · rename_i op owner name desc interface
    change _ ≤ (op.mnemonic ++ " " ++ owner ++ "." ++ name ++ " " ++ desc ++
      if interface && op ≠ .invokeinterface then " (itf)" else "").length
    simp only [String.length_append]
    grind
  · rename_i name desc bootstrap args
    change _ ≤ ("INVOKEDYNAMIC " ++ name ++ desc ++ " [" ++ bootstrap.owner ++ "." ++
      bootstrap.name ++ "]").length
    simp only [String.length_append]
    grind
  · rename_i name desc bootstrap args
    change _ ≤ ("LDC " ++ (name ++ " : " ++ desc)).length
    simp only [String.length_append]
    grind

end Instruction

namespace TypeValue

theorem nesting_ofDescriptor_le (desc : String) : (ofDescriptor desc).nesting ≤ desc.length := by
  have hd := arrayNesting_le_length desc.toList
  rw [String.length_toList] at hd
  unfold ofDescriptor
  split
  · split
    · exact Nat.zero_le _
    · repeat' split
      all_goals first | exact hd | exact Nat.zero_le _
  · exact Nat.zero_le _

theorem arrayNesting_classOperand_le (name : String) :
    arrayNesting (classOperandDescriptor name).toList ≤ name.length := by
  unfold classOperandDescriptor
  split
  · rw [← String.length_toList]
    exact arrayNesting_le_length _
  · simp [arrayNesting]

theorem nesting_object_le (name : String) : (object name).nesting ≤ name.length :=
  arrayNesting_classOperand_le name

end TypeValue

namespace Typing

open TypeValue

theorem nesting_ofFieldType_le {text : String} {t : FieldType}
    (ht : t.chars.length ≤ text.toList.length) :
    (ofDescriptor t.descriptor).nesting ≤ text.length := by
  have := nesting_ofDescriptor_le t.descriptor
  rw [FieldType.descriptor, String.length_ofList] at this
  rw [String.length_toList] at ht
  exact Nat.le_trans this ht

/-- The value that a method gives back is nested no deeper than its descriptor is long. -/
theorem nesting_ofResult_le {desc : String} {m : MethodDescriptor}
    (hparse : MethodDescriptor.parse desc = .ok m) :
    ∀ v ∈ ofResult m.result, v.nesting ≤ desc.length := by
  have hle := (MethodDescriptor.length_chars_le (m := m)).2
  rw [MethodDescriptor.chars_of_parse hparse] at hle
  cases hr : m.result with
  | void => simp [ofResult]
  | type t =>
      rw [hr] at hle
      simp only [ofResult, List.mem_singleton, forall_eq]
      exact nesting_ofFieldType_le hle

theorem length_ofResult_le (r : ReturnType) : (ofResult r).length ≤ 1 := by
  cases r <;> simp [ofResult]

theorem nesting_ofConstant_le (c : Constant) :
    (ofConstant c).nesting ≤ (Instruction.ldc c).text.length := by
  cases c with
  | dynamic name desc bootstrap args =>
      exact Nat.le_trans (nesting_ofDescriptor_le desc)
        (Instruction.length_le_text (by simp [Instruction.listed]))
  | string => rw [ofConstant, show (object "java/lang/String").nesting = 0 by decide]; omega
  | classRef => rw [ofConstant, show (object "java/lang/Class").nesting = 0 by decide]; omega
  | methodType =>
      rw [ofConstant, show (object "java/lang/invoke/MethodType").nesting = 0 by decide]
      omega
  | methodHandle =>
      rw [ofConstant, show (object "java/lang/invoke/MethodHandle").nesting = 0 by decide]
      omega
  | _ => simp [ofConstant, TypeValue.nesting]

theorem nesting_itemType_le {nesting : Nat} {v : TypeValue} (hv : v.nesting ≤ nesting) :
    (itemType v).nesting ≤ nesting := by
  unfold itemType
  split
  · rename_i desc
    split
    · rename_i item hdesc
      have hlt : (ofDescriptor (String.ofList item)).nesting ≤ arrayNesting item := by
        unfold ofDescriptor
        rw [String.toList_ofList]
        repeat' split
        all_goals first | exact Nat.zero_le _ | simp [TypeValue.nesting]
      rw [TypeValue.nesting, hdesc, arrayNesting] at hv
      omega
    · exact Nat.zero_le _
  · exact Nat.zero_le _
  · exact Nat.zero_le _

theorem nesting_baseArray (code : Int32) :
    (TypeValue.reference (baseArray code)).nesting = 1 := by
  unfold baseArray
  split <;> decide

/-! ### Stacks -/

def StackGrows (nesting : Nat) (s s' : List TypeValue) : Prop :=
  s'.length ≤ s.length + 2 ∧
    ((∀ v ∈ s, v.nesting ≤ nesting) → ∀ v ∈ s', v.nesting ≤ nesting)

theorem eq_drop_of_drop? {count : Nat} {s s' : List TypeValue} (hs : drop? count s = some s') :
    s' = s.drop count := by
  induction count generalizing s with
  | zero =>
      cases hs
      rfl
  | succ count ih =>
      cases s with
      | nil => cases hs
      | cons v s => exact ih hs

theorem StackEffect.exists_sublist {e : StackEffect} {s s' : List TypeValue}
    (hs : e.apply s = some s') : ∃ rest : List TypeValue, rest.Sublist s ∧ s' = e.given ++ rest := by
  obtain ⟨rest, hrest, rfl⟩ := Option.map_eq_some_iff.mp hs
  exact ⟨rest, eq_drop_of_drop? hrest ▸ List.drop_sublist .., rfl⟩

theorem stackGrows_move {nesting : Nat} {move : StackMove} {s s' : List TypeValue}
    (hs : move.apply s = some s') : StackGrows nesting s s' := by
  unfold StackMove.apply at hs
  repeat' split at hs
  all_goals
    first
    | cases hs
      refine ⟨by simp only [List.length_cons]; omega, fun hall v hv => hall v ?_⟩
      simp only [List.mem_cons] at hv ⊢
      tauto
    | cases hs

/-- Gives at most one value, and no array. -/
def Modest (e : StackEffect) : Prop := e.given.length ≤ 1 ∧ ∀ v ∈ e.given, v.nesting = 0

theorem modest_ofOpcode (op : Opcode) : Modest (StackEffect.ofOpcode op) := by
  have single {taken : Nat} {v : TypeValue} (hv : v.nesting = 0) : Modest ⟨taken, [v]⟩ :=
    ⟨Nat.le_refl 1, by simpa using hv⟩
  have nothing {taken : Nat} : Modest ⟨taken, []⟩ := ⟨Nat.zero_le 1, by simp⟩
  have numeric (index : Nat) : (StackEffect.numeric index).nesting = 0 := by
    unfold StackEffect.numeric
    split <;> rfl
  have either {p : Prop} [Decidable p] {e e' : StackEffect} (he : Modest e) (he' : Modest e') :
      Modest (if p then e else e') := by
    split <;> assumption
  unfold StackEffect.ofOpcode
  dsimp only
  repeat' apply either
  all_goals
    first
    | exact nothing
    | exact single (numeric _)
    | exact single (by split <;> rfl)
    | exact single rfl

theorem stackGrows_plain {nesting : Nat} {op : Opcode} {s s' : List TypeValue}
    (hs : plain op s = some s') : StackGrows nesting s s' := by
  unfold plain at hs
  split at hs
  · exact stackGrows_move hs
  · split at hs
    · split at hs
      · rename_i index array rest
        cases hs
        refine ⟨by simp only [List.length_cons]; omega, fun hall v hv => ?_⟩
        rcases List.mem_cons.mp hv with rfl | hv
        · exact nesting_itemType_le (hall array (by simp))
        · exact hall v (by simp [hv])
      · cases hs
    · obtain ⟨hlen, hzero⟩ := modest_ofOpcode op
      obtain ⟨rest, hrest, rfl⟩ := StackEffect.exists_sublist hs
      have hle := hrest.length_le
      refine ⟨by rw [List.length_append]; omega, fun hall => List.forall_mem_append.mpr ⟨?_, ?_⟩⟩
      · exact fun v hv => (hzero v hv).trans_le (Nat.zero_le _)
      · exact fun v hv => hall v (hrest.subset hv)

/-! ### Frames -/

theorem grows_of_stack {nesting : Nat} {f : TypeFrame} {stack : List TypeValue}
    (hs : StackGrows nesting f.stack stack) : f.Grows nesting { f with stack } :=
  ⟨rfl, hs.1, fun hf => ⟨hf.locals, hs.2 hf.stack⟩⟩

theorem length_store {locals locals' : List TypeValue} {slot : Nat} {v : TypeValue}
    (hs : store locals slot v = some locals') : locals'.length = locals.length := by
  unfold store at hs
  dsimp only at hs
  split at hs
  · cases hs
  · cases hs
    split <;> split <;> simp only [List.length_set]

theorem nesting_store_le {nesting slot : Nat} {locals locals' : List TypeValue} {v : TypeValue}
    (hlocals : ∀ w ∈ locals, w.nesting ≤ nesting) (hv : v.nesting ≤ nesting)
    (hs : store locals slot v = some locals') : ∀ w ∈ locals', w.nesting ≤ nesting := by
  have set {l : List TypeValue} {i : Nat} {x : TypeValue} (hl : ∀ w ∈ l, w.nesting ≤ nesting)
      (hx : x.nesting ≤ nesting) : ∀ w ∈ l.set i x, w.nesting ≤ nesting := by
    intro w hw
    rcases List.mem_or_eq_of_mem_set hw with hw | rfl
    · exact hl w hw
    · exact hx
  have hunset : TypeValue.unset.nesting ≤ nesting := Nat.zero_le _
  unfold store at hs
  dsimp only at hs
  split at hs
  · cases hs
  · cases hs
    split <;> split
    · exact set (set (set hlocals hunset) hv) hunset
    · exact set (set hlocals hv) hunset
    · exact set (set hlocals hunset) hv
    · exact set hlocals hv

theorem within_replaceAll {nesting : Nat} {f : TypeFrame} {old new : TypeValue}
    (hf : f.Within nesting) (hnew : new.nesting ≤ nesting) :
    (f.replaceAll old new).Within nesting := by
  have replaced {l : List TypeValue} (hl : ∀ v ∈ l, v.nesting ≤ nesting) :
      ∀ v ∈ l.map (fun v => if v = old then new else v), v.nesting ≤ nesting := by
    intro v hv
    obtain ⟨w, hw, rfl⟩ := List.mem_map.mp hv
    split
    · exact hnew
    · exact hl w hw
  exact ⟨replaced hf.locals, replaced hf.stack⟩

/-- A call takes arguments and perhaps a receiver, and gives the result. The receiver of a
constructor call becomes an object everywhere. -/
theorem call_cases {owner target name : String} {op : Opcode} {m : MethodDescriptor}
    {f f' : TypeFrame} (hcall : call owner op target name m f = some f') :
    ∃ g : TypeFrame, f' = { g with stack := ofResult m.result ++ g.stack } ∧
      (g.locals = f.locals ∧ g.stack.Sublist f.stack ∨
        ∃ receiver rest made, (op = .invokespecial ∧ name = "<init>") ∧
          f.stack.drop m.params.length = receiver :: rest ∧ (made = owner ∨ made = target) ∧
          g = ({ f with stack := rest } : TypeFrame).replaceAll receiver (.object made)) := by
  unfold call at hcall
  cases hd : drop? m.params.length f.stack with
  | none => simp [hd] at hcall
  | some stack =>
      have hdrop := eq_drop_of_drop? hd
      have hsub : stack.Sublist f.stack := hdrop ▸ List.drop_sublist ..
      simp only [hd, Option.bind_eq_bind, Option.bind_some] at hcall
      by_cases hstatic : op = .invokestatic
      · rw [if_pos hstatic] at hcall
        cases hcall
        exact ⟨{ f with stack }, rfl, .inl ⟨rfl, hsub⟩⟩
      · rw [if_neg hstatic] at hcall
        cases stack with
        | nil => cases hcall
        | cons receiver stack =>
            dsimp only at hcall
            split at hcall
            · rename_i hinit
              cases hcall
              refine ⟨_, rfl, .inr ⟨receiver, stack,
                if receiver = .uninitializedThis then owner else target, hinit, hdrop.symm,
                ite_eq_or_eq .., ?_⟩⟩
              rw [apply_ite TypeValue.object]
            · cases hcall
              exact ⟨{ f with stack }, rfl, .inl ⟨rfl, (List.sublist_cons_self _ _).trans hsub⟩⟩

theorem grows_call {nesting : Nat} {owner target name desc : String} {op : Opcode}
    {m : MethodDescriptor} {f f' : TypeFrame} (howner : owner.length ≤ nesting)
    (htarget : target.length ≤ nesting) (hdesc : desc.length ≤ nesting)
    (hparse : MethodDescriptor.parse desc = .ok m)
    (hcall : call owner op target name m f = some f') : f.Grows nesting f' := by
  have hresult : ∀ v ∈ ofResult m.result, v.nesting ≤ nesting := fun v hv =>
    Nat.le_trans (nesting_ofResult_le hparse v hv) hdesc
  have hone := length_ofResult_le m.result
  obtain ⟨g, rfl, hg⟩ := call_cases hcall
  have hkeep : g.locals.length = f.locals.length ∧ g.stack.length ≤ f.stack.length ∧
      (f.Within nesting → g.Within nesting) := by
    rcases hg with ⟨hlocals, hsub⟩ | ⟨receiver, rest, made, -, hdrop, hmade, rfl⟩
    · exact ⟨by rw [hlocals], hsub.length_le, fun hf => ⟨hlocals ▸ hf.locals, (hf.take hsub).stack⟩⟩
    · have hsub : rest.Sublist f.stack :=
        (List.sublist_cons_self _ _).trans (hdrop ▸ List.drop_sublist ..)
      refine ⟨by simp [TypeFrame.replaceAll], by simpa [TypeFrame.replaceAll] using hsub.length_le, ?_⟩
      intro hf
      apply within_replaceAll
      · exact hf.take hsub
      · rcases hmade with rfl | rfl
        · exact Nat.le_trans (nesting_object_le _) howner
        · exact Nat.le_trans (nesting_object_le _) htarget
  obtain ⟨hlocals, hstack, hwithin⟩ := hkeep
  exact ⟨hlocals, by simp only [List.length_append]; omega, fun hf => (hwithin hf).give hresult⟩

theorem ok_of_onStack {position : Nat} {f f' : TypeFrame} {r : Option (List TypeValue)}
    (hr : onStack position f r = .ok f') : ∃ stack, r = some stack ∧ f' = { f with stack } := by
  cases r with
  | none => cases hr
  | some stack =>
      cases hr
      exact ⟨stack, rfl, rfl⟩

/-- What an instruction can do to a frame. Apart from the moves and the item types of plain
instructions it takes entries and gives one value at most, which it loads or names itself. -/
inductive Effect (owner : String) (i : Instruction) (f : TypeFrame) : TypeFrame → Prop
  | nothing : Effect owner i f f
  | plain {op : Opcode} {stack : List TypeValue} (hs : plain op f.stack = some stack) :
      Effect owner i f { f with stack }
  | exchange {taken : Nat} {given stack : List TypeValue} (hlen : given.length ≤ 1)
      (hgiven : ∀ v ∈ given, v ∈ f.locals ∨ v.nesting ≤ i.text.length)
      (hs : (StackEffect.mk taken given).apply f.stack = some stack) :
      Effect owner i f { f with stack }
  | store {slot : Nat} {v : TypeValue} {locals stack : List TypeValue}
      (hstack : f.stack = v :: stack) (hs : store f.locals slot v = some locals) :
      Effect owner i f ⟨locals, stack⟩
  | call {op : Opcode} {target name desc : String} {interface : Bool} {m : MethodDescriptor}
      {f' : TypeFrame} (hi : i = .method op target name desc interface)
      (hparse : MethodDescriptor.parse desc = .ok m)
      (hcall : call owner op target name m f = some f') : Effect owner i f f'

/-- The one place that opens `execute`. -/
theorem effect_of_execute {position : Nat} {owner : String} {i : Instruction} {f f' : TypeFrame}
    (hexec : execute owner position i f = .ok f') : Effect owner i f f' := by
  have takes {taken : Nat}
      (hr : onStack position f ((StackEffect.mk taken []).apply f.stack) = .ok f') :
      Effect owner i f f' := by
    obtain ⟨stack, hs, rfl⟩ := ok_of_onStack hr
    exact .exchange (by simp) (by simp) hs
  have gives {taken : Nat} {v : TypeValue} (hv : v.nesting ≤ i.text.length)
      (hr : onStack position f ((StackEffect.mk taken [v]).apply f.stack) = .ok f') :
      Effect owner i f f' := by
    obtain ⟨stack, hs, rfl⟩ := ok_of_onStack hr
    exact .exchange (by simp) (by simpa using .inr hv) hs
  -- Most instructions take entries and give one value at most, so they are settled by the two facts
  -- above.
  unfold execute at hexec
  cases i with
  | label | line | frame =>
      cases hexec
      exact .nothing
  | plain op =>
      obtain ⟨stack, hs, rfl⟩ := ok_of_onStack hexec
      exact .plain hs
  | int op operand =>
      dsimp only at hexec
      split at hexec
      · refine gives ?_ hexec
        have hlisting : (Instruction.int op operand).text =
          op.mnemonic ++ " " ++ toString operand.toInt := rfl
        have hspace : " ".length = 1 := rfl
        rw [nesting_baseArray, hlisting]
        simp only [String.length_append]
        omega
      · exact gives (Nat.zero_le _) hexec
  | var op slot =>
      dsimp only at hexec
      split at hexec
      · split at hexec
        · rename_i v hv
          obtain ⟨stack, hs, rfl⟩ := ok_of_onStack hexec
          exact .exchange (by simp) (by simpa using .inl (List.mem_of_getElem? hv)) hs
        · cases hexec
      · split at hexec
        · split at hexec
          · cases hexec
          · rename_i v stack hstack
            split at hexec
            · rename_i locals hstore
              cases hexec
              exact .store hstack hstore
            · cases hexec
        · cases hexec
  | type op desc =>
      have hlisting : (Instruction.type op desc).text = op.mnemonic ++ " " ++ desc := rfl
      have hspace : " ".length = 1 := rfl
      have hoperand := arrayNesting_classOperand_le desc
      rw [hlisting] at gives
      simp only [String.length_append] at gives
      dsimp only at hexec
      split at hexec
      · exact gives (Nat.zero_le _) hexec
      · split at hexec
        · refine gives ?_ hexec
          have hbracket : ("[" ++ classOperandDescriptor desc).toList =
            '[' :: (classOperandDescriptor desc).toList := by simp
          rw [TypeValue.nesting, hbracket, arrayNesting]
          omega
        · split at hexec
          · exact gives (by rw [TypeValue.nesting]; omega) hexec
          · exact gives (Nat.zero_le _) hexec
  | field op owner' name desc =>
      have hvalue := Nat.le_trans (nesting_ofDescriptor_le desc) (Instruction.length_le_text
        (i := .field op owner' name desc) (by simp [Instruction.listed]))
      dsimp only at hexec
      split at hexec
      · exact gives hvalue hexec
      · split at hexec
        · exact takes hexec
        · split at hexec
          · exact gives hvalue hexec
          · exact takes hexec
  | method op target name desc interface =>
      dsimp only at hexec
      split at hexec
      · cases hexec
      · rename_i m hparse
        split at hexec
        · rename_i hcall
          cases hexec
          exact .call rfl hparse hcall
        · cases hexec
  | invokeDynamic name desc bootstrap args =>
      dsimp only at hexec
      split at hexec
      · cases hexec
      · rename_i m hparse
        obtain ⟨stack, hs, rfl⟩ := ok_of_onStack hexec
        exact .exchange (length_ofResult_le m.result) (fun v hv => .inr <|
          Nat.le_trans (nesting_ofResult_le hparse v hv)
            (Instruction.length_le_text (by simp [Instruction.listed]))) hs
  | jump op target =>
      dsimp only at hexec
      split at hexec
      · exact takes hexec
      · split at hexec
        · exact takes hexec
        · split at hexec
          · cases hexec
            exact .nothing
          · cases hexec
  | ldc c => exact gives (nesting_ofConstant_le c) hexec
  | iinc slot amount =>
      dsimp only at hexec
      split at hexec
      · cases hexec
        exact .nothing
      · cases hexec
  | tableSwitch | lookupSwitch => exact takes hexec
  | newMultiArray desc dims =>
      have hnesting := arrayNesting_le_length desc.toList
      rw [String.length_toList] at hnesting
      exact gives (Nat.le_trans hnesting
        (Instruction.length_le_text (i := .newMultiArray desc dims) (List.mem_singleton_self desc)))
        hexec

theorem grows_execute {nesting position : Nat} {owner : String} {i : Instruction}
    {f f' : TypeFrame} (howner : owner.length ≤ nesting) (htext : i.text.length ≤ nesting)
    (hexec : execute owner position i f = .ok f') : f.Grows nesting f' := by
  cases effect_of_execute hexec with
  | nothing => exact .refl nesting f
  | plain hs => exact grows_of_stack (stackGrows_plain hs)
  | exchange hlen hgiven hs =>
      obtain ⟨rest, hrest, rfl⟩ := StackEffect.exists_sublist hs
      have hle := hrest.length_le
      refine ⟨rfl, by simp only [List.length_append]; omega, fun hf => ?_⟩
      exact (hf.take hrest).give fun v hv =>
        (hgiven v hv).elim (hf.locals v) (Nat.le_trans · htext)
  | @store slot v locals stack hstack hs =>
      have hlen : stack.length ≤ f.stack.length + 2 := by
        rw [hstack, List.length_cons]
        omega
      refine ⟨length_store hs, hlen, fun hf => ?_⟩
      have hall : ∀ w ∈ v :: stack, w.nesting ≤ nesting := hstack ▸ hf.stack
      obtain ⟨hv, hstack⟩ := List.forall_mem_cons.mp hall
      exact ⟨nesting_store_le hf.locals hv hs, hstack⟩
  | call hi hparse hcall =>
      have listed {name : String} (hname : name ∈ i.listed) : name.length ≤ nesting :=
        Nat.le_trans (Instruction.length_le_text hname) htext
      subst hi
      exact grows_call howner (listed (by simp [Instruction.listed]))
        (listed (by simp [Instruction.listed])) hparse hcall

end Typing

end Injection
