import Injection.Proofs.Assembly.Placing

/-!
The code of a method is decoded to its instructions, each at its offset and with every label named
by the offset it stands at. Every branch is seen to go to an instruction.
-/

namespace Injection

open Reader

namespace Instruction

theorem targets_relabel (f : Label → Label) (i : Instruction) :
    (i.relabel f).targets = i.targets.map f := by
  cases i <;> rfl

theorem isReal_relabel (f : Label → Label) (i : Instruction) :
    (i.relabel f).isReal = i.isReal := by
  cases i <;> rfl

theorem filter_isReal_relabel (f : Label → Label) (is : List Instruction) :
    (is.map (·.relabel f)).filter (·.isReal) = (is.filter (·.isReal)).map (·.relabel f) := by
  rw [List.filter_map]
  congr 2
  funext i
  exact isReal_relabel f i

/-- An instruction can only be encoded if the labels it goes to are placed. -/
theorem labelOffset_of_encode {labelOffset : Label → Except AssembleError Nat} {index : UInt16}
    {offset : UInt32} {bytes : List UInt8} {i : Instruction} (hfits : i.Fits)
    (h : i.encode labelOffset index offset = .ok bytes) :
    ∀ l ∈ i.targets, ∃ n, labelOffset l = .ok n := by
  intro l hl
  cases i with
  | jump op target =>
      obtain ⟨t, ht, -⟩ := encode_jump h
      rw [targets, List.mem_singleton] at hl
      exact ⟨t, hl ▸ ht⟩
  | tableSwitch lo hi default targets =>
      obtain ⟨d, ts, hd, hts, -⟩ := encode_tableSwitch h
      rcases List.mem_cons.mp hl with rfl | hl
      · exact ⟨d, hd⟩
      · obtain ⟨n, -, hn⟩ := (forall₂_exists hts).1 l hl
        exact ⟨n, hn⟩
  | lookupSwitch default keys targets =>
      obtain ⟨d, ts, hd, hts, -⟩ := encode_lookupSwitch hfits h
      rcases List.mem_cons.mp hl with rfl | hl
      · exact ⟨d, hd⟩
      · obtain ⟨n, -, hn⟩ := (forall₂_exists hts).1 l hl
        exact ⟨n, hn⟩
  | _ => cases hl

theorem encode_of_mark {labelOffset : Label → Except AssembleError Nat} {index : UInt16}
    {offset : UInt32} {bytes : List UInt8} {i : Instruction} (hmark : i.isReal = false)
    (h : i.encode labelOffset index offset = .ok bytes) : bytes = [] := by
  cases i with
  | label | line | frame =>
      cases h
      rfl
  | _ => cases hmark

end Instruction

namespace PlacedNode

variable {labelOffset : Label → Except AssembleError Nat} {pool : ConstantPool}
  {start stop len bound : Nat} {ps : List PlacedNode} {parts : List (List UInt8)}

/-- A node whose operands fit and whose pool index stands for what it refers to. -/
def Holds (pool : ConstantPool) (p : PlacedNode) : Prop :=
  p.node.Fits ∧ p.node.FoundIn pool p.index

abbrev Encoded (labelOffset : Label → Except AssembleError Nat) (ps : List PlacedNode)
    (parts : List (List UInt8)) : Prop :=
  List.Forall₂ (fun p part => p.node.encode labelOffset p.index p.offset = .ok part) ps parts

def decoded (labelOffset : Label → Except AssembleError Nat) (ps : List PlacedNode) :
    List (Nat × Instruction) :=
  (ps.filter (·.node.isReal)).map fun p =>
    (p.offset.toNat, p.node.relabel (Instruction.offsetLabel labelOffset))

theorem decoded_cons_real {p : PlacedNode} (hp : p.node.isReal = true) :
    decoded labelOffset (p :: ps) =
      (p.offset.toNat, p.node.relabel (Instruction.offsetLabel labelOffset)) ::
        decoded labelOffset ps := by
  simp [decoded, hp]

theorem decoded_cons_mark {p : PlacedNode} (hp : p.node.isReal = false) :
    decoded labelOffset (p :: ps) = decoded labelOffset ps := by
  simp [decoded, hp]

theorem decoded_map_fst : (decoded labelOffset ps).map (·.1) = starts ps := by
  rw [decoded, starts, List.map_map]
  rfl

/-- A size that has not wrapped is the number of bytes. -/
theorem length_part {p : PlacedNode} {part : List UInt8} (hkeys : p.node.KeysHaveTargets)
    (hlt : p.node.widest < 2 ^ 32) (h : p.node.encode labelOffset p.index p.offset = .ok part) :
    part.length = p.size.toNat := by
  obtain ⟨hle, hsize⟩ := Instruction.length_encode hkeys h
  rw [size, ← hsize, UInt32.toNat_ofNat_of_lt' (Nat.lt_of_le_of_lt hle hlt)]

theorem length_parts (hrun : Run start ps stop) (hparts : Encoded labelOffset ps parts)
    (hkeys : ∀ p ∈ ps, p.node.KeysHaveTargets) : start + parts.flatten.length = stop := by
  induction hparts generalizing start with
  | nil => exact hrun
  | @cons p part ps parts hpart _ ih =>
      have hlen := length_part (hkeys p List.mem_cons_self) hrun.2.1 hpart
      have hrest := ih hrun.2.2 fun q hq => hkeys q (List.mem_cons_of_mem _ hq)
      rw [List.flatten_cons, List.length_append]
      omega

/-- Encoded nodes are decoded one after the other. The bound on the turns is the number of bytes,
as no instruction is empty. -/
theorem reads_sequence (hrun : Run start ps stop) (hparts : Encoded labelOffset ps parts)
    (hholds : ∀ p ∈ ps, p.Holds pool) (hstop : stop ≤ 0xffff) (hlen : len ≤ 0xffff)
    (htargets : ∀ p ∈ ps, ∀ l ∈ p.node.targets, ∀ n, labelOffset l = .ok n → n < len)
    (hbound : parts.flatten.length ≤ bound) :
    Reads (Bytecode.sequence pool len bound) start parts.flatten [] (decoded labelOffset ps) := by
  induction hparts generalizing start bound with
  | nil =>
      cases bound with
      | zero => exact .pure []
      | succ bound => exact .get_bind (.pure [])
  | @cons p part ps parts hpart hparts ih =>
      have hall := length_parts hrun (.cons hpart hparts) fun q hq =>
        (hholds q hq).1.keysHaveTargets
      have hp := hholds p List.mem_cons_self
      have hsize := length_part hp.1.keysHaveTargets hrun.2.1 hpart
      have hrest {bound : Nat} (hbound : parts.flatten.length ≤ bound) :=
        ih hrun.2.2 (fun q hq => hholds q (List.mem_cons_of_mem _ hq))
          (fun q hq => htargets q (List.mem_cons_of_mem _ hq)) hbound
      rw [List.flatten_cons, List.length_append] at hbound hall
      rw [List.flatten_cons]
      cases hreal : p.node.isReal with
      | false =>
          -- A mark takes no bytes and no turn.
          have hnone := Instruction.encode_of_mark hreal hpart
          subst hnone
          have hzero : p.size.toNat = 0 := hsize.symm
          rw [decoded_cons_mark hreal]
          have hlater := hrest (show parts.flatten.length ≤ bound by omega)
          rwa [hzero, Nat.add_zero] at hlater
      | true =>
          have hpos : 0 < p.size.toNat := Instruction.encodedSize_pos hreal hrun.2.1
          obtain ⟨bound, rfl⟩ : ∃ b, bound = b + 1 := ⟨bound - 1, by omega⟩
          have hone : Reads (Bytecode.instruction pool len) start part (parts.flatten ++ [])
              (p.node.relabel (Instruction.offsetLabel labelOffset)) := by
            have hoffset := hrun.1
            rw [← hoffset]
            exact Instruction.reads_encode hpart hreal hp.1 hp.2 (by omega) hlen (by omega)
              (htargets p List.mem_cons_self)
          rw [decoded_cons_real hreal, hrun.1]
          refine .get_bind ?_
          have hsome : (part ++ parts.flatten ++ []).isEmpty = false := by
            rw [List.isEmpty_eq_false_iff]
            intro hnil
            rw [List.append_eq_nil_iff, List.append_eq_nil_iff] at hnil
            rw [hnil.1.1, List.length_nil] at hsize
            omega
          dsimp only
          rw [hsome]
          refine hone.bind ?_
          rw [hsize]
          exact (hrest (by omega)).bind_last (.pure _)

theorem encodeAll_eq_ok {bytes : List UInt8} (h : encodeAll ps = .ok bytes) :
    ∃ parts, Encoded (PlacedNode.labelOffset ps) ps parts ∧ bytes = parts.flatten := by
  obtain ⟨parts, hparts, h⟩ := bind_eq_ok.mp h
  cases h
  exact ⟨parts, mapM_eq_ok hparts, rfl⟩

theorem mem_bounds {n : Nat} : n ∈ bounds ps stop ↔ n ∈ starts ps ∨ n = stop := by
  rw [bounds, List.mem_append, List.mem_singleton]

theorem le_stop_of_mem_bounds (h : Run start ps stop) {n : Nat} (hn : n ∈ bounds ps stop) :
    n ≤ stop := by
  rcases mem_bounds.mp hn with hn | rfl
  · have hlt := (List.pairwise_append.mp (bounds_pairwise h)).2.2 n hn stop (by simp)
    exact Nat.le_of_lt hlt
  · exact Nat.le_refl _

theorem lt_stop_of_mem_starts (h : Run start ps stop) {n : Nat} (hn : n ∈ starts ps) :
    n < stop :=
  (List.pairwise_append.mp (bounds_pairwise h)).2.2 n hn stop (by simp)

/-- A label before some instruction stands at the start of one. -/
theorem mem_starts_of_labelOffset {is : InstructionList} {l : Label} {n k : Nat}
    (hrun : Run start ps stop) (hnodes : is.nodes.toList = ps.map (·.node))
    (hn : PlacedNode.labelOffset ps l = .ok n) (hk : is.placeOf? l = some k)
    (hlt : k < ps.countP (·.node.isReal)) : n ∈ starts ps := by
  obtain ⟨k', hk', hget⟩ := getElem?_bounds_of_labelOffset hrun hnodes hn
  cases hk.symm.trans hk'
  rw [bounds, List.getElem?_append_left (by rwa [length_starts])] at hget
  exact List.mem_of_getElem? hget

end PlacedNode

namespace Bytecode

theorem forM_eq_ok {α ε : Type} {f : α → Except ε Unit} {xs : List α}
    (h : ∀ a ∈ xs, f a = .ok ()) : xs.forM f = .ok () := by
  induction xs with
  | nil => rfl
  | cons a xs ih =>
      change (f a >>= fun _ => xs.forM f) = _
      rw [h a List.mem_cons_self]
      exact ih fun b hb => h b (List.mem_cons_of_mem _ hb)

theorem checkTargets_eq_ok {decoded : List (Nat × Instruction)}
    (h : ∀ d ∈ decoded, ∀ l ∈ d.2.targets, l.id ∈ decoded.map (·.1)) :
    checkTargets decoded = .ok () := by
  refine forM_eq_ok fun d hd => forM_eq_ok fun l hl => ?_
  exact if_pos (List.contains_iff_mem.mpr (h d hd l hl))

end Bytecode

end Injection
