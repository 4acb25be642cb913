import Injection.ClassFile.Code
import Injection.Proofs.Assembly.Entering

/-!
An encoded instruction is decoded again. Every form has its own rule: the opcode tells the form,
and the operands are read one after the other, with every label named by its offset.
-/

namespace Injection

open Reader

namespace Bytecode

variable {pool : ConstantPool} {len p : Nat} {rest : List UInt8} {op : Opcode}

/-- A number of two bytes that fits one byte. -/
theorem toUInt16_ofNat {n : UInt16} (h : n.toNat ≤ 0xff) : (UInt8.ofNat n.toNat).toUInt16 = n := by
  refine UInt16.toNat_inj.mp ?_
  rw [UInt8.toNat_toUInt16, UInt8.toNat_ofNat']
  omega

theorem reads_plain (hform : op.operandForm = .plain) :
    Reads (instruction pool len) p [op] rest (.plain op) := by
  refine .get_bind ((reads_u1 op).bind_last ?_)
  dsimp only
  rw [hform]
  exact .pure _

theorem reads_byte {operand : Int32} (hlow : -128 ≤ operand.toInt) (hhigh : operand.toInt ≤ 127) :
    Reads (instruction pool len) p [Opcode.bipush, UInt8.ofInt operand.toInt] rest
      (.int .bipush operand) := by
  refine .get_bind (reads_u1_bind ?_)
  refine (reads_i1 operand.toInt).bind_last ?_
  have hoperand : (Int8.ofInt operand.toInt).toInt32 = operand := by
    refine Int32.toInt.inj ?_
    rw [Int8.toInt_toInt32]
    exact Int8.toInt_ofInt_of_le (by omega) (by omega)
  rw [hoperand]
  exact .pure _

theorem reads_short {operand : Int32} (hlow : -32768 ≤ operand.toInt)
    (hhigh : operand.toInt ≤ 32767) :
    Reads (instruction pool len) p (Opcode.sipush :: Bytes.i2 operand.toInt) rest
      (.int .sipush operand) := by
  refine .get_bind ((reads_u1 Opcode.sipush).bind ?_)
  refine (reads_i2 operand.toInt).bind_last ?_
  have hoperand : (Int16.ofInt operand.toInt).toInt32 = operand := by
    refine Int32.toInt.inj ?_
    rw [Int16.toInt_toInt32]
    exact Int16.toInt_ofInt_of_le (by omega) (by omega)
  rw [hoperand]
  exact .pure _

theorem reads_element {operand : Int32} (hlow : 0 ≤ operand.toInt)
    (hhigh : operand.toInt ≤ 255) :
    Reads (instruction pool len) p [Opcode.newarray, UInt8.ofInt operand.toInt] rest
      (.int .newarray operand) := by
  refine .get_bind (reads_u1_bind ?_)
  refine (reads_u1 _).bind_last ?_
  have hoperand : (UInt8.ofInt operand.toInt).toUInt32.toInt32 = operand := by
    have hnat : (UInt8.ofInt operand.toInt).toUInt32 = UInt32.ofNat operand.toInt.toNat := by
      refine UInt32.toNat_inj.mp ?_
      rw [UInt8.ofInt, UInt8.toNat_toUInt32, UInt8.toNat_ofNat', UInt32.toNat_ofNat']
      omega
    rw [hnat, UInt32.toInt32_ofNat', ← Int32.ofInt_eq_ofNat, Int.toNat_of_nonneg hlow,
      Int32.ofInt_toInt]
  rw [hoperand]
  exact .pure _

theorem reads_slot {slot : UInt16} (hform : op.operandForm = .slot) (hslot : slot.toNat ≤ 0xff) :
    Reads (instruction pool len) p [op, UInt8.ofNat slot.toNat] rest (.var op slot) := by
  refine .get_bind (reads_u1_bind ?_)
  dsimp only
  rw [hform]
  refine (reads_u1 _).bind_last ?_
  rw [toUInt16_ofNat hslot]
  exact .pure _

theorem reads_wideSlot {slot : UInt16} (hform : op.operandForm = .slot) :
    Reads (instruction pool len) p (196 :: op :: Bytes.u2 slot.toNat) rest (.var op slot) := by
  refine .get_bind (reads_u1_bind ?_)
  refine (reads_u1 op).bind ((reads_index slot).bind_last ?_)
  dsimp only
  rw [hform]
  exact .pure _

theorem reads_shortIncrement {slot : UInt16} {amount : Int16} (hslot : slot.toNat ≤ 0xff)
    (hlow : -128 ≤ amount.toInt) (hhigh : amount.toInt ≤ 127) :
    Reads (instruction pool len) p
      [Opcode.iinc, UInt8.ofNat slot.toNat, UInt8.ofInt amount.toInt] rest (.iinc slot amount) := by
  refine .get_bind (reads_u1_bind ?_)
  refine reads_u1_bind ((reads_i1 amount.toInt).bind_last ?_)
  have hamount : (Int8.ofInt amount.toInt).toInt16 = amount := by
    refine Int16.toInt.inj ?_
    rw [Int8.toInt_toInt16]
    exact Int8.toInt_ofInt_of_le (by omega) (by omega)
  rw [toUInt16_ofNat hslot, hamount]
  exact .pure _

theorem reads_wideIncrement (slot : UInt16) (amount : Int16) :
    Reads (instruction pool len) p
      (196 :: Opcode.iinc :: (Bytes.u2 slot.toNat ++ Bytes.i2 amount.toInt)) rest
      (.iinc slot amount) := by
  refine .get_bind (reads_u1_bind ?_)
  refine (reads_u1 Opcode.iinc).bind ((reads_index slot).bind ?_)
  refine (reads_i2 amount.toInt).bind_last ?_
  rw [Int16.ofInt_toInt]
  exact .pure _

theorem reads_type {index : UInt16} {desc : String} (hform : op.operandForm = .type)
    (hindex : pool.className index = .ok desc) :
    Reads (instruction pool len) p (op :: Bytes.u2 index.toNat) rest (.type op desc) := by
  refine .get_bind ((reads_u1 op).bind ?_)
  dsimp only
  rw [hform]
  exact (reads_index index).bind_last (.bind_nil (.ofExcept hindex) (.pure _))

theorem reads_field {index : UInt16} {owner name desc : String} {interface : Bool}
    (hform : op.operandForm = .field)
    (hindex : pool.memberRef index = .ok ⟨owner, name, desc, interface⟩) :
    Reads (instruction pool len) p (op :: Bytes.u2 index.toNat) rest
      (.field op owner name desc) := by
  refine .get_bind ((reads_u1 op).bind ?_)
  dsimp only
  rw [hform]
  exact (reads_index index).bind_last (.bind_nil (.ofExcept hindex) (.pure _))

theorem reads_method {index : UInt16} {owner name desc : String} {interface : Bool}
    (hform : op.operandForm = .invoke) (hop : op ≠ .invokeinterface)
    (hindex : pool.memberRef index = .ok ⟨owner, name, desc, interface⟩) :
    Reads (instruction pool len) p (op :: Bytes.u2 index.toNat) rest
      (.method op owner name desc interface) := by
  refine .get_bind ((reads_u1 op).bind ?_)
  dsimp only
  rw [hform]
  refine (reads_index index).bind_last (.bind_nil (.ofExcept hindex) ?_)
  dsimp only
  rw [if_neg hop]
  exact .pure _

/-- The count and the zero after the index of an interface method are skipped. -/
theorem reads_interfaceMethod {index : UInt16} {owner name desc : String} {interface : Bool}
    (count : UInt8) (hindex : pool.memberRef index = .ok ⟨owner, name, desc, interface⟩) :
    Reads (instruction pool len) p
      (Opcode.invokeinterface :: (Bytes.u2 index.toNat ++ [count, 0])) rest
      (.method .invokeinterface owner name desc interface) := by
  refine .get_bind ((reads_u1 Opcode.invokeinterface).bind ((reads_index index).bind ?_))
  refine .bind_nil (.ofExcept hindex) ?_
  dsimp only
  rw [if_pos rfl]
  exact (reads_bytes (show [count, 0].length = 2 from rfl)).bind_last (.pure _)

theorem reads_invokeDynamic {index : UInt16} {name desc : String} {h : Handle}
    {args : List Constant} (hindex : pool.invokeDynamic index = .ok (name, desc, h, args)) :
    Reads (instruction pool len) p
      (Opcode.invokedynamic :: (Bytes.u2 index.toNat ++ [0, 0])) rest
      (.invokeDynamic name desc h args) := by
  refine .get_bind ((reads_u1 Opcode.invokedynamic).bind ((reads_index index).bind ?_))
  exact .bind_nil (.ofExcept hindex) ((reads_u2 0).bind_last (.pure _))

theorem reads_multiArray {index : UInt16} {desc : String} (dims : UInt8)
    (hindex : pool.className index = .ok desc) :
    Reads (instruction pool len) p (Opcode.multianewarray :: (Bytes.u2 index.toNat ++ [dims]))
      rest (.newMultiArray desc dims) := by
  refine .get_bind ((reads_u1 Opcode.multianewarray).bind ((reads_index index).bind ?_))
  exact .bind_nil (.ofExcept hindex) ((reads_u1 dims).bind_last (.pure _))

theorem reads_constant {index : UInt16} {c : Constant} (hshort : index.toNat ≤ 0xff)
    (hindex : pool.constant index = .ok c) :
    Reads (instruction pool len) p [Opcode.ldc, UInt8.ofNat index.toNat] rest (.ldc c) := by
  refine .get_bind (reads_u1_bind ((reads_u1 _).bind_last ?_))
  rw [toUInt16_ofNat hshort]
  exact .bind_nil (.ofExcept hindex) (.pure _)

theorem reads_wideConstant {index : UInt16} {c : Constant} (hform : op.operandForm = .wideConstant)
    (hindex : pool.constant index = .ok c) :
    Reads (instruction pool len) p (op :: Bytes.u2 index.toNat) rest (.ldc c) := by
  refine .get_bind ((reads_u1 op).bind ?_)
  dsimp only
  rw [hform]
  exact (reads_index index).bind_last (.bind_nil (.ofExcept hindex) (.pure _))

section

variable {offset target : Nat}

theorem reads_branch {d : Int32} (hd : d.toInt = target - offset) (hlen : len ≤ 0xffff)
    (htarget : target < len) : Reads (branch len offset d) p [] rest ⟨target⟩ := by
  have hsum : (offset : Int) + d.toInt = target := by omega
  have hchecked : Checked.signedLong (offset + d.toInt) = .ok (target : Int) := by
    rw [hsum, Checked.signedLong, if_pos (by omega)]
  have hinside : (decide ((target : Int) < 0) || decide ((len : Int) ≤ target)) = false := by
    rw [Bool.or_eq_false_iff, decide_eq_false_iff_not, decide_eq_false_iff_not]
    omega
  refine .bind_nil (.ofExcept hchecked) ?_
  rw [hinside, Int.toNat_natCast]
  exact .pure _

def near (len offset : Nat) : Reader Label := do branch len offset (← i2).toInt32

/-- A label by a distance of four bytes, which spans all code there can be. -/
def far (len offset : Nat) : Reader Label := do branch len offset (← i4)

theorem reads_near (hlow : -0x8000 ≤ (target : Int) - offset)
    (hhigh : (target : Int) - offset < 0x8000) (hlen : len ≤ 0xffff) (htarget : target < len) :
    Reads (near len offset) p (Bytes.i2 (target - offset)) rest ⟨target⟩ := by
  refine (reads_i2 _).bind_last (reads_branch ?_ hlen htarget)
  rw [Int16.toInt_toInt32]
  exact Int16.toInt_ofInt_of_le (by omega) (by omega)

theorem reads_far (hoffset : offset ≤ 0xffff) (hlen : len ≤ 0xffff) (htarget : target < len) :
    Reads (far len offset) p (Bytes.i4 (target - offset)) rest ⟨target⟩ := by
  refine (reads_i4 _).bind_last (reads_branch ?_ hlen htarget)
  exact Int32.toInt_ofInt_of_le (by omega) (by omega)

theorem reads_jump (hform : op.operandForm = .branch) (hlow : -0x8000 ≤ (target : Int) - p)
    (hhigh : (target : Int) - p < 0x8000) (hlen : len ≤ 0xffff) (htarget : target < len) :
    Reads (instruction pool len) p (op :: Bytes.i2 (target - p)) rest (.jump op ⟨target⟩) := by
  refine .get_bind ((reads_u1 op).bind ?_)
  dsimp only
  rw [hform]
  exact (reads_near hlow hhigh hlen htarget).bind_last (.pure _)

theorem reads_padding {pad : Nat} (hpad : pad = (4 - (p + 1) % 4) % 4) :
    Reads skipPadding (p + 1) (List.replicate pad 0) rest () := by
  refine .get_bind ((reads_bytes ?_).bind_last (.pure _))
  rw [List.length_replicate, hpad]

theorem reads_fars {targets : List Nat} (hoffset : offset ≤ 0xffff) (hlen : len ≤ 0xffff)
    (htargets : ∀ t ∈ targets, t < len) :
    Reads (Reader.times (far len offset) targets.length) p
      (targets.map fun t : Nat => Bytes.i4 (t - offset)).flatten rest (targets.map Label.mk) := by
  have hitems : List.Forall₂
      (fun item l => ∀ p rest, Reads (far len offset) p item rest l)
      (targets.map fun t : Nat => Bytes.i4 (t - offset)) (targets.map Label.mk) := by
    rw [List.forall₂_map_left_iff, List.forall₂_map_right_iff, List.forall₂_same]
    exact fun t ht p rest => reads_far hoffset hlen (htargets t ht)
  have hlength : targets.length = (targets.map Label.mk).length := (List.length_map _).symm
  rw [hlength]
  exact .times hitems

theorem reads_tableSwitch {lo hi : Int32} {default pad : Nat} {targets : List Nat}
    (hpad : pad = (4 - (p + 1) % 4) % 4) (hp : p ≤ 0xffff) (hlen : len ≤ 0xffff)
    (hle : lo.toInt ≤ hi.toInt)
    (hcount : (targets.length : Int) = hi.toInt - lo.toInt + 1) (hdefault : default < len)
    (htargets : ∀ t ∈ targets, t < len) :
    Reads (instruction pool len) p
      (Opcode.tableswitch :: (List.replicate pad 0 ++
        (Bytes.i4 (default - p) ++ (Bytes.i4 lo.toInt ++ (Bytes.i4 hi.toInt ++
          (targets.map fun t : Nat => Bytes.i4 (t - p)).flatten))))) rest
      (.tableSwitch lo hi ⟨default⟩ (targets.map Label.mk)) := by
  refine .get_bind ((reads_u1 Opcode.tableswitch).bind ((reads_padding hpad).bind ?_))
  refine (reads_far hp hlen hdefault).bind ((reads_i4 lo.toInt).bind ((reads_i4 hi.toInt).bind ?_))
  rw [Int32.ofInt_toInt, Int32.ofInt_toInt, if_neg (by rw [Int32.lt_iff_toInt_lt]; omega)]
  have hchecked : Checked.signedLong (hi.toInt - lo.toInt + 1) = .ok (targets.length : Int) := by
    have hlow := lo.le_toInt
    have hhigh := hi.toInt_lt
    rw [← hcount, Checked.signedLong, if_pos (by omega)]
  refine .bind_nil (.ofExcept hchecked) ?_
  rw [Int.toNat_natCast]
  exact (reads_fars hp hlen htargets).bind_last (.pure _)

/-- The pairs of a key and a target, one for each key. -/
theorem reads_pairs {keys : List Int32} {targets : List Nat} (hoffset : offset ≤ 0xffff)
    (hlen : len ≤ 0xffff) (hkeys : keys.length = targets.length)
    (htargets : ∀ t ∈ targets, t < len) :
    Reads (Reader.times (do return (← i4, ← far len offset)) keys.length) p
      ((keys.zip targets).map fun (k, t) =>
        Bytes.i4 k.toInt ++ Bytes.i4 ((t : Nat) - offset)).flatten
      rest (keys.zip (targets.map Label.mk)) := by
  rw [List.zip_map_right]
  have hitems : List.Forall₂
      (fun item pair => ∀ p rest,
        Reads (do return (← i4, ← far len offset)) p item rest pair)
      ((keys.zip targets).map fun (k, t) => Bytes.i4 k.toInt ++ Bytes.i4 ((t : Nat) - offset))
      ((keys.zip targets).map (Prod.map id Label.mk)) := by
    rw [List.forall₂_map_left_iff, List.forall₂_map_right_iff, List.forall₂_same]
    rintro ⟨k, t⟩ hmem p rest
    refine (reads_i4 k.toInt).bind ?_
    have ht := htargets t (List.of_mem_zip hmem).2
    refine (reads_far hoffset hlen ht).bind_last ?_
    rw [Int32.ofInt_toInt]
    exact .pure _
  have hlength : keys.length = ((keys.zip targets).map (Prod.map id Label.mk)).length := by
    rw [List.length_map, List.length_zip, ← hkeys, Nat.min_self]
  rw [hlength]
  exact .times hitems

/-- The bytes of a switch by keys. -/
theorem reads_lookupSwitch {default pad : Nat} {keys : List Int32} {targets : List Nat}
    (hpad : pad = (4 - (p + 1) % 4) % 4) (hp : p ≤ 0xffff) (hlen : len ≤ 0xffff)
    (hkeys : keys.length = targets.length) (hcount : keys.length ≤ 0xffff) (hdefault : default < len)
    (htargets : ∀ t ∈ targets, t < len) :
    Reads (instruction pool len) p
      (Opcode.lookupswitch :: (List.replicate pad 0 ++
        (Bytes.i4 (default - p) ++ (Bytes.u4 keys.length ++ ((keys.zip targets).map fun (k, t) =>
          Bytes.i4 k.toInt ++ Bytes.i4 ((t : Nat) - p)).flatten)))) rest
      (.lookupSwitch ⟨default⟩ keys (targets.map Label.mk)) := by
  refine .get_bind ((reads_u1 Opcode.lookupswitch).bind ((reads_padding hpad).bind ?_))
  refine (reads_far hp hlen hdefault).bind ?_
  have hbytes : Bytes.u4 keys.length = Bytes.i4 keys.length := by
    rw [Bytes.i4, Int.emod_eq_of_lt (by omega) (by omega), Int.toNat_natCast]
  have hnat : (Int32.ofInt keys.length).toInt = keys.length :=
    Int32.toInt_ofInt_of_le (by omega) (by omega)
  rw [hbytes]
  refine (reads_i4 keys.length).bind ?_
  rw [if_neg (by rw [Int32.lt_iff_toInt_lt, hnat]; simp)]
  dsimp only
  rw [hnat, Int.toNat_natCast]
  refine (reads_pairs hp hlen hkeys htargets).bind_last ?_
  have hlength : keys.length = (targets.map Label.mk).length := by rw [List.length_map, hkeys]
  have hfst := List.map_fst_zip (Nat.le_of_eq hlength)
  have hsnd := List.map_snd_zip (Nat.le_of_eq hlength.symm)
  rw [hfst, hsnd]
  exact .pure _

end

end Bytecode

namespace Instruction

variable {labelOffset : Label → Except AssembleError Nat} {index : UInt16} {offset : UInt32}
  {bytes : List UInt8}

/-- Four divides the number of offsets there are, so that padding is the same where they wrap. -/
theorem toNat_padding (offset : UInt32) :
    (padding offset).toNat = (4 - (offset.toNat + 1) % 4) % 4 := by
  simp only [padding, UInt32.toNat_mod, UInt32.toNat_sub, UInt32.toNat_add, UInt32.reduceToNat]
  omega

/-- Between offsets of two bytes no distance wraps. -/
theorem toInt_distance {target : Nat} (hoffset : offset.toNat ≤ 0xffff)
    (htarget : target ≤ 0xffff) : (distance offset target).toInt = (target : Int) - offset.toNat := by
  have hto : (UInt32.ofNat target).toInt32.toInt = target := by
    rw [UInt32.toInt32_ofNat', Int32.toInt_ofNat_of_lt (by omega)]
  have hfrom : offset.toInt32.toInt = offset.toNat := by
    rw [← UInt32.ofNat_toNat (x := offset), UInt32.toInt32_ofNat',
      Int32.toInt_ofNat_of_lt (by omega), UInt32.ofNat_toNat]
  rw [distance, Int32.toInt_sub, hto, hfrom]
  exact Int.bmod_eq_of_le (by omega) (by omega)

theorem far_eq_ok {x : Except AssembleError Nat}
    (h : (x >>= fun t => pure (Bytes.i4 (distance offset t).toInt)) = .ok bytes) :
    ∃ t, x = .ok t ∧ bytes = Bytes.i4 (distance offset t).toInt := by
  obtain ⟨t, ht, hbytes⟩ := bind_eq_ok.mp h
  cases hbytes
  exact ⟨t, ht, rfl⟩

theorem encode_jump {op : Opcode} {l : Label}
    (h : encode labelOffset index offset (.jump op l) = .ok bytes) :
    ∃ t, labelOffset l = .ok t ∧ -0x8000 ≤ (distance offset t).toInt ∧
      (distance offset t).toInt < 0x8000 ∧ bytes = op :: Bytes.i2 (distance offset t).toInt := by
  obtain ⟨t, ht, h⟩ := bind_eq_ok.mp h
  dsimp only at h
  split at h
  · next hnear =>
      cases h
      simp only [Bool.and_eq_true, decide_eq_true_eq] at hnear
      exact ⟨t, ht, hnear.1, hnear.2, rfl⟩
  · cases h

theorem encode_tableSwitch {lo hi : Int32} {default : Label} {targets : List Label}
    (h : encode labelOffset index offset (.tableSwitch lo hi default targets) = .ok bytes) :
    ∃ d ts, labelOffset default = .ok d ∧ List.Forall₂ (labelOffset · = .ok ·) targets ts ∧
      bytes = Opcode.tableswitch :: (List.replicate (padding offset).toNat 0 ++
        (Bytes.i4 (distance offset d).toInt ++ (Bytes.i4 lo.toInt ++ (Bytes.i4 hi.toInt ++
          (ts.map fun t => Bytes.i4 (distance offset t).toInt).flatten)))) := by
  obtain ⟨_, hdefault, h⟩ := bind_eq_ok.mp h
  obtain ⟨parts, hparts, h⟩ := bind_eq_ok.mp h
  cases h
  obtain ⟨d, hd, rfl⟩ := far_eq_ok hdefault
  obtain ⟨ts, hts, rfl⟩ := exists_map_of_forall₂ ((mapM_eq_ok hparts).imp fun _ _ => far_eq_ok)
  refine ⟨d, ts, hd, hts, ?_⟩
  simp only [List.cons_append, List.append_assoc]

theorem encode_lookupSwitch {default : Label} {keys : List Int32} {targets : List Label}
    (hkeys : keys.length = targets.length)
    (h : encode labelOffset index offset (.lookupSwitch default keys targets) = .ok bytes) :
    ∃ d ts, labelOffset default = .ok d ∧ List.Forall₂ (labelOffset · = .ok ·) targets ts ∧
      bytes = Opcode.lookupswitch :: (List.replicate (padding offset).toNat 0 ++
        (Bytes.i4 (distance offset d).toInt ++ (Bytes.u4 keys.length ++
          ((keys.zip ts).map fun (k, t) =>
            Bytes.i4 k.toInt ++ Bytes.i4 (distance offset t).toInt).flatten))) := by
  obtain ⟨_, hdefault, h⟩ := bind_eq_ok.mp h
  obtain ⟨parts, hparts, h⟩ := bind_eq_ok.mp h
  cases h
  obtain ⟨d, hd, rfl⟩ := far_eq_ok hdefault
  have hpairs : List.Forall₂ (fun (pair : Int32 × Label) part =>
      ∃ kt : Int32 × Nat, (kt.1 = pair.1 ∧ labelOffset pair.2 = .ok kt.2) ∧
        part = Bytes.i4 kt.1.toInt ++ Bytes.i4 (distance offset kt.2).toInt)
      (keys.zip targets) parts := by
    refine (mapM_eq_ok hparts).imp fun pair part hpart => ?_
    obtain ⟨_, hfar, hpart⟩ := bind_eq_ok.mp hpart
    cases hpart
    obtain ⟨t, ht, rfl⟩ := far_eq_ok hfar
    exact ⟨⟨pair.1, t⟩, ⟨rfl, ht⟩, rfl⟩
  obtain ⟨kts, hkts, rfl⟩ := exists_map_of_forall₂ hpairs
  obtain ⟨hzip, hts⟩ := zip_of_forall₂ (R := (labelOffset · = .ok ·)) hkeys hkts
  refine ⟨d, kts.map (·.2), hd, hts, ?_⟩
  simp only [List.cons_append, List.append_assoc]
  rw [← hzip]

theorem length_flatten {parts : List (List UInt8)} {n : Nat} (h : ∀ part ∈ parts, part.length = n) :
    parts.flatten.length = n * parts.length := by
  induction parts with
  | nil => rfl
  | cons part parts ih =>
      have hpart := h part List.mem_cons_self
      have hrest := ih fun p hp => h p (List.mem_cons_of_mem _ hp)
      rw [List.flatten_cons, List.length_append, hpart, hrest, List.length_cons, Nat.mul_succ,
        Nat.add_comm]

def KeysHaveTargets : Instruction → Prop
  | lookupSwitch _ keys targets => keys.length ≤ targets.length
  | _ => True

instance : DecidablePred KeysHaveTargets
  | lookupSwitch _ keys targets => inferInstanceAs (Decidable (keys.length ≤ targets.length))
  | label _ | line .. | frame _ | plain _ | int .. | var .. | type .. | field .. | method ..
  | invokeDynamic .. | jump .. | ldc _ | iinc .. | tableSwitch .. | newMultiArray .. =>
    isTrue trivial

theorem Fits.keysHaveTargets {i : Instruction} (h : i.Fits) : i.KeysHaveTargets := by
  cases i with
  | lookupSwitch => exact Nat.le_of_eq h
  | _ => trivial

/-- Of a switch by keys a pair is written for every key that has a target. -/
theorem length_encode_lookupSwitch {default : Label} {keys : List Int32} {targets : List Label}
    (h : encode labelOffset index offset (.lookupSwitch default keys targets) = .ok bytes) :
    bytes.length = 1 + (padding offset).toNat + 8 + 8 * min keys.length targets.length := by
  have hu4 (n : Nat) : (Bytes.u4 n).length = 4 := Bytes.length_bigEndian 4 n
  have hi4 (d : Int) : (Bytes.i4 d).length = 4 := Bytes.length_bigEndian 4 _
  obtain ⟨_, hdefault, h⟩ := bind_eq_ok.mp h
  obtain ⟨parts, hparts, h⟩ := bind_eq_ok.mp h
  cases h
  obtain ⟨d, -, rfl⟩ := far_eq_ok hdefault
  have hpairs := mapM_eq_ok hparts
  have hcount : parts.length = min keys.length targets.length := by
    rw [← hpairs.length_eq, List.length_zip]
  have hpart : ∀ part ∈ parts, part.length = 8 := by
    intro part hpart
    obtain ⟨pair, -, hpair⟩ := (forall₂_exists hpairs).2 part hpart
    obtain ⟨_, hfar, hpair⟩ := bind_eq_ok.mp hpair
    cases hpair
    obtain ⟨t, -, rfl⟩ := far_eq_ok hfar
    rw [List.length_append, hi4, hi4]
  simp only [List.length_cons, List.length_append, List.length_replicate, hi4, hu4,
    length_flatten hpart, hcount]
  omega

/-- The bytes of the longest form of an instruction, behind all the padding there can be. -/
def widest : Instruction → Nat
  | tableSwitch _ _ _ targets => 16 + 4 * targets.length
  | lookupSwitch _ keys _ => 12 + 8 * keys.length
  | _ => 6

theorem encodedSize_le_widest (index : UInt16) (offset : UInt32) (i : Instruction) :
    (i.encodedSize index offset).toNat ≤ i.widest := by
  have hpad := toNat_padding offset
  cases i with
  | tableSwitch | lookupSwitch =>
      simp only [encodedSize, widest, UInt32.toNat_add, UInt32.toNat_mul, UInt32.toNat_ofNat',
        UInt32.reduceToNat]
      omega
  | int | var | iinc | method | ldc =>
      rw [encodedSize]
      split <;> simp [widest]
  | _ => simp [encodedSize, widest]

/-- The bytes of an instruction are as many as were counted for it, as far as a count of four bytes
goes. -/
theorem length_encode {i : Instruction} (hkeys : i.KeysHaveTargets)
    (h : i.encode labelOffset index offset = .ok bytes) :
    bytes.length ≤ i.widest ∧ UInt32.ofNat bytes.length = i.encodedSize index offset := by
  have hu2 (n : Nat) : (Bytes.u2 n).length = 2 := Bytes.length_bigEndian 2 n
  have hi2 (d : Int) : (Bytes.i2 d).length = 2 := Bytes.length_bigEndian 2 _
  have hi4 (d : Int) : (Bytes.i4 d).length = 4 := Bytes.length_bigEndian 4 _
  have hpad := toNat_padding offset
  -- Padding depends on the offset alone, and is the same in both counts.
  cases i with
  | label | line | frame | plain | type | field | invokeDynamic | newMultiArray =>
      cases h
      simp [encodedSize, widest, hu2]
  | int op operand =>
      cases h
      rw [encodedSize]
      split <;> simp [widest, hi2]
  | var op slot =>
      cases h
      rw [encodedSize]
      split <;> simp [widest, hu2]
  | iinc slot amount =>
      cases h
      rw [encodedSize]
      split <;> simp [widest, hu2, hi2]
  | ldc c =>
      cases h
      rw [encodedSize]
      by_cases hwide : c.isWide = true
      · simp [hwide, widest, hu2]
      · by_cases hindex : 0xff < index.toNat
        · simp [hwide, hindex, widest, hu2]
        · simp [hwide, hindex, widest]
  | method op owner name desc interface =>
      change (if op = .invokeinterface then _ else _) = _ at h
      rw [encodedSize]
      split at h
      · next hop =>
          rw [if_pos hop]
          split at h
          · cases h
            simp [widest, hu2]
          · cases h
      · next hop =>
          cases h
          simp [if_neg hop, widest, hu2]
  | jump op l =>
      obtain ⟨t, -, -, -, rfl⟩ := encode_jump h
      simp [encodedSize, widest, hi2]
  | tableSwitch lo hi default targets =>
      obtain ⟨d, ts, -, hts, rfl⟩ := encode_tableSwitch h
      have hparts : (ts.map fun t => Bytes.i4 (distance offset t).toInt).flatten.length =
          4 * ts.length := by
        rw [length_flatten (n := 4), List.length_map]
        intro part hpart
        obtain ⟨t, -, rfl⟩ := List.mem_map.mp hpart
        exact hi4 _
      have hcount := hts.length_eq
      simp only [List.length_cons, List.length_append, List.length_replicate, hi4, hparts]
      have hsum : (padding offset).toNat + (4 + (4 + (4 + 4 * ts.length))) + 1 =
          1 + (padding offset).toNat + 12 + 4 * targets.length := by omega
      rw [hsum, widest]
      exact ⟨by omega, by simp [encodedSize]⟩
  | lookupSwitch default keys targets =>
      have hlength := length_encode_lookupSwitch h
      rw [Nat.min_eq_left hkeys] at hlength
      rw [hlength, widest]
      exact ⟨by omega, by simp [encodedSize]⟩

def offsetLabel (labelOffset : Label → Except AssembleError Nat) (l : Label) : Label :=
  ⟨(labelOffset l).toOption.getD 0⟩

theorem offsetLabel_eq {l : Label} {n : Nat} (h : labelOffset l = .ok n) :
    offsetLabel labelOffset l = ⟨n⟩ := by
  rw [offsetLabel, h]
  rfl

theorem map_offsetLabel {ls : List Label} {ns : List Nat}
    (h : List.Forall₂ (labelOffset · = .ok ·) ls ns) :
    ls.map (offsetLabel labelOffset) = ns.map Label.mk := by
  induction h with
  | nil => rfl
  | cons hl _ ih => rw [List.map_cons, List.map_cons, offsetLabel_eq hl, ih]

/-- An encoded instruction is decoded to itself, with labels named by their offsets. -/
theorem reads_encode {pool : ConstantPool} {len : Nat} {rest : List UInt8} {i : Instruction}
    (hencode : i.encode labelOffset index offset = .ok bytes) (hreal : i.isReal) (hfits : i.Fits)
    (hfound : i.FoundIn pool index) (hoffset : offset.toNat ≤ 0xffff) (hlen : len ≤ 0xffff)
    (hbytes : bytes.length ≤ 0xffff)
    (htargets : ∀ l ∈ i.targets, ∀ n, labelOffset l = .ok n → n < len) :
    Reads (Bytecode.instruction pool len) offset.toNat bytes rest
      (i.relabel (offsetLabel labelOffset)) := by
  have hdistance {t : Nat} (ht : t < len) :
      (distance offset t).toInt = (t : Int) - offset.toNat := toInt_distance hoffset (by omega)
  cases i with
  | label | line | frame => cases hreal
  | plain op =>
      cases hencode
      exact Bytecode.reads_plain hfits
  | int op operand =>
      cases hencode
      rcases hfits with ⟨rfl, hlow, hhigh⟩ | ⟨rfl, hlow, hhigh⟩ | ⟨rfl, hlow, hhigh⟩
      · exact Bytecode.reads_byte hlow hhigh
      · exact Bytecode.reads_short hlow hhigh
      · exact Bytecode.reads_element hlow hhigh
  | var op slot =>
      cases hencode
      split
      · exact Bytecode.reads_wideSlot hfits
      · next hshort => exact Bytecode.reads_slot hfits (Nat.le_of_not_lt hshort)
  | iinc slot amount =>
      cases hencode
      split
      · next hshort =>
          simp only [isShortIncrement, Bool.and_eq_true, decide_eq_true_eq] at hshort
          exact Bytecode.reads_shortIncrement hshort.1.1 hshort.1.2 hshort.2
      · exact Bytecode.reads_wideIncrement slot amount
  | type op desc =>
      cases hencode
      exact Bytecode.reads_type hfits.1 hfound
  | field op owner name desc =>
      cases hencode
      exact Bytecode.reads_field hfits.1 hfound
  | method op owner name desc interface =>
      change (if op = .invokeinterface then _ else _) = _ at hencode
      split at hencode
      · next hop =>
          subst hop
          split at hencode
          · cases hencode
            exact Bytecode.reads_interfaceMethod _ hfound
          · cases hencode
      · next hop =>
          cases hencode
          exact Bytecode.reads_method hfits.1 hop hfound
  | invokeDynamic name desc bootstrap args =>
      cases hencode
      exact Bytecode.reads_invokeDynamic hfound
  | jump op l =>
      obtain ⟨t, ht, hlow, hhigh, rfl⟩ := encode_jump hencode
      have hlt := htargets l (by simp [targets]) t ht
      rw [hdistance hlt] at hlow hhigh ⊢
      rw [relabel, offsetLabel_eq ht]
      exact Bytecode.reads_jump hfits hlow hhigh hlen hlt
  | ldc c =>
      -- The form follows the kind of the constant first, and only then the size of the index.
      cases hencode
      split
      · exact Bytecode.reads_wideConstant rfl hfound
      · split
        · exact Bytecode.reads_wideConstant rfl hfound
        · next hshort => exact Bytecode.reads_constant (Nat.le_of_not_lt hshort) hfound
  | newMultiArray desc dims =>
      cases hencode
      exact Bytecode.reads_multiArray dims hfound
  | tableSwitch lo hi default targets =>
      obtain ⟨d, ts, hd, hts, rfl⟩ := encode_tableSwitch hencode
      have hdlt := htargets default (by simp [Instruction.targets]) d hd
      have hlt : ∀ t ∈ ts, t < len := by
        intro t ht
        obtain ⟨l, hl, hlt⟩ := (forall₂_exists hts).2 t ht
        exact htargets l (by simp [Instruction.targets, hl]) t hlt
      have hparts : (ts.map fun t => Bytes.i4 (distance offset t).toInt) =
          ts.map fun t : Nat => Bytes.i4 (t - offset.toNat) :=
        List.map_congr_left fun t ht => congrArg Bytes.i4 (hdistance (hlt t ht))
      rw [relabel, offsetLabel_eq hd, map_offsetLabel hts, hdistance hdlt, hparts]
      exact Bytecode.reads_tableSwitch (toNat_padding offset) hoffset hlen hfits.1
        (hts.length_eq ▸ hfits.2) hdlt hlt
  | lookupSwitch default keys targets =>
      obtain ⟨d, ts, hd, hts, rfl⟩ := encode_lookupSwitch hfits hencode
      have hdlt := htargets default (by simp [Instruction.targets]) d hd
      have hlt : ∀ t ∈ ts, t < len := by
        intro t ht
        obtain ⟨l, hl, hlt⟩ := (forall₂_exists hts).2 t ht
        exact htargets l (by simp [Instruction.targets, hl]) t hlt
      have hparts : ((keys.zip ts).map fun (k, t) =>
          Bytes.i4 k.toInt ++ Bytes.i4 (distance offset t).toInt) =
          (keys.zip ts).map fun (k, t) =>
            Bytes.i4 k.toInt ++ Bytes.i4 ((t : Nat) - offset.toNat) :=
        List.map_congr_left fun kt hkt =>
          congrArg (Bytes.i4 kt.1.toInt ++ Bytes.i4 ·) (hdistance (hlt _ (List.of_mem_zip hkt).2))
      have hkeys : keys.length = ts.length := hts.length_eq ▸ hfits
      -- The count is read as a signed number; as long as the code is short it cannot turn negative.
      have hsize := length_encode_lookupSwitch hencode
      have hfits : keys.length = targets.length := hfits
      rw [← hfits, Nat.min_self] at hsize
      rw [relabel, offsetLabel_eq hd, map_offsetLabel hts, hdistance hdlt, hparts]
      exact Bytecode.reads_lookupSwitch (toNat_padding offset) hoffset hlen hkeys (by omega) hdlt hlt

end Instruction

end Injection
