import Injection.Proofs.ClassFile.Delimiting
import Injection.Proofs.ClassFile.Scanning

/-!
Reading a class file is safe: it answers with a class or with an error that says what is wrong with
the bytes, and never because a number left its width or a place outside the bytes was asked for.

`Checked.Safe` says this of a result and `Reader.Safe` of a reader, which besides stays within the
bytes it reads from. Nothing is assumed of the bytes, so every bound comes from a number's width or
from a test made before: a code array has less than 2³² bytes because its length was read from four,
and a stack map has at most 65535 frames, each at most 65536 bytes after the one before.
-/

namespace Injection

/-! ### Results -/

namespace Checked

variable {α β : Type} {x : Except ClassFileError α} {f : α → Except ClassFileError β}

/-- The result is not that a number left its width. -/
def Safe (x : Except ClassFileError α) : Prop := ∀ e, x = .error e → e ≠ .overflow

theorem safe_ok (a : α) : Safe (.ok a) := by simp [Safe]

theorem safe_error {e : ClassFileError} (he : e ≠ .overflow) : Safe (.error e : Except _ α) := by
  rintro _ ⟨⟩
  exact he

theorem Safe.bind (hx : Safe x) (hf : ∀ a, x = .ok a → Safe (f a)) : Safe (x >>= f) := by
  intro e he
  rcases bind_eq_error.mp he with hx' | ⟨a, ha, hf'⟩
  · exact hx e hx'
  · exact hf a ha e hf'

theorem safe_mapM {xs : List α} (h : ∀ a ∈ xs, Safe (f a)) : Safe (xs.mapM f) :=
  fun _ he => mapM_error (P := (· ≠ .overflow)) h he

theorem safe_forM {xs : List α} {g : α → Except ClassFileError PUnit} (h : ∀ a ∈ xs, Safe (g a)) :
    Safe (xs.forM g) := by
  induction xs with
  | nil => exact safe_ok _
  | cons a xs ih =>
      exact .bind (h a (List.mem_cons_self ..)) fun _ _ =>
        ih fun b hb => h b (List.mem_cons_of_mem _ hb)

theorem safe_byte {n : Nat} (h : n < 2 ^ 8) : Safe (byte n) := by
  rw [byte, if_pos h]
  exact safe_ok _

theorem safe_sub {a b : Nat} (h : b ≤ a) : Safe (sub a b) := by
  rw [sub, if_pos h]
  exact safe_ok _

theorem word_eq_ok {n : Nat} (h : n < 2 ^ 32) : word n = .ok n := if_pos h

theorem safe_signedLong {i : Int} (hlower : -(2 ^ 63) ≤ i) (hupper : i < 2 ^ 63) :
    Safe (signedLong i) := by
  rw [signedLong, if_pos ⟨hlower, hupper⟩]
  exact safe_ok _

end Checked

/-! ### Readers -/

namespace Reader

variable {α β : Type} {code : List UInt8} {r : Reader α} {f : α → Reader β} {P : α → Prop}
  {R : β → Prop}

/-- A slice is cut out of the bytes in its whole length or not at all. -/
theorem bytes_at {p n : Nat} (hp : p ≤ code.length) : Reader.bytes n (.at code p) =
    if p + n ≤ code.length then .ok ((code.drop p).take n, .at code (p + n))
    else .error .unexpectedEnd := by
  by_cases hend : p + n ≤ code.length
  · have hsplit : splitExactly n (code.drop p) =
        some ((code.drop p).take n, code.drop (p + n)) := by
      rw [splitExactly_eq_some_iff, ← List.drop_drop, List.take_append_drop]
      exact ⟨List.length_take_of_le (by rw [List.length_drop]; omega), rfl⟩
    simp only [Reader.bytes, Cursor.at, hsplit, if_pos hend]
  · have hsplit : splitExactly n (code.drop p) = none :=
      splitExactly_eq_none (by rw [List.length_drop]; omega)
    simp only [Reader.bytes, Cursor.at, hsplit, if_neg hend]

/-- From every position in the bytes the reader stops at a later one, with a result that meets `P`,
or fails for a reason other than that a number left its width. -/
def Safe (code : List UInt8) (r : Reader α) (P : α → Prop) : Prop :=
  ∀ p ≤ code.length,
    (∃ a stop, r (.at code p) = .ok (a, .at code stop) ∧ p ≤ stop ∧ stop ≤ code.length ∧ P a) ∨
      ∃ e, r (.at code p) = .error e ∧ e ≠ .overflow

namespace Safe

theorem pure {a : α} (h : P a) : Safe code (pure a) P :=
  fun p hp => .inl ⟨a, p, rfl, Nat.le_refl p, hp, h⟩

theorem throw {e : ClassFileError} (he : e ≠ .overflow) : Safe code (throw e : Reader α) P :=
  fun _ _ => .inr ⟨e, rfl, he⟩

theorem bind (hr : Safe code r P) (hf : ∀ a, P a → Safe code (f a) R) :
    Safe code (r >>= f) R := by
  intro p hp
  rw [bind_eq]
  rcases hr p hp with ⟨a, middle, ha, hle, hmiddle, hP⟩ | ⟨e, he, hne⟩
  · rw [ha]
    rcases hf a hP middle hmiddle with ⟨b, stop, hb, hle', hstop, hR⟩ | ⟨e, he, hne⟩
    · exact .inl ⟨b, stop, hb, Nat.le_trans hle hle', hstop, hR⟩
    · exact .inr ⟨e, he, hne⟩
  · rw [he]
    exact .inr ⟨e, rfl, hne⟩

theorem map (hr : Safe code r P) {g : α → β} (hg : ∀ a, P a → R (g a)) : Safe code (g <$> r) R := by
  rw [map_eq_pure_bind]
  exact hr.bind fun a ha => pure (hg a ha)

theorem ofExcept {x : Except ClassFileError α} (hx : Checked.Safe x) (h : ∀ a, x = .ok a → P a) :
    Safe code (Reader.ofExcept x) P := by
  cases x with
  | error e => exact throw (hx e rfl)
  | ok a => exact pure (h a rfl)

/-- Looking at the cursor, which is at a position in the bytes. -/
theorem get_bind {g : Cursor → Reader β}
    (h : ∀ p ≤ code.length, Safe code (g (.at code p)) R) : Safe code (get >>= g) R :=
  fun p hp => h p hp p hp

theorem bytes (n : Nat) : Safe code (Reader.bytes n) fun front => front.length = n := by
  intro p hp
  rw [bytes_at hp]
  split
  · next hend =>
      exact .inl ⟨_, p + n, rfl, Nat.le_add_right p n, hend,
        List.length_take_of_le (by rw [List.length_drop]; omega)⟩
  · exact .inr ⟨_, rfl, by simp⟩

theorem u1 : Safe code Reader.u1 fun _ => True := (bytes 1).bind fun _ _ => pure trivial

theorem u2 : Safe code Reader.u2 fun _ => True := (bytes 2).bind fun _ _ => pure trivial

theorem u4 : Safe code Reader.u4 fun _ => True := (bytes 4).bind fun _ _ => pure trivial

theorem u8 : Safe code Reader.u8 fun _ => True :=
  u4.bind fun _ _ => u4.bind fun _ _ => pure trivial

theorem i1 : Safe code Reader.i1 fun _ => True := u1.bind fun _ _ => pure trivial

theorem i2 : Safe code Reader.i2 fun _ => True := u2.bind fun _ _ => pure trivial

theorem i4 : Safe code Reader.i4 fun _ => True := u4.bind fun _ _ => pure trivial

theorem times (hr : Safe code r P) (n : Nat) : Safe code (r.times n) fun _ => True := by
  induction n with
  | zero => exact pure trivial
  | succ n ih => exact hr.bind fun a _ => ih.bind fun as _ => pure trivial

theorem counted (hr : Safe code r P) : Safe code r.counted fun _ => True :=
  u2.bind fun n _ => hr.times n.toNat

theorem ensureEnd (name : String) : Safe code (Reader.ensureEnd name) fun _ => True := by
  intro p hp
  rw [Reader.ensureEnd]
  split
  · exact .inl ⟨(), p, rfl, Nat.le_refl p, hp, trivial⟩
  · exact .inr ⟨_, rfl, by simp⟩

theorem within {info : List UInt8} (hr : Safe info r P) : Safe code (Reader.within info r) P := by
  intro p hp
  rw [Reader.within]
  rcases hr 0 (Nat.zero_le _) with ⟨a, stop, ha, -, -, hP⟩ | ⟨e, he, hne⟩
  · rw [Cursor.ofBytes, ← List.drop_zero (l := info), ← Cursor.at, ha]
    exact .inl ⟨a, p, rfl, Nat.le_refl p, hp, hP⟩
  · rw [Cursor.ofBytes, ← List.drop_zero (l := info), ← Cursor.at, he]
    exact .inr ⟨e, rfl, hne⟩

/-- A reader run over all of the bytes. -/
theorem run (hr : Safe code r P) : Checked.Safe (r (.ofBytes code)) := by
  intro e he
  rw [Cursor.ofBytes, ← List.drop_zero (l := code), ← Cursor.at] at he
  rcases hr 0 (Nat.zero_le _) with ⟨a, stop, ha, -⟩ | ⟨e', he', hne⟩
  · rw [ha] at he
    cases he
  · rw [he'] at he
    cases he
    exact hne

end Safe

end Reader

open Checked (safe_ok safe_error safe_forM safe_mapM)

open Reader (Safe)

/-! ### Text -/

namespace ModifiedUtf8

/-- The units of the bytes from an index on, where each byte is looked up by its own index: the
first of a group below the number of bytes, the others wherever they may be. -/
def unitsFrom (bytes : List UInt8) (i : Nat) : Option (List Nat) :=
  if h : i < bytes.length then
    let n := bytes[i].toNat
    if n = 0 then none
    else if n < 0x80 then (unitsFrom bytes (i + 1)).map (n :: ·)
    else if n < 0xc0 then none
    else if n < 0xe0 then do
      let low ← continuation? (← bytes[i + 1]?)
      let units ← unitsFrom bytes (i + 2)
      return ((n - 0xc0) * 0x40 + low) :: units
    else if n < 0xf0 then do
      let b ← bytes[i + 1]?
      let c ← bytes[i + 2]?
      let mid ← continuation? b
      let low ← continuation? c
      let units ← unitsFrom bytes (i + 3)
      return ((n - 0xe0) * 0x1000 + mid * 0x40 + low) :: units
    else none
  else some []
termination_by bytes.length - i

/-- No index is past the bytes when their units are read one group after the other. -/
theorem unitsFrom_eq (bytes : List UInt8) (i : Nat) :
    unitsFrom bytes i = unitsOfBytes (bytes.drop i) := by
  -- The cases are the lengths of a group, told by its first byte.
  fun_induction unitsFrom bytes i with
  | case1 i h n hzero =>
      rw [List.drop_eq_getElem_cons h, unitsOfBytes.eq_def]
      exact (if_pos hzero).symm
  | case2 i h n hzero hone ih =>
      rw [List.drop_eq_getElem_cons h, unitsOfBytes.eq_def, ih]
      exact ((if_neg hzero).trans (if_pos hone)).symm
  | case3 i h n hzero hone hlow =>
      rw [List.drop_eq_getElem_cons h, unitsOfBytes.eq_def]
      exact ((if_neg hzero).trans ((if_neg hone).trans (if_pos hlow))).symm
  | case4 i h n hzero hone hlow htwo ih =>
      rw [List.drop_eq_getElem_cons h, unitsOfBytes.eq_def, ih]
      refine Eq.trans ?_
        ((if_neg hzero).trans ((if_neg hone).trans ((if_neg hlow).trans (if_pos htwo)))).symm
      have hsecond : bytes[i + 1]? = (bytes.drop (i + 1))[0]? := by
        rw [List.getElem?_drop, Nat.add_zero]
      have hafter : bytes.drop (i + 2) = (bytes.drop (i + 1)).drop 1 := by
        rw [List.drop_drop]
      rw [hsecond, hafter]
      cases bytes.drop (i + 1) with
      | nil => rfl
      | cons b rest => rfl
  | case5 i h n hzero hone hlow htwo hthree ih =>
      rw [List.drop_eq_getElem_cons h, unitsOfBytes.eq_def, ih]
      refine Eq.trans ?_ ((if_neg hzero).trans ((if_neg hone).trans ((if_neg hlow).trans
        ((if_neg htwo).trans (if_pos hthree))))).symm
      have hsecond : bytes[i + 1]? = (bytes.drop (i + 1))[0]? := by
        rw [List.getElem?_drop, Nat.add_zero]
      have hthird : bytes[i + 2]? = (bytes.drop (i + 1))[1]? := by
        rw [List.getElem?_drop]
      have hafter : bytes.drop (i + 3) = (bytes.drop (i + 1)).drop 2 := by
        rw [List.drop_drop]
      rw [hsecond, hthird, hafter]
      rcases bytes.drop (i + 1) with - | ⟨b, - | ⟨c, rest⟩⟩
      all_goals rfl
  | case6 i h n hzero hone hlow htwo hthree =>
      rw [List.drop_eq_getElem_cons h, unitsOfBytes.eq_def]
      exact ((if_neg hzero).trans ((if_neg hone).trans ((if_neg hlow).trans
        ((if_neg htwo).trans (if_neg hthree))))).symm
  | case7 i h =>
      rw [List.drop_eq_nil_of_le (Nat.le_of_not_lt h), unitsOfBytes]

end ModifiedUtf8

/-! ### The constant pool -/

theorem PoolEntry.safe_read {code : List UInt8} : Safe code PoolEntry.read fun _ => True := by
  refine .bind .u1 fun tag _ => ?_
  split
  · refine .bind .u2 fun length _ => .bind (.bytes _) fun bytes _ => ?_
    split
    · exact .pure trivial
    · exact .throw (by simp)
  · exact .bind .i4 fun _ _ => .pure trivial
  · exact .bind .u4 fun _ _ => .pure trivial
  · exact .bind .u8 fun _ _ => .pure trivial
  · exact .bind .u8 fun _ _ => .pure trivial
  · exact .bind .u2 fun _ _ => .pure trivial
  · exact .bind .u2 fun _ _ => .pure trivial
  · exact .bind .u2 fun _ _ => .bind .u2 fun _ _ => .pure trivial
  · exact .bind .u2 fun _ _ => .bind .u2 fun _ _ => .pure trivial
  · exact .bind .u2 fun _ _ => .bind .u2 fun _ _ => .pure trivial
  · exact .bind .u2 fun _ _ => .bind .u2 fun _ _ => .pure trivial
  · exact .bind .u1 fun _ _ => .bind .u2 fun _ _ => .pure trivial
  · exact .bind .u2 fun _ _ => .pure trivial
  · exact .bind .u2 fun _ _ => .bind .u2 fun _ _ => .pure trivial
  · exact .bind .u2 fun _ _ => .bind .u2 fun _ _ => .pure trivial
  · exact .bind .u2 fun _ _ => .pure trivial
  · exact .bind .u2 fun _ _ => .pure trivial
  · exact .throw (by simp)

theorem PoolEntry.safe_readSlots {code : List UInt8} (slots : Nat) :
    Safe code (PoolEntry.readSlots slots) fun _ => True := by
  fun_induction PoolEntry.readSlots slots with
  | case1 => exact .pure trivial
  | case2 =>
      refine .bind safe_read fun entry _ => ?_
      split
      · exact .throw (by simp)
      · exact .pure trivial
  | case3 slots wide narrow =>
      refine .bind safe_read fun entry _ => ?_
      split
      · exact wide.bind fun _ _ => .pure trivial
      · exact narrow.bind fun _ _ => .pure trivial

namespace ConstantPool

theorem safe_read {code : List UInt8} : Safe code ConstantPool.read fun _ => True := by
  refine .bind .u2 fun count _ => ?_
  split
  · exact .throw (by simp)
  · exact .bind (PoolEntry.safe_readSlots _) fun _ _ => .pure trivial

variable (pool : ConstantPool) (index : UInt16)

theorem safe_entry : Checked.Safe (pool.entry index) := by
  rw [entry]
  split
  · exact safe_error (by simp)
  · exact safe_error (by simp)
  · exact safe_ok _

theorem safe_mismatch {α : Type} (expected : String) :
    Checked.Safe (pool.mismatch index expected : Except _ α) := safe_error (by simp)

theorem safe_utf8 : Checked.Safe (pool.utf8 index) := by
  refine .bind (pool.safe_entry index) fun e _ => ?_
  split
  · exact safe_ok _
  · exact pool.safe_mismatch index _

theorem safe_className : Checked.Safe (pool.className index) := by
  refine .bind (pool.safe_entry index) fun e _ => ?_
  split
  · exact pool.safe_utf8 _
  · exact pool.safe_mismatch index _

theorem safe_nameAndType : Checked.Safe (pool.nameAndType index) := by
  refine .bind (pool.safe_entry index) fun e _ => ?_
  split
  · exact .bind (pool.safe_utf8 _) fun _ _ => .bind (pool.safe_utf8 _) fun _ _ => safe_ok _
  · exact pool.safe_mismatch index _

theorem safe_member (owner nameAndType : UInt16) (interface : Bool) :
    Checked.Safe (pool.member owner nameAndType interface) :=
  .bind (pool.safe_className _) fun _ _ => .bind (pool.safe_nameAndType _) fun _ _ => safe_ok _

theorem safe_memberRef : Checked.Safe (pool.memberRef index) := by
  refine .bind (pool.safe_entry index) fun e _ => ?_
  split
  · exact pool.safe_member _ _ _
  · exact pool.safe_member _ _ _
  · exact pool.safe_member _ _ _
  · exact pool.safe_mismatch index _

theorem safe_handle : Checked.Safe (pool.handle index) := by
  refine .bind (pool.safe_entry index) fun e _ => ?_
  split
  · exact .bind (pool.safe_memberRef _) fun _ _ => safe_ok _
  · exact pool.safe_mismatch index _

theorem safe_bootstrapWith {constant : UInt16 → Except ClassFileError Constant}
    (h : ∀ index, Checked.Safe (constant index)) : Checked.Safe (pool.bootstrapWith constant index) := by
  rw [bootstrapWith]
  split
  · exact safe_error (by simp)
  · exact .bind (pool.safe_handle _) fun _ _ =>
      .bind (safe_mapM fun _ _ => h _) fun _ _ => safe_ok _

/-- A dynamic constant has constants of one level less for arguments. -/
theorem safe_constantWithin (depth : Nat) : Checked.Safe (pool.constantWithin depth index) := by
  induction depth using Nat.strongRecOn generalizing index with
  | ind depth ih =>
      rw [constantWithin.eq_def]
      refine .bind (pool.safe_entry index) fun e _ => ?_
      split
      · exact safe_ok _
      · exact safe_ok _
      · exact safe_ok _
      · exact safe_ok _
      · exact .bind (pool.safe_utf8 _) fun _ _ => safe_ok _
      · exact .bind (pool.safe_utf8 _) fun _ _ => safe_ok _
      · exact .bind (pool.safe_utf8 _) fun _ _ => safe_ok _
      · exact .bind (pool.safe_handle _) fun _ _ => safe_ok _
      · split
        · exact safe_error (by simp)
        · next depth =>
            exact .bind (pool.safe_nameAndType _) fun _ _ =>
              .bind (pool.safe_bootstrapWith _ fun index => ih depth (Nat.lt_succ_self _) index)
                fun _ _ => safe_ok _
      · exact pool.safe_mismatch index _

theorem safe_constant : Checked.Safe (pool.constant index) := pool.safe_constantWithin index _

theorem safe_invokeDynamic : Checked.Safe (pool.invokeDynamic index) := by
  refine .bind (pool.safe_entry index) fun e _ => ?_
  split
  · exact .bind (pool.safe_nameAndType _) fun _ _ =>
      .bind (pool.safe_bootstrapWith _ pool.safe_constant) fun _ _ => safe_ok _
  · exact pool.safe_mismatch index _

end ConstantPool

/-! ### The code -/

namespace Bytecode

open Reader.Safe (pure throw)

variable {code : List UInt8} (pool : ConstantPool)

/-- Offsets and distances have 32 bits, so the target of a branch is far from leaving 64. -/
theorem safe_branch {codeLength offset : Nat} (hoffset : offset < 2 ^ 32) (distance : Int32) :
    Safe code (branch codeLength offset distance) fun _ => True := by
  have hlower := distance.le_toInt
  have hupper := distance.toInt_lt
  refine .bind (.ofExcept (P := fun _ => True) (Checked.safe_signedLong ?_ ?_) fun _ _ => trivial)
    fun target _ => ?_
  · omega
  · omega
  · split
    · exact throw (by simp)
    · exact pure trivial

theorem safe_skipPadding : Safe code skipPadding fun _ => True :=
  .get_bind fun _ _ => .bind (.bytes _) fun _ _ => pure trivial

/-- The arithmetic on an opcode that tells its slot by itself stays within eight bits. -/
def impliedSlotFits (op : Opcode) : Opcode.OperandForm → Bool
  | .impliedSlot first base =>
    first.toNat ≤ op.toNat && base.toNat + (op.toNat - first.toNat) / 4 < 2 ^ 8
  | _ => true

theorem impliedSlotFits_all :
    ∀ n < 256, impliedSlotFits (UInt8.ofNat n) (Opcode.operandForm (UInt8.ofNat n)) = true := by
  decide +kernel

theorem safe_impliedSlot {op first base : Opcode}
    (h : Opcode.operandForm op = .impliedSlot first base) :
    Checked.Safe (impliedSlot op first base) := by
  have hfits := impliedSlotFits_all op.toNat (UInt8.toNat_lt op)
  rw [UInt8.ofNat_toNat, h, impliedSlotFits, Bool.and_eq_true, decide_eq_true_eq,
    decide_eq_true_eq] at hfits
  obtain ⟨hle, hlt⟩ := hfits
  refine .bind (Checked.safe_sub hle) fun index hindex => ?_
  rw [Checked.sub, if_pos hle] at hindex
  cases hindex
  exact .bind (Checked.safe_byte hlt) fun _ _ => safe_ok _

/-- A result that only has to be safe. -/
theorem safe_ofExcept {α : Type} {x : Except ClassFileError α} (hx : Checked.Safe x) :
    Safe code (Reader.ofExcept x) fun _ => True :=
  .ofExcept hx fun _ _ => trivial

theorem safe_instruction (hcode : code.length < 2 ^ 32) :
    Safe code (instruction pool code.length) fun _ => True := by
  refine .get_bind fun offset hoffset => .bind .u1 fun op _ => ?_
  have hbranch (distance : Int32) :
      Safe code (branch code.length offset distance) fun _ => True :=
    safe_branch (Nat.lt_of_le_of_lt hoffset hcode) distance
  have hnear : Safe code (do branch code.length offset (← Reader.i2).toInt32) fun _ => True :=
    .bind .i2 fun _ _ => hbranch _
  have hfar : Safe code (do branch code.length offset (← Reader.i4)) fun _ => True :=
    .bind .i4 fun _ _ => hbranch _
  dsimp only
  -- Only the count of a table switch and an implied slot do arithmetic of their own.
  cases hform : Opcode.operandForm op with
  | plain => exact pure trivial
  | byte => exact .bind .i1 fun _ _ => pure trivial
  | short => exact .bind .i2 fun _ _ => pure trivial
  | element => exact .bind .u1 fun _ _ => pure trivial
  | constant =>
      exact .bind .u1 fun _ _ => .bind (safe_ofExcept (pool.safe_constant _)) fun _ _ => pure trivial
  | wideConstant =>
      exact .bind .u2 fun _ _ => .bind (safe_ofExcept (pool.safe_constant _)) fun _ _ => pure trivial
  | slot => exact .bind .u1 fun _ _ => pure trivial
  | impliedSlot first base => exact safe_ofExcept (safe_impliedSlot hform)
  | increment => exact .bind .u1 fun _ _ => .bind .i1 fun _ _ => pure trivial
  | branch => exact .bind hnear fun _ _ => pure trivial
  | wideBranch base => exact .bind hfar fun _ _ => pure trivial
  | tableSwitch =>
      refine .bind safe_skipPadding fun _ _ => .bind hfar fun default _ =>
        .bind .i4 fun lo _ => .bind .i4 fun hi _ => ?_
      split
      · exact throw (by simp)
      · -- Both ends have 32 bits.
        have hlo := And.intro lo.le_toInt lo.toInt_lt
        have hhi := And.intro hi.le_toInt hi.toInt_lt
        refine .bind (safe_ofExcept (Checked.safe_signedLong ?_ ?_)) fun count _ =>
          .bind (hfar.times _) fun _ _ => pure trivial
        · omega
        · omega
  | lookupSwitch =>
      refine .bind safe_skipPadding fun _ _ => .bind hfar fun default _ => .bind .i4 fun count _ => ?_
      split
      · exact throw (by simp)
      · have hpair : Safe code (Reader.i4 >>= fun key => (Reader.i4 >>= branch code.length offset) >>=
            fun l => Pure.pure (key, l)) fun _ => True :=
          .bind .i4 fun _ _ => .bind hfar fun _ _ => pure trivial
        exact .bind (hpair.times _) fun _ _ => pure trivial
  | field =>
      exact .bind .u2 fun _ _ => .bind (safe_ofExcept (pool.safe_memberRef _)) fun _ _ => pure trivial
  | invoke =>
      refine .bind .u2 fun _ _ => .bind (safe_ofExcept (pool.safe_memberRef _)) fun m _ => ?_
      split
      · exact .bind (.bytes 2) fun _ _ => pure trivial
      · exact pure trivial
  | invokeDynamic =>
      exact .bind .u2 fun _ _ => .bind (safe_ofExcept (pool.safe_invokeDynamic _)) fun _ _ =>
        .bind .u2 fun _ _ => pure trivial
  | type =>
      exact .bind .u2 fun _ _ => .bind (safe_ofExcept (pool.safe_className _)) fun _ _ => pure trivial
  | multiArray =>
      exact .bind .u2 fun _ _ => .bind (safe_ofExcept (pool.safe_className _)) fun _ _ =>
        .bind .u1 fun _ _ => pure trivial
  | wide =>
      refine .bind .u1 fun inner _ => .bind .u2 fun slot _ => ?_
      split
      · exact .bind .i2 fun _ _ => pure trivial
      · exact pure trivial
      · exact throw (by simp)
  | undefined => exact throw (by simp)

theorem safe_sequence (hcode : code.length < 2 ^ 32) (bound : Nat) :
    Safe code (sequence pool code.length bound) fun _ => True := by
  induction bound with
  | zero => exact pure trivial
  | succ bound ih =>
      refine .get_bind fun p _ => ?_
      split
      · exact pure trivial
      · exact .bind (safe_instruction pool hcode) fun _ _ => .bind ih fun _ _ => pure trivial

theorem safe_checkTargets (decoded : List (Nat × Instruction)) :
    Checked.Safe (checkTargets decoded) := by
  refine safe_forM fun d _ => safe_forM fun l _ => ?_
  split
  · exact safe_ok _
  · exact safe_error (by simp)

theorem safe_handler : Safe code (handler pool) fun _ => True := by
  refine .bind .u2 fun _ _ => .bind .u2 fun _ _ => .bind .u2 fun _ _ => .bind .u2 fun catchType _ => ?_
  extract_lets tail
  have htail (caught : Option String) : Safe code (tail caught) fun _ => True := pure trivial
  split
  · exact .bind (P := fun _ => True) (pure trivial) fun caught _ => htail caught
  · exact .bind (.map (R := fun _ => True) (safe_ofExcept (pool.safe_className _)) fun _ _ => trivial)
      fun caught _ => htail caught

/-! ### The tables beside the code -/

theorem safe_lineEntry : Safe code lineEntry fun _ => True :=
  .bind .u2 fun _ _ => .bind .u2 fun _ _ => pure trivial

/-- The end of a range is told by two numbers of 16 bits. -/
theorem safe_localEntry (codeLength : Nat) : Safe code (localEntry pool codeLength) fun _ => True := by
  refine .bind .u2 fun start _ => .bind .u2 fun length _ => .bind .u2 fun name _ =>
    .bind (safe_ofExcept (pool.safe_utf8 name)) fun _ _ => .bind .u2 fun desc _ =>
      .bind (safe_ofExcept (pool.safe_utf8 desc)) fun _ _ => .bind .u2 fun slot _ =>
        .bind (safe_ofExcept ?_) fun stop _ => ?_
  · have hstart := start.toNat_lt
    have hlength := length.toNat_lt
    rw [Checked.word_eq_ok (by omega)]
    exact safe_ok _
  · split
    · exact throw (by simp)
    · exact pure trivial

theorem safe_verification : Safe code (verification pool) fun _ => True := by
  refine .bind .u1 fun tag _ => ?_
  split
  all_goals first
    | exact pure trivial
    | exact throw (by simp)
    | exact .bind .u2 fun _ _ => pure trivial
    | exact .bind .u2 fun _ _ => .bind (safe_ofExcept (pool.safe_className _)) fun _ _ => pure trivial

/-- The distance to the next frame is in the tag or in two bytes. -/
theorem safe_frameEntry : Safe code (frameEntry pool) fun (delta, _) => delta < 2 ^ 16 := by
  refine .bind .u1 fun tag _ => ?_
  have htag := tag.toNat_lt
  dsimp only
  split
  · exact pure (by dsimp only; omega)
  split
  · exact .bind (safe_verification pool) fun _ _ => pure (by dsimp only; omega)
  split
  · exact throw (by simp)
  refine .bind .u2 fun delta _ => ?_
  have hdelta := delta.toNat_lt
  split
  · exact .bind (safe_verification pool) fun _ _ => pure hdelta
  split
  · exact pure hdelta
  split
  · exact pure hdelta
  split
  · exact .bind ((safe_verification pool).times _) fun _ _ => pure hdelta
  · exact .bind (safe_verification pool).counted fun _ _ =>
      .bind (safe_verification pool).counted fun _ _ => pure hdelta

def frameEntryChecked (pool : ConstantPool) : Reader (Nat × FrameEntry) := do
  let tag := (← Reader.u1).toNat
  if tag ≤ 63 then return (tag, ⟨.same, [], []⟩)
  else if tag ≤ 127 then
    let delta ← Reader.ofExcept (Checked.sub tag 64)
    return (delta, ⟨.same1, [], [← verification pool]⟩)
  else if tag ≤ 246 then throw (.malformedAttribute "StackMapTable")
  else
    let delta := (← Reader.u2).toNat
    if tag = 247 then return (delta, ⟨.same1, [], [← verification pool]⟩)
    else if tag ≤ 250 then
      let count ← Reader.ofExcept (Checked.sub 251 tag)
      return (delta, ⟨.chop count, [], []⟩)
    else if tag = 251 then return (delta, ⟨.same, [], []⟩)
    else if tag ≤ 254 then
      let count ← Reader.ofExcept (Checked.sub tag 251)
      return (delta, ⟨.append count, ← (verification pool).times count, []⟩)
    else
      let locals ← Reader.counted (verification pool)
      let stack ← Reader.counted (verification pool)
      return (delta, ⟨.full, locals, stack⟩)

theorem ofExcept_sub_bind {α : Type} {a b : Nat} {f : Nat → Reader α} (h : b ≤ a) :
    (Reader.ofExcept (Checked.sub a b) >>= f) = f (a - b) := by
  rw [Checked.sub, if_pos h]
  rfl

/-- Each difference is taken of a tag in the range for which it is not negative. -/
theorem frameEntry_eq_checked : frameEntry pool = frameEntryChecked pool := by
  refine congrArg (Reader.u1 >>= ·) (funext fun tag => ?_)
  dsimp only
  split
  · rfl
  split
  · rw [ofExcept_sub_bind (by omega)]
  split
  · rfl
  refine congrArg (Reader.u2 >>= ·) (funext fun delta => ?_)
  split
  · rfl
  split
  · rw [ofExcept_sub_bind (by omega)]
  split
  · rfl
  split
  · rw [ofExcept_sub_bind (by omega)]
  · rfl

/-- Every frame is at most 65536 bytes after the one before it. -/
theorem safe_frameEntries_some (count : Nat) {p : Nat} (hp : p + 2 ^ 16 * count < 2 ^ 32) :
    Safe code (frameEntries pool count (some p)) fun _ => True := by
  induction count generalizing p with
  | zero => exact pure trivial
  | succ count ih =>
      refine .bind (safe_frameEntry pool) fun (delta, entry) hdelta => ?_
      have hnext : p + delta + 1 + 2 ^ 16 * count < 2 ^ 32 := by
        dsimp only at hdelta
        omega
      have hoffset : Checked.word (p + delta + 1) = .ok (p + delta + 1) :=
        Checked.word_eq_ok (by omega)
      dsimp only
      rw [hoffset]
      exact .bind (P := (· = p + delta + 1)) (pure rfl) fun offset hoffset =>
        .bind (hoffset ▸ ih hnext) fun _ _ => pure trivial

/-- A table says in two bytes how many frames it has, which is too few for the last to be 2³² bytes
into the code. -/
theorem safe_frameEntries (count : UInt16) :
    Safe code (frameEntries pool count.toNat none) fun _ => True := by
  have hcount := count.toNat_lt
  cases hn : count.toNat with
  | zero => exact pure trivial
  | succ n =>
      refine .bind (safe_frameEntry pool) fun (delta, entry) hdelta =>
        .bind (P := (· = delta)) (pure rfl) fun offset hoffset => ?_
      subst hoffset
      dsimp only at hdelta
      exact .bind (safe_frameEntries_some pool n (by omega)) fun _ _ => pure trivial

theorem safe_table (codeLength : Nat) (t : Tables) :
    Safe code (table pool codeLength t) fun _ => True := by
  refine .bind .u2 fun name _ => .bind .u4 fun length _ => .bind (.bytes _) fun info _ =>
    .bind (safe_ofExcept (pool.safe_utf8 name)) fun text _ => ?_
  split
  · exact .within (.bind safe_lineEntry.counted fun _ _ => .bind (.ensureEnd _) fun _ _ =>
      pure trivial)
  · exact .within (.bind (safe_localEntry pool codeLength).counted fun _ _ =>
      .bind (.ensureEnd _) fun _ _ => pure trivial)
  · exact .within (.bind .u2 fun count _ => .bind (safe_frameEntries pool count) fun _ _ =>
      .bind (.ensureEnd _) fun _ _ => pure trivial)
  · exact pure trivial

theorem safe_tables (codeLength count : Nat) (t : Tables) :
    Safe code (tables pool codeLength count t) fun _ => True := by
  induction count generalizing t with
  | zero => exact pure trivial
  | succ count ih => exact .bind (safe_table pool codeLength t) fun t _ => ih t

theorem safe_frames (current : List FrameValue) (entries : List (Nat × FrameEntry)) :
    Checked.Safe (frames current entries) := by
  induction entries generalizing current with
  | nil => exact safe_ok _
  | cons entry rest ih =>
      obtain ⟨offset, e⟩ := entry
      refine .bind ?_ fun current _ => .bind (ih current) fun _ _ => safe_ok _
      rw [FrameEntry.localsAfter]
      split
      · exact safe_ok _
      · split
        · exact safe_error (by simp)
        · exact safe_ok _
      all_goals exact safe_ok _

end Bytecode

theorem MethodDescriptor.safe_parse (desc : String) : Checked.Safe (parse desc) := by
  rw [parse]
  split
  · exact safe_ok _
  · exact safe_error (by simp)

theorem Frame.safe_entryLocals (owner : String) (access : Access) (name desc : String) :
    Checked.Safe (entryLocals owner access name desc) :=
  .bind (MethodDescriptor.safe_parse desc) fun _ _ => safe_ok _

open Reader.Safe (pure throw) in
open Bytecode in
/-- The instructions are read from as many bytes as four bytes can tell, whose number then bounds
every offset. -/
theorem Code.safe_read {code : List UInt8} (pool : ConstantPool) (owner : String) (access : Access)
    (name desc : String) : Safe code (Code.read pool owner access name desc) fun _ => True := by
  refine .bind .u2 fun maxStack _ => .bind .u2 fun maxLocals _ => .bind .u4 fun codeLength _ =>
    .bind (.bytes _) fun bytes hbytes => ?_
  have hlength : bytes.length < 2 ^ 32 := hbytes ▸ codeLength.toNat_lt
  dsimp only
  rw [← hbytes]
  refine .bind (.within (safe_sequence pool hlength _)) fun decoded _ =>
    .bind (safe_ofExcept (safe_checkTargets decoded)) fun _ _ =>
      .bind (safe_handler pool).counted fun handlers _ => .bind .u2 fun count _ =>
        .bind (safe_tables pool _ count.toNat _) fun t _ => .bind (.ensureEnd _) fun _ _ => ?_
  split
  · exact throw (by simp)
  · exact .bind (safe_ofExcept (Frame.safe_entryLocals owner access name desc)) fun entry _ =>
      .bind (safe_ofExcept (safe_frames entry t.frames)) fun _ _ => pure trivial

/-! ### The parts of a class file -/

namespace ClassFile

open Reader.Safe (pure throw)

open Bytecode (safe_ofExcept)

variable {code : List UInt8} (pool : ConstantPool)

theorem safe_attributeBytes : Safe code attributeBytes fun _ => True :=
  .bind .u2 fun _ _ => .bind .u4 fun _ _ => .bind (.bytes _) fun _ _ => pure trivial

theorem safe_memberAttributes (count : Nat) (found : Option (List UInt8)) :
    Safe code (memberAttributes pool count found) fun _ => True := by
  induction count generalizing found with
  | zero => exact pure trivial
  | succ count ih =>
      exact .bind safe_attributeBytes fun _ _ =>
        .bind (safe_ofExcept (pool.safe_utf8 _)) fun _ _ => ih _

theorem safe_member : Safe code (member pool) fun _ => True :=
  .bind .u2 fun _ _ => .bind .u2 fun _ _ => .bind (safe_ofExcept (pool.safe_utf8 _)) fun _ _ =>
    .bind .u2 fun _ _ => .bind (safe_ofExcept (pool.safe_utf8 _)) fun _ _ => .bind .u2 fun _ _ =>
      .bind (safe_memberAttributes pool _ none) fun _ _ => pure trivial

theorem safe_bootstrapMethod : Safe code bootstrapMethod fun _ => True :=
  .bind .u2 fun _ _ => .bind (.counted .u2) fun _ _ => pure trivial

theorem safe_classAttribute (a : Attributes) :
    Safe code (classAttribute pool a) fun _ => True := by
  refine .bind safe_attributeBytes fun (name, info) _ =>
    .bind (safe_ofExcept (pool.safe_utf8 name)) fun text _ => ?_
  split
  · exact .within (.bind .u2 fun _ _ => .bind (safe_ofExcept (pool.safe_utf8 _)) fun _ _ =>
      .bind (.ensureEnd _) fun _ _ => pure trivial)
  · exact .within (.bind safe_bootstrapMethod.counted fun _ _ => .bind (.ensureEnd _) fun _ _ =>
      pure trivial)
  · exact pure trivial

theorem safe_classAttributes (count : Nat) (a : Attributes) :
    Safe code (classAttributes pool count a) fun _ => True := by
  induction count generalizing a with
  | zero => exact pure trivial
  | succ count ih => exact .bind (safe_classAttribute pool a) fun a _ => ih a

theorem safe_layout : Safe code layout fun _ => True := by
  refine .bind .u4 fun found _ => ?_
  split
  · exact throw (by simp)
  · refine .bind .u2 fun minorVersion _ => .bind .u2 fun majorVersion _ =>
      .bind ConstantPool.safe_read fun pool _ => .bind .u2 fun access _ =>
        .bind .u2 fun nameIndex _ => .bind (safe_ofExcept (pool.safe_className _)) fun name _ =>
          .bind .u2 fun superIndex _ => ?_
    have hinterface : Safe code (do Reader.ofExcept (pool.className (← Reader.u2))) fun _ => True :=
      .bind .u2 fun _ _ => safe_ofExcept (pool.safe_className _)
    -- What follows the super class is the same whether or not there is one.
    extract_lets tail
    have htail (superName : Option String) (_ : True) : Safe code (tail superName) fun _ => True :=
      .bind hinterface.counted fun interfaces _ => .bind (safe_member pool).counted fun fields _ =>
        .bind (safe_member pool).counted fun methods _ => .bind .u2 fun count _ =>
          .bind (safe_classAttributes pool count.toNat _) fun attributes _ =>
            .bind (.ensureEnd "class file") fun _ _ => pure trivial
    split
    · exact .bind (pure trivial) htail
    · exact .bind (.map (safe_ofExcept (pool.safe_className _)) fun _ _ => trivial) htail

theorem safe_method (owner : String) (m : Member) : Checked.Safe (method pool owner m) := by
  rw [method]
  split
  · exact safe_ok _
  · exact .bind (Code.safe_read pool owner m.access m.name m.desc).run fun _ _ => safe_ok _

theorem Layout.safe_toClass (l : Layout) : Checked.Safe l.toClass :=
  .bind (safe_mapM fun m _ => safe_method _ l.name m) fun _ _ => safe_ok _

end ClassFile

open Bytecode in
/-- Reading any bytes as a class file ends with a class or with an error that is not a number out of
its width. The file and the code of its methods are read by cursors that move forward within their
bytes; the differences taken of a frame's tag and the indices at which text is looked up are in
range. -/
theorem Class.parse_safe (bytes : List UInt8) :
    ((∃ c, Class.parse bytes = .ok c) ∨ ∃ e, Class.parse bytes = .error e ∧ e ≠ .overflow) ∧
    Safe bytes ClassFile.layout (fun _ => True) ∧
    (∀ pool owner access name desc code,
      Safe code (Code.read pool owner access name desc) fun _ => True) ∧
    (∀ pool, frameEntry pool = frameEntryChecked pool) ∧
    ∀ text, ModifiedUtf8.unitsOfBytes text = ModifiedUtf8.unitsFrom text 0 := by
  have hsafe : Checked.Safe (Class.parse bytes) :=
    .bind ClassFile.safe_layout.run fun (l, _) _ => l.safe_toClass
  refine ⟨?_, ClassFile.safe_layout, fun pool owner access name desc _ =>
    Code.safe_read pool owner access name desc, frameEntry_eq_checked, fun text => ?_⟩
  · cases hparse : Class.parse bytes with
    | ok c => exact .inl ⟨c, rfl⟩
    | error e => exact .inr ⟨e, rfl, hsafe e hparse⟩
  · rw [ModifiedUtf8.unitsFrom_eq, List.drop_zero]

end Injection
