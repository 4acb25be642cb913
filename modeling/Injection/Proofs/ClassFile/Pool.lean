import Injection.Assembly.Pool
import Injection.Proofs.Assembly.Limits
import Injection.Proofs.ClassFile.Reading
import Injection.Proofs.Text.ModifiedUtf8

/-!
A collected constant pool is read back slot by slot. Every entry takes one slot, or two if it is
wide, and gives the same entry again.
-/

namespace Injection

open Reader

namespace PoolEntry

variable {p : Nat} {rest : List UInt8}

def Fits : PoolEntry → Prop
  | unusable => False
  | utf8 text => ModifiedUtf8.Fits text
  | _ => True

theorem Fits.ne_unusable {e : PoolEntry} (h : e.Fits) : e ≠ unusable := by
  rintro rfl
  exact h

def slots (e : PoolEntry) : List PoolEntry := if e.isWide then [e, unusable] else [e]

theorem length_slots_pos (e : PoolEntry) : 0 < e.slots.length := by
  rw [slots]
  split <;> simp

theorem reads_one (make : UInt16 → PoolEntry) (n : UInt16) :
    Reads (return make (← u2)) p (Bytes.u2 n.toNat) rest (make n) :=
  (reads_index n).bind_last (.pure _)

theorem reads_two (make : UInt16 → UInt16 → PoolEntry) (m n : UInt16) :
    Reads (return make (← u2) (← u2)) p (Bytes.u2 m.toNat ++ Bytes.u2 n.toNat) rest (make m n) :=
  (reads_index m).bind ((reads_index n).bind_last (.pure _))

theorem reads_utf8 {text : String} (h : ModifiedUtf8.Fits text) :
    Reads read p (utf8 text).bytes rest (utf8 text) := by
  refine reads_u1_bind ?_
  refine (reads_u2 _).bind ((reads_bytes ?_).bind_last ?_)
  · exact (UInt16.toNat_ofNat_of_lt' h).symm
  · rw [ModifiedUtf8.decode?_encode]
    exact .pure _

theorem reads_integer (value : Int32) :
    Reads read p (integer value).bytes rest (integer value) := by
  refine reads_u1_bind ((reads_i4 _).bind_last ?_)
  rw [Int32.ofInt_toInt]
  exact .pure _

theorem reads_float (bits : UInt32) : Reads read p (float bits).bytes rest (float bits) := by
  refine reads_u1_bind ((reads_u4 _).bind_last ?_)
  rw [UInt32.ofNat_toNat]
  exact .pure _

theorem reads_long (value : Int64) : Reads read p (long value).bytes rest (long value) := by
  rw [bytes]
  refine (reads_u1 5).bind ((reads_u8 _).bind_last ?_)
  have hpos : ((value.toInt % 2 ^ 64).toNat : Int) = value.toInt % 2 ^ 64 :=
    Int.toNat_of_nonneg (by omega)
  have hvalue : (UInt64.ofNat (value.toInt % 2 ^ 64).toNat).toInt64 = value := by
    rw [UInt64.toInt64_ofNat', ← Int64.ofInt_eq_ofNat, hpos]
    refine Int64.toInt.inj ?_
    rw [Int64.toInt_ofInt]
    exact (Int.emod_bmod ..).trans (Int64.toInt_bmod value)
  rw [hvalue]
  exact .pure _

theorem reads_double (bits : UInt64) : Reads read p (double bits).bytes rest (double bits) := by
  refine reads_u1_bind ((reads_u8 _).bind_last ?_)
  rw [UInt64.ofNat_toNat]
  exact .pure _

/-- An entry is read back from its bytes. -/
theorem reads_bytes {e : PoolEntry} (h : e.Fits) : Reads read p e.bytes rest e := by
  cases e with
  | unusable => exact h.elim
  | utf8 text => exact reads_utf8 h
  | integer value => exact reads_integer value
  | float bits => exact reads_float bits
  | long value => exact reads_long value
  | double bits => exact reads_double bits
  | classRef name => exact (reads_u1 7).bind (reads_one classRef name)
  | string text => exact (reads_u1 8).bind (reads_one string text)
  | fieldRef owner nt => exact (reads_u1 9).bind (reads_two fieldRef owner nt)
  | methodRef owner nt => exact (reads_u1 10).bind (reads_two methodRef owner nt)
  | interfaceMethodRef owner nt => exact (reads_u1 11).bind (reads_two interfaceMethodRef owner nt)
  | nameAndType name desc => exact (reads_u1 12).bind (reads_two nameAndType name desc)
  | methodHandle kind reference =>
      exact (reads_u1 15).bind ((reads_u1 kind).bind (reads_one (methodHandle kind) reference))
  | methodType desc => exact (reads_u1 16).bind (reads_one methodType desc)
  | dynamic bootstrap nt => exact (reads_u1 17).bind (reads_two dynamic bootstrap nt)
  | invokeDynamic bootstrap nt => exact (reads_u1 18).bind (reads_two invokeDynamic bootstrap nt)
  | moduleRef name => exact (reads_u1 19).bind (reads_one moduleRef name)
  | packageRef name => exact (reads_u1 20).bind (reads_one packageRef name)

/-- Entries are read back slot by slot. -/
theorem reads_slots {entries : List PoolEntry} (h : ∀ e ∈ entries, e.Fits) :
    Reads (readSlots (entries.flatMap slots).length) p (entries.flatMap bytes) rest
      (entries.flatMap slots) := by
  induction entries generalizing p with
  | nil => exact .pure []
  | cons e entries ih =>
      have he := h e List.mem_cons_self
      have hrest := fun p => ih (p := p) fun e he => h e (List.mem_cons_of_mem _ he)
      rw [List.flatMap_cons, List.flatMap_cons]
      by_cases hwide : e.isWide
      · have hslots : e.slots = [e, unusable] := if_pos hwide
        rw [hslots]
        refine (reads_bytes he).bind ?_
        rw [if_pos hwide]
        exact (hrest _).bind_last (.pure _)
      · have hslots : e.slots = [e] := if_neg hwide
        rw [hslots, List.singleton_append, List.length_cons]
        -- A last slot is read by a branch of its own.
        cases hlen : (entries.flatMap slots).length with
        | zero =>
            have hnone : entries = [] := by
              cases entries with
              | nil => rfl
              | cons e' _ =>
                  have hpos := e'.length_slots_pos
                  rw [List.flatMap_cons, List.length_append] at hlen
                  omega
            subst hnone
            refine (reads_bytes he).bind ?_
            rw [if_neg hwide]
            exact .pure _
        | succ n =>
            refine (reads_bytes he).bind ?_
            rw [if_neg hwide, ← hlen]
            exact (hrest _).bind_last (.pure _)

end PoolEntry

namespace PoolTable

variable {p : Nat} {rest : List UInt8}

/-- The slots after the unusable one are those of entries that the format can hold, and all
counts are numbers of two bytes. -/
structure IsSound (t : PoolTable) : Prop where
  slots : ∃ entries : List PoolEntry, (∀ e ∈ entries, e.Fits) ∧
    t.slots = .unusable :: entries.flatMap PoolEntry.slots
  length_le : t.slots.length ≤ 65535
  args_lt : ∀ m ∈ t.bootstrapMethods, m.args.length < 2 ^ 16

theorem empty_isSound : empty.IsSound :=
  ⟨⟨[], by simp, rfl⟩, by simp [empty], by simp [empty]⟩

theorem flatMap_bytes_slots (entries : List PoolEntry) :
    (entries.flatMap PoolEntry.slots).flatMap PoolEntry.bytes =
      entries.flatMap PoolEntry.bytes := by
  rw [List.flatMap_assoc]
  congr 1
  funext e
  rw [PoolEntry.slots]
  split <;> simp [PoolEntry.bytes]

def pool (t : PoolTable) : ConstantPool := ⟨t.slots.toArray, t.bootstrapMethods⟩

/-- No class goes by the index 0. -/
theorem IsSound.className_zero {t : PoolTable} (h : t.IsSound) (name : String) :
    t.pool.className 0 ≠ .ok name := by
  obtain ⟨entries, -, hslots⟩ := h.slots
  have hentry : t.pool.entry 0 = .error (.invalidPoolIndex 0) := by
    rw [ConstantPool.entry, pool, hslots]
    rfl
  rw [ConstantPool.className, hentry]
  nofun

/-- The pool is read back; how dynamic calls are linked is told elsewhere. -/
theorem reads_pool {t : PoolTable} (h : t.IsSound) :
    Reads ConstantPool.read p t.bytes rest { t.pool with bootstrapMethods := [] } := by
  obtain ⟨entries, hfits, hslots⟩ := h.slots
  have hlen := h.length_le
  rw [hslots, List.length_cons] at hlen
  have hcount : (UInt16.ofNat t.slots.length).toNat =
      (entries.flatMap PoolEntry.slots).length + 1 := by
    rw [hslots, List.length_cons, UInt16.toNat_ofNat', Nat.mod_eq_of_lt (by omega)]
  refine (reads_u2 _).bind ?_
  rw [hcount]
  have hbytes : t.slots.flatMap PoolEntry.bytes = entries.flatMap PoolEntry.bytes := by
    rw [hslots, List.flatMap_cons, flatMap_bytes_slots]
    rfl
  rw [hbytes]
  refine (PoolEntry.reads_slots hfits).bind_last ?_
  rw [pool, hslots]
  exact .pure _

end PoolTable

end Injection
