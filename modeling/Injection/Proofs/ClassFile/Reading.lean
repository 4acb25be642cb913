import Injection.Assembly.Bytes
import Injection.ClassFile.Reader
import Injection.Proofs.Computation

/-!
Reading back what was written. A reader takes some bytes when, standing before them at a
position, it uses up exactly these and leaves what comes after; two readers in a row take two
runs of bytes in a row.
-/

namespace Injection

theorem splitExactly_append {α : Type} (front rest : List α) :
    splitExactly front.length (front ++ rest) = some (front, rest) :=
  splitExactly_eq_some_iff.mpr ⟨rfl, rfl⟩

namespace Reader

theorem bigEndian_append_singleton (bytes : List UInt8) (b : UInt8) :
    bigEndian (bytes ++ [b]) = 256 * bigEndian bytes + b.toNat := by
  simp only [bigEndian, List.foldl_append, List.foldl_cons, List.foldl_nil]

theorem bigEndian_bytes (w n : Nat) : bigEndian (Bytes.bigEndian w n) = n % 256 ^ w := by
  induction w generalizing n with
  | zero => simp [Bytes.bigEndian, bigEndian, Nat.mod_one]
  | succ w ih =>
      have hsplit : n % 256 ^ (w + 1) = n % 256 + 256 * (n / 256 % 256 ^ w) := by
        rw [Nat.pow_succ', Nat.mod_mul]
      rw [Bytes.bigEndian, bigEndian_append_singleton, ih, UInt8.toNat_ofNat', hsplit]
      omega

variable {α β : Type} {r : Reader α} {f : α → Reader β} {p : Nat}
  {bytes front back rest : List UInt8} {a : α} {b : β}

/-- From the position `p`, with `rest` after them, the reader takes `bytes` and gives `a`. -/
def Reads (r : Reader α) (p : Nat) (bytes rest : List UInt8) (a : α) : Prop :=
  r ⟨p, bytes ++ rest⟩ = .ok (a, ⟨p + bytes.length, rest⟩)

theorem bind_eq (c : Cursor) : (r >>= f) c = (r c >>= fun x => f x.1 x.2) := rfl

namespace Reads

theorem pure (a : α) : Reads (pure a : Reader α) p [] rest a := rfl

theorem bind (hr : Reads r p front (back ++ rest) a)
    (hf : Reads (f a) (p + front.length) back rest b) :
    Reads (r >>= f) p (front ++ back) rest b := by
  rw [Reads] at hr hf ⊢
  rw [bind_eq, List.append_assoc, hr]
  change f a ⟨p + front.length, back ++ rest⟩ = _
  rw [hf, List.length_append, Nat.add_assoc]

/-- A reader that takes nothing. -/
theorem bind_nil (hr : Reads r p [] (bytes ++ rest) a) (hf : Reads (f a) p bytes rest b) :
    Reads (r >>= f) p bytes rest b := by
  rw [← List.nil_append bytes]
  exact bind hr hf

/-- A reader after which nothing is taken. -/
theorem bind_last (hr : Reads r p bytes rest a)
    (hf : Reads (f a) (p + bytes.length) [] rest b) : Reads (r >>= f) p bytes rest b := by
  rw [← List.append_nil bytes]
  exact bind hr hf

theorem map (g : α → β) (hr : Reads r p bytes rest a) : Reads (g <$> r) p bytes rest (g a) := by
  rw [map_eq_pure_bind]
  exact bind_last hr (pure _)

theorem ofExcept {x : Except ClassFileError α} (hx : x = .ok a) :
    Reads (ofExcept x) p [] rest a := by
  rw [hx]
  rfl

/-- Looking at the cursor. -/
theorem get_bind {g : Cursor → Reader β} (hg : Reads (g ⟨p, bytes ++ rest⟩) p bytes rest b) :
    Reads (get >>= g) p bytes rest b :=
  bind_nil (r := (get : Reader Cursor)) rfl hg

theorem ensureEnd (name : String) : Reads (ensureEnd name) p [] [] () := rfl

theorem within {info : List UInt8} (hr : Reads r 0 info [] a) :
    Reads (Reader.within info r) p [] rest a := by
  rw [Reads, List.append_nil] at hr
  simp only [Reads, Reader.within, Cursor.ofBytes, hr]
  rfl

end Reads

theorem reads_bytes {n : Nat} (hn : bytes.length = n) :
    Reads (Reader.bytes n) p bytes rest bytes := by
  subst hn
  simp only [Reads, Reader.bytes, splitExactly_append]

theorem reads_u1 (b : UInt8) : Reads u1 p [b] rest b := by
  refine (reads_bytes (show [b].length = 1 from rfl)).bind_last ?_
  have hb : UInt8.ofNat (bigEndian [b]) = b := by simp [bigEndian]
  rw [hb]
  exact .pure b

/-- One byte and what comes after it. -/
theorem reads_u1_bind {f : UInt8 → Reader β} {first : UInt8}
    (hf : Reads (f first) (p + 1) bytes rest b) : Reads (u1 >>= f) p (first :: bytes) rest b :=
  (reads_u1 first).bind hf

theorem ofNat_mod_two_pow_sixteen (n : Nat) : UInt16.ofNat (n % 256 ^ 2) = UInt16.ofNat n :=
  UInt16.toNat_inj.mp (by simp)

theorem ofNat_mod_two_pow_thirtyTwo (n : Nat) : UInt32.ofNat (n % 256 ^ 4) = UInt32.ofNat n :=
  UInt32.toNat_inj.mp (by simp)

/-- A number is cut to the two bytes it is written in. -/
theorem reads_u2 (n : Nat) : Reads u2 p (Bytes.u2 n) rest (UInt16.ofNat n) := by
  refine (reads_bytes (Bytes.length_bigEndian 2 n)).bind_last ?_
  rw [bigEndian_bytes, ofNat_mod_two_pow_sixteen]
  exact .pure _

theorem reads_u4 (n : Nat) : Reads u4 p (Bytes.u4 n) rest (UInt32.ofNat n) := by
  refine (reads_bytes (Bytes.length_bigEndian 4 n)).bind_last ?_
  rw [bigEndian_bytes, ofNat_mod_two_pow_thirtyTwo]
  exact .pure _

theorem reads_index (n : UInt16) : Reads u2 p (Bytes.u2 n.toNat) rest n := by
  have h : Reads u2 p (Bytes.u2 n.toNat) rest (UInt16.ofNat n.toNat) := reads_u2 n.toNat
  rwa [UInt16.ofNat_toNat] at h

theorem bigEndian_add (w v n : Nat) :
    Bytes.bigEndian (w + v) n = Bytes.bigEndian w (n / 256 ^ v) ++ Bytes.bigEndian v n := by
  induction v generalizing n with
  | zero => simp [Bytes.bigEndian]
  | succ v ih =>
      rw [← Nat.add_assoc, Bytes.bigEndian, ih, Bytes.bigEndian, List.append_assoc,
        Nat.div_div_eq_div_mul, Nat.pow_succ']

theorem reads_u8 (n : Nat) : Reads u8 p (Bytes.u8 n) rest (UInt64.ofNat n) := by
  rw [Bytes.u8, bigEndian_add 4 4]
  refine (reads_u4 (n / 256 ^ 4)).bind ((reads_u4 n).bind_last ?_)
  have hn : UInt64.ofNat ((UInt32.ofNat (n / 256 ^ 4)).toNat * 2 ^ 32 + (UInt32.ofNat n).toNat) =
      UInt64.ofNat n := by
    refine UInt64.toNat_inj.mp ?_
    simp only [UInt64.toNat_ofNat', UInt32.toNat_ofNat']
    omega
  rw [hn]
  exact .pure _

theorem reads_i1 (i : Int) : Reads i1 p [UInt8.ofInt i] rest (Int8.ofInt i) := by
  refine (reads_u1 (UInt8.ofInt i)).bind_last ?_
  have hpos : ((i % 2 ^ 8).toNat : Int) = i % 2 ^ 8 := Int.toNat_of_nonneg (by omega)
  have hi : (UInt8.ofInt i).toInt8 = Int8.ofInt i := by
    rw [UInt8.ofInt, UInt8.toInt8_ofNat', ← Int8.ofInt_eq_ofNat, hpos]
    refine Int8.toInt.inj ?_
    rw [Int8.toInt_ofInt, Int8.toInt_ofInt]
    exact Int.emod_bmod ..
  rw [hi]
  exact .pure _

theorem reads_i2 (i : Int) : Reads i2 p (Bytes.i2 i) rest (Int16.ofInt i) := by
  rw [Bytes.i2]
  refine (reads_u2 _).bind_last ?_
  have hpos : ((i % 2 ^ 16).toNat : Int) = i % 2 ^ 16 := Int.toNat_of_nonneg (by omega)
  have hi : (UInt16.ofNat (i % 2 ^ 16).toNat).toInt16 = Int16.ofInt i := by
    rw [UInt16.toInt16_ofNat', ← Int16.ofInt_eq_ofNat, hpos]
    refine Int16.toInt.inj ?_
    rw [Int16.toInt_ofInt, Int16.toInt_ofInt]
    exact Int.emod_bmod ..
  rw [hi]
  exact .pure _

theorem reads_i4 (i : Int) : Reads i4 p (Bytes.i4 i) rest (Int32.ofInt i) := by
  rw [Bytes.i4]
  refine (reads_u4 _).bind_last ?_
  have hpos : ((i % 2 ^ 32).toNat : Int) = i % 2 ^ 32 := Int.toNat_of_nonneg (by omega)
  have hi : (UInt32.ofNat (i % 2 ^ 32).toNat).toInt32 = Int32.ofInt i := by
    rw [UInt32.toInt32_ofNat', ← Int32.ofInt_eq_ofNat, hpos]
    refine Int32.toInt.inj ?_
    rw [Int32.toInt_ofInt, Int32.toInt_ofInt]
    exact Int.emod_bmod ..
  rw [hi]
  exact .pure _

/-- Items one after the other, each of which is read wherever it stands. -/
theorem Reads.times {items : List (List UInt8)} {as : List α}
    (hitems : List.Forall₂ (fun item a => ∀ p rest, Reads r p item rest a) items as) :
    Reads (r.times as.length) p items.flatten rest as := by
  induction hitems generalizing p with
  | nil => exact .pure []
  | cons hitem _ ih =>
      rw [List.flatten_cons]
      exact (hitem p _).bind (ih.bind_last (.pure _))

theorem Reads.counted {items : List (List UInt8)} {as : List α} (hlen : items.length < 2 ^ 16)
    (hitems : List.Forall₂ (fun item a => ∀ p rest, Reads r p item rest a) items as) :
    Reads r.counted p (Bytes.u2 items.length ++ items.flatten) rest as := by
  refine (reads_u2 items.length).bind ?_
  have hcount : (UInt16.ofNat items.length).toNat = as.length := by
    rw [UInt16.toNat_ofNat_of_lt' hlen, hitems.length_eq]
  rw [hcount]
  exact .times hitems

section

variable {σ : Type} {step : σ → Reader σ} {g g' : σ → σ} {items items' : List (List UInt8)}

def iterate (step : σ → Reader σ) : Nat → σ → Reader σ
  | 0, s => pure s
  | n + 1, s => step s >>= iterate step n

theorem iterate_add (m n : Nat) (s : σ) :
    iterate step (m + n) s = iterate step m s >>= iterate step n := by
  induction m generalizing s with
  | zero =>
      rw [Nat.zero_add]
      rfl
  | succ m ih =>
      rw [Nat.succ_add, iterate, iterate, bind_assoc]
      congr 1
      funext s'
      exact ih s'

/-- Items that change a state by `g`, one step for each item. -/
def Changes (step : σ → Reader σ) (items : List (List UInt8)) (g : σ → σ) : Prop :=
  ∀ s p rest, Reads (iterate step items.length s) p items.flatten rest (g s)

theorem changes_nil : Changes step [] id := fun s _ _ => .pure s

theorem changes_singleton {item : List UInt8} (h : ∀ s p rest, Reads (step s) p item rest (g s)) :
    Changes step [item] g := by
  intro s p rest
  rw [List.flatten_singleton]
  exact (h s p rest).bind_last (.pure _)

theorem Changes.append (h : Changes step items g) (h' : Changes step items' g') :
    Changes step (items ++ items') (g' ∘ g) := by
  intro s p rest
  rw [List.length_append, iterate_add, List.flatten_append]
  exact (h s p _).bind (h' (g s) _ rest)

end

end Reader

end Injection
