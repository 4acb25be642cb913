import Injection.Text.ModifiedUtf8
import Mathlib.Tactic.Common

/-!
The text encoding of class files is read back as it was written, first unit by unit, then
character by character. Of the bytes that are written none is zero and none begins a group of four.
-/

namespace Injection.ModifiedUtf8

theorem toNat_ofNat {n : Nat} (h : n < 256) : (UInt8.ofNat n).toNat = n := by
  simp only [UInt8.toNat_ofNat']
  omega

theorem continuation?_ofNat {n : Nat} (h : n < 0x40) :
    continuation? (UInt8.ofNat (0x80 + n)) = some n := by
  have hlow : 0x80 + n - 0x80 = n := by omega
  rw [continuation?, toNat_ofNat (by omega), hlow]
  simp only [Bool.and_eq_true, decide_eq_true_eq]
  exact if_pos (by omega)

theorem unitsOfBytes_one {u : Nat} (hpos : 0 < u) (h : u < 0x80) (rest : List UInt8) :
    unitsOfBytes (UInt8.ofNat u :: rest) = (unitsOfBytes rest).map (u :: ·) := by
  rw [unitsOfBytes.eq_def]
  simp only [toNat_ofNat (show u < 256 by omega), show u ≠ 0 by omega, h, if_true, if_false]

theorem unitsOfBytes_two {u : Nat} (h : u < 0x800) (rest : List UInt8) :
    unitsOfBytes (UInt8.ofNat (0xc0 + u / 0x40) :: UInt8.ofNat (0x80 + u % 0x40) :: rest) =
      (unitsOfBytes rest).map (u :: ·) := by
  have hlow : u % 0x40 < 0x40 := Nat.mod_lt _ (by decide)
  have hunit : (0xc0 + u / 0x40 - 0xc0) * 0x40 + u % 0x40 = u := by omega
  rw [unitsOfBytes.eq_def]
  simp only [toNat_ofNat (show 0xc0 + u / 0x40 < 256 by omega),
    show ¬ 0xc0 + u / 0x40 = 0 by omega, show ¬ 0xc0 + u / 0x40 < 0x80 by omega,
    show ¬ 0xc0 + u / 0x40 < 0xc0 by omega, show 0xc0 + u / 0x40 < 0xe0 by omega, if_false,
    if_true, continuation?_ofNat hlow, Option.bind_eq_bind, Option.bind_some, hunit]
  cases unitsOfBytes rest <;> rfl

theorem unitsOfBytes_three {u : Nat} (h : u < 0x10000) (rest : List UInt8) :
    unitsOfBytes (UInt8.ofNat (0xe0 + u / 0x1000) :: UInt8.ofNat (0x80 + u / 0x40 % 0x40) ::
        UInt8.ofNat (0x80 + u % 0x40) :: rest) = (unitsOfBytes rest).map (u :: ·) := by
  have hmid : u / 0x40 % 0x40 < 0x40 := Nat.mod_lt _ (by decide)
  have hlow : u % 0x40 < 0x40 := Nat.mod_lt _ (by decide)
  have hunit : (0xe0 + u / 0x1000 - 0xe0) * 0x1000 + u / 0x40 % 0x40 * 0x40 + u % 0x40 = u := by
    omega
  rw [unitsOfBytes.eq_def]
  simp only [toNat_ofNat (show 0xe0 + u / 0x1000 < 256 by omega),
    show ¬ 0xe0 + u / 0x1000 = 0 by omega, show ¬ 0xe0 + u / 0x1000 < 0x80 by omega,
    show ¬ 0xe0 + u / 0x1000 < 0xc0 by omega, show ¬ 0xe0 + u / 0x1000 < 0xe0 by omega,
    show 0xe0 + u / 0x1000 < 0xf0 by omega, if_false, if_true, continuation?_ofNat hmid,
    continuation?_ofNat hlow, Option.bind_eq_bind, Option.bind_some, hunit]
  cases unitsOfBytes rest <;> rfl

/-- A unit is read back from the bytes it is written in. -/
theorem unitsOfBytes_bytesOfUnit {u : Nat} (h : u < 0x10000) (rest : List UInt8) :
    unitsOfBytes (bytesOfUnit u ++ rest) = (unitsOfBytes rest).map (u :: ·) := by
  rw [bytesOfUnit]
  simp only [Bool.and_eq_true, decide_eq_true_eq]
  by_cases hone : 0 < u ∧ u < 0x80
  · rw [if_pos hone]
    exact unitsOfBytes_one hone.1 hone.2 rest
  · rw [if_neg hone]
    by_cases htwo : u < 0x800
    · rw [if_pos htwo]
      exact unitsOfBytes_two htwo rest
    · rw [if_neg htwo]
      exact unitsOfBytes_three h rest

theorem unitsOfBytes_flatMap {units : List Nat} (h : ∀ u ∈ units, u < 0x10000) :
    unitsOfBytes (units.flatMap bytesOfUnit) = some units := by
  induction units with
  | nil => simp [unitsOfBytes]
  | cons u units ih =>
      rw [List.flatMap_cons, unitsOfBytes_bytesOfUnit (h u List.mem_cons_self),
        ih fun v hv => h v (List.mem_cons_of_mem u hv)]
      rfl

theorem toNat_lt (c : Char) : c.toNat < 0x110000 := by
  have := c.valid
  simp only [UInt32.isValidChar, Nat.isValidChar] at this
  change c.val.toNat < _
  omega

theorem units_lt (c : Char) : ∀ u ∈ unitsOfChar c, u < 0x10000 := by
  have := toNat_lt c
  intro u hu
  rw [unitsOfChar] at hu
  split at hu
  · rw [List.mem_singleton.mp hu]
    assumption
  · rcases List.mem_cons.mp hu with rfl | hu
    · omega
    · rw [List.mem_singleton.mp hu]
      omega

/-- A character is read back from its units. -/
theorem charsOfUnits_unitsOfChar (c : Char) (rest : List Nat) :
    charsOfUnits (unitsOfChar c ++ rest) = (charsOfUnits rest).map (c :: ·) := by
  have hlt := toNat_lt c
  rw [unitsOfChar]
  split
  · -- A character of the first plane is no half of a surrogate pair.
    have hvalid : c.toNat < 0xd800 ∨ 0xdfff < c.toNat := by
      rcases c.valid with h | h
      · exact .inl h
      · exact .inr h.1
    have hhigh : isHighHalf c.toNat = false := by
      simp only [isHighHalf, Bool.and_eq_false_iff, decide_eq_false_iff_not]
      omega
    have hlow : isLowHalf c.toNat = false := by
      simp only [isLowHalf, Bool.and_eq_false_iff, decide_eq_false_iff_not]
      omega
    rw [List.singleton_append, charsOfUnits.eq_def]
    simp [hhigh, hlow]
  · have hhigh : isHighHalf (0xd800 + (c.toNat - 0x10000) / 0x400) = true := by
      simp only [isHighHalf, Bool.and_eq_true, decide_eq_true_eq]
      omega
    have hlow : isLowHalf (0xdc00 + (c.toNat - 0x10000) % 0x400) = true := by
      simp only [isLowHalf, Bool.and_eq_true, decide_eq_true_eq]
      omega
    have hchar : 0x10000 + (0xd800 + (c.toNat - 0x10000) / 0x400 - 0xd800) * 0x400 +
        (0xdc00 + (c.toNat - 0x10000) % 0x400 - 0xdc00) = c.toNat := by omega
    rw [List.cons_append, List.singleton_append, charsOfUnits.eq_def]
    simp only [hhigh, if_true, hlow, hchar, Char.ofNat_toNat]

theorem decode?_encode (text : String) : decode? (encode text) = some text := by
  have hchars (cs : List Char) : charsOfUnits (cs.flatMap unitsOfChar) = some cs := by
    induction cs with
    | nil => simp [charsOfUnits]
    | cons c cs ih =>
        rw [List.flatMap_cons, charsOfUnits_unitsOfChar, ih]
        rfl
  have hunits : ∀ u ∈ text.toList.flatMap unitsOfChar, u < 0x10000 := by
    intro u hu
    obtain ⟨c, -, hc⟩ := List.mem_flatMap.mp hu
    exact units_lt c u hc
  rw [decode?, encode, encodeChars, unitsOfBytes_flatMap hunits]
  simp [hchars]

/-! ### The bytes that are written -/

theorem toNat_of_mem_bytesOfUnit {u : Nat} {b : UInt8} (hu : u < 0x10000)
    (hb : b ∈ bytesOfUnit u) : 0 < b.toNat ∧ b.toNat < 0xf0 := by
  have hbyte {n : Nat} (hn : 0 < n ∧ n < 0xf0) :
      0 < (UInt8.ofNat n).toNat ∧ (UInt8.ofNat n).toNat < 0xf0 := by
    rwa [toNat_ofNat (by omega)]
  unfold bytesOfUnit at hb
  split_ifs at hb with hone htwo <;>
    simp only [List.mem_cons, List.not_mem_nil, or_false] at hb
  · simp only [Bool.and_eq_true, decide_eq_true_eq] at hone
    exact hb ▸ hbyte (by omega)
  · rcases hb with rfl | rfl
    · exact hbyte (by omega)
    · exact hbyte (by omega)
  · rcases hb with rfl | rfl | rfl
    · exact hbyte (by omega)
    · exact hbyte (by omega)
    · exact hbyte (by omega)

theorem toNat_of_mem_encode {text : String} {b : UInt8} (hb : b ∈ encode text) :
    0 < b.toNat ∧ b.toNat < 0xf0 := by
  obtain ⟨u, hu, hb⟩ := List.mem_flatMap.mp hb
  obtain ⟨c, -, hc⟩ := List.mem_flatMap.mp hu
  exact toNat_of_mem_bytesOfUnit (units_lt c u hc) hb

/-- Every text is read back, and neither a zero byte nor one that the encoding has no use for is
written. -/
theorem encode_readsBack (text : String) :
    decode? (encode text) = some text ∧ ∀ b ∈ encode text, b ≠ 0 ∧ b < 0xf0 := by
  refine ⟨decode?_encode text, fun b hb => ?_⟩
  obtain ⟨hpos, hlt⟩ := toNat_of_mem_encode hb
  exact ⟨fun hzero => by simp [hzero] at hpos, UInt8.lt_iff_toNat_lt.mpr hlt⟩

/-- A NUL and the two halves of a surrogate pair. -/
theorem encode_readsBack_nul :
    decode? (encode "\x00😀") = some "\x00😀" ∧
      ∀ b ∈ ([0xc0, 0x80, 0xed, 0xa0, 0xbd, 0xed, 0xb8, 0x80] : List UInt8), b ≠ 0 ∧ b < 0xf0 := by
  have hbytes : encode "\x00😀" = [0xc0, 0x80, 0xed, 0xa0, 0xbd, 0xed, 0xb8, 0x80] := by decide
  exact ⟨(encode_readsBack _).1, hbytes ▸ (encode_readsBack _).2⟩

end Injection.ModifiedUtf8
