import Injection.ClassFile.Code
import Injection.Proofs.ClassFile.Reading

/-!
Reading somewhere in a sequence of bytes. What a reader that succeeds has read are the numbers at
the position where it stood, and it stops at a later position of the same bytes. So the
instructions of a code array stand one right after the other, and where they branch to can be told
from the bytes.
-/

namespace Injection

def Cursor.at (code : List UInt8) (p : Nat) : Cursor := ⟨p, code.drop p⟩

namespace Reader

variable {α β : Type} {code : List UInt8} {p n : Nat} {c : Cursor} {r : Reader α}
  {f : α → Reader β} {P Q : α → Nat → Prop} {R : β → Nat → Prop}

def Gives (r : Reader α) (c : Cursor) (P : α → Prop) : Prop := ∀ a c', r c = .ok (a, c') → P a

namespace Gives

variable {P : α → Prop} {R : β → Prop}

theorem pure {a : α} (h : P a) : Gives (pure a) c P := by
  intro a' c' hr
  cases hr
  exact h

theorem throw (e : ClassFileError) : Gives (throw e : Reader α) c P := by
  intro a c' hr
  cases hr

theorem ofExcept {x : Except ClassFileError α} (h : ∀ a, x = .ok a → P a) :
    Gives (Reader.ofExcept x) c P := by
  intro a c' hr
  cases x with
  | error e => cases hr
  | ok a' =>
      cases hr
      exact h a rfl

theorem bind (h : ∀ c', Gives r c fun a => Gives (f a) c' R) : Gives (r >>= f) c R := by
  intro b c' hr
  rw [bind_eq] at hr
  obtain ⟨⟨a, middle⟩, ha, hb⟩ := bind_eq_ok.mp hr
  exact h middle a middle ha b c' hb

/-- A part whose result does not matter. -/
theorem skip (h : ∀ a c', Gives (f a) c' R) : Gives (r >>= f) c R :=
  bind fun c' a _ _ => h a c'

theorem within {info : List UInt8} (h : Gives r (.ofBytes info) P) :
    Gives (Reader.within info r) c P := by
  intro a c' hr
  rw [Reader.within] at hr
  split at hr
  · next a' c'' ha =>
      cases hr
      exact h a c'' ha
  · cases hr

end Gives

def numberAt (code : List UInt8) (width p : Nat) : Nat := bigEndian ((code.drop p).take width)

def shortAt (code : List UInt8) (p : Nat) : Int := (UInt16.ofNat (numberAt code 2 p)).toInt16.toInt

def intAt (code : List UInt8) (p : Nat) : Int := (UInt32.ofNat (numberAt code 4 p)).toInt32.toInt

/-- If the reader succeeds at a position, it stops at a later one, and its result and the position
where it stops satisfy `P`. -/
def Scans (code : List UInt8) (r : Reader α) (p : Nat) (P : α → Nat → Prop) : Prop :=
  p ≤ code.length → ∀ a c, r (.at code p) = .ok (a, c) →
    ∃ stop, c = .at code stop ∧ p ≤ stop ∧ stop ≤ code.length ∧ P a stop

namespace Scans

theorem imp (h : Scans code r p P) (hPQ : ∀ a stop, p ≤ stop → P a stop → Q a stop) :
    Scans code r p Q := by
  intro hp a c hr
  obtain ⟨stop, hc, hle, hstop, ha⟩ := h hp a c hr
  exact ⟨stop, hc, hle, hstop, hPQ a stop hle ha⟩

theorem pure {a : α} (h : P a p) : Scans code (pure a) p P := by
  intro hp a' c hr
  cases hr
  exact ⟨p, rfl, Nat.le_refl p, hp, h⟩

theorem throw (e : ClassFileError) : Scans code (throw e : Reader α) p P := by
  intro _ a c hr
  cases hr

theorem bind (h : Scans code r p fun a stop => Scans code (f a) stop R) :
    Scans code (r >>= f) p R := by
  intro hp b c hr
  rw [bind_eq] at hr
  obtain ⟨⟨a, c'⟩, ha, hb⟩ := bind_eq_ok.mp hr
  obtain ⟨middle, rfl, hle, hmiddle, hf⟩ := h hp a c' ha
  obtain ⟨stop, hc, hle', hstop, hR⟩ := hf hmiddle b c hb
  exact ⟨stop, hc, Nat.le_trans hle hle', hstop, hR⟩

theorem ofExcept {x : Except ClassFileError α} (h : ∀ a, x = .ok a → P a p) :
    Scans code (Reader.ofExcept x) p P := by
  intro hp a c hr
  cases x with
  | error e => cases hr
  | ok a' =>
      cases hr
      exact ⟨p, rfl, Nat.le_refl p, hp, h a rfl⟩

/-- Looking at the cursor. -/
theorem get_bind {g : Cursor → Reader β} (h : Scans code (g (.at code p)) p R) :
    Scans code (get >>= g) p R := by
  intro hp b c hr
  exact h hp b c hr

/-- Where a reader stops matters for what comes after it. -/
theorem gives_bind {R : β → Prop} (hp : p ≤ code.length)
    (h : Scans code r p fun a stop => stop ≤ code.length → Gives (f a) (.at code stop) R) :
    Gives (r >>= f) (.at code p) R := by
  intro b c hr
  rw [bind_eq] at hr
  obtain ⟨⟨a, c'⟩, ha, hb⟩ := bind_eq_ok.mp hr
  obtain ⟨middle, rfl, -, hle, hf⟩ := h hp a c' ha
  exact hf hle b c hb

theorem bytes {P : List UInt8 → Nat → Prop}
    (h : p + n ≤ code.length → P ((code.drop p).take n) (p + n)) :
    Scans code (Reader.bytes n) p P := by
  intro hp a c hr
  rw [Reader.bytes] at hr
  split at hr
  · next front rest hsplit =>
      cases hr
      have hsplit : splitExactly n (code.drop p) = some (a, rest) := hsplit
      obtain ⟨hfront, happend⟩ := splitExactly_eq_some_iff.mp hsplit
      have hlen := congrArg List.length happend
      rw [List.length_drop, List.length_append] at hlen
      have hrest : rest = code.drop (p + n) := by
        rw [← List.drop_drop, happend, ← hfront, List.drop_left]
      have htake : (code.drop p).take n = a := by
        rw [happend, ← hfront, List.take_left]
      have hle : p + n ≤ code.length := by omega
      refine ⟨p + n, ?_, Nat.le_add_right p n, hle, htake ▸ h hle⟩
      rw [hrest]
      rfl
  · cases hr

theorem u1 {P : UInt8 → Nat → Prop} (h : P (UInt8.ofNat (numberAt code 1 p)) (p + 1)) :
    Scans code Reader.u1 p P :=
  .bind (.bytes fun _ => .pure h)

theorem u2 {P : UInt16 → Nat → Prop} (h : P (UInt16.ofNat (numberAt code 2 p)) (p + 2)) :
    Scans code Reader.u2 p P :=
  .bind (.bytes fun _ => .pure h)

theorem u4 {P : UInt32 → Nat → Prop} (h : P (UInt32.ofNat (numberAt code 4 p)) (p + 4)) :
    Scans code Reader.u4 p P :=
  .bind (.bytes fun _ => .pure h)

theorem i1 {P : Int8 → Nat → Prop} (h : ∀ i, P i (p + 1)) : Scans code Reader.i1 p P :=
  .bind (.u1 (.pure (h _)))

theorem i2 {P : Int16 → Nat → Prop} (h : ∀ i : Int16, i.toInt = shortAt code p → P i (p + 2)) :
    Scans code Reader.i2 p P :=
  .bind (.u2 (.pure (h _ rfl)))

theorem i4 {P : Int32 → Nat → Prop} (h : ∀ i : Int32, i.toInt = intAt code p → P i (p + 4)) :
    Scans code Reader.i4 p P :=
  .bind (.u4 (.pure (h _ rfl)))

/-- Items of one width, of which something is known by their positions. -/
theorem times (view : α → β) (known : Nat → β) (width : Nat)
    (h : ∀ p, Scans code r p fun a stop => view a = known p ∧ stop = p + width) (n p : Nat) :
    Scans code (r.times n) p fun as _ =>
      as.map view = (List.range n).map fun k => known (p + width * k) := by
  induction n generalizing p with
  | zero => exact .pure rfl
  | succ n ih =>
      refine .bind ((h p).imp fun a stop _ ha => .bind ((ih stop).imp fun as _ _ has => .pure ?_))
      obtain ⟨hview, rfl⟩ := ha
      rw [List.map_cons, hview, has, List.range_succ_eq_map, List.map_cons, List.map_map]
      refine congrArg (known p :: ·) (List.map_congr_left fun k _ => congrArg known ?_)
      rw [Nat.mul_succ, Nat.add_assoc, Nat.add_comm width]

end Scans

end Reader

namespace Bytecode

open Reader

variable {pool : ConstantPool} {code : List UInt8} {o p : Nat}

/-- The offsets to which the instruction encoded at an offset may branch. The operands of a switch
start at the next multiple of four. -/
def encodedTargets (code : List UInt8) (o : Nat) : List Int :=
  let operands := (o / 4 + 1) * 4
  match Opcode.operandForm (UInt8.ofNat (numberAt code 1 o)) with
  | .branch => [o + shortAt code (o + 1)]
  | .wideBranch _ => [o + intAt code (o + 1)]
  | .tableSwitch =>
    let count := (intAt code (operands + 8) - intAt code (operands + 4) + 1).toNat
    (o + intAt code operands) ::
      (List.range count).map fun k => o + intAt code (operands + 12 + 4 * k)
  | .lookupSwitch =>
    let count := (intAt code (operands + 4)).toNat
    (o + intAt code operands) ::
      (List.range count).map fun k => o + intAt code (operands + 12 + 8 * k)
  | _ => []

theorem signedLong_eq_ok {i j : Int} (h : Checked.signedLong i = .ok j) : j = i := by
  rw [Checked.signedLong] at h
  split at h
  · exact (Except.ok.inj h).symm
  · cases h

/-- A branch goes by its distance from the instruction. -/
theorem scans_branch {len : Nat} {distance : Int32} :
    Scans code (branch len o distance) p fun l stop =>
      (l.id : Int) = o + distance.toInt ∧ stop = p := by
  refine .bind (.ofExcept fun target htarget => ?_)
  split
  · exact .throw _
  · next hwithin =>
      rw [Bool.or_eq_true, decide_eq_true_eq, not_or] at hwithin
      refine .pure ⟨?_, rfl⟩
      have hnonneg := Int.toNat_of_nonneg (Int.not_lt.mp hwithin.1)
      rw [← signedLong_eq_ok htarget]
      exact hnonneg

theorem scans_near {len : Nat} :
    Scans code (do branch len o (← i2).toInt32) p fun l stop =>
      (l.id : Int) = o + shortAt code p ∧ stop = p + 2 := by
  refine .bind (.i2 fun i hi => scans_branch.imp fun l stop _ hl => ?_)
  rwa [Int16.toInt_toInt32, hi] at hl

theorem scans_far {len : Nat} :
    Scans code (do branch len o (← i4)) p fun l stop =>
      (l.id : Int) = o + intAt code p ∧ stop = p + 4 := by
  refine .bind (.i4 fun i hi => scans_branch.imp fun l stop _ hl => ?_)
  rwa [hi] at hl

/-- A key and the branch for it. -/
theorem scans_pair {len : Nat} :
    Scans code (i4 >>= fun key => (i4 >>= branch len o) >>= fun l => pure (key, l)) p
      fun pair stop => (pair.2.id : Int) = o + intAt code (p + 4) ∧ stop = p + 8 :=
  .bind (.i4 fun _ _ => .bind (scans_far.imp fun _ _ _ hl => .pure hl))

theorem scans_skipPadding : Scans code skipPadding p fun _ stop => stop = (p + 3) / 4 * 4 := by
  refine .get_bind (.bind (.bytes fun _ => .pure ?_))
  change p + (4 - p % 4) % 4 = (p + 3) / 4 * 4
  omega

/-- A switch begins, behind the padding, with the branch for all other keys. -/
theorem scans_switch {len : Nat} {rest : Label → Reader Instruction}
    {P : Instruction → Nat → Prop}
    (hrest : ∀ default : Label, (default.id : Int) = o + intAt code ((o / 4 + 1) * 4) →
      Scans code (rest default) ((o / 4 + 1) * 4 + 4) P) :
    Scans code (skipPadding >>= fun _ => (i4 >>= branch len o) >>= rest) (o + 1) P := by
  refine .bind (scans_skipPadding.imp fun _ p _ hp => ?_)
  have hoperands : p = (o / 4 + 1) * 4 := by omega
  subst hoperands
  refine .bind (scans_far.imp fun default stop _ hdefault => ?_)
  obtain ⟨hdefault, rfl⟩ := hdefault
  exact hrest default hdefault

/-- An instruction takes at least one byte, is no mark, and branches to the encoded offsets. -/
theorem scans_instruction {len : Nat} :
    Scans code (instruction pool len) o fun i stop =>
      o < stop ∧ i.isReal = true ∧ i.targets.map (fun l => (l.id : Int)) = encodedTargets code o := by
  refine .get_bind (.bind (.u1 ?_))
  refine Scans.imp (P := fun i _ => i.isReal = true ∧
    i.targets.map (fun l => (l.id : Int)) = encodedTargets code o) ?_ fun i stop hlt h => ⟨hlt, h⟩
  dsimp only
  rw [encodedTargets]
  cases hform : Opcode.operandForm (UInt8.ofNat (numberAt code 1 o)) with
  | plain => exact .pure ⟨rfl, rfl⟩
  | byte => exact .bind (.i1 fun i => .pure ⟨rfl, rfl⟩)
  | short => exact .bind (.i2 fun i _ => .pure ⟨rfl, rfl⟩)
  | element => exact .bind (.u1 (.pure ⟨rfl, rfl⟩))
  | constant => exact .bind (.u1 (.bind (.ofExcept fun c _ => .pure ⟨rfl, rfl⟩)))
  | wideConstant => exact .bind (.u2 (.bind (.ofExcept fun c _ => .pure ⟨rfl, rfl⟩)))
  | slot => exact .bind (.u1 (.pure ⟨rfl, rfl⟩))
  | impliedSlot first base =>
      refine .ofExcept fun i hi => ?_
      obtain ⟨index, -, hi⟩ := bind_eq_ok.mp hi
      obtain ⟨op, -, hi⟩ := bind_eq_ok.mp hi
      cases hi
      exact ⟨rfl, rfl⟩
  | increment => exact .bind (.u1 (.bind (.i1 fun i => .pure ⟨rfl, rfl⟩)))
  | branch => exact .bind (scans_near.imp fun l _ _ hl => .pure ⟨rfl, congrArg (· :: []) hl.1⟩)
  | wideBranch base =>
      exact .bind (scans_far.imp fun l _ _ hl => .pure ⟨rfl, congrArg (· :: []) hl.1⟩)
  | tableSwitch =>
      refine scans_switch fun default hdefault =>
        .bind (.i4 fun lo hlo => .bind (.i4 fun hi hhi => ?_))
      split
      · exact .throw _
      · refine .bind (.ofExcept fun count hcount => .bind ?_)
        have hfar (p : Nat) : Scans code (i4 >>= branch len o) p fun l stop =>
            (l.id : Int) = o + intAt code p ∧ stop = p + 4 := scans_far
        have htargets := Scans.times (fun l : Label => (l.id : Int)) _ 4 hfar count.toNat
          ((o / 4 + 1) * 4 + 12)
        refine htargets.imp fun targets _ _ htargets => .pure ⟨rfl, ?_⟩
        rw [signedLong_eq_ok hcount, hlo, hhi] at htargets
        exact congrArg₂ (· :: ·) hdefault htargets
  | lookupSwitch =>
      refine scans_switch fun default hdefault => .bind (.i4 fun count hcount => ?_)
      split
      · exact .throw _
      · have hpair (p : Nat) : Scans code
            (i4 >>= fun key => (i4 >>= branch len o) >>= fun l => pure (key, l)) p
            fun pair stop => (pair.2.id : Int) = o + intAt code (p + 4) ∧ stop = p + 8 := scans_pair
        have hpairs := Scans.times (fun pair : Int32 × Label => (pair.2.id : Int)) _ 8 hpair
          count.toInt.toNat ((o / 4 + 1) * 4 + 8)
        refine .bind (hpairs.imp fun pairs _ _ htargets => .pure ⟨rfl, ?_⟩)
        rw [hcount] at htargets
        refine congrArg₂ (· :: ·) hdefault ?_
        rw [List.map_map]
        refine htargets.trans (List.map_congr_left fun k _ => ?_)
        -- The label of a pair stands after its key.
        rw [Nat.add_right_comm]
  | field => exact .bind (.u2 (.bind (.ofExcept fun m _ => .pure ⟨rfl, rfl⟩)))
  | invoke =>
      refine .bind (.u2 (.bind (.ofExcept fun m _ => ?_)))
      split
      · exact .bind (.bytes fun _ => .pure ⟨rfl, rfl⟩)
      · exact .pure ⟨rfl, rfl⟩
  | invokeDynamic =>
      exact .bind (.u2 (.bind (.ofExcept fun d _ => .bind (.u2 (.pure ⟨rfl, rfl⟩)))))
  | type => exact .bind (.u2 (.bind (.ofExcept fun desc _ => .pure ⟨rfl, rfl⟩)))
  | multiArray => exact .bind (.u2 (.bind (.ofExcept fun desc _ => .bind (.u1 (.pure ⟨rfl, rfl⟩)))))
  | wide =>
      refine .bind (.u1 (.bind (.u2 ?_)))
      split
      · exact .bind (.i2 fun i _ => .pure ⟨rfl, rfl⟩)
      · exact .pure ⟨rfl, rfl⟩
      · exact .throw _
  | undefined => exact .throw _

/-- The instructions of the code from an offset on, one right after the other up to the end. -/
inductive Decodes (pool : ConstantPool) (code : List UInt8) : Nat → List (Nat × Instruction) → Prop
  | stop : Decodes pool code code.length []
  | next {o stop : Nat} {i : Instruction} {decoded : List (Nat × Instruction)}
    (hread : instruction pool code.length (.at code o) = .ok (i, .at code stop))
    (hlt : o < stop) (hle : stop ≤ code.length) (hrest : Decodes pool code stop decoded) :
    Decodes pool code o ((o, i) :: decoded)

/-- As every instruction takes a byte, the bound on their number is never met. -/
theorem decodes_sequence {bound : Nat} {decoded : List (Nat × Instruction)} {c : Cursor}
    (hp : p ≤ code.length) (hbound : code.length ≤ p + bound)
    (h : sequence pool code.length bound (.at code p) = .ok (decoded, c)) :
    Decodes pool code p decoded := by
  induction bound generalizing p decoded c with
  | zero =>
      cases h
      rw [Nat.le_antisymm hp hbound]
      exact .stop
  | succ bound ih =>
      change (if (code.drop p).isEmpty then (pure [] : Reader (List (Nat × Instruction))) else
        instruction pool code.length >>= fun i => sequence pool code.length bound >>= fun rest =>
          pure ((p, i) :: rest)) (.at code p) = _ at h
      split at h
      · next hend =>
          cases h
          rw [List.isEmpty_iff, List.drop_eq_nil_iff] at hend
          rw [Nat.le_antisymm hp hend]
          exact .stop
      · rw [bind_eq] at h
        obtain ⟨⟨i, c'⟩, hread, h⟩ := bind_eq_ok.mp h
        obtain ⟨stop, rfl, -, hle, hlt, -, -⟩ := scans_instruction hp i c' hread
        obtain ⟨⟨rest, c'⟩, hrest, h⟩ := bind_eq_ok.mp h
        cases h
        exact .next hread hlt hle (ih hle (by omega) hrest)

theorem Decodes.le_of_mem {decoded : List (Nat × Instruction)} (h : Decodes pool code o decoded) :
    ∀ b ∈ decoded.map (·.1) ++ [code.length], o ≤ b := by
  induction h with
  | stop => simp
  | next hread hlt hle _ ih =>
      intro b hb
      rcases List.mem_cons.mp hb with rfl | hb
      · exact Nat.le_refl _
      · exact Nat.le_trans (Nat.le_of_lt hlt) (ih b hb)

/-- The offsets rise strictly up to the end of the code. -/
theorem Decodes.pairwise {decoded : List (Nat × Instruction)} (h : Decodes pool code o decoded) :
    (decoded.map (·.1) ++ [code.length]).Pairwise (· < ·) := by
  induction h with
  | stop => exact List.pairwise_singleton ..
  | next hread hlt hle hrest ih =>
      refine List.pairwise_cons.mpr ⟨fun b hb => ?_, ih⟩
      exact Nat.lt_of_lt_of_le hlt (hrest.le_of_mem b hb)

theorem Decodes.of_mem {decoded : List (Nat × Instruction)} (h : Decodes pool code o decoded)
    {d : Nat × Instruction} (hd : d ∈ decoded) :
    d.2.isReal = true ∧ d.2.targets.map (fun l => (l.id : Int)) = encodedTargets code d.1 := by
  induction h with
  | stop => cases hd
  | next hread hlt hle _ ih =>
      rcases List.mem_cons.mp hd with rfl | hd
      · obtain ⟨-, -, -, -, -, hi⟩ := scans_instruction (by omega) _ _ hread
        exact hi
      · exact ih hd

end Bytecode

end Injection
