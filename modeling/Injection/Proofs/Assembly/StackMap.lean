import Injection.Proofs.Assembly.FrameChain
import Injection.Proofs.Assembly.Tables

/-!
The stack map is read back. Every frame is read as its entry, whichever of the short and long forms
its distance asks for, and the distances add up to the offsets of the frames again.
-/

namespace Injection

open Reader

namespace Bytecode

variable {pool : ConstantPool} {p delta : Nat} {rest bytes : List UInt8} {v : FrameValue}

/-! ### The forms of a frame -/

theorem toNat_ofNat_of_le {n : Nat} (h : n ≤ 0xffff) : (UInt16.ofNat n).toNat = n :=
  UInt16.toNat_ofNat_of_lt' (Nat.lt_of_le_of_lt h (by decide))

theorem reads_same (hdelta : delta ≤ 0xffff) :
    Reads (frameEntry pool) p
      (if delta < 64 then [UInt8.ofNat delta] else 251 :: Bytes.u2 delta) rest
      (delta, ⟨.same, [], []⟩) := by
  split
  · next hshort =>
      have hnat : (UInt8.ofNat delta).toNat = delta :=
        UInt8.toNat_ofNat_of_lt' (Nat.lt_trans hshort (by decide))
      refine (reads_u1 _).bind_last ?_
      dsimp only
      rw [hnat, if_pos (by omega)]
      exact .pure _
  · have hnat : (UInt16.ofNat delta).toNat = delta := toNat_ofNat_of_le hdelta
    refine reads_u1_bind ((reads_u2 delta).bind_last ?_)
    dsimp only
    rw [hnat]
    exact .pure _

theorem reads_same1 (hdelta : delta ≤ 0xffff)
    (hv : ∀ p rest, Reads (verification pool) p bytes rest v) :
    Reads (frameEntry pool) p
      ((if delta < 64 then [UInt8.ofNat (64 + delta)] else 247 :: Bytes.u2 delta) ++ bytes) rest
      (delta, ⟨.same1, [], [v]⟩) := by
  split
  · next hshort =>
      have hnat : (UInt8.ofNat (64 + delta)).toNat = 64 + delta :=
        UInt8.toNat_ofNat_of_lt' (Nat.lt_trans (Nat.add_lt_add_left hshort 64) (by decide))
      refine (reads_u1 _).bind ?_
      dsimp only
      rw [hnat, if_neg (by omega), if_pos (by omega), Nat.add_sub_cancel_left]
      exact (hv _ _).bind_last (.pure _)
  · have hnat : (UInt16.ofNat delta).toNat = delta := toNat_ofNat_of_le hdelta
    refine reads_u1_bind ((reads_u2 delta).bind ?_)
    dsimp only
    rw [hnat]
    exact (hv _ _).bind_last (.pure _)

theorem reads_chop {count : Nat} (hdelta : delta ≤ 0xffff) (hpos : 1 ≤ count) (hle : count ≤ 3) :
    Reads (frameEntry pool) p ((251 - UInt8.ofNat count) :: Bytes.u2 delta) rest
      (delta, ⟨.chop count, [], []⟩) := by
  have hnat : (UInt16.ofNat delta).toNat = delta := toNat_ofNat_of_le hdelta
  have htag : (251 - UInt8.ofNat count).toNat = 251 - count := by
    obtain rfl | rfl | rfl : count = 1 ∨ count = 2 ∨ count = 3 := by omega
    all_goals rfl
  refine reads_u1_bind ?_
  rw [htag, if_neg (by omega), if_neg (by omega), if_neg (by omega)]
  refine (reads_u2 delta).bind_last ?_
  rw [hnat, if_neg (by omega), if_pos (by omega), Nat.sub_sub_self (by omega)]
  exact .pure _

theorem reads_append {added : List FrameValue} {items : List (List UInt8)}
    (hdelta : delta ≤ 0xffff) (hpos : 1 ≤ added.length) (hle : added.length ≤ 3)
    (hitems : List.Forall₂ (fun item v => ∀ p rest, Reads (verification pool) p item rest v)
      items added) :
    Reads (frameEntry pool) p
      ((251 + UInt8.ofNat added.length) :: (Bytes.u2 delta ++ items.flatten)) rest
      (delta, ⟨.append added.length, added, []⟩) := by
  have hnat : (UInt16.ofNat delta).toNat = delta := toNat_ofNat_of_le hdelta
  have htag : (251 + UInt8.ofNat added.length).toNat = 251 + added.length := by
    obtain h | h | h : added.length = 1 ∨ added.length = 2 ∨ added.length = 3 := by omega
    all_goals rw [h]; rfl
  refine reads_u1_bind ?_
  rw [htag, if_neg (by omega), if_neg (by omega), if_neg (by omega)]
  refine (reads_u2 delta).bind ?_
  rw [hnat, if_neg (by omega), if_neg (by omega), if_neg (by omega), if_pos (by omega),
    Nat.add_sub_cancel_left]
  exact (Reads.times hitems).bind_last (.pure _)

theorem reads_full {locals stack : List FrameValue} {localItems stackItems : List (List UInt8)}
    (hdelta : delta ≤ 0xffff) (hlocals : locals.length < 2 ^ 16) (hstack : stack.length < 2 ^ 16)
    (hlocalItems : List.Forall₂
      (fun item v => ∀ p rest, Reads (verification pool) p item rest v) localItems locals)
    (hstackItems : List.Forall₂
      (fun item v => ∀ p rest, Reads (verification pool) p item rest v) stackItems stack) :
    Reads (frameEntry pool) p
      (255 :: (Bytes.u2 delta ++ (Bytes.u2 locals.length ++ localItems.flatten ++
        (Bytes.u2 stack.length ++ stackItems.flatten)))) rest
      (delta, ⟨.full, locals, stack⟩) := by
  have hnat : (UInt16.ofNat delta).toNat = delta := toNat_ofNat_of_le hdelta
  refine reads_u1_bind ((reads_u2 delta).bind ?_)
  dsimp only
  rw [hnat, ← hlocalItems.length_eq, ← hstackItems.length_eq]
  refine (Reads.counted (hlocalItems.length_eq ▸ hlocals) hlocalItems).bind ?_
  exact (Reads.counted (hstackItems.length_eq ▸ hstack) hstackItems).bind_last (.pure _)

end Bytecode

namespace StackMap

open Instruction (offsetLabel)
open Assembler

variable {u : PoolTable} {pool : ConstantPool} {labelOffset : Label → Except AssembleError Nat}
  {delta : Nat} {v : FrameValue} {f : Frame}

def InReach (labelOffset : Label → Except AssembleError Nat) : Prop :=
  ∀ l n, labelOffset l = .ok n → n ≤ 0xffff

/-- The bytes are those of a value whose label, if it has one, is placed. -/
structure IsValue (pool : ConstantPool) (labelOffset : Label → Except AssembleError Nat)
    (v : FrameValue) (bytes : List UInt8) : Prop where
  placed : ∀ l, v = .uninitialized l → ∃ n, labelOffset l = .ok n
  reads : InReach labelOffset → ∀ p rest,
    Reads (Bytecode.verification pool) p bytes rest (v.relabel (offsetLabel labelOffset))

theorem enters_verification (hv : ∀ name, v = .object name → ModifiedUtf8.Fits name) :
    Enters u (verification labelOffset v) (IsValue u.pool labelOffset v) := by
  cases v with
  | object name =>
      refine (enters_classRef (hv name rfl)).bind fun index => .pure fun hindex => ⟨nofun, ?_⟩
      intro _ p rest
      exact reads_u1_bind ((reads_index index).bind_last (.bind_nil (.ofExcept hindex) (.pure _)))
  | uninitialized l =>
      refine (Enters.ofExcept (labelOffset l)).bind fun n => .pure fun hn => ⟨?_, ?_⟩
      · rintro _ ⟨⟩
        exact ⟨n, hn⟩
      · intro hreach p rest
        have hnat : (UInt16.ofNat n).toNat = n :=
          Bytecode.toNat_ofNat_of_le (hreach l n hn)
        refine reads_u1_bind ((reads_u2 n).bind_last ?_)
        rw [hnat, FrameValue.relabel, Instruction.offsetLabel_eq hn]
        exact .pure _
  | _ => exact .pure ⟨nofun, fun _ p rest => (reads_u1 _).bind_last (.pure _)⟩

theorem enters_verifications {values : List FrameValue}
    (hvalues : ∀ name, .object name ∈ values → ModifiedUtf8.Fits name) :
    Enters u (verifications labelOffset values) fun bytes => ∃ items, bytes = items.flatten ∧
      List.Forall₂ (IsValue u.pool labelOffset) values items :=
  (Enters.mapM fun _ hv => enters_verification fun name h => hvalues name (h ▸ hv)).bind
    fun items => .pure fun hitems => ⟨items, rfl, hitems⟩

theorem placed_of_forall₂ {values : List FrameValue} {items : List (List UInt8)}
    (h : List.Forall₂ (IsValue pool labelOffset) values items) (l : Label)
    (hl : .uninitialized l ∈ values) : ∃ n, labelOffset l = .ok n := by
  obtain ⟨item, -, hitem⟩ := (forall₂_exists h).1 _ hl
  exact hitem.placed l rfl

theorem reads_of_forall₂ {values : List FrameValue} {items : List (List UInt8)}
    (h : List.Forall₂ (IsValue pool labelOffset) values items) (hreach : InReach labelOffset) :
    List.Forall₂ (fun item v => ∀ p rest, Reads (Bytecode.verification pool) p item rest v) items
      (values.map (·.relabel (offsetLabel labelOffset))) := by
  rw [List.forall₂_map_right_iff]
  exact h.flip.imp fun item v hv => hv.reads hreach

structure IsFrame (pool : ConstantPool) (labelOffset : Label → Except AssembleError Nat)
    (delta : Nat) (f : Frame) (bytes : List UInt8) : Prop where
  placed : ∀ l, .uninitialized l ∈ f.entry.values → ∃ n, labelOffset l = .ok n
  reads : InReach labelOffset → delta ≤ 0xffff → ∀ p rest,
    Reads (Bytecode.frameEntry pool) p bytes rest
      (delta, f.entry.relabel (offsetLabel labelOffset))

theorem frame_append (current added : List FrameValue) :
    frame labelOffset delta (.ofValues (.append added.length) (current ++ added) []) =
      verifications labelOffset added >>= fun bytes =>
        pure ((251 + UInt8.ofNat added.length) :: (Bytes.u2 delta ++ bytes)) := by
  simp only [frame, Frame.ofValues, Frame.compress_expand, List.length_append, Nat.add_sub_cancel,
    List.drop_left, List.cons_append]

theorem frame_full (locals stack : List FrameValue) :
    frame labelOffset delta (.ofValues .full locals stack) =
      verifications labelOffset locals >>= fun localBytes =>
        verifications labelOffset stack >>= fun stackBytes =>
          pure (255 :: (Bytes.u2 delta ++ (Bytes.u2 locals.length ++ localBytes ++
            (Bytes.u2 stack.length ++ stackBytes)))) := by
  simp only [frame, Frame.ofValues, Frame.compress_expand, List.append_assoc, List.cons_append]

/-- A frame that follows on the one before it is written so that it is read as its entry. -/
theorem enters_frame {current next : List FrameValue} (hf : Frame.Follows current f next)
    (hfits : (Instruction.frame f).Fits) :
    Enters u (frame labelOffset delta f) (IsFrame u.pool labelOffset delta f) := by
  have hnames : ∀ name, .object name ∈ f.entry.values → ModifiedUtf8.Fits name :=
    fun name h => hfits name (hf.mem_of_mem_entry h)
  -- One case for each form of a frame; what is left is to read back the bytes of this form.
  cases hf with
  | same =>
      exact .pure ⟨fun _ hl => absurd hl List.not_mem_nil,
        fun _ hdelta p rest => Bytecode.reads_same hdelta⟩
  | same1 v =>
      refine (enters_verification fun name h => hnames name (h ▸ .head _)).bind fun bytes =>
        .pure fun hv => ⟨fun l hl => hv.placed l (List.mem_singleton.mp hl).symm, ?_⟩
      exact fun hreach hdelta p rest => Bytecode.reads_same1 hdelta (hv.reads hreach)
  | append added hpos hle =>
      rw [Frame.entry_append, Bytecode.FrameEntry.values, List.append_nil] at hnames
      rw [frame_append]
      refine (enters_verifications hnames).bind fun bytes => .pure ?_
      rintro ⟨items, rfl, hitems⟩
      have hlen : (added.map (·.relabel (offsetLabel labelOffset))).length = added.length :=
        List.length_map _
      refine ⟨fun l hl => ?_, fun hreach hdelta p rest => ?_⟩
      · rw [Frame.entry_append, Bytecode.FrameEntry.values, List.append_nil] at hl
        exact placed_of_forall₂ hitems l hl
      · rw [Frame.entry_append, Bytecode.FrameEntry.relabel, ← hlen]
        exact Bytecode.reads_append hdelta (hlen ▸ hpos) (hlen ▸ hle)
          (reads_of_forall₂ hitems hreach)
  | chop count hpos hle =>
      exact .pure ⟨fun _ hl => absurd hl List.not_mem_nil,
        fun _ hdelta p rest => Bytecode.reads_chop hdelta hpos hle⟩
  | full locals stack hlocals hstack =>
      rw [Frame.entry_full, Bytecode.FrameEntry.values] at hnames
      rw [frame_full]
      refine (enters_verifications fun name h => hnames name (List.mem_append_left _ h)).bind
        fun localBytes => ?_
      refine (enters_verifications fun name h => hnames name (List.mem_append_right _ h)).bind
        fun stackBytes => .pure ?_
      rintro ⟨stackItems, rfl, hstackItems⟩ ⟨localItems, rfl, hlocalItems⟩
      refine ⟨fun l hl => ?_, fun hreach hdelta p rest => ?_⟩
      · rw [Frame.entry_full, Bytecode.FrameEntry.values] at hl
        rcases List.mem_append.mp hl with hl | hl
        · exact placed_of_forall₂ hlocalItems l hl
        · exact placed_of_forall₂ hstackItems l hl
      · have hread : Reads (Bytecode.frameEntry u.pool) p _ rest _ :=
          Bytecode.reads_full hdelta (by rwa [List.length_map]) (by rwa [List.length_map])
            (reads_of_forall₂ hlocalItems hreach) (reads_of_forall₂ hstackItems hreach)
        rw [Frame.entry_full]
        simpa only [Bytecode.FrameEntry.relabel, List.length_map, List.append_assoc] using hread

/-! ### All frames -/

def Rising : (previous : Option Nat) → List (Nat × Frame) → Prop
  | _, [] => True
  | previous, m :: marks => (∀ q ∈ previous, q < m.1) ∧ m.1 ≤ 0xffff ∧ Rising (some m.1) marks

theorem rising_of_pairwise {previous : Option Nat} {marks : List (Nat × Frame)}
    (hprevious : ∀ q ∈ previous, ∀ m ∈ marks, q < m.1) (hmarks : marks.Pairwise (·.1 < ·.1))
    (hle : ∀ m ∈ marks, m.1 ≤ 0xffff) : Rising previous marks := by
  induction marks generalizing previous with
  | nil => trivial
  | cons m marks ih =>
      obtain ⟨hfirst, hmarks⟩ := List.pairwise_cons.mp hmarks
      refine ⟨fun q hq => hprevious q hq m (.head _), hle m (.head _), ih ?_ hmarks ?_⟩
      · rintro _ ⟨⟩
        exact hfirst
      · exact fun m' hm' => hle m' (.tail _ hm')

structure IsMap (pool : ConstantPool) (labelOffset : Label → Except AssembleError Nat)
    (previous : Option Nat) (marks : List (Nat × Frame)) (items : List (List UInt8)) : Prop where
  length : items.length = marks.length
  placed : ∀ m ∈ marks, ∀ l, .uninitialized l ∈ m.2.entry.values → ∃ n, labelOffset l = .ok n
  reads : InReach labelOffset → Rising previous marks → ∀ p rest,
    Reads (Bytecode.frameEntries pool items.length previous) p items.flatten rest
      (marks.map fun (o, f) => (o, f.entry.relabel (offsetLabel labelOffset)))

/-- The distance of a frame from the one before it. The offset after that may have wrapped. -/
def distance : (previous : Option Nat) → (offset : Nat) → Nat
  | none, o => o
  | some q, o => o - (q + 1) % 2 ^ 32

theorem IsMap.cons {previous : Option Nat} {o : Nat} {marks : List (Nat × Frame)}
    {bytes : List UInt8} {items : List (List UInt8)}
    (hf : IsFrame pool labelOffset (distance previous o) f bytes)
    (hmarks : IsMap pool labelOffset (some o) marks items) :
    IsMap pool labelOffset previous ((o, f) :: marks) (bytes :: items) where
  length := congrArg (· + 1) hmarks.length
  placed m hm := by
    rcases List.mem_cons.mp hm with rfl | hm
    · exact hf.placed
    · exact hmarks.placed m hm
  reads := by
    rintro hreach ⟨hprevious, ho, hrising⟩ p rest
    have hdelta : distance previous o ≤ 0xffff := by
      cases previous with
      | none => exact ho
      | some q => exact Nat.le_trans (Nat.sub_le ..) ho
    rw [List.flatten_cons]
    refine (hf.reads hreach hdelta p _).bind ?_
    cases previous with
    | none => exact .bind_nil (.pure o) ((hmarks.reads hreach hrising _ rest).bind_last (.pure _))
    | some q =>
        have hlt := hprevious q rfl
        have hsum : Checked.word (q + distance (some q) o + 1) = .ok o := by
          rw [Checked.word, distance, Nat.mod_eq_of_lt (by omega), if_pos (by omega)]
          congr 1
          omega
        refine .bind_nil (.ofExcept hsum) ?_
        exact (hmarks.reads hreach hrising _ rest).bind_last (.pure _)

end StackMap

def PlacedNode.frameMarks (ps : List PlacedNode) : List (Nat × Frame) :=
  ps.filterMap fun p => p.node.frame?.map (p.offset.toNat, ·)

namespace StackMap

open Assembler PlacedNode

variable {u : PoolTable} {labelOffset : Label → Except AssembleError Nat}

theorem frames_cons (previous : Option UInt32) (f : Frame) (index : UInt16) (o : UInt32)
    (placed : List PlacedNode) :
    frames labelOffset previous (⟨.frame f, index, o⟩ :: placed) =
      frame labelOffset (distance (previous.map (·.toNat)) o.toNat) f >>= fun bytes =>
        frames labelOffset (some o) placed >>= fun items => pure (bytes :: items) := by
  cases previous with
  | none => rfl
  | some q =>
      rw [Option.map_some, distance, ← UInt32.toNat_one, ← UInt32.toNat_add]
      rfl

/-- All frames are written one after the other, if each of them follows on some locals. -/
theorem enters_frames {placed : List PlacedNode} (previous : Option UInt32)
    (hframes : ∀ m ∈ frameMarks placed, (Instruction.frame m.2).Fits ∧
      ∃ current next, Frame.Follows current m.2 next) :
    Enters u (frames labelOffset previous placed)
      (IsMap u.pool labelOffset (previous.map (·.toNat)) (frameMarks placed)) := by
  induction placed generalizing previous with
  | nil => exact .pure ⟨rfl, nofun, fun _ _ p rest => .pure []⟩
  | cons q placed ih =>
      obtain ⟨node, index, o⟩ := q
      cases node with
      | frame f =>
          obtain ⟨hfits, current, next, hf⟩ := hframes (o.toNat, f) (.head _)
          have hrest := ih (some o) fun m hm => hframes m (.tail _ hm)
          rw [frames_cons]
          refine (enters_frame hf hfits).bind fun bytes => hrest.bind fun items => .pure ?_
          exact fun hitems hbytes => IsMap.cons hbytes hitems
      | _ => exact ih previous hframes

end StackMap

end Injection
