import Injection.Locals.Simulation
import Injection.Proofs.Locals.Sharing
import Mathlib.Data.List.Range
import Mathlib.Tactic.Common

/-!
Removed variables and their return.

`SlotChange` lists what passing one node may do to what a slot holds, and `step_change` shows that
a step does nothing else. Over a whole run a zombie therefore counts truly: its lifetime and its
frames are the nodes and frames passed since the frame that removed it. A variable that returns is
within the limits of its cause, except where a frame names a trimmed slot unset: there it returns
however long ago it was removed.
-/

namespace Injection

/-! ### What a node does to a slot -/

def Instruction.NamesUnset (i : Instruction) (slot : Nat) : Prop :=
  ∃ f, i = .frame f ∧ f.locals[slot]? = some .top

/-- What passing the node `i` at `position` may do to a slot: from what it held, aged, to what it
holds then. -/
inductive SlotChange (c : LocalsContext) (position : Nat) (i : Instruction) (slot : Nat) :
    (old new : Slot) → Prop where
  | kept (s : Slot) : SlotChange c position i slot s s
  | found {s : Slot} {v : LocalVariable} (known : c.variableAt position (.ofNat slot) = some v) :
    SlotChange c position i slot s (.live v)
  | lost (s : Slot) : SlotChange c position i slot s .unknown
  /-- A frame removes the variable that the slot held or that a store has just put there. -/
  | removed {s : Slot} {v : LocalVariable} {cause : ZombieCause} (frame : i.isFrame = true)
    (held : s = .live v ∨ c.variableAt position (.ofNat slot) = some v) :
    SlotChange c position i slot s (.zombie ⟨v, cause, 0, 0⟩)
  | returned {z : Zombie} (within : z.canReturn c.settings = true) :
    SlotChange c position i slot (.zombie z) (.live z.ancestor)
  /-- A trimmed variable returns where a frame names its slot unset. -/
  | unmasked {z : Zombie} (enabled : c.settings.bogusTop = true) (trimmed : z.cause = .trim)
    (unset : i.NamesUnset slot) : SlotChange c position i slot (.zombie z) (.live z.ancestor)

theorem Slot.age_eq_zombie {s : Slot} {isFrame : Bool} {z : Zombie}
    (h : s.age isFrame = .zombie z) : ∃ z₀, s = .zombie z₀ := by
  cases s with
  | zombie z₀ => exact ⟨z₀, rfl⟩
  | live v => cases h
  | unknown => cases h

theorem Slot.age_eq_live {s : Slot} {isFrame : Bool} {v : LocalVariable}
    (h : s.age isFrame = .live v) : s = .live v := by
  cases s with
  | live w => exact h
  | zombie z => cases h
  | unknown => cases h

namespace SlotChange

variable {c : LocalsContext} {position slot : Nat} {i : Instruction} {old mid new : Slot}

theorem ofVariable (s : Slot) :
    SlotChange c position i slot s (.ofVariable (c.variableAt position (.ofNat slot))) := by
  cases hv : c.variableAt position (.ofNat slot) with
  | none => exact .lost s
  | some v => exact .found hv

theorem kill (cause : ZombieCause) (hi : i.isFrame = true) (s : Slot) :
    SlotChange c position i slot s (s.kill cause) := by
  cases s with
  | live v => exact .removed hi (.inl rfl)
  | zombie z => exact .kept _
  | unknown => exact .kept _

theorem revive (s : Slot) : SlotChange c position i slot s (s.revive c.settings) := by
  cases s with
  | zombie z =>
      rw [Slot.revive]
      split
      · rename_i hreturn
        exact .returned hreturn
      · exact .kept _
  | live v => exact .kept _
  | unknown => exact .kept _

theorem reviveTrimmed (hi : i.NamesUnset slot) (s : Slot) :
    SlotChange c position i slot s (Simulation.reviveTrimmed c.settings s) := by
  cases s with
  | zombie z =>
      rw [Simulation.reviveTrimmed]
      split
      · rename_i htop
        rw [Bool.and_eq_true, decide_eq_true_eq] at htop
        exact .unmasked htop.1 htop.2 hi
      · exact .kept _
  | live v => exact .kept _
  | unknown => exact .kept _

/-- A zombie was there before, or a frame has made it. -/
theorem of_zombie {z : Zombie} (h : SlotChange c position i slot old (.zombie z)) :
    old = .zombie z ∨ z = ⟨z.ancestor, z.cause, 0, 0⟩ ∧ i.isFrame = true ∧
      (old = .live z.ancestor ∨ c.variableAt position (.ofNat slot) = some z.ancestor) := by
  generalize hnew : Slot.zombie z = new at h
  cases h with
  | kept => exact .inl rfl
  | removed frame held =>
      cases hnew
      exact .inr ⟨rfl, frame, held⟩
  | found => cases hnew
  | lost => cases hnew
  | returned => cases hnew
  | unmasked => cases hnew

/-- A slot that was a zombie is live again: the tables know a variable for it, its own returned
within the limits, or a frame named it unset. -/
theorem of_zombie_live {z : Zombie} {v : LocalVariable}
    (h : SlotChange c position i slot (.zombie z) (.live v)) :
    c.variableAt position (.ofNat slot) = some v ∨ v = z.ancestor ∧
      (z.canReturn c.settings = true ∨
        c.settings.bogusTop = true ∧ z.cause = .trim ∧ i.NamesUnset slot) := by
  cases h with
  | found known => exact .inl known
  | returned within => exact .inr ⟨rfl, .inl within⟩
  | unmasked enabled trimmed unset => exact .inr ⟨rfl, .inr ⟨enabled, trimmed, unset⟩⟩

/-- A change that follows on a store which put a variable into the slot. -/
theorem after_store (h : SlotChange c position i slot
    (.ofVariable (c.variableAt position (.ofNat slot))) new) :
    SlotChange c position i slot old new := by
  cases hv : c.variableAt position (.ofNat slot) with
  | none =>
      rw [hv] at h
      cases h with
      | kept => exact .lost old
      | found known => exact .found known
      | lost => exact .lost old
      | removed frame held =>
          rcases held with heq | known
          · cases heq
          · exact .removed frame (.inr known)
  | some v =>
      rw [hv] at h
      cases h with
      | kept => exact .found hv
      | found known => exact .found known
      | lost => exact .lost old
      | removed frame held =>
          rcases held with heq | known
          · cases heq
            exact .removed frame (.inr hv)
          · exact .removed frame (.inr known)

end SlotChange

def SlotsChange (c : LocalsContext) (position : Nat) (i : Instruction) (slots slots' : List Slot) :
    Prop :=
  ∀ k old, slots[k]? = some old → ∃ new, slots'[k]? = some new ∧ SlotChange c position i k old new

namespace Simulation

variable {c : LocalsContext} {position entrySize : Nat} {i : Instruction} {slots : List Slot}
  {s : Simulation}

theorem slotsChange_refl (slots : List Slot) : SlotsChange c position i slots slots :=
  fun _ old hold => ⟨old, hold, .kept old⟩

/-- The slots before a place and those from it on, each changed in its own way. -/
theorem getElem?_map_take_append_map_drop {α β : Type} (f g : α → β) (n k : Nat) (l : List α) :
    ((l.take n).map f ++ (l.drop n).map g)[k]? = l[k]?.map (if k < n then f else g) := by
  rw [List.getElem?_append, List.length_map, List.length_take]
  rcases Nat.lt_or_ge k n with hk | hk
  · rw [if_pos hk]
    rcases Nat.lt_or_ge k l.length with hl | hl
    · simp [hk, hl]
    · rw [if_neg (by omega)]
      simp [hl, show l.length ≤ n + (k - min n l.length) by omega]
  · rw [if_neg (by omega), if_neg (by omega), List.getElem?_map, List.getElem?_drop]
    rcases Nat.lt_or_ge n l.length with hl | hl
    · rw [Nat.min_eq_left hl.le, Nat.add_sub_cancel' hk]
    · rw [List.getElem?_eq_none (by omega), List.getElem?_eq_none (by omega)]

theorem killFrom_change (hi : i.isFrame = true) (slot : Nat) (slots : List Slot) :
    SlotsChange c position i slots (killFrom slot slots) := by
  intro k old hold
  have hnew := getElem?_map_take_append_map_drop id (Slot.kill .chop) slot k slots
  rw [List.map_id, hold, Option.map_some] at hnew
  refine ⟨_, hnew, ?_⟩
  split
  · exact .kept old
  · exact .kill .chop hi old

/-- A slot inside the frame is revived, one outside stays. -/
theorem revive_cases (settings : LocalsSettings) {k : Nat} {old : Slot}
    (hold : s.slots[k]? = some old) :
    (s.revive settings).slots[k]? = some old ∨
      (s.revive settings).slots[k]? = some (old.revive settings) := by
  have hslots := getElem?_map_take_append_map_drop (Slot.revive settings) id s.frameSize k s.slots
  rw [List.map_id, hold, Option.map_some] at hslots
  split at hslots
  · exact .inr hslots
  · exact .inl hslots

theorem revive_change (s : Simulation) :
    SlotsChange c position i s.slots (s.revive c.settings).slots := by
  intro k old hold
  rcases revive_cases c.settings hold with hnew | hnew
  · exact ⟨_, hnew, .kept old⟩
  · exact ⟨_, hnew, .revive old⟩

/-! ### Frames -/

/-- Describing the slots from a place on leaves those before it as they are. -/
def DescribesFrom (c : LocalsContext) (position : Nat) (i : Instruction) (slot : Nat)
    (slots slots' : List Slot) : Prop :=
  ∀ k old, slots[k]? = some old →
    ∃ new, slots'[k]? = some new ∧ SlotChange c position i k old new ∧ (k < slot → new = old)

theorem DescribesFrom.refl (slot : Nat) (slots : List Slot) :
    DescribesFrom c position i slot slots slots :=
  fun _ old hold => ⟨old, hold, .kept old, fun _ => rfl⟩

theorem DescribesFrom.skip {slot : Nat} {slots slots' : List Slot}
    (h : DescribesFrom c position i (slot + 1) slots slots') :
    DescribesFrom c position i slot slots slots' := by
  intro k old hold
  obtain ⟨new, hnew, hchange, hsame⟩ := h k old hold
  exact ⟨new, hnew, hchange, fun hk => hsame (by omega)⟩

/-- The slot at hand is changed first, and then those after it. -/
theorem DescribesFrom.modify {slot : Nat} {slots slots' : List Slot} {g : Slot → Slot}
    (hg : ∀ old, SlotChange c position i slot old (g old))
    (h : DescribesFrom c position i (slot + 1) (slots.modify slot g) slots') :
    DescribesFrom c position i slot slots slots' := by
  intro k old hold
  have hmid := List.getElem?_modify g slot slots k
  rw [hold, Option.map_eq_map, Option.map_some] at hmid
  obtain ⟨new, hnew, hchange, hsame⟩ := h k _ hmid
  refine ⟨new, hnew, ?_, fun hk => ?_⟩
  · by_cases hk : slot = k
    · subst hk
      rw [hsame (Nat.lt_succ_self _), if_pos rfl]
      exact hg old
    · rwa [if_neg hk] at hchange
  · rw [hsame (by omega), if_neg (by omega)]

theorem DescribesFrom.set {slot : Nat} {slots slots' : List Slot} {s : Slot}
    (hs : ∀ old, SlotChange c position i slot old s)
    (h : DescribesFrom c position i (slot + 1) (slots.set slot s) slots') :
    DescribesFrom c position i slot slots slots' := by
  rw [List.set_eq_modify] at h
  exact h.modify hs

theorem describe_change (f : Frame) (entrySize previousSize frameSize count slot : Nat)
    (slots : List Slot) :
    DescribesFrom c position (.frame f) slot slots
      (describe c position entrySize previousSize frameSize f.locals count slot slots) := by
  induction count generalizing slot slots with
  | zero => exact .refl slot slots
  | succ count ih =>
      rw [describe]
      split
      · exact .refl slot slots
      · split
        · exact .set .ofVariable (ih _ _)
        · exact .set .ofVariable (ih _ _)
        · exact .set .ofVariable (ih _ _)
        · exact .set .ofVariable (.set .lost (ih _ _))
        · exact .set .ofVariable (.set .lost (ih _ _))
        · rename_i htop
          exact .modify (.reviveTrimmed ⟨f, rfl, htop⟩) (ih _ _)
        · exact .set .lost (ih _ _)
        · exact .set .lost (ih _ _)
        · exact .skip (ih _ _)
        · split
          · exact .modify (.kill _ rfl) (ih _ _)
          · exact .skip (ih _ _)

theorem DescribesFrom.change {slot : Nat} {slots slots' : List Slot}
    (h : DescribesFrom c position i slot slots slots') : SlotsChange c position i slots slots' := by
  intro k old hold
  obtain ⟨new, hnew, hchange, -⟩ := h k old hold
  exact ⟨new, hnew, hchange⟩

theorem applyFrame_change (entrySize : Nat) (f : Frame) (s : Simulation) :
    SlotsChange c position (.frame f) s.slots (s.applyFrame c entrySize position f).slots := by
  have hdescribe (frameSize slot : Nat) : SlotsChange c position (.frame f) s.slots
      (describe c position entrySize s.lastFrameSize frameSize f.locals s.slots.length slot
        s.slots) :=
    DescribesFrom.change (describe_change f _ _ _ _ _ _)
  rw [applyFrame]
  split
  · exact slotsChange_refl _
  · exact slotsChange_refl _
  · exact killFrom_change rfl _ _
  · exact killFrom_change rfl _ _
  · exact hdescribe _ _
  · exact hdescribe _ _

/-! ### Loads and stores -/

theorem loaded_cases (slot : UInt16) (old : Slot) :
    (∃ v, c.variableAt position slot = some v ∧ loaded c position slot old = .live v) ∨
      (∃ z, old = .zombie z ∧ z.canReturn c.settings = true ∧
        loaded c position slot old = .live z.ancestor) ∨
      loaded c position slot old = .unknown := by
  unfold loaded
  cases hv : c.variableAt position slot with
  | some v => exact .inl ⟨v, rfl, rfl⟩
  | none =>
      cases old with
      | zombie z =>
          by_cases hreturn : (c.settings.exposedOnLoad && z.canReturn c.settings) = true
          · exact .inr (.inl ⟨z, rfl, (Bool.and_eq_true _ _ ▸ hreturn).2, if_pos hreturn⟩)
          · exact .inr (.inr (if_neg hreturn))
      | live v => exact .inr (.inr rfl)
      | unknown => exact .inr (.inr rfl)

theorem loaded_change (slot : UInt16) (old : Slot) :
    SlotChange c position i slot.toNat old (loaded c position slot old) := by
  rcases loaded_cases slot old with ⟨v, hv, hloaded⟩ | ⟨z, rfl, hreturn, hloaded⟩ | hloaded
  · rw [hloaded]
    exact .found (by rwa [UInt16.ofNat_toNat])
  · rw [hloaded]
    exact .returned hreturn
  · rw [hloaded]
    exact .lost old

/-- What a load puts into its slot is no zombie, so it stays when those around it return. -/
theorem revive_loaded (slot : UInt16) (old : Slot) :
    (loaded c position slot old).revive c.settings = loaded c position slot old := by
  rcases loaded_cases slot old with ⟨v, -, hloaded⟩ | ⟨z, -, -, hloaded⟩ | hloaded <;>
    rw [hloaded] <;> rfl

/-- The slot of a load holds what the load sees there. -/
theorem getElem?_load_self (c : LocalsContext) (position : Nat) (op : Opcode)
    {slot : UInt16} {old : Slot}
    (hold : s.slots[slot.toNat]? = some old) :
    (s.load c position op slot).slots[slot.toNat]? = some (loaded c position slot old) := by
  have hset : (s.slots.set slot.toNat (loaded c position slot old))[slot.toNat]? =
      some (loaded c position slot old) := by
    simp [List.getElem?_set', hold]
  simp only [load, hold]
  split
  · rcases revive_cases c.settings (s := { s with slots := s.slots.set _ _, frameSize := _ })
        hset with hnew | hnew
    · exact hnew
    · rwa [revive_loaded] at hnew
  · exact hset

/-- Another slot stays as it is, or is revived. -/
theorem getElem?_load_of_ne (c : LocalsContext) (position : Nat) (op : Opcode)
    {slot : UInt16} {k : Nat} {old : Slot}
    (hk : slot.toNat ≠ k) (hold : s.slots[k]? = some old) :
    (s.load c position op slot).slots[k]? = some old ∨
      (s.load c position op slot).slots[k]? = some (old.revive c.settings) := by
  rw [load]
  split
  · exact .inl hold
  · rename_i current hcurrent
    have hset : (s.slots.set slot.toNat (loaded c position slot current))[k]? = some old := by
      rw [List.getElem?_set_ne hk, hold]
    dsimp only
    split
    · exact revive_cases c.settings (s := { s with slots := s.slots.set _ _, frameSize := _ }) hset
    · exact .inl hset

theorem load_change (op : Opcode) (slot : UInt16) (s : Simulation) :
    SlotsChange c position i s.slots (s.load c position op slot).slots := by
  intro k old hold
  by_cases hk : slot.toNat = k
  · subst hk
    exact ⟨_, getElem?_load_self c position op hold, loaded_change slot old⟩
  · rcases getElem?_load_of_ne c position op hk hold with hnew | hnew
    · exact ⟨_, hnew, .kept old⟩
    · exact ⟨_, hnew, .revive old⟩

theorem store_change (op : Opcode) (slot : UInt16) (s : Simulation) :
    SlotsChange c position i s.slots (s.store c op slot).slots := by
  rw [store]
  split
  · exact fun k old hold => revive_change { s with frameSize := _ } k old hold
  · exact slotsChange_refl _

/-! ### One node -/

theorem length_describe (entrySize previousSize frameSize : Nat) (locals : List FrameValue)
    (count slot : Nat) (slots : List Slot) :
    (describe c position entrySize previousSize frameSize locals count slot slots).length =
      slots.length := by
  induction count generalizing slot slots with
  | zero => rfl
  | succ count ih =>
      rw [describe]
      split
      · rfl
      · repeat' split
        all_goals simp [ih, retype]

@[simp] theorem length_killFrom (slot : Nat) (slots : List Slot) :
    (killFrom slot slots).length = slots.length := by
  simp [killFrom]
  omega

@[simp] theorem length_revive (settings : LocalsSettings) (s : Simulation) :
    (s.revive settings).slots.length = s.slots.length := by
  simp [revive]
  omega

theorem length_applyFrame (entrySize : Nat) (f : Frame) (s : Simulation) :
    (s.applyFrame c entrySize position f).slots.length = s.slots.length := by
  rw [applyFrame]
  split <;> simp [length_describe]

theorem length_load (op : Opcode) (slot : UInt16) (s : Simulation) :
    (s.load c position op slot).slots.length = s.slots.length := by
  rw [load]
  split
  · rfl
  · dsimp only
    split <;> simp

theorem length_store (op : Opcode) (slot : UInt16) (s : Simulation) :
    (s.store c op slot).slots.length = s.slots.length := by
  rw [store]
  split <;> simp

theorem length_settle (c : LocalsContext) (position : Nat) (pending : Option UInt16)
    (s : Simulation) :
    (s.settle c position pending).slots.length = s.slots.length := by
  cases pending <;> simp [settle]

/-- No node adds a slot or takes one away. -/
theorem length_step (pending : Option UInt16) (s : Simulation) :
    (s.step c entrySize position i pending).2.slots.length = s.slots.length := by
  have haged := length_settle c position pending
    { s with slots := s.slots.map (Slot.age i.isFrame) }
  rw [List.length_map] at haged
  cases i with
  | frame f => exact (length_applyFrame entrySize f _).trans haged
  | var op slot =>
      rw [step]
      split
      · exact (length_load op slot _).trans haged
      · split
        · exact (length_store op slot _).trans haged
        · exact haged
  | _ => exact haged

/-- What the instruction does after the pending store has taken effect. -/
theorem pass_change (pending : Option UInt16) (s : Simulation) :
    SlotsChange c position i
      (({ s with slots := s.slots.map (Slot.age i.isFrame) } : Simulation).settle c position
        pending).slots
      (s.step c entrySize position i pending).2.slots := by
  cases i with
  | frame f => exact applyFrame_change entrySize f _
  | var op slot =>
      rw [step]
      split
      · exact load_change op slot _
      · split
        · exact store_change op slot _
        · exact slotsChange_refl _
  | _ => exact slotsChange_refl _

/-- A step changes what a slot held, aged, in one of the ways of `SlotChange`. -/
theorem step_change (c : LocalsContext) (entrySize position : Nat) (i : Instruction)
    (pending : Option UInt16) {k : Nat} {old : Slot} (hold : s.slots[k]? = some old) :
    ∃ new, (s.step c entrySize position i pending).2.slots[k]? = some new ∧
      SlotChange c position i k (old.age i.isFrame) new := by
  have haged : (s.slots.map (Slot.age i.isFrame))[k]? = some (old.age i.isFrame) := by
    simp [hold]
  cases pending with
  | none => exact pass_change none s k _ haged
  | some slot =>
      by_cases hk : slot.toNat = k
      · subst hk
        have hsettled : ((s.slots.map (Slot.age i.isFrame)).set slot.toNat
            (.ofVariable (c.variableAt position slot)))[slot.toNat]? =
            some (.ofVariable (c.variableAt position (.ofNat slot.toNat))) := by
          rw [UInt16.ofNat_toNat]
          simp [List.getElem?_set', hold]
        obtain ⟨new, hnew, hchange⟩ := pass_change (some slot) s slot.toNat _ hsettled
        exact ⟨new, hnew, .after_store hchange⟩
      · refine pass_change (some slot) s k _ ?_
        rw [settle, List.getElem?_set_ne hk, haged]

end Simulation

/-! ### Whole runs -/

namespace InstructionList

def frameCount (is : InstructionList) (start stop : Nat) : Nat :=
  (List.range' start (stop - start)).countP (is.holds (·.isFrame))

theorem frameCount_self (is : InstructionList) (start : Nat) : is.frameCount start start = 0 := by
  simp [frameCount]

theorem frameCount_succ (is : InstructionList) {start stop : Nat} (hle : start ≤ stop) :
    is.frameCount start (stop + 1) =
      is.frameCount start stop + if is.holds (·.isFrame) stop then 1 else 0 := by
  rw [frameCount, frameCount, Nat.succ_sub hle, List.range'_1_concat, List.countP_append,
    Nat.add_sub_cancel' hle, List.countP_singleton]

end InstructionList

namespace LocalsContext

open Simulation

variable {c : LocalsContext} {params : List FieldType} {position slot : Nat}

/-- The store that is pending and the state of the slots when all nodes before a position have
been passed. -/
def passed (c : LocalsContext) (params : List FieldType) : (position : Nat) →
    Option UInt16 × Simulation
  | 0 => (none, .seed c params)
  | position + 1 =>
    let (pending, s) := c.passed params position
    match c.method.instructions.get? position with
    | some i => s.step c (entrySize c.method params) position i pending
    | none => (pending, s)

def slotAt? (c : LocalsContext) (params : List FieldType) (position slot : Nat) : Option Slot :=
  (c.passed params position).2.slots[slot]?

/-- The frame at `place` removed the variable `v` of a slot, which held it or was being stored to,
and up to `position` the slot has held the zombie, which has counted the nodes and frames since. -/
structure RemovedAt (c : LocalsContext) (params : List FieldType) (slot place position : Nat)
    (v : LocalVariable) (cause : ZombieCause) : Prop where
  lt : place < position
  frame : c.method.instructions.holds (·.isFrame) place = true
  held : c.slotAt? params place slot = some (.live v) ∨
    c.variableAt place (.ofNat slot) = some v
  zombie : ∀ q, place < q → q ≤ position → c.slotAt? params q slot =
    some (.zombie ⟨v, cause, q - (place + 1), c.method.instructions.frameCount (place + 1) q⟩)

theorem slotAt?_zero_ne_zombie (z : Zombie) :
    c.slotAt? params 0 slot ≠ some (.zombie z) := by
  have hset (entries : List (Nat × LocalVariable)) (slots : List Slot)
      (hslots : ∀ k : Nat, slots[k]? ≠ some (.zombie z)) (k : Nat) :
      (entries.foldl (fun slots e => slots.set e.1 (.live e.2)) slots)[k]? ≠
        some (.zombie z) := by
    induction entries generalizing slots with
    | nil => exact hslots k
    | cons e entries ih =>
        refine ih _ fun k hk => ?_
        by_cases he : e.1 = k
        · subst he
          rcases hold : slots[e.1]? with _ | old <;> simp [List.getElem?_set', hold] at hk
        · rw [List.getElem?_set_ne he] at hk
          exact hslots k hk
  refine hset _ _ (fun k hk => ?_) slot
  rw [List.getElem?_replicate] at hk
  split at hk <;> cases hk

/-- Passing one more node changes what a slot held. -/
theorem exists_slotChange {i : Instruction} {new : Slot}
    (hi : c.method.instructions.get? position = some i)
    (hnew : c.slotAt? params (position + 1) slot = some new) :
    ∃ old, c.slotAt? params position slot = some old ∧
      SlotChange c position i slot (old.age i.isFrame) new := by
  rw [slotAt?, passed, hi] at hnew
  have hlt := (List.getElem?_eq_some_iff.mp hnew).1
  rw [length_step] at hlt
  have hold := List.getElem?_eq_getElem hlt
  obtain ⟨new', hnew', hchange⟩ := step_change c (entrySize c.method params) position i
    (c.passed params position).1 hold
  obtain rfl := Option.some.inj (hnew.symm.trans hnew')
  exact ⟨_, hold, hchange⟩

theorem RemovedAt.succ {place : Nat} {v : LocalVariable} {cause : ZombieCause} {z : Zombie}
    (h : RemovedAt c params slot place position v cause)
    (hz : c.slotAt? params position slot = some (.zombie z))
    (hnext : c.slotAt? params (position + 1) slot =
      some ((Slot.zombie z).age (c.method.instructions.holds (·.isFrame) position))) :
    RemovedAt c params slot place (position + 1) v cause := by
  refine ⟨h.lt.trans (Nat.lt_succ_self _), h.frame, h.held, fun q hlt hle => ?_⟩
  rcases Nat.lt_or_eq_of_le hle with hle | rfl
  · exact h.zombie q hlt (Nat.le_of_lt_succ hle)
  · obtain rfl := Slot.zombie.inj
      (Option.some.inj (hz.symm.trans (h.zombie position h.lt (Nat.le_refl _))))
    have hcount : position + 1 - (place + 1) = position - (place + 1) + 1 :=
      Nat.succ_sub h.lt
    rw [hnext, Slot.age, InstructionList.frameCount_succ _ h.lt, hcount]

/-- A zombie was removed by a frame and has counted truly since. -/
theorem exists_removedAt {z : Zombie} (hle : position ≤ c.method.instructions.size)
    (hz : c.slotAt? params position slot = some (.zombie z)) :
    ∃ place, RemovedAt c params slot place position z.ancestor z.cause := by
  induction position generalizing z with
  | zero => exact absurd hz (slotAt?_zero_ne_zombie z)
  | succ position ih =>
      obtain ⟨i, hi⟩ : ∃ i, c.method.instructions.get? position = some i :=
        ⟨_, Array.getElem?_eq_getElem hle⟩
      have hframe : c.method.instructions.holds (·.isFrame) position = i.isFrame := by
        rw [InstructionList.holds, hi, Option.any_some]
      obtain ⟨old, hold, hchange⟩ := exists_slotChange hi hz
      rcases hchange.of_zombie with haged | ⟨hnew, hi, hheld⟩
      · obtain ⟨z₀, rfl⟩ := Slot.age_eq_zombie haged
        obtain ⟨place, hplace⟩ := ih (Nat.le_of_succ_le hle) hold
        have hsame : z₀.ancestor = z.ancestor ∧ z₀.cause = z.cause := by
          cases haged
          exact ⟨rfl, rfl⟩
        rw [hsame.1, hsame.2] at hplace
        exact ⟨place, hplace.succ hold (by rw [hframe, haged, hz])⟩
      · refine ⟨position, Nat.lt_succ_self _, hframe.trans hi, ?_, fun q hlt hle => ?_⟩
        · exact hheld.imp_left fun hlive => hold.trans (congrArg some (Slot.age_eq_live hlive))
        · obtain rfl : q = position + 1 := by omega
          rw [hz, Nat.sub_self, InstructionList.frameCount_self, ← hnew]

/-! ### The answer of a query -/

theorem run_answersUnless (c : LocalsContext) (params : List FieldType)
    {nodes : List Instruction} {position query : Nat}
    (hnodes : nodes = c.method.instructions.nodes.toList.drop position)
    (hquery : position ≤ query) (hlt : query < c.method.instructions.size) :
    Query.AnswersUnless .cancelled
      (Simulation.run c (entrySize c.method params) query position nodes
        (c.passed params position).1 (c.passed params position).2)
      (.ok (c.passed params (query + 1)).2) := by
  induction nodes generalizing position with
  | nil =>
      have hlen := congrArg List.length hnodes
      simp [InstructionList.size] at hlen hlt
      omega
  | cons i rest ih =>
      have hi : c.method.instructions.get? position = some i := by
        have hhead := congrArg List.head? hnodes
        simpa [InstructionList.get?] using hhead.symm
      have hrest : rest = c.method.instructions.nodes.toList.drop (position + 1) := by
        have htail := congrArg List.tail hnodes
        simpa using htail
      have hstep : (c.passed params position).2.step c (entrySize c.method params) position i
          (c.passed params position).1 = c.passed params (position + 1) := by
        rw [passed, hi]
      rw [Simulation.run]
      refine .after_look _ ?_
      rw [hstep]
      by_cases hend : position = query
      · subst hend
        simp only [if_true]
        exact Query.answersUnless_pure _
      · simp only [hend, if_false]
        exact ih hrest (by omega)

theorem queryPosition_lt {is : InstructionList} (skips : Nat) (hlt : position < is.size) :
    queryPosition is skips position < is.size := by
  induction skips generalizing position with
  | zero => exact hlt
  | succ skips ih =>
      have hnext {next : Instruction} (h : is.get? (position + 1) = some next) :
          position + 1 < is.size := (Array.getElem?_eq_some_iff.mp h).1
      rw [queryPosition]
      split
      · split
        · rename_i h
          split
          · exact hlt
          · exact ih (hnext h)
        · exact hlt
      · split
        · rename_i h
          split
          · exact hlt
          · exact ih (hnext h)
        · exact hlt
      · exact hlt

/-- A computation that went on past a test was not refused by it. -/
theorem answer_of_unless {ε α : Type} {p : Prop} [Decidable p] {e : ε} {q : Unit → Query ε α}
    {w : Watch} {a : α}
    (h : Query.answer (if p then throw e >>= q else q ()) w = .ok a) :
    ¬p ∧ (q ()).answer w = .ok a := by
  split at h
  · cases h
  · exact ⟨‹_›, h⟩

/-- A query answers with what the slots hold when the node has been passed to which it moves. -/
theorem localsAt_eq_passed {w : Watch} {table : LocalTable}
    (h : (c.localsAt position).answer w = .ok table) :
    position < c.method.instructions.size ∧
      ∃ desc, MethodDescriptor.parse c.method.desc = .ok desc ∧
        table = (c.passed desc.params
          (queryPosition c.method.instructions maxSkip position + 1)).2.slots.map Slot.report := by
  rw [localsAt] at h
  obtain ⟨-, h⟩ := answer_of_unless h
  obtain ⟨hlt, h⟩ := answer_of_unless h
  cases hdesc : MethodDescriptor.parse c.method.desc with
  | error e =>
      rw [hdesc] at h
      cases h
  | ok desc =>
      rw [hdesc] at h
      have hquery := queryPosition_lt maxSkip (Nat.lt_of_not_le hlt)
      have hrun := run_answersUnless c desc.params rfl (Nat.zero_le _) hquery
      have hanswer := hrun.bind fun s => Query.answersUnless_pure (s.slots.map Slot.report)
      refine ⟨Nat.lt_of_not_le hlt, desc, rfl, ?_⟩
      rcases hanswer w with hw | hw
      · exact Except.ok.inj (h.symm.trans hw)
      · cases h.symm.trans hw

theorem localsAt_eq_report {w : Watch} {table : LocalTable}
    (h : (c.localsAt position).answer w = .ok table) :
    ∃ desc query, MethodDescriptor.parse c.method.desc = .ok desc ∧
      query < c.method.instructions.size ∧
      table = (c.passed desc.params (query + 1)).2.slots.map Slot.report := by
  obtain ⟨hlt, desc, hdesc, htable⟩ := localsAt_eq_passed h
  exact ⟨desc, _, hdesc, queryPosition_lt maxSkip hlt, htable⟩

/-- What the limits of a cause allow, told by the place where the variable was removed. -/
def ReturnsWithin (c : LocalsContext) (cause : ZombieCause) (place position : Nat) : Prop :=
  (∀ limit ∈ (Zombie.limits c.settings cause).1, position - place ≤ limit) ∧
    ∀ limit ∈ (Zombie.limits c.settings cause).2,
      c.method.instructions.frameCount (place + 1) (position + 1) ≤ limit

/-- A zombie that has counted truly and may return is within the limits. -/
theorem RemovedAt.returnsWithin {place : Nat} {z : Zombie} {isFrame : Bool}
    (h : RemovedAt c params slot place position z.ancestor z.cause)
    (hz : c.slotAt? params position slot = some (.zombie z))
    (hframe : c.method.instructions.holds (·.isFrame) position = isFrame)
    (hreturn : Zombie.canReturn { z with
      lifetime := z.lifetime + 1
      frames := z.frames + if isFrame then 1 else 0 } c.settings = true) :
    c.ReturnsWithin z.cause place position := by
  have hcount := Slot.zombie.inj
    (Option.some.inj (hz.symm.trans (h.zombie position h.lt (Nat.le_refl _))))
  have hlt := h.lt
  have hlifetime : z.lifetime + 1 = position - place := by
    rw [hcount]
    dsimp only
    omega
  have hframes : (z.frames + if isFrame then 1 else 0) =
      c.method.instructions.frameCount (place + 1) (position + 1) := by
    rw [InstructionList.frameCount_succ _ h.lt, hframe, hcount]
  rw [Zombie.canReturn, Bool.and_eq_true, Option.all_eq_true, Option.all_eq_true] at hreturn
  refine ⟨fun limit hlimit => ?_, fun limit hlimit => ?_⟩
  · have hle := of_decide_eq_true (hreturn.1 limit hlimit)
    exact hlifetime ▸ hle
  · have hle := of_decide_eq_true (hreturn.2 limit hlimit)
    exact hframes ▸ hle

/-- In every run that answers a query, a slot that held a zombie and is live again holds a variable
that the tables know there, or the one that was removed. In the second case the nodes and frames
passed since the frame that removed it are within the limits of its cause, unless a frame names the
trimmed slot unset. -/
theorem zombies_return_within_limits (c : LocalsContext) :
    (∀ w position table, (c.localsAt position).answer w = .ok table →
      ∃ desc query, MethodDescriptor.parse c.method.desc = .ok desc ∧
        query < c.method.instructions.size ∧
        table = (c.passed desc.params (query + 1)).2.slots.map Slot.report) ∧
    ∀ params position slot z v,
      c.slotAt? params position slot = some (.zombie z) →
      c.slotAt? params (position + 1) slot = some (.live v) →
      (∀ f, c.method.instructions.get? position = some (.frame f) →
        f.locals[slot]? = some .top → z.cause = .trim → c.settings.bogusTop = false) →
      c.variableAt position (.ofNat slot) = some v ∨
        v = z.ancestor ∧ ∃ place, RemovedAt c params slot place position z.ancestor z.cause ∧
          c.ReturnsWithin z.cause place position := by
  refine ⟨fun w position table => localsAt_eq_report, fun params position slot z v hz hv hmask => ?_⟩
  cases hi : c.method.instructions.get? position with
  | none =>
      -- Past the end nothing changes.
      rw [slotAt?, passed, hi] at hv
      cases hz.symm.trans hv
  | some i =>
      have hle : position ≤ c.method.instructions.size :=
        (Array.getElem?_eq_some_iff.mp hi).1.le
      have hframe : c.method.instructions.holds (·.isFrame) position = i.isFrame := by
        rw [InstructionList.holds, hi, Option.any_some]
      obtain ⟨old, hold, hchange⟩ := exists_slotChange hi hv
      obtain rfl := Option.some.inj (hz.symm.trans hold)
      rcases hchange.of_zombie_live with hknown | ⟨rfl, hreturn | ⟨henabled, htrim, f, rfl, htop⟩⟩
      · exact .inl hknown
      · obtain ⟨place, hplace⟩ := exists_removedAt hle hz
        exact .inr ⟨rfl, place, hplace, hplace.returnsWithin hz hframe hreturn⟩
      · cases henabled.symm.trans (hmask f hi htop htrim)

/-- A variable that a frame drops and a load needs again, after one more frame. -/
def reloadedContext : LocalsContext where
  owner := "a/A"
  method :=
    { access := 0x0008, name := "m", desc := "()V", maxStack := 1, maxLocals := 1
      instructions := .ofList [.plain .iconst1, .var .istore 0, .label ⟨0⟩,
        .frame ⟨.append 1, [.int], []⟩, .var .iload 0, .plain .pop, .label ⟨1⟩,
        .frame ⟨.chop 1, [], []⟩, .frame ⟨.same, [], []⟩, .var .iload 0, .plain .pop,
        .plain .returnVoid]
      handlers := []
      declaredLocals := [] }
  declared := []
  generated := some [⟨"x", "I", 0, 2, 6⟩]
  settings := .standard

/-- The load is the last node at which the dropped variable may return. -/
theorem zombies_return_reloaded :
    reloadedContext.slotAt? [] 9 0 = some (.zombie ⟨⟨"x", "I", 0, 2, 6⟩, .chop, 1, 1⟩) ∧
      reloadedContext.slotAt? [] 10 0 = some (.live ⟨"x", "I", 0, 2, 6⟩) ∧
      reloadedContext.settings.choppedFrames = some 1 ∧
      ∃ place, RemovedAt reloadedContext [] 0 place 9 ⟨"x", "I", 0, 2, 6⟩ .chop ∧
        reloadedContext.ReturnsWithin .chop place 9 := by
  have hzombie : reloadedContext.slotAt? [] 9 0 =
      some (.zombie ⟨⟨"x", "I", 0, 2, 6⟩, .chop, 1, 1⟩) := by decide +kernel
  have hlive : reloadedContext.slotAt? [] 10 0 = some (.live ⟨"x", "I", 0, 2, 6⟩) := by
    decide +kernel
  have hunknown : reloadedContext.variableAt 9 (.ofNat 0) = none := by decide +kernel
  refine ⟨hzombie, hlive, rfl, ?_⟩
  rcases (zombies_return_within_limits reloadedContext).2 [] 9 0 _ _ hzombie hlive nofun with
    hknown | ⟨-, hplace⟩
  · cases hunknown.symm.trans hknown
  · exact hplace

/-- A variable that one frame trims and a later one names unset, with no instruction in between
within the limit on trimmed variables. -/
def maskedContext : LocalsContext where
  owner := "a/A"
  method :=
    { access := 0x0008, name := "m", desc := "(I)V", maxStack := 1, maxLocals := 2
      instructions := .ofList [.plain .iconst0, .var .istore 1, .plain .nop,
        .frame ⟨.full, [.int], []⟩, .plain .nop, .plain .nop,
        .frame ⟨.full, [.int, .top], []⟩, .plain .returnVoid]
      handlers := []
      declaredLocals := [] }
  declared := []
  generated := some [⟨"a", "I", 0, 0, 8⟩, ⟨"x", "I", 1, 2, 3⟩]
  settings := { LocalsSettings.standard with trimmedInstructions := some 0 }

/-- Three instructions after it was trimmed the variable is back, although none may pass. -/
theorem masked_zombie_returns :
    maskedContext.slotAt? [.base .int] 6 1 = some (.zombie ⟨⟨"x", "I", 1, 2, 3⟩, .trim, 2, 0⟩) ∧
      maskedContext.slotAt? [.base .int] 7 1 = some (.live ⟨"x", "I", 1, 2, 3⟩) ∧
      maskedContext.variableAt 6 1 = none ∧
      (Zombie.limits maskedContext.settings .trim).1 = some 0 ∧
      ((maskedContext.localsAt 7).answer .live).toOption =
        some [some ⟨"a", "I", 0, 0, 8⟩, some ⟨"x", "I", 1, 2, 3⟩] := by
  decide +kernel

end LocalsContext

end Injection
