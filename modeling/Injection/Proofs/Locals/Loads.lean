import Injection.Proofs.Locals.Zombies

/-!
What a load does to the variables that are live.

A load asks the tables for its slot and puts the answer there, so that a live slot stays live
through it only where the tables know a variable for the slot: one that is declared for it anywhere
in the method, or one that was made up and holds at the load. Every other live slot keeps its
variable. Over a run, a slot that is live stays so until a frame speaks of the locals, a store
overwrites it, or a load finds nothing for it in the tables.
-/

namespace Injection

namespace LocalsContext

def Knows (c : LocalsContext) (position : Nat) (slot : UInt16) : Prop :=
  (∃ v ∈ c.declared, v.slot = slot) ∨
    ∃ table, c.generated = some table ∧ ∃ v ∈ table, v.slot = slot ∧ v.contains position = true

end LocalsContext

theorem FieldType.slots_pos (t : FieldType) : 0 < t.slots := by
  rw [slots.eq_def]
  split <;> decide

namespace LocalVariable

variable {key : LocalVariable → Nat} {l : List LocalVariable} {v : LocalVariable}

theorem leastBy_eq_none : leastBy key l = none ↔ l = [] := by
  cases l with
  | nil => exact iff_of_true rfl rfl
  | cons v l =>
      rw [leastBy]
      split <;> simp
      split <;> simp

theorem isSome_leastBy : (leastBy key l).isSome = true ↔ ∃ v, v ∈ l := by
  rw [Option.isSome_iff_ne_none, ne_eq, leastBy_eq_none, ← ne_eq, List.ne_nil_iff_exists_cons]
  constructor
  · rintro ⟨v, l', rfl⟩
    exact ⟨v, List.mem_cons_self⟩
  · rintro ⟨v, hv⟩
    cases l with
    | nil => cases hv
    | cons w l' => exact ⟨w, l', rfl⟩

theorem mem_of_leastBy (h : leastBy key l = some v) : v ∈ l := by
  induction l generalizing v with
  | nil => cases h
  | cons w l ih =>
      rw [leastBy] at h
      split at h
      · cases h
        exact List.mem_cons_self
      · rename_i u hu
        split at h <;> cases h
        · exact List.mem_cons_of_mem _ (ih hu)
        · exact List.mem_cons_self

end LocalVariable

namespace LocalsContext

open Simulation

variable {c : LocalsContext} {params : List FieldType} {position slot : Nat} {v : LocalVariable}

theorem isSome_narrowest {table : List LocalVariable} {slot : UInt16} :
    (narrowest table position slot).isSome = true ↔
      ∃ v ∈ table, v.slot = slot ∧ v.contains position = true := by
  simp [narrowest, LocalVariable.isSome_leastBy]

/-- The tables answer for a slot exactly where they know a variable. -/
theorem isSome_variableAt {slot : UInt16} :
    (c.variableAt position slot).isSome = true ↔ c.Knows position slot := by
  have hmadeUp : (c.generated.bind fun table => narrowest table position slot).isSome = true ↔
      ∃ table, c.generated = some table ∧ ∃ v ∈ table, v.slot = slot ∧ v.contains position = true := by
    cases c.generated with
    | none => simp
    | some table => simp [isSome_narrowest]
  rw [variableAt, Knows]
  split
  · rename_i hempty
    have hnone : ¬∃ v ∈ c.declared, v.slot = slot := by
      simp [List.isEmpty_iff.mp hempty]
    rw [hmadeUp, or_iff_right hnone]
  · simp only [Option.orElse_eq_orElse, ← Option.or_eq_orElse, Option.isSome_or, Bool.or_eq_true,
      hmadeUp, isSome_narrowest, LocalVariable.isSome_leastBy, List.mem_filter, decide_eq_true_eq]
    constructor
    · rintro (⟨v, hv, hslot, -⟩ | hgenerated | ⟨v, hv⟩)
      · exact .inl ⟨v, hv, hslot⟩
      · exact .inr hgenerated
      · exact .inl ⟨v, hv⟩
    · rintro (hdeclared | hgenerated)
      · exact .inr (.inr hdeclared)
      · exact .inr (.inl hgenerated)

end LocalsContext

/-! ### One node -/

theorem Slot.exists_ofVariable {found : Option LocalVariable} :
    (∃ w, Slot.ofVariable found = .live w) ↔ found.isSome = true := by
  cases found <;> simp [Slot.ofVariable]

namespace Simulation

variable {c : LocalsContext} {position : Nat} {s : Simulation} {k : Nat} {v : LocalVariable}

/-- A load puts the answer of the tables in the place of a live variable. -/
theorem loaded_live (slot : UInt16) (v : LocalVariable) :
    loaded c position slot (.live v) = .ofVariable (c.variableAt position slot) := by
  unfold loaded
  cases c.variableAt position slot <;> rfl

theorem getElem?_revive_live (settings : LocalsSettings) (h : s.slots[k]? = some (.live v)) :
    (s.revive settings).slots[k]? = some (.live v) :=
  (revive_cases settings h).elim id id

theorem getElem?_load_live (op : Opcode) {slot : UInt16} (hk : slot.toNat ≠ k)
    (h : s.slots[k]? = some (.live v)) :
    (s.load c position op slot).slots[k]? = some (.live v) :=
  (getElem?_load_of_ne c position op hk h).elim id id

theorem getElem?_store_live (op : Opcode) (slot : UInt16) (h : s.slots[k]? = some (.live v)) :
    (s.store c op slot).slots[k]? = some (.live v) := by
  rw [store]
  split
  · exact getElem?_revive_live (s := { s with frameSize := _ }) c.settings h
  · exact h

/-- What a node does to the slots that it sees. A store is left pending. -/
def meet (c : LocalsContext) (entrySize position : Nat) (s : Simulation) :
    Instruction → Option UInt16 × Simulation
  | .frame f => (none, s.applyFrame c entrySize position f)
  | .var op slot =>
    if Opcode.isLocalLoad op then (none, s.load c position op slot)
    else if Opcode.isLocalStore op then (some slot, s.store c op slot)
    else (none, s)
  | _ => (none, s)

theorem step_eq_meet (entrySize : Nat) (i : Instruction) (pending : Option UInt16) :
    s.step c entrySize position i pending =
      (({ s with slots := s.slots.map (Slot.age i.isFrame) } : Simulation).settle c position
        pending).meet c entrySize position i := by
  cases i <;> rfl

/-- Growing older and the store before leave a live slot alone, unless the store is to it. -/
theorem getElem?_settle_live {pending : Option UInt16} (isFrame : Bool)
    (hpending : ∀ slot, pending = some slot → slot.toNat ≠ k) (h : s.slots[k]? = some (.live v)) :
    (({ s with slots := s.slots.map (Slot.age isFrame) } : Simulation).settle c position
      pending).slots[k]? = some (.live v) := by
  have haged : (s.slots.map (Slot.age isFrame))[k]? = some (.live v) := by
    simp [h, Slot.age]
  cases pending with
  | none => exact haged
  | some slot => rw [settle, List.getElem?_set_ne (hpending slot rfl), haged]

end Simulation

namespace LocalsContext

open Simulation

variable {c : LocalsContext} {params : List FieldType} {position slot : Nat} {v : LocalVariable}

/-- The slots as the node at a position sees them: one node older than the node before left them,
and with the store before carried out. -/
def reached (c : LocalsContext) (params : List FieldType) (position : Nat) : Simulation :=
  let (pending, s) := c.passed params position
  ({ s with
      slots := s.slots.map (Slot.age (c.method.instructions.holds (·.isFrame) position)) } :
    Simulation).settle c position pending

def seenAt? (c : LocalsContext) (params : List FieldType) (position slot : Nat) : Option Slot :=
  (c.reached params position).slots[slot]?

def Loads (c : LocalsContext) (position : Nat) (slot : UInt16) : Prop :=
  ∃ op, c.method.instructions.get? position = some (.var op slot) ∧ Opcode.isLocalLoad op = true

/-- A node works on the slots that it sees. -/
theorem passed_succ (params : List FieldType) {i : Instruction}
    (hi : c.method.instructions.get? position = some i) :
    c.passed params (position + 1) =
      (c.reached params position).meet c (entrySize c.method params) position i := by
  have hframe : c.method.instructions.holds (·.isFrame) position = i.isFrame := by
    rw [InstructionList.holds, hi, Option.any_some]
  rw [passed, reached, hi, hframe]
  exact step_eq_meet _ _ _

theorem slotAt?_succ_of_load (params : List FieldType) {s : UInt16} (h : c.Loads position s) :
    ∃ op, ∀ k, c.slotAt? params (position + 1) k =
      ((c.reached params position).load c position op s).slots[k]? := by
  obtain ⟨op, hi, hop⟩ := h
  refine ⟨op, fun k => ?_⟩
  rw [slotAt?, passed_succ params hi, meet]
  simp only [hop, if_true]

/-- After a load its slot holds what the load sees there. -/
theorem slotAt?_load {s : UInt16} {old : Slot} (h : c.Loads position s)
    (hold : c.seenAt? params position s.toNat = some old) :
    c.slotAt? params (position + 1) s.toNat = some (loaded c position s old) := by
  obtain ⟨op, hslots⟩ := slotAt?_succ_of_load params h
  exact (hslots s.toNat).trans (getElem?_load_self c position op hold)

/-- A load leaves every other live slot alone. -/
theorem slotAt?_load_of_ne {s : UInt16} (h : c.Loads position s) (hne : s.toNat ≠ slot)
    (hlive : c.seenAt? params position slot = some (.live v)) :
    c.slotAt? params (position + 1) slot = some (.live v) := by
  obtain ⟨op, hslots⟩ := slotAt?_succ_of_load params h
  exact (hslots slot).trans (getElem?_load_live op hne hlive)

/-! ### Whole runs -/

/-- A node that takes no live variable from a slot: a frame that does not speak of locals, no store
to the slot, and no load of it for which the tables know nothing. -/
def Spares (c : LocalsContext) (position slot : Nat) : Instruction → Prop
  | .frame f => f.kind = .same ∨ f.kind = .same1
  | .var op s => s.toNat = slot → Opcode.isLocalStore op = false ∧
      (Opcode.isLocalLoad op = true → c.Knows position s)
  | _ => True

def SparedBetween (c : LocalsContext) (slot start stop : Nat) : Prop :=
  ∀ r, start ≤ r → r < stop → ∀ i, c.method.instructions.get? r = some i → c.Spares r slot i

/-- A slot is live when the nodes before a position have been passed, and no store to it is
pending. -/
structure LiveAt (c : LocalsContext) (params : List FieldType) (position slot : Nat)
    (v : LocalVariable) : Prop where
  live : c.slotAt? params position slot = some (.live v)
  settled : ∀ s, (c.passed params position).1 = some s → s.toNat ≠ slot

theorem LiveAt.seen (h : c.LiveAt params position slot v) :
    c.seenAt? params position slot = some (.live v) :=
  getElem?_settle_live _ h.settled h.live

/-- A live slot stays live through a node that spares it, and holds another variable afterwards only
where the node is a load of the slot. -/
theorem LiveAt.succ {i : Instruction} (h : c.LiveAt params position slot v)
    (hi : c.method.instructions.get? position = some i) (hspares : c.Spares position slot i) :
    ∃ w, c.LiveAt params (position + 1) slot w ∧
      (w = v ∨ ∃ s, s.toNat = slot ∧ c.Loads position s ∧ c.variableAt position s = some w) := by
  have hseen := h.seen
  have hpassed := passed_succ params hi
  rw [meet.eq_def] at hpassed
  -- A node that leaves no store behind and does not touch the slot.
  have hkept {t : Simulation} (heq : c.passed params (position + 1) = (none, t))
      (ht : t.slots[slot]? = some (.live v)) : c.LiveAt params (position + 1) slot v :=
    ⟨by rw [slotAt?, heq]; exact ht, by simp [heq]⟩
  cases i with
  | frame f =>
      refine ⟨v, hkept hpassed ?_, .inl rfl⟩
      rw [applyFrame]
      rcases hspares with hkind | hkind <;> simp only [hkind] <;> exact hseen
  | var op s =>
      by_cases hload : Opcode.isLocalLoad op = true
      · simp only [hload, if_true] at hpassed
        by_cases hs : s.toNat = slot
        · subst hs
          obtain ⟨w, hw⟩ := Option.isSome_iff_exists.mp
            (isSome_variableAt.mpr ((hspares rfl).2 hload))
          have hfound := getElem?_load_self c position op hseen
          rw [loaded_live, hw] at hfound
          refine ⟨w, ⟨?_, by simp [hpassed]⟩, .inr ⟨s, rfl, ⟨op, hi, hload⟩, hw⟩⟩
          rw [slotAt?, hpassed]
          exact hfound
        · exact ⟨v, hkept hpassed (getElem?_load_live op hs hseen), .inl rfl⟩
      · simp only [hload] at hpassed
        by_cases hstore : Opcode.isLocalStore op = true
        · simp only [hstore, if_true] at hpassed
          have hs : s.toNat ≠ slot := fun hs => by
            rw [(hspares hs).1] at hstore
            cases hstore
          refine ⟨v, ⟨?_, ?_⟩, .inl rfl⟩
          · rw [slotAt?, hpassed]
            exact getElem?_store_live op s hseen
          · rw [hpassed]
            rintro _ ⟨⟩
            exact hs
        · simp only [hstore] at hpassed
          exact ⟨v, hkept hpassed hseen, .inl rfl⟩
  | _ => exact ⟨v, hkept hpassed hseen, .inl rfl⟩

/-- Between two positions whose nodes spare it a live slot stays live, and its variable is the one
it held or what the tables know at one of the loads in between. -/
theorem LiveAt.through {start stop : Nat} (h : c.LiveAt params start slot v) (hle : start ≤ stop)
    (hspared : c.SparedBetween slot start stop) :
    ∃ w, c.LiveAt params stop slot w ∧ (w = v ∨ ∃ r s, start ≤ r ∧ r < stop ∧ s.toNat = slot ∧
      c.Loads r s ∧ c.variableAt r s = some w) := by
  induction stop, hle using Nat.le_induction with
  | base => exact ⟨v, h, .inl rfl⟩
  | succ stop hle ih =>
      obtain ⟨w, hw, horigin⟩ := ih fun r hr hlt => hspared r hr (hlt.trans (Nat.lt_succ_self _))
      have hearlier : w = v ∨ ∃ r s, start ≤ r ∧ r < stop + 1 ∧ s.toNat = slot ∧
          c.Loads r s ∧ c.variableAt r s = some w :=
        horigin.imp_right fun ⟨r, s, hr, hlt, hs⟩ =>
          ⟨r, s, hr, hlt.trans (Nat.lt_succ_self _), hs⟩
      cases hi : c.method.instructions.get? stop with
      | none =>
          have hpassed : c.passed params (stop + 1) = c.passed params stop := by
            rw [passed, hi]
          exact ⟨w, ⟨by rw [slotAt?, hpassed]; exact hw.live, by rw [hpassed]; exact hw.settled⟩,
            hearlier⟩
      | some i =>
          obtain ⟨u, hu, hlast⟩ := hw.succ hi (hspared stop hle (Nat.lt_succ_self _) i hi)
          refine ⟨u, hu, ?_⟩
          rcases hlast with rfl | ⟨s, hs, hload, hknown⟩
          · exact hearlier
          · exact .inr ⟨stop, s, hle, Nat.lt_succ_self _, hs, hload, hknown⟩

/-! ### The entry -/

def entries (c : LocalsContext) (params : List FieldType) : List (Nat × LocalVariable) :=
  (if c.method.isStatic then [] else [(0, entryVariable c 0 "this" ("L" ++ c.owner ++ ";"))]) ++
    paramVariables c (if c.method.isStatic then 0 else 1) 0 params

/-- The parameters lie one after the other from a slot on. -/
theorem mem_paramVariables {number : Nat} {e : Nat × LocalVariable}
    (he : e ∈ paramVariables c slot number params) :
    slot ≤ e.1 ∧ e.1 < slot + (params.map FieldType.slots).sum := by
  induction params generalizing slot number with
  | nil => cases he
  | cons p params ih =>
      have hp := p.slots_pos
      rw [List.map_cons, List.sum_cons]
      rcases List.mem_cons.mp he with rfl | he
      · exact ⟨Nat.le_refl _, by omega⟩
      · have hrest := ih he
        omega

theorem pairwise_paramVariables (slot number : Nat) (params : List FieldType) :
    (paramVariables c slot number params).Pairwise (·.1 < ·.1) := by
  induction params generalizing slot number with
  | nil => exact .nil
  | cons p params ih =>
      refine .cons (fun e he => ?_) (ih _ _)
      have hp := p.slots_pos
      have hrest := mem_paramVariables he
      exact Nat.lt_of_lt_of_le (Nat.lt_add_of_pos_right hp) hrest.1

theorem pairwise_entries (c : LocalsContext) (params : List FieldType) :
    (c.entries params).Pairwise (·.1 < ·.1) := by
  rw [entries]
  split
  · exact pairwise_paramVariables _ _ _
  · refine .cons (fun e he => ?_) (pairwise_paramVariables _ _ _)
    exact (mem_paramVariables he).1

theorem entries_lt {e : Nat × LocalVariable} (he : e ∈ c.entries params) :
    e.1 < entrySize c.method params := by
  rw [entries] at he
  rw [entrySize]
  cases hstatic : c.method.isStatic with
  | true =>
      simp only [hstatic, if_true, List.nil_append] at he ⊢
      exact (mem_paramVariables he).2
  | false =>
      simp only [hstatic, Bool.false_eq_true, if_false, List.singleton_append] at he ⊢
      rcases List.mem_cons.mp he with rfl | he
      · exact Nat.lt_add_right _ Nat.one_pos
      · exact (mem_paramVariables he).2

theorem getElem?_foldl_set_of_ne {entries : List (Nat × LocalVariable)} (slots : List Slot)
    {k : Nat} (hne : ∀ e ∈ entries, e.1 ≠ k) :
    (entries.foldl (fun slots e => slots.set e.1 (.live e.2)) slots)[k]? = slots[k]? := by
  induction entries generalizing slots with
  | nil => rfl
  | cons e entries ih =>
      rw [List.foldl_cons, ih _ fun e he => hne e (List.mem_cons_of_mem _ he),
        List.getElem?_set_ne (hne e List.mem_cons_self)]

/-- Variables put into different slots are all there in the end. -/
theorem getElem?_foldl_set {entries : List (Nat × LocalVariable)} {slots : List Slot}
    (hentries : entries.Pairwise (·.1 < ·.1)) {e : Nat × LocalVariable} (he : e ∈ entries)
    (hlt : e.1 < slots.length) :
    (entries.foldl (fun slots e => slots.set e.1 (.live e.2)) slots)[e.1]? = some (.live e.2) := by
  induction hentries generalizing slots with
  | nil => cases he
  | cons hfirst _ ih =>
      rw [List.foldl_cons]
      rcases List.mem_cons.mp he with rfl | he
      · rw [getElem?_foldl_set_of_ne _ fun e' he' => (hfirst e' he').ne',
          List.getElem?_set_self hlt]
      · exact ih he (by rwa [List.length_set])

/-- On entry the receiver and every parameter are live. -/
theorem liveAt_entry (he : (slot, v) ∈ c.entries params) : c.LiveAt params 0 slot v := by
  refine ⟨?_, nofun⟩
  have hlt : slot < (List.replicate (max c.method.maxLocals.toNat (entrySize c.method params))
      Slot.unknown).length := by
    rw [List.length_replicate]
    exact (entries_lt he).trans_le (Nat.le_max_right _ _)
  rw [← getElem?_foldl_set (pairwise_entries c params) he hlt, slotAt?, passed, seed, entries]
  cases c.method.isStatic <;> rfl

/-! ### What loads keep -/

theorem Slot.ofVariable_injective : Function.Injective Slot.ofVariable := by
  rintro (_ | v) (_ | w) h <;> simp_all [Slot.ofVariable]

/-- A live slot goes through a load of its own with what the tables know there: it stays live
exactly when a variable is declared for it or a made-up one holds at the load. No other live slot is
touched. Over a run, a slot stays live up to the next frame that speaks of locals, store to it, or
load for which the tables know nothing, and only a load changes its variable; so the second of two
loads leaves the variable as the first left it unless the tables tell the two places apart, and the
receiver and the parameters, live on entry, are still live after their first load. What a query
answers is what the slots hold then. -/
theorem loads_keep_known (c : LocalsContext) :
    (∀ w position table, (c.localsAt position).answer w = .ok table →
      ∃ desc query, MethodDescriptor.parse c.method.desc = .ok desc ∧
        query < c.method.instructions.size ∧
        table = (c.passed desc.params (query + 1)).2.slots.map Slot.report) ∧
    ∀ params,
      (∀ position s v, c.Loads position s → c.seenAt? params position s.toNat = some (.live v) →
        c.slotAt? params (position + 1) s.toNat = some (.ofVariable (c.variableAt position s)) ∧
        ((∃ w, c.slotAt? params (position + 1) s.toNat = some (.live w)) ↔ c.Knows position s)) ∧
      (∀ position s k v, c.Loads position s → s.toNat ≠ k →
        c.seenAt? params position k = some (.live v) →
        c.slotAt? params (position + 1) k = some (.live v)) ∧
      (∀ start stop k v, start ≤ stop → c.LiveAt params start k v →
        c.SparedBetween k start stop →
        ∃ w, c.LiveAt params stop k w ∧ (w = v ∨ ∃ r s, start ≤ r ∧ r < stop ∧ s.toNat = k ∧
          c.Loads r s ∧ c.variableAt r s = some w)) ∧
      (∀ first second s v, first < second → c.Loads first s → c.Loads second s →
        c.seenAt? params first s.toNat = some (.live v) → c.Knows first s →
        c.SparedBetween s.toNat (first + 1) second →
        (c.slotAt? params (second + 1) s.toNat = c.slotAt? params (first + 1) s.toNat ↔
          c.variableAt second s = c.variableAt first s)) ∧
      ∀ position s v, (s.toNat, v) ∈ c.entries params → c.Loads position s →
        c.SparedBetween s.toNat 0 position →
        ((∃ w, c.slotAt? params (position + 1) s.toNat = some (.live w)) ↔ c.Knows position s) := by
  refine ⟨fun w position table => localsAt_eq_report, fun params => ?_⟩
  -- Each part is about a load that sees a live slot.
  have hload {position s v} (hloads : c.Loads position s)
      (hseen : c.seenAt? params position s.toNat = some (.live v)) :
      c.slotAt? params (position + 1) s.toNat = some (.ofVariable (c.variableAt position s)) :=
    (slotAt?_load hloads hseen).trans (congrArg some (loaded_live s v))
  have hiff {position s v} (hloads : c.Loads position s)
      (hseen : c.seenAt? params position s.toNat = some (.live v)) :
      (∃ w, c.slotAt? params (position + 1) s.toNat = some (.live w)) ↔ c.Knows position s := by
    simp only [hload hloads hseen, Option.some.injEq, Slot.exists_ofVariable, isSome_variableAt]
  refine ⟨fun position s v hloads hseen => ⟨hload hloads hseen, hiff hloads hseen⟩,
    fun position s k v hloads hne hlive => slotAt?_load_of_ne hloads hne hlive,
    fun start stop k v hle hlive hspared => hlive.through hle hspared, ?_, ?_⟩
  · intro first second s v hlt hfirst hsecond hseen hknown hspared
    obtain ⟨w, hw⟩ := (hiff hfirst hseen).mpr hknown
    -- The first load leaves no store behind, so the slot is live up to the second.
    have hlive : c.LiveAt params (first + 1) s.toNat w := by
      refine ⟨hw, ?_⟩
      obtain ⟨op, hi, hop⟩ := hfirst
      rw [passed_succ params hi, meet]
      simp only [hop, if_true]
      nofun
    obtain ⟨u, hu, -⟩ := hlive.through hlt hspared
    rw [hload hsecond hu.seen, hload hfirst hseen, Option.some.injEq,
      Slot.ofVariable_injective.eq_iff]
  · intro position s v hentry hloads hspared
    obtain ⟨u, hu, -⟩ := (liveAt_entry hentry).through (Nat.zero_le _) hspared
    exact hiff hloads hu.seen

/-- A method whose only declared variable is in slot 1, without types from an analysis. It loads that
slot, the receiver, and the slot again. -/
def partialContext : LocalsContext :=
  .new "a/A"
    { access := 0, name := "m", desc := "()V", maxStack := 16, maxLocals := 2
      instructions := .ofList [.label ⟨0⟩, .plain .iconst1, .var .istore 1, .var .iload 1,
        .plain .pop, .var .aload 0, .plain .pop, .var .iload 1, .plain .pop, .plain .returnVoid,
        .label ⟨1⟩]
      handlers := []
      declaredLocals := [⟨"x", "I", ⟨0⟩, ⟨1⟩, 1⟩] }
    none .standard

/-- The declared variable is the same after both loads; the receiver is live on entry and unknown to
the tables. -/
theorem loads_keep_known_partial :
    partialContext.Loads 3 1 ∧ partialContext.Loads 7 1 ∧
      partialContext.seenAt? [] 3 1 = some (.live ⟨"x", "I", 1, 0, 10⟩) ∧
      partialContext.Knows 3 1 ∧ partialContext.SparedBetween 1 4 7 ∧
      partialContext.slotAt? [] 8 1 = partialContext.slotAt? [] 4 1 ∧
      (∃ w, partialContext.slotAt? [] 4 1 = some (.live w)) ∧
      (0, ⟨"this", "La/A;", 0, 0, 11⟩) ∈ partialContext.entries [] ∧
      partialContext.SparedBetween 0 0 5 ∧ ¬partialContext.Knows 5 0 ∧
      ¬∃ w, partialContext.slotAt? [] 6 0 = some (.live w) := by
  have hfirst : partialContext.Loads 3 1 := ⟨.iload, by decide, by decide⟩
  have hsecond : partialContext.Loads 7 1 := ⟨.iload, by decide, by decide⟩
  have hreceiver : partialContext.Loads 5 0 := ⟨.aload, by decide, by decide⟩
  have hseen : partialContext.seenAt? [] 3 1 = some (.live ⟨"x", "I", 1, 0, 10⟩) := by
    decide +kernel
  have hknown : partialContext.Knows 3 1 := isSome_variableAt.mp (by decide +kernel)
  have hunknown : ¬partialContext.Knows 5 0 :=
    fun h => absurd (isSome_variableAt.mpr h) (by decide +kernel)
  have hentry : (0, ⟨"this", "La/A;", 0, 0, 11⟩) ∈ partialContext.entries [] := by
    decide +kernel
  have hbetween : partialContext.SparedBetween 1 4 7 := by
    intro r hle hlt i hi
    obtain rfl | rfl | rfl : r = 4 ∨ r = 5 ∨ r = 6 := by omega
    all_goals
      cases hi
      first | exact trivial | exact fun h => absurd h (by decide)
  have hbefore : partialContext.SparedBetween 0 0 5 := by
    intro r hle hlt i hi
    obtain rfl | rfl | rfl | rfl | rfl : r = 0 ∨ r = 1 ∨ r = 2 ∨ r = 3 ∨ r = 4 := by omega
    all_goals
      cases hi
      first | exact trivial | exact fun h => absurd h (by decide)
  obtain ⟨hself, -, -, htwice, hfirstLoad⟩ := (loads_keep_known partialContext).2 []
  have hsame : partialContext.variableAt 7 1 = partialContext.variableAt 3 1 := by
    decide +kernel
  exact ⟨hfirst, hsecond, hseen, hknown, hbetween,
    (htwice 3 7 1 _ (by decide) hfirst hsecond hseen hknown hbetween).mpr hsame,
    (hself 3 1 _ hfirst hseen).2.mpr hknown, hentry, hbefore, hunknown,
    fun hlive => hunknown ((hfirstLoad 5 0 _ hentry hreceiver hbefore).mp hlive)⟩

/-- The receiver is live when it is loaded and is gone from the answer at the load. -/
theorem load_loses_receiver :
    partialContext.Loads 5 0 ∧
      partialContext.seenAt? [] 5 0 = some (.live ⟨"this", "La/A;", 0, 0, 11⟩) ∧
      partialContext.slotAt? [] 6 0 = some .unknown ∧
      ((partialContext.localsAt 4).answer .live).toOption =
        some [some ⟨"this", "La/A;", 0, 0, 11⟩, some ⟨"x", "I", 1, 0, 10⟩] ∧
      ((partialContext.localsAt 5).answer .live).toOption =
        some [none, some ⟨"x", "I", 1, 0, 10⟩] :=
  ⟨⟨.aload, by decide, by decide⟩, by decide +kernel, by decide +kernel, by decide +kernel,
    by decide +kernel⟩

end LocalsContext

end Injection
