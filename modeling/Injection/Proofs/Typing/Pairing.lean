import Injection.Proofs.Typing.Slots

/-!
The second slots of longs and doubles in the frames of an analysis.

A store of two words unsets the slot after it, a store into a second slot unsets the first, and
merging keeps unset what is unset, so second slots stay unset. The exception is a constructor call:
it gives every copy of its receiver the type of the object made, and when the receiver is itself
unset, the second slots are among the copies. `IsHalf` is what both readings have in common.
-/

namespace Injection

/-! ### Second slots -/

/-- In a list of locals, the slot after a value of two words is there and holds a half. -/
def PairedBy (half : TypeValue → Prop) (locals : List TypeValue) : Prop :=
  ∀ slot v, locals[slot]? = some v → v.size = 2 → ∃ w, locals[slot + 1]? = some w ∧ half w

/-- What may stand in second slots: unset may, and a merge with anything keeps it so. -/
structure IsHalf (h : Hierarchy) (half : TypeValue → Prop) : Prop where
  unset : half .unset
  merge : ∀ a b, half a → half (h.merge a b)

def TypeValue.IsUnsetOrObject (v : TypeValue) : Prop := v = .unset ∨ ∃ desc, v = .reference desc

variable {h : Hierarchy} {half : TypeValue → Prop}

theorem isHalf_unset (h : Hierarchy) : IsHalf h (· = .unset) :=
  ⟨rfl, fun _ b ha => ha ▸ h.merge_unset_left b⟩

theorem isHalf_isUnsetOrObject (h : Hierarchy) : IsHalf h TypeValue.IsUnsetOrObject := by
  refine ⟨.inl rfl, ?_⟩
  rintro a b (rfl | ⟨x, rfl⟩)
  · exact .inl (h.merge_unset_left b)
  · unfold Hierarchy.merge
    split
    · exact .inr ⟨x, rfl⟩
    · split
      · rename_i heq _
        cases heq
      · exact .inr ⟨x, rfl⟩
      · exact .inr ⟨_, rfl⟩
      · exact .inl rfl

/-- Two words are left by a merge only where both values are of two words. -/
theorem size_of_merge {a b : TypeValue} (hsize : (h.merge a b).size = 2) :
    a.size = 2 ∧ b.size = 2 := by
  unfold Hierarchy.merge at hsize
  split at hsize
  · rename_i heq
    exact ⟨hsize, heq ▸ hsize⟩
  · split at hsize
    all_goals simp [TypeValue.size] at hsize

namespace PairedBy

theorem nil : PairedBy half [] := by simp [PairedBy]

theorem append {xs ys : List TypeValue} (hxs : PairedBy half xs) (hys : PairedBy half ys) :
    PairedBy half (xs ++ ys) := by
  intro slot v hv hsize
  rcases Nat.lt_or_ge slot xs.length with hlt | hge
  · rw [List.getElem?_append_left hlt] at hv
    obtain ⟨w, hw, hhalf⟩ := hxs slot v hv hsize
    obtain ⟨hlt', -⟩ := List.getElem?_eq_some_iff.mp hw
    exact ⟨w, (List.getElem?_append_left hlt').trans hw, hhalf⟩
  · rw [List.getElem?_append_right hge] at hv
    obtain ⟨w, hw, hhalf⟩ := hys _ v hv hsize
    refine ⟨w, ?_, hhalf⟩
    rwa [List.getElem?_append_right (Nat.le_succ_of_le hge), Nat.succ_sub hge]

/-- Values of one word need no second slot. -/
theorem of_size {xs : List TypeValue} (hxs : ∀ v ∈ xs, v.size ≠ 2) : PairedBy half xs :=
  fun _ v hv hsize => absurd hsize (hxs v (List.mem_of_getElem? hv))

theorem pair (hunset : half .unset) (v : TypeValue) : PairedBy half [v, .unset] := by
  intro slot u hu hsize
  match slot with
  | 0 => exact ⟨.unset, rfl, hunset⟩
  | 1 =>
      cases hu
      cases hsize
  | _ + 2 => cases hu

theorem flatMap {α : Type} {f : α → List TypeValue} {xs : List α}
    (hf : ∀ x ∈ xs, PairedBy half (f x)) : PairedBy half (xs.flatMap f) := by
  induction xs with
  | nil => exact nil
  | cons x xs ih =>
      rw [List.flatMap_cons]
      exact (hf x (by simp)).append (ih fun y hy => hf y (by simp [hy]))

theorem zipWith_merge (hhalf : IsHalf h half) {known incoming : List TypeValue}
    (hknown : PairedBy half known) (hincoming : PairedBy half incoming) :
    PairedBy half (known.zipWith h.merge incoming) := by
  intro slot v hv hsize
  rw [List.getElem?_zipWith_eq_some] at hv
  obtain ⟨a, b, ha, hb, rfl⟩ := hv
  obtain ⟨hasize, hbsize⟩ := size_of_merge hsize
  obtain ⟨w, hw, hhw⟩ := hknown slot a ha hasize
  obtain ⟨u, hu, -⟩ := hincoming slot b hb hbsize
  exact ⟨h.merge w u, List.getElem?_zipWith_eq_some.mpr ⟨w, u, hw, hu, rfl⟩, hhalf.merge w u hhw⟩

/-- Putting an object in the place of every copy of a value. -/
theorem replaced {locals : List TypeValue} {old : TypeValue} {made : String}
    (hlocals : PairedBy half locals) (hmade : half old → half (.object made)) :
    PairedBy half (locals.map fun v => if v = old then .object made else v) := by
  intro slot v hv hsize
  rw [List.getElem?_map, Option.map_eq_some_iff] at hv
  obtain ⟨u, hu, rfl⟩ := hv
  split at hsize
  · cases hsize
  · obtain ⟨w, hw, hhalf⟩ := hlocals slot u hu hsize
    refine ⟨_, by rw [List.getElem?_map, hw]; rfl, ?_⟩
    dsimp only
    split
    · rename_i hold
      exact hmade (hold ▸ hhalf)
    · exact hhalf

end PairedBy

/-! ### Constructor calls -/

/-- The receiver of a constructor call, which becomes an object with all its copies. -/
def Instruction.constructed? : Instruction → TypeFrame → Option TypeValue
  | .method op _ name desc _, f =>
    if op = .invokespecial ∧ name = "<init>" then
      match MethodDescriptor.parse desc with
      | .ok m => f.stack[m.params.length]?
      | .error _ => none
    else none
  | _, _ => none

def Frames.constructed? (frames : Frames) (is : InstructionList) (position : Nat) :
    Option TypeValue :=
  (is.get? position).bind fun i => (frames.at? position).bind i.constructed?

def Frames.NoUnsetReceiver (m : Method) (frames : Frames) : Prop :=
  ∀ position < m.instructions.size, frames.constructed? m.instructions position ≠ some .unset

instance (m : Method) (frames : Frames) : Decidable (frames.NoUnsetReceiver m) :=
  inferInstanceAs (Decidable (∀ position < m.instructions.size, _))

theorem Instruction.exists_depth_of_constructed? {i : Instruction} {f : TypeFrame} {v : TypeValue}
    (hi : i.constructed? f = some v) :
    ∃ depth : Nat, ∀ g : TypeFrame, i.constructed? g = g.stack[depth]? := by
  cases i with
  | method op target name desc interface =>
      simp only [Instruction.constructed?] at hi ⊢
      split at hi
      · rename_i hinit
        split at hi
        · rename_i d hparse
          exact ⟨d.params.length, fun g => by rw [if_pos hinit]⟩
        · cases hi
      · cases hi
  | _ => cases hi

/-! ### Instructions -/

namespace Typing

/-- All slots after a store. -/
theorem getElem?_store {locals locals' : List TypeValue} {slot : Nat} {v : TypeValue}
    (hs : store locals slot v = some locals') (k : Nat) :
    locals'[k]? =
      if k = slot then some v
      else if k = slot + 1 ∧ v.size = 2 then some .unset
      else if k + 1 = slot ∧ (locals[k]?).any (·.size = 2) then some .unset
      else locals[k]? := by
  unfold store at hs
  split at hs
  · cases hs
  rename_i hfits
  rw [Nat.not_lt] at hfits
  have hpos : 0 < v.size := by
    unfold TypeValue.size
    split <;> omega
  simp only [Option.some.injEq] at hs
  subst hs
  generalize hfirst : (if (decide (slot ≠ 0) && (locals[slot - 1]?).any (·.size = 2)) = true then
    locals.set (slot - 1) .unset else locals) = first
  have hlen : first.length = locals.length := by
    rw [← hfirst]
    split <;> simp
  have hget : first[k]? =
      if k + 1 = slot ∧ (locals[k]?).any (·.size = 2) then some .unset else locals[k]? := by
    rw [← hfirst]
    by_cases hk : k + 1 = slot
    · subst hk
      have hlt : k < locals.length := by omega
      split <;> simp_all
    · have hno : ¬ (k + 1 = slot ∧ (locals[k]?).any (·.size = 2) = true) := fun hboth => hk hboth.1
      rw [if_neg hno]
      split
      · rename_i hsplit
        rw [Bool.and_eq_true, decide_eq_true_eq] at hsplit
        exact List.getElem?_set_ne (by omega)
      · rfl
  -- The slot in front is cleared first, as seen in `hget`; the value and its second half come after.
  by_cases hwide : v.size = 2
  · rw [if_pos hwide, List.getElem?_set, List.getElem?_set, hget, List.length_set, hlen]
    grind
  · rw [if_neg hwide, List.getElem?_set, hget, hlen]
    grind

theorem pairedBy_store (hunset : half .unset) {locals locals' : List TypeValue} {slot : Nat}
    {v : TypeValue} (hlocals : PairedBy half locals) (hs : store locals slot v = some locals') :
    PairedBy half locals' := by
  intro k u hu hsize
  rw [getElem?_store hs k] at hu
  rw [getElem?_store hs (k + 1)]
  by_cases hk : k = slot
  · rw [if_pos hk, Option.some.injEq] at hu
    rw [if_neg (by omega), if_pos ⟨by omega, hu ▸ hsize⟩]
    exact ⟨_, rfl, hunset⟩
  · rw [if_neg hk] at hu
    split at hu
    · cases hu
      cases hsize
    · rename_i hnext
      split at hu
      · cases hu
        cases hsize
      · rename_i hsplit
        -- A value of two words right before the slot would have been split.
        have hbefore : k + 1 ≠ slot := fun heq => hsplit ⟨heq, by simp [hu, hsize]⟩
        rw [if_neg hbefore, if_neg (by omega)]
        split
        · exact ⟨_, rfl, hunset⟩
        · exact hlocals k u hu hsize

/-- All that an instruction can do to the locals. -/
theorem locals_of_execute {owner : String} {position : Nat} {i : Instruction} {f f' : TypeFrame}
    (hexec : execute owner position i f = .ok f') :
    f'.locals = f.locals ∨
      (∃ slot v, store f.locals slot v = some f'.locals) ∨
      ∃ old made, i.constructed? f = some old ∧
        f'.locals = f.locals.map fun v => if v = old then .object made else v := by
  cases effect_of_execute hexec with
  | nothing | plain | exchange => exact .inl rfl
  | store hstack hs => exact .inr (.inl ⟨_, _, hs⟩)
  | call hi hparse hcall =>
      obtain ⟨g, rfl, ⟨hsame, -⟩ | ⟨receiver, rest, made, hinit, hdrop, -, rfl⟩⟩ := call_cases hcall
      · exact .inl hsame
      · refine .inr (.inr ⟨receiver, made, ?_, rfl⟩)
        simp only [hi, Instruction.constructed?, if_pos hinit, hparse]
        rw [← List.head?_drop, hdrop, List.head?_cons]

/-- An instruction keeps second slots, unless it is a constructor call that fills them. -/
theorem pairedBy_execute (hunset : half .unset) {owner : String} {position : Nat}
    {i : Instruction} {f f' : TypeFrame} (hf : PairedBy half f.locals)
    (hcalls : ∀ old made, i.constructed? f = some old → half old → half (.object made))
    (hexec : execute owner position i f = .ok f') : PairedBy half f'.locals := by
  rcases locals_of_execute hexec with hsame | ⟨slot, v, hstore⟩ | ⟨old, made, hold, hmap⟩
  · rwa [hsame]
  · exact pairedBy_store hunset hf hstore
  · rw [hmap]
    exact hf.replaced (hcalls old made hold)

end Typing

/-! ### The loop -/

namespace Machine

variable {c : AnalysisContext} {m m' : Machine} {position : Nat}

def Paired (half : TypeValue → Prop) (m : Machine) : Prop :=
  ∀ i f, m.frameAt? i = some f → PairedBy half f.locals

def Spares (half : TypeValue → Prop) (c : AnalysisContext) (m : Machine) : Prop :=
  ∀ position f i, m.frameAt? position = some f → c.instructions.get? position = some i →
    ∀ old made, i.constructed? f = some old → half old → half (.object made)

theorem Paired.mergeInto (hhalf : IsHalf h half) (hm : m.Paired half) {incoming : TypeFrame}
    (hin : PairedBy half incoming.locals) (hok : m.mergeInto h position incoming = .ok m') :
    m'.Paired half := by
  have hput {frame : TypeFrame} (hframe : PairedBy half frame.locals) :
      (m.put position frame).Paired half :=
    fun i _ hf => (frameAt?_put_cases hf).elim (· ▸ hframe) (hm i _)
  rcases mergeInto_cases hok with ⟨-, rfl⟩ | ⟨known, hknown, -, ⟨-, rfl⟩ | ⟨-, rfl⟩⟩
  · exact hput hin
  · exact hm
  · exact hput (.zipWith_merge hhalf (hm position known hknown) hin)

theorem Paired.step (hhalf : IsHalf c.hierarchy half) (hm : m.Paired half)
    (hspares : m.Spares half c) (hok : m.step c = .ok m') : m'.Paired half := by
  rcases step_cases hok with ⟨-, rfl⟩ | ⟨position, pending, -, h | ⟨-, rfl⟩⟩
  · exact hm
  · obtain ⟨before, i, hbefore, hi, hok⟩ := h
    have hlocals := hm position before hbefore
    refine (propagate_edges (Paired half) (fun _ _ _ => True)
      (show Paired half { m with pending } from hm) hi
      (fun target incoming hcarries s t hs hmerge => ?_) hok).1
    refine ⟨hs.mergeInto hhalf ?_ hmerge, trivial, fun _ _ => id⟩
    cases hcarries with
    | handler => exact hlocals
    | target hi hexec =>
        exact Typing.pairedBy_execute hhalf.unset hlocals (hspares position before _ hbefore hi) hexec
    | next hi hexec =>
        exact Typing.pairedBy_execute hhalf.unset hlocals (hspares position before _ hbefore hi) hexec
  · exact hm

/-- A receiver that is unset stays unset to the end, so that no call with one at the end means that
there never was one. -/
theorem Spares.of_step (hc : c.Guards) (hsize : m.frames.size = c.instructions.size)
    (hok : m.step c = .ok m') (hm' : m'.Spares (· = .unset) c) : m.Spares (· = .unset) c := by
  rintro position f i hf hi old made hold rfl
  obtain ⟨depth, hdepth⟩ := Instruction.exists_depth_of_constructed? hold
  obtain ⟨f', hf', hstays⟩ := (step_frames hc hsize hok).2 position f hf
  refine hm' position f' i hf' hi .unset made ?_ rfl
  rw [hdepth] at hold ⊢
  exact hstays depth hold

/-- The invariant of the loop, on frames of `slots` locals. What the constructor calls found so far
say of second slots is left open until the end, where the receivers are known. -/
structure WordPairs (c : AnalysisContext) (slots : Nat) (m : Machine) : Prop where
  shaped : m.Shaped c.instructions.size slots
  loose : m.Paired TypeValue.IsUnsetOrObject
  strict : m.Spares (· = .unset) c → m.Paired (· = .unset)

theorem WordPairs.step (hc : c.Guards) {slots : Nat} (hm : m.WordPairs c slots)
    (hok : m.step c = .ok m') : m'.WordPairs c slots := by
  refine ⟨hm.shaped.step hok, ?_, fun hspares => ?_⟩
  · exact hm.loose.step (isHalf_isUnsetOrObject _) (fun _ _ _ _ _ _ _ _ _ => .inr ⟨_, rfl⟩) hok
  · have hspares := hspares.of_step hc hm.shaped.size hok
    exact (hm.strict hspares).step (isHalf_unset _) hspares hok

end Machine

/-! ### The entry and the answer -/

namespace Analysis

variable {owner : String} {m : Method} {entry : TypeFrame}

theorem pairedBy_entry (hunset : half .unset) (he : TypeFrame.entry owner m = .ok entry) :
    PairedBy half entry.locals := by
  unfold TypeFrame.entry at he
  split at he
  · cases he
  · cases he
    refine .append (.append ?_ (.flatMap fun p _ => ?_)) ?_
    · refine .of_size fun v hv => ?_
      revert hv
      split
      · simp
      · split <;> simp +contextual [TypeValue.size, TypeValue.object]
    · dsimp only
      split
      · exact .pair hunset _
      · exact .of_size (by simpa using ‹_›)
    · refine .of_size fun v hv => ?_
      rw [List.eq_of_mem_replicate hv]
      decide

theorem wordPairs_start {c : AnalysisContext} (hc : context owner m h = .ok c)
    (he : TypeFrame.entry owner m = .ok entry) {start : Machine}
    (hstart : (Machine.initial m.instructions.size).mergeInto h 0 entry = .ok start) :
    start.WordPairs c entry.locals.length := by
  obtain ⟨-, hinstructions, -, -⟩ := context_eq_ok hc
  have hshaped : (Machine.initial m.instructions.size).Shaped c.instructions.size
      entry.locals.length :=
    ⟨by simp [Machine.initial, hinstructions], by simp [frameAt?_initial]⟩
  have hempty (half : TypeValue → Prop) : (Machine.initial m.instructions.size).Paired half := by
    simp [Machine.Paired, frameAt?_initial]
  refine ⟨hshaped.mergeInto rfl hstart, ?_, fun _ => ?_⟩
  · exact (hempty _).mergeInto (isHalf_isUnsetOrObject h) (pairedBy_entry (.inl rfl) he) hstart
  · have hhalf := isHalf_unset h
    exact (hempty _).mergeInto hhalf (pairedBy_entry hhalf.unset he) hstart

/-- What the frames say of receivers at the end. -/
theorem spares_of_noUnsetReceiver {c : AnalysisContext} (hc : context owner m h = .ok c)
    {machine : Machine} (hreceivers : Frames.NoUnsetReceiver m machine.frames) :
    machine.Spares (· = .unset) c := by
  obtain ⟨-, hinstructions, -, -⟩ := context_eq_ok hc
  rintro position f i hf hi old made hold rfl
  rw [hinstructions] at hi
  have hlt : position < m.instructions.size := (Array.getElem?_eq_some_iff.mp hi).1
  have hat : Frames.at? machine.frames position = some f := hf
  refine absurd ?_ (hreceivers position hlt)
  rw [Frames.constructed?, hi, hat]
  exact hold

/-- The three things that the loop's invariant says of the frames at the end. -/
theorem analyze_pairedBy : (analyze owner m h).Ensures fun frames =>
    ∀ position f, frames.at? position = some f →
      (∃ d, MethodDescriptor.parse m.desc = .ok d ∧
        f.locals.length = max m.maxLocals.toNat (Simulation.entrySize m d.params)) ∧
      PairedBy TypeValue.IsUnsetOrObject f.locals ∧
      (frames.NoUnsetReceiver m → PairedBy (· = .unset) f.locals) := by
  refine analyze_ensures (fun _ => by simp [Frames.at?])
    fun entry c start fuel _ hentry hc hstart => ?_
  have hguards := (covered_of_context hc).handler
  refine .mono (Machine.run_ensures (Machine.WordPairs c entry.locals.length)
    (fun _ _ hm hok => hm.step hguards hok) (wordPairs_start hc hentry hstart) fuel 0)
    fun machine hm position f hf => ?_
  obtain ⟨d, hparse, hlength⟩ := length_entry hentry
  exact ⟨⟨d, hparse, (hm.1.shaped.locals position f hf).trans hlength⟩,
    hm.1.loose position f hf,
    fun hreceivers => hm.1.strict (spares_of_noUnsetReceiver hc hreceivers) position f hf⟩

/-- In every frame that an analysis gives there is a slot for each local that the method declares
and for each word of the receiver and the parameters, and after a long or a double comes a slot
that is unset, or holds an object that a constructor call on an unset value has left there. -/
theorem analyze_pairs_words (owner : String) (m : Method) (h : Hierarchy) {w : Watch}
    {frames : Frames} (hok : (analyze owner m h).answer w = .ok frames) {position : Nat}
    {f : TypeFrame} (hf : frames.at? position = some f) :
    (∃ d, MethodDescriptor.parse m.desc = .ok d ∧
      f.locals.length = max m.maxLocals.toNat (Simulation.entrySize m d.params)) ∧
    ∀ slot v, f.locals[slot]? = some v → v.size = 2 →
      ∃ half, f.locals[slot + 1]? = some half ∧ half.IsUnsetOrObject ∧
        (frames.NoUnsetReceiver m → half = .unset) := by
  obtain ⟨hlength, hloose, hstrict⟩ := analyze_pairedBy.of_answer hok position f hf
  refine ⟨hlength, fun slot v hv hsize => ?_⟩
  obtain ⟨half, hhalf, hkind⟩ := hloose slot v hv hsize
  refine ⟨half, hhalf, hkind, fun hreceivers => ?_⟩
  obtain ⟨half', hhalf', hunset⟩ := hstrict hreceivers slot v hv hsize
  cases hhalf.symm.trans hhalf'
  exact hunset

def longBeforeObject : Method where
  access := 0x0008
  name := "m"
  desc := "(J)V"
  maxStack := 2
  maxLocals := 3
  instructions := .ofList [.type .newObject "a/B", .plain .dup,
    .method .invokespecial "a/B" "<init>" "()V" false, .var .astore 2, .plain .returnVoid]
  handlers := []
  declaredLocals := []

/-- The slot after the long stays unset while the object is made. -/
theorem pairs_longBeforeObject :
    ∃ frames f, (analyze "a/A" longBeforeObject .unknown).answer .live = .ok frames ∧
      frames.at? 4 = some f ∧ f.locals = [.long, .unset, .reference "La/B;"] ∧
      frames.NoUnsetReceiver longBeforeObject ∧
      f.locals[0]? = some .long ∧ f.locals[1]? = some .unset := by
  let frames : Frames := #[some ⟨[.long, .unset, .unset], []⟩,
    some ⟨[.long, .unset, .unset], [.fresh 0]⟩,
    some ⟨[.long, .unset, .unset], [.fresh 0, .fresh 0]⟩,
    some ⟨[.long, .unset, .unset], [.reference "La/B;"]⟩,
    some ⟨[.long, .unset, .reference "La/B;"], []⟩]
  have hok : (analyze "a/A" longBeforeObject .unknown).answer .live = .ok frames := by
    decide +kernel
  have hreceivers : frames.NoUnsetReceiver longBeforeObject := by decide +kernel
  have hat : frames.at? 4 = some ⟨[.long, .unset, .reference "La/B;"], []⟩ := rfl
  refine ⟨frames, _, hok, hat, rfl, hreceivers, rfl, ?_⟩
  obtain ⟨half, hhalf, -, hunset⟩ :=
    (analyze_pairs_words "a/A" longBeforeObject .unknown hok hat).2 0 .long rfl rfl
  exact hhalf.trans (congrArg some (hunset hreceivers))

/-- Calls a constructor on the unset second slot of its parameter. -/
def constructedHalf : Method where
  access := 0x0008
  name := "m"
  desc := "(J)V"
  maxStack := 1
  maxLocals := 2
  instructions := .ofList [.var .aload 1, .method .invokespecial "a/B" "<init>" "()V" false,
    .plain .returnVoid]
  handlers := []
  declaredLocals := []

/-- A constructor call on an unset value leaves an object in the second slot of a long. -/
theorem second_slot_constructed :
    ∃ frames f, (analyze "a/A" constructedHalf .unknown).answer .live = .ok frames ∧
      frames.at? 2 = some f ∧ f.locals[0]? = some .long ∧
      f.locals[1]? = some (.reference "La/B;") := by
  let frames : Frames := #[some ⟨[.long, .unset], []⟩, some ⟨[.long, .unset], [.unset]⟩,
    some ⟨[.long, .reference "La/B;"], []⟩]
  have hok : (analyze "a/A" constructedHalf .unknown).answer .live = .ok frames := by
    decide +kernel
  exact ⟨frames, ⟨[.long, .reference "La/B;"], []⟩, hok, rfl, rfl, rfl⟩

end Analysis

end Injection
