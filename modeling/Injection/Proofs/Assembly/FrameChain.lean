import Injection.Assembly.StackMap
import Injection.ClassFile.Code
import Injection.Proofs.Computation

/-!
Frames that follow on one another. The way a frame is written tells its locals from those of the
frame before it. The stack map has an entry for each frame, with no more than what the frame adds,
and the frames are found again from these entries and the locals on entry to the method.
-/

namespace Injection

namespace Instruction

def frame? : Instruction → Option Frame
  | frame f => some f
  | _ => none

variable {i : Instruction} {f : Frame}

theorem frame?_eq_some : i.frame? = some f ↔ i = .frame f := by
  cases i <;> simp [frame?]

theorem frame?_eq_none : i.frame? = none ↔ i.isFrame = false := by
  cases i <;> simp [frame?, isFrame]

theorem frame?_of_isReal (h : i.isReal = true) : i.frame? = none := by
  cases i <;> first | rfl | cases h

end Instruction

namespace FrameValue

@[simp] theorem slots_relabel (g : Label → Label) (v : FrameValue) :
    (v.relabel g).slots = v.slots := by
  cases v <;> rfl

theorem eq_uninitialized_of_relabel {g : Label → Label} {v : FrameValue} {l : Label}
    (h : v.relabel g = .uninitialized l) : ∃ l', v = .uninitialized l' ∧ g l' = l := by
  cases v with
  | uninitialized l' => exact ⟨l', rfl, FrameValue.uninitialized.inj h⟩
  | _ => cases h

end FrameValue

namespace Bytecode.FrameEntry

def relabel (g : Label → Label) (e : FrameEntry) : FrameEntry :=
  ⟨e.kind, e.locals.map (·.relabel g), e.stack.map (·.relabel g)⟩

def values (e : FrameEntry) : List FrameValue := e.locals ++ e.stack

theorem values_relabel (g : Label → Label) (e : FrameEntry) :
    (e.relabel g).values = e.values.map (·.relabel g) := by
  simp [values, relabel]

theorem mem_mentioned {e : FrameEntry} {o : Nat} :
    o ∈ e.mentioned ↔ .uninitialized ⟨o⟩ ∈ e.values := by
  rw [mentioned, List.mem_filterMap, values]
  constructor
  · rintro ⟨v, hv, ho⟩
    cases v with
    | uninitialized l =>
        cases ho
        exact hv
    | _ => cases ho
  · exact fun h => ⟨_, h, rfl⟩

/-- The offsets that an entry mentions once its labels are named by offsets. -/
theorem mem_mentioned_relabel {e : FrameEntry} {g : Label → Label} {o : Nat} :
    o ∈ (e.relabel g).mentioned ↔ ∃ l, .uninitialized l ∈ e.values ∧ g l = ⟨o⟩ := by
  rw [mem_mentioned, values_relabel, List.mem_map]
  constructor
  · rintro ⟨v, hv, ho⟩
    obtain ⟨l, rfl, hl⟩ := FrameValue.eq_uninitialized_of_relabel ho
    exact ⟨l, hv, hl⟩
  · rintro ⟨l, hl, ho⟩
    exact ⟨_, hl, congrArg FrameValue.uninitialized ho⟩

end Bytecode.FrameEntry

namespace Frame

/-! ### One entry for each slot, or one for each value -/

theorem expand_cons (v : FrameValue) (values : List FrameValue) :
    expand (v :: values) =
      if v.slots = 2 then v :: .top :: expand values else v :: expand values := by
  rw [expand, List.flatMap_cons, apply_ite (· ++ _)]
  rfl

theorem mem_expand {v : FrameValue} {values : List FrameValue} (h : v ∈ expand values) :
    v ∈ values ∨ v = .top := by
  obtain ⟨w, hw, hv⟩ := List.mem_flatMap.mp h
  split at hv
  · rcases List.mem_pair.mp hv with rfl | rfl
    · exact .inl hw
    · exact .inr rfl
  · rw [List.mem_singleton.mp hv]
    exact .inl hw

theorem mem_expand_of_mem {v : FrameValue} {values : List FrameValue} (h : v ∈ values) :
    v ∈ expand values := by
  refine List.mem_flatMap.mpr ⟨v, h, ?_⟩
  split <;> simp

theorem map_relabel_expand (g : Label → Label) (values : List FrameValue) :
    (expand values).map (·.relabel g) = expand (values.map (·.relabel g)) := by
  induction values with
  | nil => rfl
  | cons v values ih =>
      rw [List.map_cons, expand_cons, expand_cons, FrameValue.slots_relabel, ← ih]
      split <;> rfl

theorem compress_cons {v : FrameValue} {rest : List FrameValue} (h : v.slots ≠ 2) :
    compress (v :: rest) = v :: compress rest := by
  cases rest with
  | nil => rfl
  | cons w rest => exact if_neg h

/-- Nothing is lost by giving each value as many entries as it has slots. -/
@[simp] theorem compress_expand (values : List FrameValue) : compress (expand values) = values := by
  induction values with
  | nil => rfl
  | cons v values ih =>
      rw [expand_cons]
      split
      · next h => rw [compress, if_pos h, ih]
      · next h => rw [compress_cons h, ih]

theorem relabel_ofValues (g : Label → Label) (kind : FrameKind) (locals stack : List FrameValue) :
    (ofValues kind locals stack).relabel g =
      ofValues kind (locals.map (·.relabel g)) (stack.map (·.relabel g)) := by
  rw [ofValues, relabel, map_relabel_expand, ofValues]

/-! ### Entries of the stack map -/

/-- What is written of a frame: of its locals those it adds, or all if it is written in full. -/
def entry (f : Frame) : Bytecode.FrameEntry where
  kind := f.kind
  locals := match f.kind with
    | .append count => (compress f.locals).drop ((compress f.locals).length - count)
    | .full | .expanded => compress f.locals
    | .same | .same1 | .chop _ => []
  stack := f.stack

/-- A frame leads from the locals of the frame before it, one for each value, to its own. It adds
or drops one to three values, or is written in full with counts of two bytes. -/
inductive Follows : List FrameValue → Frame → List FrameValue → Prop
  | same (current : List FrameValue) : Follows current (ofValues .same current []) current
  | same1 (current : List FrameValue) (v : FrameValue) :
    Follows current (ofValues .same1 current [v]) current
  | append (current added : List FrameValue) (hpos : 1 ≤ added.length) (hle : added.length ≤ 3) :
    Follows current (ofValues (.append added.length) (current ++ added) []) (current ++ added)
  | chop (current : List FrameValue) (count : Nat) (hpos : 1 ≤ count) (hle : count ≤ 3)
    (hpresent : count ≤ current.length) :
    Follows current (ofValues (.chop count) (current.take (current.length - count)) [])
      (current.take (current.length - count))
  | full (current locals stack : List FrameValue) (hlocals : locals.length < 2 ^ 16)
    (hstack : stack.length < 2 ^ 16) : Follows current (ofValues .full locals stack) locals

inductive Chain : List FrameValue → List Frame → List FrameValue → Prop
  | nil (current : List FrameValue) : Chain current [] current
  | cons {current next last : List FrameValue} {f : Frame} {fs : List Frame}
    (hf : Follows current f next) (hfs : Chain next fs last) : Chain current (f :: fs) last

variable {current next last : List FrameValue} {f : Frame} {fs : List Frame} {v : FrameValue}

theorem entry_append (current added : List FrameValue) :
    (ofValues (.append added.length) (current ++ added) []).entry =
      ⟨.append added.length, added, []⟩ := by
  rw [entry, ofValues]
  simp only [compress_expand, List.length_append, Nat.add_sub_cancel, List.drop_left]

theorem entry_full (locals stack : List FrameValue) :
    (ofValues .full locals stack).entry = ⟨.full, locals, stack⟩ := by
  rw [entry, ofValues]
  simp only [compress_expand]

theorem Follows.locals_eq (h : Follows current f next) : f.locals = expand next := by
  cases h <;> rfl

theorem Follows.relabel_eq (h : Follows current f next) (g : Label → Label) :
    f.relabel g = ofValues f.kind (next.map (·.relabel g)) (f.stack.map (·.relabel g)) := by
  rw [← relabel_ofValues, ofValues, ← h.locals_eq]

/-- A decoder that knows the locals of the frame before finds those of the frame. -/
theorem Follows.localsAfter (h : Follows current f next) (g : Label → Label) :
    (f.entry.relabel g).localsAfter (current.map (·.relabel g)) =
      .ok (next.map (·.relabel g)) := by
  cases h with
  | same | same1 => rfl
  | append added hpos hle =>
      rw [entry_append, List.map_append]
      rfl
  | chop count hpos hle hpresent =>
      change (if (current.map (·.relabel g)).length < count then _ else Except.ok _) = _
      rw [List.length_map, if_neg (Nat.not_lt.mpr hpresent), List.map_take]
  | full locals stack => rw [entry_full]; rfl

/-- Frames that follow on one another are found again from their entries, wherever they stand. -/
theorem Chain.frames_eq (h : Chain current fs last) (g : Label → Label)
    {marks : List (Nat × Frame)} (hmarks : marks.map (·.2) = fs) :
    Bytecode.frames (current.map (·.relabel g))
        (marks.map fun (o, f) => (o, f.entry.relabel g)) =
      .ok (marks.map fun (o, f) => (o, f.relabel g)) := by
  induction h generalizing marks with
  | nil current =>
      rw [List.map_eq_nil_iff.mp hmarks]
      rfl
  | cons hf _ ih =>
      obtain ⟨⟨o, f⟩, marks, rfl, rfl, hrest⟩ := List.map_eq_cons_iff.mp hmarks
      rw [List.map_cons, Bytecode.frames, hf.localsAfter g]
      change (Bytecode.frames _ _ >>= fun rest => Except.ok _) = _
      rw [ih hrest]
      exact congrArg (fun f' => Except.ok ((o, f') :: _)) (hf.relabel_eq g).symm

theorem Chain.snoc (h : Chain current fs next) (hf : Follows next f last) :
    Chain current (fs ++ [f]) last := by
  induction h with
  | nil => exact .cons hf (.nil _)
  | cons hfirst _ ih => exact .cons hfirst (ih hf)

theorem Chain.exists_follows (h : Chain current fs last) (hf : f ∈ fs) :
    ∃ before after, Follows before f after := by
  induction h with
  | nil => cases hf
  | cons hfirst _ ih =>
      rcases List.mem_cons.mp hf with rfl | hf
      · exact ⟨_, _, hfirst⟩
      · exact ih hf

/-! ### The values of a frame -/

/-- No entry has values that its frame does not have. -/
theorem Follows.mem_of_mem_entry (h : Follows current f next) (hv : v ∈ f.entry.values) :
    v ∈ f.locals ++ f.stack := by
  cases h with
  | same | same1 | chop => exact List.mem_append_right _ hv
  | append added =>
      rw [entry_append, Bytecode.FrameEntry.values, List.append_nil] at hv
      exact List.mem_append_left _ (mem_expand_of_mem (List.mem_append_right _ hv))
  | full locals stack =>
      rw [entry_full] at hv
      rcases List.mem_append.mp hv with hv | hv
      · exact List.mem_append_left _ (mem_expand_of_mem hv)
      · exact List.mem_append_right _ hv

/-- The locals of a frame were there before or are written with it. -/
theorem Follows.mem_next (h : Follows current f next) (hv : v ∈ next) :
    v ∈ current ∨ v ∈ f.entry.values := by
  cases h with
  | same | same1 => exact .inl hv
  | append added =>
      rw [entry_append]
      exact (List.mem_append.mp hv).imp_right (List.mem_append_left _)
  | chop => exact .inl (List.mem_of_mem_take hv)
  | full locals stack =>
      rw [entry_full]
      exact .inr (List.mem_append_left _ hv)

theorem mem_entry_of_mem_stack (hv : v ∈ f.stack) : v ∈ f.entry.values :=
  List.mem_append_right _ hv

/-- Every value of a frame was there on entry or is written with this frame or one before it. -/
theorem Chain.mem_entry (h : Chain current fs last) (hf : f ∈ fs) (hv : v ∈ f.locals ++ f.stack)
    (htop : v ≠ .top) : v ∈ current ∨ ∃ g ∈ fs, v ∈ g.entry.values := by
  induction h with
  | nil => cases hf
  | @cons current next last g fs hfirst _ ih =>
      rcases List.mem_cons.mp hf with rfl | hf
      · rcases List.mem_append.mp hv with hv | hv
        · rw [hfirst.locals_eq] at hv
          exact (hfirst.mem_next ((mem_expand hv).resolve_right htop)).imp_right
            fun h => ⟨_, List.mem_cons_self, h⟩
        · exact .inr ⟨_, List.mem_cons_self, mem_entry_of_mem_stack hv⟩
      · rcases ih hf with hv | ⟨e, he, hv⟩
        · exact (hfirst.mem_next hv).imp_right fun h => ⟨_, List.mem_cons_self, h⟩
        · exact .inr ⟨e, List.mem_cons_of_mem _ he, hv⟩

/-! ### The locals on entry -/

/-- There is no fresh object among the locals on entry, other than the receiver. -/
theorem relabel_entryLocals {owner : String} {access : Access} {name desc : String}
    {locals : List FrameValue} (h : entryLocals owner access name desc = .ok locals)
    (hv : v ∈ locals) (g : Label → Label) : v.relabel g = v := by
  obtain ⟨d, -, h⟩ := bind_eq_ok.mp h
  cases h
  rcases List.mem_append.mp hv with hv | hv
  · split at hv
    · cases hv
    · split at hv <;> rw [List.mem_singleton.mp hv] <;> rfl
  · obtain ⟨t, -, rfl⟩ := List.mem_map.mp hv
    cases t with
    | base b => cases b <;> rfl
    | _ => rfl

end Frame

end Injection
