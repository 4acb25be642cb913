import Injection.Proofs.Assembly.Cutting
import Injection.Proofs.Assembly.Writing

/-!
What every class is checked for, whatever it holds. No more slots are taken in the pool than two
bytes can count, no code is longer than 65535 bytes, every label that is written is placed, a branch
reaches its target, and the arguments of an interface call can be counted. What does not pass is
refused with an error.
-/

namespace Injection

def Frame.written (f : Frame) : List FrameValue :=
  match f.kind with
  | .same | .chop _ => []
  | .same1 => [f.stack.headD .top]
  | .append count => (compress f.locals).drop ((compress f.locals).length - count)
  | .full | .expanded => compress f.locals ++ f.stack

def Instruction.Writes (l : Label) : Instruction → Prop
  | line _ start => l = start
  | frame f => .uninitialized l ∈ f.written
  | i => l ∈ i.cut.targets

namespace Method

/-- A label whose offset is written for a method. -/
inductive Writes (m : Method) (l : Label) : Prop
  | node {i : Instruction} (hi : i ∈ m.instructions.nodes.toList) (hl : i.Writes l)
  | declaredLocal {d : DeclaredLocal} (hd : d ∈ m.declaredLocals) (hl : l ∈ [d.start, d.stop])
  | handler {h : ExceptionHandler} (hh : h ∈ m.handlers) (hl : l ∈ [h.start, h.stop, h.handler])

/-- The nodes of a method stand in places in which they can be encoded. As long as no offset wraps,
they stand one after the other. -/
structure IsChecked (m : Method) (placed : List PlacedNode) : Prop where
  nodes : placed.map (·.node) = m.instructions.nodes.toList
  run : m.OffsetsFit → PlacedNode.Run 0 placed (PlacedNode.endOffset placed).toNat
  size : (PlacedNode.endOffset placed).toNat ≤ 0xffff
  labels : ∀ l, m.Writes l → ∃ n, PlacedNode.labelOffset placed l = .ok n
  reach : ∀ p ∈ placed, ∀ op l n, p.node = .jump op l → PlacedNode.labelOffset placed l = .ok n →
    -0x8000 ≤ (Instruction.distance p.offset n).toInt ∧
      (Instruction.distance p.offset n).toInt < 0x8000
  descriptors : ∀ p ∈ placed, ∀ owner name desc interface,
    p.node = .method .invokeinterface owner name desc interface →
      ∃ d, MethodDescriptor.parse desc = .ok d

end Method

namespace Instruction

variable {labelOffset : Label → Except AssembleError Nat} {index : UInt16} {offset : UInt32}
  {bytes : List UInt8}

/-- An instruction can only be encoded if the labels that are written of it are placed, those of a
switch without a key left out. -/
theorem labelOffset_of_encode_cut {i : Instruction}
    (h : i.encode labelOffset index offset = .ok bytes) :
    ∀ l ∈ i.cut.targets, ∃ n, labelOffset l = .ok n := by
  intro l hl
  cases i with
  | jump op target =>
      obtain ⟨n, hn, -⟩ := encode_jump h
      cases List.mem_singleton.mp hl
      exact ⟨n, hn⟩
  | tableSwitch lo hi default targets =>
      obtain ⟨n, ts, hn, hts, -⟩ := encode_tableSwitch h
      rcases List.mem_cons.mp hl with rfl | hl
      · exact ⟨n, hn⟩
      · obtain ⟨n, -, hn⟩ := (forall₂_exists hts).1 l hl
        exact ⟨n, hn⟩
  | lookupSwitch default keys targets =>
      obtain ⟨_, hdefault, h⟩ := bind_eq_ok.mp h
      obtain ⟨parts, hparts, -⟩ := bind_eq_ok.mp h
      rcases List.mem_cons.mp hl with rfl | hl
      · obtain ⟨n, hn, -⟩ := far_eq_ok hdefault
        exact ⟨n, hn⟩
      · rw [← zip_take] at hparts
        have hsnd : (keys.zip (targets.take keys.length)).map (·.2) = targets.take keys.length :=
          List.map_snd_zip (List.length_take_le ..)
        rw [← hsnd] at hl
        obtain ⟨pair, hpair, rfl⟩ := List.mem_map.mp hl
        obtain ⟨part, -, hpart⟩ := (forall₂_exists (mapM_eq_ok hparts)).1 pair hpair
        obtain ⟨_, hfar, -⟩ := bind_eq_ok.mp hpart
        obtain ⟨n, hn, -⟩ := far_eq_ok hfar
        exact ⟨n, hn⟩
  | _ => cases hl

theorem parse_of_encode {owner name desc : String} {interface : Bool}
    (h : encode labelOffset index offset (.method .invokeinterface owner name desc interface) =
      .ok bytes) : ∃ d, MethodDescriptor.parse desc = .ok d := by
  simp only [encode, if_true] at h
  split at h
  · next d hd => exact ⟨d, hd⟩
  · cases h

end Instruction

namespace PlacedNode

theorem exists_encode {placed : List PlacedNode} {code : List UInt8} {p : PlacedNode}
    (h : encodeAll placed = .ok code) (hp : p ∈ placed) :
    ∃ bytes, p.node.encode (labelOffset placed) p.index p.offset = .ok bytes := by
  obtain ⟨parts, hparts, -⟩ := encodeAll_eq_ok h
  obtain ⟨part, -, hpart⟩ := (forall₂_exists hparts).1 p hp
  exact ⟨part, hpart⟩

/-- The labels that are written for a node are placed if its line, its frame or its instruction
could be written. -/
theorem exists_labelOffset_of_writes {labelOffset : Label → Except AssembleError Nat}
    {p : PlacedNode} {bytes : List UInt8} {l : Label}
    (hline : ∀ n start, p.node = .line n start → ∃ n, labelOffset start = .ok n)
    (hframe : ∀ f, p.node = .frame f → ∀ l, .uninitialized l ∈ f.written →
      ∃ n, labelOffset l = .ok n)
    (hcode : p.node.encode labelOffset p.index p.offset = .ok bytes) (hl : p.node.Writes l) :
    ∃ n, labelOffset l = .ok n := by
  have htargets := Instruction.labelOffset_of_encode_cut hcode l
  cases hnode : p.node with
  | line n start =>
      rw [hnode] at hl
      cases show l = start from hl
      exact hline n l hnode
  | frame f =>
      rw [hnode] at hl
      exact hframe f hnode l hl
  | _ =>
      rw [hnode] at hl htargets
      exact htargets hl

end PlacedNode

namespace Assembler

variable {α β : Type} {x : Assembler α} {f : α → Assembler β} {P Q : Prop}

/-- Where `x` succeeds, the pool has not outgrown its count, and `P` has been checked. -/
def Checks (x : Assembler α) (P : Prop) : Prop :=
  ∀ t a t', t.slots.length ≤ 65535 → x t = .ok (a, t') → t'.slots.length ≤ 65535 ∧ P

namespace Checks

theorem pure {a : α} (h : P) : Checks (pure a : Assembler α) P := by
  rintro t _ _ ht ⟨⟩
  exact ⟨ht, h⟩

theorem throw (e : AssembleError) : Checks (MonadExcept.throw e : Assembler α) P := by
  rintro t _ _ _ ⟨⟩

theorem ofExcept (r : Except AssembleError α) : Checks (ofExcept r) (∃ a, r = .ok a) := by
  intro t a t' ht hrun
  cases r with
  | error e => cases hrun
  | ok a =>
      cases hrun
      exact ⟨ht, a, rfl⟩

theorem imp (hx : Checks x P) (h : P → Q) : Checks x Q := by
  intro t a t' ht hrun
  obtain ⟨ht', hP⟩ := hx t a t' ht hrun
  exact ⟨ht', h hP⟩

/-- What comes next may use what was checked before, and that `x` can have this result. -/
theorem bind_of_ok (hx : Checks x P)
    (hf : ∀ a, P → (∃ t t', x t = .ok (a, t')) → Checks (f a) Q) : Checks (x >>= f) Q := by
  intro t b t'' ht hrun
  obtain ⟨a, t', hfirst, hrest⟩ := bind_apply_eq_ok.mp hrun
  obtain ⟨ht', hP⟩ := hx t a t' ht hfirst
  exact hf a hP ⟨t, t', hfirst⟩ t' b t'' ht' hrest

theorem bind (hx : Checks x P) (hf : ∀ a, P → Checks (f a) Q) : Checks (x >>= f) Q :=
  hx.bind_of_ok fun a hP _ => hf a hP

/-- A loop checks every item. -/
theorem mapM {xs : List α} {P : α → Prop} (hf : ∀ a ∈ xs, Checks (f a) (P a)) :
    Checks (xs.mapM f) (∀ a ∈ xs, P a) := by
  induction xs with
  | nil => exact .pure (by simp)
  | cons a xs ih =>
      rw [List.mapM_cons]
      refine (hf a List.mem_cons_self).bind fun b hb => ?_
      refine (ih fun a ha => hf a (List.mem_cons_of_mem _ ha)).bind fun bs hbs => ?_
      exact .pure (List.forall_mem_cons.mpr ⟨hb, hbs⟩)

theorem filterMapM {xs : List α} {f : α → Assembler (Option β)} {P : α → Prop}
    (hf : ∀ a ∈ xs, Checks (f a) (P a)) : Checks (xs.filterMapM f) (∀ a ∈ xs, P a) := by
  induction xs with
  | nil => exact .pure (by simp)
  | cons a xs ih =>
      have hrest := ih fun a ha => hf a (List.mem_cons_of_mem _ ha)
      rw [List.filterMapM_cons]
      refine (hf a List.mem_cons_self).bind fun b hb => ?_
      cases b with
      | none => exact hrest.imp fun hxs => List.forall_mem_cons.mpr ⟨hb, hxs⟩
      | some b =>
          refine hrest.bind fun bs hbs => ?_
          exact .pure (List.forall_mem_cons.mpr ⟨hb, hbs⟩)

/-- Of a class that may be absent the index is entered only if it is there. -/
theorem classIndex {f : UInt16 → Assembler β} {name? : Option String}
    (hname : ∀ name, Checks (classRef name) True) (hf : ∀ index, Checks (f index) Q) :
    Checks (match name? with
      | some name => classRef name >>= f
      | none => Pure.pure 0 >>= f) Q := by
  cases name? with
  | some name => exact (hname name).bind fun index _ => hf index
  | none => exact (Checks.pure trivial).bind fun index _ => hf index

end Checks

/-! ### The pool -/

theorem checks_intern (e : PoolEntry) : Checks (intern e) True := by
  intro t index t' ht hrun
  rcases intern_eq_ok hrun with ⟨-, -, -, rfl⟩ | ⟨hle, -, rfl⟩
  · exact ⟨ht, trivial⟩
  · refine ⟨?_, trivial⟩
    rwa [List.length_append]

theorem checks_utf8 (text : String) : Checks (utf8 text) True := checks_intern _

theorem checks_classRef (name : String) : Checks (classRef name) True :=
  (checks_utf8 name).bind fun _ _ => checks_intern _

theorem checks_nameAndType (name desc : String) : Checks (nameAndType name desc) True :=
  (checks_utf8 name).bind fun _ _ => (checks_utf8 desc).bind fun _ _ => checks_intern _

theorem checks_member (entry : UInt16 → UInt16 → PoolEntry) (owner name desc : String) :
    Checks (member entry owner name desc) True :=
  (checks_classRef owner).bind fun _ _ => (checks_nameAndType name desc).bind fun _ _ =>
    checks_intern _

theorem checks_handle (h : Handle) : Checks (handle h) True := by
  rw [handle_eq]
  refine Checks.bind (P := True) ?_ fun _ _ => checks_intern _
  split
  · exact checks_member _ _ _ _
  · exact checks_member _ _ _ _

theorem checks_internBootstrap (m : BootstrapMethod) : Checks (internBootstrap m) True := by
  intro t index t' ht hrun
  rw [internBootstrap] at hrun
  split at hrun
  · cases hrun
    exact ⟨ht, trivial⟩
  · cases hrun
    exact ⟨ht, trivial⟩

mutual

theorem checks_constant : (c : Constant) → Checks (constant c) True
  | .int _ | .float _ | .long _ | .double _ => by
      rw [constant]
      exact checks_intern _
  | .string text | .methodType text => by
      rw [constant]
      exact (checks_utf8 text).bind fun _ _ => checks_intern _
  | .classRef name => by
      rw [constant]
      exact checks_classRef name
  | .methodHandle h => by
      rw [constant]
      exact checks_handle h
  | .dynamic name desc bootstrap args => by
      rw [constant]
      refine (checks_handle bootstrap).bind fun _ _ => (checks_constants args).bind fun _ _ => ?_
      refine (checks_internBootstrap _).bind fun _ _ => ?_
      exact (checks_nameAndType name desc).bind fun _ _ => checks_intern _

theorem checks_constants : (cs : List Constant) → Checks (constants cs) True
  | [] => by
      rw [constants]
      exact .pure trivial
  | c :: cs => by
      rw [constants]
      exact (checks_constant c).bind fun _ _ => (checks_constants cs).bind fun _ _ => .pure trivial

end

theorem checks_poolIndex (i : Instruction) : Checks i.poolIndex True := by
  cases i with
  | type | newMultiArray => exact checks_classRef _
  | field | method => exact checks_member _ _ _ _
  | invokeDynamic name desc bootstrap args =>
      refine (checks_handle bootstrap).bind fun _ _ => (checks_constants args).bind fun _ _ => ?_
      refine (checks_internBootstrap _).bind fun _ _ => ?_
      exact (checks_nameAndType name desc).bind fun _ _ => checks_intern _
  | ldc c => exact checks_constant c
  | _ => exact .pure trivial

theorem checks_namedBytes (name : String) (bytes : List UInt8) :
    Checks (namedBytes name bytes) True :=
  (checks_utf8 name).bind fun _ _ => .pure trivial

theorem checks_tableBytes (name : String) (items : List (List UInt8)) :
    Checks (tableBytes name items) True := by
  rw [tableBytes]
  split
  · exact .pure trivial
  · exact (checks_namedBytes _ _).bind fun _ _ => .pure trivial

theorem checks_countedTable (name : String) (items : List (List UInt8)) :
    Checks (countedTable name items) True := by
  rw [countedTable]
  split
  · exact .pure trivial
  · exact (checks_namedBytes _ _).bind fun _ _ => .pure trivial

/-! ### Labels -/

section Labels

variable {labelOffset : Label → Except AssembleError Nat}

theorem checks_offsetBytes (l : Label) :
    Checks (offsetBytes labelOffset l) (∃ n, labelOffset l = .ok n) :=
  (Checks.ofExcept _).bind fun _ hl => .pure hl

theorem checks_lineBytes (i : Instruction) :
    Checks (lineBytes labelOffset i)
      (∀ n start, i = .line n start → ∃ n, labelOffset start = .ok n) := by
  cases i with
  | line n start =>
      refine (checks_offsetBytes start).bind fun _ hl => .pure ?_
      rintro _ _ ⟨⟩
      exact hl
  | _ => exact .pure (by simp)

theorem checks_localBytes (d : DeclaredLocal) :
    Checks (localBytes labelOffset d) (∀ l ∈ [d.start, d.stop], ∃ n, labelOffset l = .ok n) := by
  refine (Checks.ofExcept _).bind fun _ hstart => (Checks.ofExcept _).bind fun _ hstop => ?_
  refine (checks_utf8 _).bind fun _ _ => (checks_utf8 _).bind fun _ _ => .pure ?_
  intro l hl
  rcases List.mem_pair.mp hl with rfl | rfl
  · exact hstart
  · exact hstop

theorem checks_handlerBytes (h : ExceptionHandler) :
    Checks (handlerBytes labelOffset h)
      (∀ l ∈ [h.start, h.stop, h.handler], ∃ n, labelOffset l = .ok n) := by
  refine (checks_offsetBytes _).bind fun _ hstart => (checks_offsetBytes _).bind fun _ hstop => ?_
  refine (checks_offsetBytes _).bind fun _ hhandler => ?_
  refine Checks.classIndex checks_classRef fun _ => .pure ?_
  simp only [List.forall_mem_cons, List.not_mem_nil, false_imp_iff, implies_true, and_true]
  exact ⟨hstart, hstop, hhandler⟩

theorem checks_verification (v : FrameValue) :
    Checks (StackMap.verification labelOffset v)
      (∀ l, v = .uninitialized l → ∃ n, labelOffset l = .ok n) := by
  cases v with
  | object name => exact (checks_classRef name).bind fun _ _ => .pure (by simp)
  | uninitialized l =>
      refine (Checks.ofExcept _).bind fun _ hl => .pure ?_
      rintro _ ⟨⟩
      exact hl
  | _ => exact .pure (by simp)

theorem checks_verifications (values : List FrameValue) :
    Checks (StackMap.verifications labelOffset values)
      (∀ l, .uninitialized l ∈ values → ∃ n, labelOffset l = .ok n) :=
  (Checks.mapM fun v _ => checks_verification v).bind fun _ h => .pure fun l hl => h _ hl l rfl

theorem checks_frame (delta : Nat) (f : Frame) :
    Checks (StackMap.frame labelOffset delta f)
      (∀ l, .uninitialized l ∈ f.written → ∃ n, labelOffset l = .ok n) := by
  obtain ⟨kind, locals, stack⟩ := f
  cases kind with
  | same | chop => exact .pure (by simp [Frame.written])
  | same1 =>
      refine (checks_verification _).bind fun _ h => .pure fun l hl => h l ?_
      exact (List.mem_singleton.mp hl).symm
  | append count => exact (checks_verifications _).bind fun _ h => .pure h
  | full | expanded =>
      refine (checks_verifications _).bind fun _ hlocals => ?_
      refine (checks_verifications _).bind fun _ hstack => .pure fun l hl => ?_
      exact (List.mem_append.mp hl).elim (hlocals l) (hstack l)

/-- Every frame is checked, wherever it stands. -/
theorem checks_frames (previous : Option UInt32) (placed : List PlacedNode) :
    Checks (StackMap.frames labelOffset previous placed)
      (∀ p ∈ placed, ∀ f, p.node = .frame f → ∀ l, .uninitialized l ∈ f.written →
        ∃ n, labelOffset l = .ok n) := by
  induction placed generalizing previous with
  | nil => exact .pure (by simp)
  | cons p placed ih =>
      obtain ⟨node, index, offset⟩ := p
      have hother (hnode : ∀ f, node ≠ .frame f) :
          Checks (StackMap.frames labelOffset previous placed)
            (∀ p ∈ (⟨node, index, offset⟩ : PlacedNode) :: placed, ∀ f, p.node = .frame f →
              ∀ l, .uninitialized l ∈ f.written → ∃ n, labelOffset l = .ok n) :=
        (ih previous).imp fun h => List.forall_mem_cons.mpr ⟨fun f hf => absurd hf (hnode f), h⟩
      cases node with
      | frame f =>
          refine (checks_frame _ f).bind fun _ hf => (ih _).bind fun _ hrest => .pure ?_
          refine List.forall_mem_cons.mpr ⟨?_, hrest⟩
          rintro _ ⟨⟩
          exact hf
      | _ => exact hother (by simp)

end Labels

/-! ### Methods -/

theorem checks_codeAt {m : Method} {placed : List PlacedNode}
    {nodes : List (Instruction × UInt16)} (hplaced : placed = PlacedNode.place 0 nodes)
    (hnodes : placed.map (·.node) = m.instructions.nodes.toList) :
    Checks (codeAt m placed) (m.IsChecked placed) := by
  dsimp only [codeAt]
  split
  · exact .throw _
  · next hle =>
      refine (Checks.ofExcept _).bind fun _ hcode => (checks_frames _ _).bind fun _ hframes => ?_
      refine (checks_countedTable _ _).bind fun _ _ => ?_
      refine (Checks.filterMapM fun i _ => checks_lineBytes i).bind fun _ hlines => ?_
      refine (checks_countedTable _ _).bind fun _ _ => ?_
      refine (Checks.mapM fun d _ => checks_localBytes d).bind fun _ hlocals => ?_
      refine (checks_tableBytes _ _).bind fun _ _ => ?_
      refine (Checks.mapM fun h _ => checks_handlerBytes h).bind fun _ hhandlers => .pure ?_
      -- Every part that was written without an error has checked its own labels.
      obtain ⟨code, hcode⟩ := hcode
      refine ⟨hnodes, fun hm => hm.run hplaced hnodes.symm,
        UInt32.le_iff_toNat_le.mp (UInt32.not_lt.mp hle), ?_, ?_, ?_⟩
      · rintro l (⟨hi, hl⟩ | ⟨hd, hl⟩ | ⟨hh, hl⟩)
        · have hmem := hi
          rw [← hnodes] at hmem
          obtain ⟨p, hp, rfl⟩ := List.mem_map.mp hmem
          obtain ⟨bytes, hbytes⟩ := PlacedNode.exists_encode hcode hp
          exact PlacedNode.exists_labelOffset_of_writes (hlines _ hi) (hframes p hp) hbytes hl
        · exact hlocals _ hd l hl
        · exact hhandlers _ hh l hl
      · intro p hp op l n hjump hn
        obtain ⟨bytes, hbytes⟩ := PlacedNode.exists_encode hcode hp
        rw [hjump] at hbytes
        obtain ⟨n', hn', hlow, hhigh, -⟩ := Instruction.encode_jump hbytes
        cases hn.symm.trans hn'
        exact ⟨hlow, hhigh⟩
      · intro p hp owner name desc interface hcall
        obtain ⟨bytes, hbytes⟩ := PlacedNode.exists_encode hcode hp
        rw [hcall] at hbytes
        exact Instruction.parse_of_encode hbytes

theorem checks_code (m : Method) : Checks (code m) (∃ placed, m.IsChecked placed) := by
  rw [code_eq]
  refine (Checks.mapM fun i _ => checks_poolIndex i).bind_of_ok ?_
  rintro indices - ⟨t, t', hindices⟩
  refine (checks_codeAt rfl ?_).imp fun h => ⟨_, h⟩
  rw [PlacedNode.place_map_node, List.map_fst_zip (Nat.le_of_eq (length_mapM hindices).symm)]

theorem checks_memberHead (access : Access) (name desc : String) :
    Checks (memberHead access name desc) True :=
  (checks_utf8 name).bind fun _ _ => (checks_utf8 desc).bind fun _ _ => .pure trivial

theorem checks_methodBytes (m : Method) :
    Checks (methodBytes m) (m.hasCode = true → ∃ placed, m.IsChecked placed) := by
  refine (checks_memberHead _ _ _).bind fun _ _ => ?_
  split
  · refine (checks_code m).bind fun _ hcode => (checks_namedBytes _ _).bind fun _ _ => ?_
    exact .pure fun _ => hcode
  · next hhas => exact .pure fun h => absurd h hhas

theorem checks_classAttributes (c : Class) : Checks (classAttributes c) True := by
  have hsource : Checks (sourceBytes c.sourceFile) True := by
    cases c.sourceFile with
    | none => exact .pure trivial
    | some file =>
        exact (checks_utf8 _).bind fun _ _ => (checks_utf8 file).bind fun _ _ => .pure trivial
  have hget : Checks (get : Assembler PoolTable) True := by
    rintro t _ _ ht ⟨⟩
    exact ⟨ht, trivial⟩
  rw [classAttributes_eq]
  refine hsource.bind fun _ _ => hget.bind fun _ _ => ?_
  exact (checks_tableBytes _ _).bind fun _ _ => .pure trivial

theorem checks_classBody (c : Class) :
    Checks (classBody c) (∀ m ∈ c.methods, m.hasCode = true → ∃ placed, m.IsChecked placed) := by
  refine (checks_classRef _).bind fun _ _ => ?_
  refine Checks.classIndex checks_classRef fun _ => ?_
  refine (Checks.mapM (P := fun _ => True) fun _ _ => checks_classRef _).bind fun _ _ => ?_
  refine (Checks.mapM (P := fun _ => True) fun _ _ => ?_).bind fun _ _ => ?_
  · exact (checks_memberHead _ _ _).bind fun _ _ => .pure trivial
  · refine (Checks.mapM fun m _ => checks_methodBytes m).bind fun _ hmethods => ?_
    exact (checks_classAttributes c).bind fun _ _ => .pure hmethods

end Assembler

/-- What is known of every class that is assembled: its pool can be counted, and its methods have
been checked. -/
theorem Class.isChecked_of_assemble {c : Class} {bytes : List UInt8} (h : c.assemble = .ok bytes) :
    (∃ body pool, Assembler.classBody c .empty = .ok (body, pool) ∧ pool.slots.length ≤ 65535) ∧
      ∀ m ∈ c.methods, m.hasCode = true → ∃ placed, m.IsChecked placed := by
  obtain ⟨⟨body, pool⟩, hbody, -⟩ := bind_eq_ok.mp h
  obtain ⟨hpool, hmethods⟩ := Assembler.checks_classBody c .empty body pool (by decide) hbody
  exact ⟨⟨body, pool, hbody, hpool⟩, hmethods⟩

end Injection
