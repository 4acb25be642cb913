import Injection.Proofs.Assembly.Tables

/-!
What a class file cannot tell of the class it was written from. Operands and line numbers are cut
to the width they are written in, a handle says by its kind that it is of a field, labels without
a key are left out, and a range that ends before it starts is empty. None of this is an error: the
class file is the same as that of the class with all its values cut.
-/

namespace Injection

/-! ### Cut values -/

/-- A handle is written with a reference to its member, and by its kind this is the reference to a
field or to a method of an interface. -/
def Handle.cut (h : Handle) : Handle :=
  let kind := h.kind.toNat
  { h with interface := !(1 ≤ kind && kind ≤ 4) && (kind = 9 || h.interface) }

mutual

def Constant.cut : Constant → Constant
  | .methodHandle h => .methodHandle h.cut
  | .dynamic name desc bootstrap args => .dynamic name desc bootstrap.cut (Constant.cutAll args)
  | c => c

def Constant.cutAll : List Constant → List Constant
  | [] => []
  | c :: cs => c.cut :: Constant.cutAll cs

end

/-- A small operand has two bytes, or one that tells a type or a number with its sign. -/
def Opcode.cutOperand (op : Opcode) (operand : Int32) : Int32 :=
  if op = .sipush then (Int16.ofInt operand.toInt).toInt32
  else if op = .newarray then (UInt8.ofInt operand.toInt).toUInt32.toInt32
  else (Int8.ofInt operand.toInt).toInt32

/-- An instruction as it can be told from its encoded form. -/
def Instruction.cut : Instruction → Instruction
  | line n start => line n.toUInt16.toUInt32 start
  | int op operand => int op (op.cutOperand operand)
  | invokeDynamic name desc bootstrap args =>
    invokeDynamic name desc bootstrap.cut (Constant.cutAll args)
  | ldc c => ldc c.cut
  | lookupSwitch default keys targets => lookupSwitch default keys (targets.take keys.length)
  | i => i

def DeclaredLocal.cut (is : InstructionList) (d : DeclaredLocal) : DeclaredLocal :=
  match is.placeOf? d.start, is.placeOf? d.stop with
  | some start, some stop => if stop < start then { d with stop := d.start } else d
  | _, _ => d

def Method.cut (m : Method) : Method :=
  { m with
    instructions := ⟨m.instructions.nodes.map Instruction.cut⟩
    declaredLocals := m.declaredLocals.map (DeclaredLocal.cut m.instructions) }

def Class.cut (c : Class) : Class := { c with methods := c.methods.map Method.cut }

theorem Method.hasCode_cut (m : Method) : m.cut.hasCode = m.hasCode := by
  simp only [hasCode, cut, InstructionList.isEmpty, Array.isEmpty, Array.size_map]

/-! ### Cut values are written as the whole ones -/

theorem Bytes.i2_congr {i j : Int} (h : i % 2 ^ 16 = j % 2 ^ 16) : i2 i = i2 j := by
  rw [i2, i2, h]

theorem Bytes.u2_congr {n k : Nat} (h : n % 2 ^ 16 = k % 2 ^ 16) : u2 n = u2 k := by
  have hbyte (n : Nat) : UInt8.ofNat n = UInt8.ofNat (n % 2 ^ 16) := by
    refine UInt8.toNat_inj.mp ?_
    rw [UInt8.toNat_ofNat', UInt8.toNat_ofNat']
    omega
  have hhigh (n : Nat) : UInt8.ofNat (n / 256) = UInt8.ofNat (n % 2 ^ 16 / 256) := by
    refine UInt8.toNat_inj.mp ?_
    rw [UInt8.toNat_ofNat', UInt8.toNat_ofNat']
    omega
  simp only [u2, bigEndian, List.nil_append]
  rw [hbyte n, hbyte k, hhigh n, hhigh k, h]

namespace Opcode

theorem toInt_cutOperand_type (i : Int) : (UInt8.ofInt i).toUInt32.toInt32.toInt = i % 2 ^ 8 := by
  have hnat : (UInt8.ofInt i).toUInt32 = UInt32.ofNat (i % 2 ^ 8).toNat := by
    refine UInt32.toNat_inj.mp ?_
    rw [UInt8.ofInt, UInt8.toNat_toUInt32, UInt8.toNat_ofNat', UInt32.toNat_ofNat']
    omega
  rw [hnat, UInt32.toInt32_ofNat', Int32.toInt_ofNat_of_lt]
  · omega
  · omega

theorem toInt_cutOperand_short (operand : Int32) :
    (cutOperand .sipush operand).toInt % 2 ^ 16 = operand.toInt % 2 ^ 16 := by
  rw [cutOperand, if_pos rfl, Int16.toInt_toInt32, Int16.toInt_ofInt]
  exact Int.bmod_emod

theorem ofInt_cutOperand {op : Opcode} (hop : op ≠ .sipush) (operand : Int32) :
    UInt8.ofInt (op.cutOperand operand).toInt = UInt8.ofInt operand.toInt := by
  have hbyte {i j : Int} (h : i % 2 ^ 8 = j % 2 ^ 8) : UInt8.ofInt i = UInt8.ofInt j := by
    rw [UInt8.ofInt.eq_def, UInt8.ofInt.eq_def, h]
  refine hbyte ?_
  rw [cutOperand, if_neg hop]
  split
  · rw [toInt_cutOperand_type, Int.emod_emod]
  · rw [Int8.toInt_toInt32, Int8.toInt_ofInt]
    exact Int.bmod_emod

end Opcode

namespace Assembler

theorem handle_cut (h : Handle) : handle h.cut = handle h := by
  by_cases hfield : (1 ≤ h.kind.toNat && h.kind.toNat ≤ 4) = true
  · simp only [handle, Handle.cut, hfield, if_true]
  · have hmethod : (decide (h.kind.toNat = 9) || h.cut.interface) =
        (decide (h.kind.toNat = 9) || h.interface) := by
      simp only [Handle.cut, Bool.eq_false_iff.mpr hfield, Bool.not_false, Bool.true_and]
      cases decide (h.kind.toNat = 9) <;> rfl
    have hkind : h.cut.kind = h.kind := rfl
    rw [handle_eq, handle_eq, hkind, if_neg hfield, if_neg hfield, hmethod]
    rfl

mutual

theorem constant_cut : (c : Constant) → constant c.cut = constant c
  | .int _ | .float _ | .long _ | .double _ | .string _ | .classRef _ | .methodType _ => rfl
  | .methodHandle h => by rw [Constant.cut, constant, constant, handle_cut]
  | .dynamic name desc bootstrap args => by
      rw [Constant.cut, constant, constant, handle_cut, constants_cutAll args]

theorem constants_cutAll : (cs : List Constant) → constants (Constant.cutAll cs) = constants cs
  | [] => rfl
  | c :: cs => by
      rw [Constant.cutAll, constants, constants, constant_cut c, constants_cutAll cs]

end

end Assembler

namespace Instruction

theorem poolIndex_cut (i : Instruction) : i.cut.poolIndex = i.poolIndex := by
  cases i with
  | invokeDynamic name desc bootstrap args =>
      simp only [cut, poolIndex, Assembler.invokeDynamic, Assembler.handle_cut,
        Assembler.constants_cutAll]
  | ldc c => exact Assembler.constant_cut c
  | _ => rfl

theorem encodedSize_cut (index : UInt16) (offset : UInt32) (i : Instruction) :
    i.cut.encodedSize index offset = i.encodedSize index offset := by
  cases i with
  | ldc c => cases c <;> rfl
  | _ => rfl

theorem widest_cut (i : Instruction) : i.cut.widest = i.widest := by
  cases i <;> rfl

theorem isReal_cut (i : Instruction) : i.cut.isReal = i.isReal := by
  cases i <;> rfl

theorem cut_eq_label {i : Instruction} {l : Label} : i.cut = .label l ↔ i = .label l := by
  cases i <;> simp [cut]

theorem zip_take (keys : List Int32) (targets : List Label) :
    keys.zip (targets.take keys.length) = keys.zip targets := by
  induction keys generalizing targets with
  | nil => rfl
  | cons key keys ih =>
      cases targets with
      | nil => rfl
      | cons target targets => exact congrArg ((key, target) :: ·) (ih targets)

theorem encode_cut (labelOffset : Label → Except AssembleError Nat) (index : UInt16)
    (offset : UInt32) (i : Instruction) :
    i.cut.encode labelOffset index offset = i.encode labelOffset index offset := by
  cases i with
  | int op operand =>
      simp only [cut, encode]
      split
      · next hop =>
          subst hop
          rw [Bytes.i2_congr (Opcode.toInt_cutOperand_short operand)]
      · next hop => rw [Opcode.ofInt_cutOperand hop]
  | ldc c => cases c <;> rfl
  | lookupSwitch default keys targets =>
      simp only [cut, encode, zip_take]
  | _ => rfl

end Instruction

namespace PlacedNode

def cut (p : PlacedNode) : PlacedNode := { p with node := p.node.cut }

theorem place_cut (offset : UInt32) (nodes : List (Instruction × UInt16)) :
    place offset (nodes.map (Prod.map Instruction.cut id)) = (place offset nodes).map cut := by
  induction nodes generalizing offset with
  | nil => rfl
  | cons node nodes ih =>
      simp only [List.map_cons, place, Prod.map_fst, Prod.map_snd, id, Instruction.encodedSize_cut,
        ih]
      rfl

variable (placed : List PlacedNode)

theorem endOffset_cut : endOffset (placed.map cut) = endOffset placed := by
  rw [endOffset, endOffset, List.getLast?_map, Option.map_map]
  refine congrArg (Option.getD · 0) (congrArg (Option.map · _) (funext fun p => ?_))
  exact congrArg (p.offset + ·) (Instruction.encodedSize_cut p.index p.offset p.node)

theorem labelOffset_cut : labelOffset (placed.map cut) = labelOffset placed := by
  funext l
  have hlabel : (fun p : PlacedNode => decide (p.node = .label l)) ∘ cut =
      fun p : PlacedNode => decide (p.node = .label l) :=
    funext fun p => decide_eq_decide.mpr Instruction.cut_eq_label
  rw [labelOffset, labelOffset, ← List.map_reverse, List.find?_map, hlabel]
  cases placed.reverse.find? (·.node = .label l) <;> rfl

theorem encodeAll_cut : encodeAll (placed.map cut) = encodeAll placed := by
  rw [encodeAll, encodeAll, List.mapM_map, labelOffset_cut]
  refine congrArg (· >>= _) (congrArg (List.mapM · placed) (funext fun p => ?_))
  exact Instruction.encode_cut (labelOffset placed) p.index p.offset p.node

theorem frames_cut (labelOffset : Label → Except AssembleError Nat) (previous : Option UInt32) :
    StackMap.frames labelOffset previous (placed.map cut) =
      StackMap.frames labelOffset previous placed := by
  induction placed generalizing previous with
  | nil => rfl
  | cons p placed ih =>
      obtain ⟨node, index, offset⟩ := p
      cases node with
      | frame f => simp only [List.map_cons, cut, Instruction.cut, StackMap.frames, ih]
      | _ => exact ih previous

end PlacedNode

namespace InstructionList

theorem label_mem {is : InstructionList} {l : Label} {i : Nat} (h : is.labelPosition? l = some i) :
    .label l ∈ is.nodes.toList := by
  obtain ⟨-, hholds, -⟩ := lastBefore_eq_some_iff.mp h
  obtain ⟨node, hget, hlabel⟩ := Option.any_eq_true _ _ |>.mp hholds
  rw [← of_decide_eq_true hlabel]
  rw [get?, ← Array.getElem?_toList] at hget
  exact List.mem_of_getElem? hget

end InstructionList

namespace Assembler

variable {α β : Type}

/-- A loop over cut nodes whose items do not change. -/
theorem filterMapM_cut {f : Instruction → Assembler (Option β)} (hf : ∀ i, f i.cut = f i)
    (nodes : List Instruction) : (nodes.map Instruction.cut).filterMapM f = nodes.filterMapM f := by
  induction nodes with
  | nil => rfl
  | cons i nodes ih => rw [List.map_cons, List.filterMapM_cons, List.filterMapM_cons, hf, ih]

theorem mapM_congr {f g : α → Assembler β} {xs : List α} (h : ∀ x ∈ xs, f x = g x) :
    xs.mapM f = xs.mapM g := by
  induction xs with
  | nil => rfl
  | cons x xs ih =>
      rw [List.mapM_cons, List.mapM_cons, h x List.mem_cons_self,
        ih fun y hy => h y (List.mem_cons_of_mem _ hy)]

/-- What comes next has to agree on the results there can be. -/
theorem bind_congr_of_ok {x : Assembler α} {f g : α → Assembler β}
    (h : ∀ t a t', x t = .ok (a, t') → f a = g a) : x >>= f = x >>= g := by
  funext t
  rw [bind_eq, bind_eq]
  cases hx : x t with
  | error e => rfl
  | ok r => exact congrFun (h t r.1 r.2 hx) r.2

theorem length_mapM {f : α → Assembler β} {xs : List α} {ys : List β} {t t' : PoolTable}
    (h : xs.mapM f t = .ok (ys, t')) : ys.length = xs.length := by
  induction xs generalizing ys t with
  | nil =>
      cases h
      rfl
  | cons x xs ih =>
      rw [List.mapM_cons] at h
      obtain ⟨y, t₁, -, h⟩ := bind_apply_eq_ok.mp h
      obtain ⟨ys', t₂, hys, h⟩ := bind_apply_eq_ok.mp h
      cases h
      exact congrArg (· + 1) (ih hys)

/-! ### The code of a method -/

section Code

variable (labelOffset : Label → Except AssembleError Nat)

def lineBytes : Instruction → Assembler (Option (List UInt8))
  | .line n start => do return some ((← offsetBytes labelOffset start) ++ Bytes.u2 n.toNat)
  | _ => return none

def localBytes (d : DeclaredLocal) : Assembler (List UInt8) := do
  let start ← ofExcept (labelOffset d.start)
  let stop ← ofExcept (labelOffset d.stop)
  let name ← utf8 d.name
  let desc ← utf8 d.desc
  return Bytes.u2 start ++ Bytes.u2 (stop - start) ++ Bytes.u2 name.toNat ++
    Bytes.u2 desc.toNat ++ Bytes.u2 d.slot.toNat

def handlerBytes (h : ExceptionHandler) : Assembler (List UInt8) := do
  let start ← offsetBytes labelOffset h.start
  let stop ← offsetBytes labelOffset h.stop
  let handler ← offsetBytes labelOffset h.handler
  let catchType ← match h.catchType with
    | some name => classRef name
    | none => pure 0
  return start ++ stop ++ handler ++ Bytes.u2 catchType.toNat

end Code

def codeAt (m : Method) (placed : List PlacedNode) : Assembler (List UInt8) :=
  let labelOffset := PlacedNode.labelOffset placed
  if 0xffff < PlacedNode.endOffset placed then throw (.codeTooLarge m.name)
  else do
    let bytes ← ofExcept (PlacedNode.encodeAll placed)
    let frames ← StackMap.frames labelOffset none placed
    let frameTable ← countedTable "StackMapTable" frames
    let lines ← m.instructions.nodes.toList.filterMapM (lineBytes labelOffset)
    let lineTable ← countedTable "LineNumberTable" lines
    let locals ← m.declaredLocals.mapM (localBytes labelOffset)
    let localTable ← tableBytes "LocalVariableTable" locals
    let handlers ← m.handlers.mapM (handlerBytes labelOffset)
    return Bytes.u2 m.maxStack.toNat ++ Bytes.u2 m.maxLocals.toNat ++ Bytes.u4 bytes.length ++
      bytes ++ counted handlers ++ counted (frameTable ++ lineTable ++ localTable)

theorem code_eq (m : Method) :
    code m = m.instructions.nodes.toList.mapM Instruction.poolIndex >>= fun indices =>
      codeAt m (PlacedNode.place 0 (m.instructions.nodes.toList.zip indices)) := by
  refine bind_congr fun indices => ?_
  dsimp only [codeAt]
  split
  · rfl
  · rfl

/-- A label that has a place has an offset. -/
theorem exists_labelOffset {is : InstructionList} {placed : List PlacedNode} {l : Label} {k : Nat}
    (hnodes : is.nodes.toList = placed.map (·.node)) (h : is.placeOf? l = some k) :
    ∃ n, PlacedNode.labelOffset placed l = .ok n := by
  obtain ⟨i, hi, -⟩ := Option.map_eq_some_iff.mp h
  have hmem : .label l ∈ placed.map (·.node) := by
    rw [← hnodes]
    exact InstructionList.label_mem hi
  obtain ⟨p, hp, hnode⟩ := List.mem_map.mp hmem
  rw [PlacedNode.labelOffset]
  cases hfind : placed.reverse.find? (·.node = .label l) with
  | some q => exact ⟨q.offset.toNat, rfl⟩
  | none =>
      have hno := List.find?_eq_none.mp hfind p (List.mem_reverse.mpr hp)
      exact absurd (decide_eq_true hnode) hno

/-- A range that ends before it starts has no length. -/
theorem localBytes_cut {m : Method} {placed : List PlacedNode} {stop : Nat}
    (hrun : PlacedNode.Run 0 placed stop)
    (hnodes : m.instructions.nodes.toList = placed.map (·.node)) (d : DeclaredLocal) :
    localBytes (PlacedNode.labelOffset placed) (d.cut m.instructions) =
      localBytes (PlacedNode.labelOffset placed) d := by
  unfold DeclaredLocal.cut
  split
  · next j k hj hk =>
      split
      · next hlt =>
          obtain ⟨a, ha⟩ := exists_labelOffset hnodes hj
          obtain ⟨b, hb⟩ := exists_labelOffset hnodes hk
          obtain ⟨j', hj', hgeta⟩ := PlacedNode.getElem?_bounds_of_labelOffset hrun hnodes ha
          obtain ⟨k', hk', hgetb⟩ := PlacedNode.getElem?_bounds_of_labelOffset hrun hnodes hb
          cases hj.symm.trans hj'
          cases hk.symm.trans hk'
          have hle : b ≤ a := PlacedNode.getElem?_bounds_mono hrun (Nat.le_of_lt hlt) hgetb hgeta
          have hlength : a - a = b - a := by omega
          have hok (n : Nat) : ofExcept (.ok n) = pure n := rfl
          simp only [localBytes, ha, hb, hok, pure_bind, hlength]
      · rfl
  · rfl

theorem lineBytes_cut (labelOffset : Label → Except AssembleError Nat) (i : Instruction) :
    lineBytes labelOffset i.cut = lineBytes labelOffset i := by
  cases i with
  | line n start =>
      have hcut : Bytes.u2 n.toUInt16.toUInt32.toNat = Bytes.u2 n.toNat := by
        refine Bytes.u2_congr ?_
        rw [UInt16.toNat_toUInt32, UInt32.toNat_toUInt16, Nat.mod_mod]
      rw [Instruction.cut, lineBytes, lineBytes, hcut]
  | _ => rfl

theorem codeAt_cut {m : Method} {placed : List PlacedNode}
    {stop : Nat} (hrun : PlacedNode.Run 0 placed stop)
    (hnodes : m.instructions.nodes.toList = placed.map (·.node)) :
    codeAt m.cut (placed.map PlacedNode.cut) = codeAt m placed := by
  have hcut : m.cut.instructions.nodes.toList =
      m.instructions.nodes.toList.map Instruction.cut := Array.toList_map
  have hlocals : m.cut.declaredLocals.mapM (localBytes (PlacedNode.labelOffset placed)) =
      m.declaredLocals.mapM (localBytes (PlacedNode.labelOffset placed)) :=
    List.mapM_map.trans (congrArg (List.mapM · _) (funext (localBytes_cut hrun hnodes)))
  simp only [codeAt, PlacedNode.endOffset_cut, PlacedNode.labelOffset_cut,
    PlacedNode.encodeAll_cut, PlacedNode.frames_cut, hcut, hlocals,
    filterMapM_cut (lineBytes_cut _)]
  rfl

theorem code_cut {m : Method} (hm : m.OffsetsFit) : code m.cut = code m := by
  have hcut : m.cut.instructions.nodes.toList =
      m.instructions.nodes.toList.map Instruction.cut := Array.toList_map
  have hindices : (m.instructions.nodes.toList.map Instruction.cut).mapM Instruction.poolIndex =
      m.instructions.nodes.toList.mapM Instruction.poolIndex :=
    List.mapM_map.trans (congrArg (List.mapM · _) (funext Instruction.poolIndex_cut))
  rw [code_eq, code_eq, hcut, hindices]
  refine bind_congr_of_ok fun t indices t' hok => ?_
  have hnodes : m.instructions.nodes.toList =
      (PlacedNode.place 0 (m.instructions.nodes.toList.zip indices)).map (·.node) := by
    rw [PlacedNode.place_map_node, List.map_fst_zip (Nat.le_of_eq (length_mapM hok).symm)]
  rw [List.zip_map_left, PlacedNode.place_cut]
  exact codeAt_cut (hm.run rfl hnodes) hnodes

theorem methodBytes_cut {m : Method} (hm : m.hasCode = true → m.OffsetsFit) :
    methodBytes m.cut = methodBytes m := by
  by_cases hhas : m.hasCode = true
  · rw [methodBytes, methodBytes, Method.hasCode_cut, code_cut (hm hhas)]
    rfl
  · rw [methodBytes, methodBytes, Method.hasCode_cut]
    simp only [if_neg hhas]
    rfl

theorem methods_cut {c : Class} (hc : ∀ m ∈ c.methods, m.hasCode = true → m.OffsetsFit) :
    c.cut.methods.mapM methodBytes = c.methods.mapM methodBytes := by
  rw [Class.cut, List.mapM_map]
  exact mapM_congr fun m hm => methodBytes_cut (hc m hm)

theorem classBody_cut {c : Class} (hc : ∀ m ∈ c.methods, m.hasCode = true → m.OffsetsFit) :
    classBody c.cut = classBody c := by
  have hmethods := methods_cut hc
  rw [classBody, classBody, hmethods]
  rfl

end Assembler

/-- A class is written as the class with its values cut, whatever these values are, as long as no
offset wraps. -/
theorem Class.assemble_cut {c : Class} (hc : ∀ m ∈ c.methods, m.hasCode = true → m.OffsetsFit) :
    c.cut.assemble = c.assemble := by
  rw [assemble, assemble, Assembler.classBody_cut hc]
  rfl

end Injection
