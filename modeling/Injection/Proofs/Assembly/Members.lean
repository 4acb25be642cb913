import Injection.ClassFile.Parse
import Injection.Proofs.Assembly.Building
import Injection.Proofs.Assembly.Renaming

/-!
Fields and methods are read back. A method with code has the same code up to the names of labels;
of a method without code the file holds neither instructions nor sizes.
-/

namespace Injection

open Reader

namespace StackMap

/-- Where there are no frames nothing is written of them. -/
theorem frames_of_none {labelOffset : Label → Except AssembleError Nat} {previous : Option UInt32}
    {placed : List PlacedNode} (h : ∀ p ∈ placed, p.node.isFrame = false) :
    frames labelOffset previous placed = pure [] := by
  induction placed with
  | nil => rfl
  | cons p placed ih =>
      have hrest := ih fun q hq => h q (List.mem_cons_of_mem _ hq)
      have hp := h p List.mem_cons_self
      obtain ⟨node, index, offset⟩ := p
      cases node with
      | frame f => cases hp
      | _ => exact hrest

end StackMap

namespace CodeParts

variable {w : CodeParts} {pool : ConstantPool} {m : Method} {bytes : List UInt8}

theorem IsOf.frameTable_of_none (hw : w.IsOf pool m bytes) (hnone : w.frames = []) :
    w.frameTable = [] := by
  rcases hw.frameTable.isTable (by rw [hnone]; decide) with ⟨-, h⟩ | ⟨hsome, -⟩
  · exact h
  · exact absurd hnone hsome

theorem framesRead_nil (hnone : w.frameTable = []) : w.FramesRead pool [] := by
  rintro ⟨lines, locals, frames, mentioned⟩ p rest hframes
  cases hframes
  rw [hnone]
  simpa using changes_nil _ p rest

theorem length_table {name : String} {items out : List (List UInt8)} {n : Nat}
    (h : Assembler.IsTable pool name items out) (hitems : ∀ item ∈ items, item.length = n) :
    out.flatten.length ≤ 8 + n * items.length := by
  rcases h with ⟨-, rfl⟩ | ⟨-, bytes, ⟨index, -, rfl⟩, rfl⟩
  · exact Nat.zero_le _
  · have hcounted := Bytecode.length_counted hitems
    have hu2 := Bytes.length_bigEndian 2 index.toNat
    have hu4 := Bytes.length_bigEndian 4 (Assembler.counted items).length
    rw [Bytes.u2, Bytes.u4, List.flatten_singleton, List.length_append, List.length_append]
    omega

/-- The length of code fits four bytes unless the stack map is too long. -/
theorem IsOf.length_lt (hw : w.IsOf pool m bytes) (hm : m.Fits)
    (hframes : w.frameTable.flatten.length < 2 ^ 31) : bytes.length < 2 ^ 32 := by
  have hlines := length_table hw.lineTable (n := 4) fun item hitem => by
    obtain ⟨e, -, rfl⟩ := List.mem_map.mp hitem
    rfl
  have hlocals := length_table hw.localTable (n := 10) fun item hitem => by
    obtain ⟨d, -, start, stop, -, -, hd⟩ := (forall₂_exists hw.locals).2 item hitem
    exact Bytecode.length_localItem hd
  have hhandlers : w.handlers.flatten.length = 8 * w.handlers.length := by
    refine Instruction.length_flatten fun item hitem => ?_
    obtain ⟨h, -, start, stop, handler, -, -, -, catchType, -, rfl⟩ :=
      (forall₂_exists hw.handlers).2 item hitem
    rfl
  rw [List.length_map, ← hw.lines.length_eq] at hlines
  rw [← hw.locals.length_eq] at hlocals
  rw [← hw.handlers.length_eq] at hhandlers
  have hu2 (n : Nat) : (Bytes.u2 n).length = 2 := Bytes.length_bigEndian 2 n
  have hu4 (n : Nat) : (Bytes.u4 n).length = 4 := Bytes.length_bigEndian 4 n
  have hcode := hw.length_code
  have hstop := hw.stop_le
  have hlines_lt := hm.lines_lt
  have hlocals_lt := hm.locals_lt
  have hhandlers_lt := hm.handlers_lt
  rw [hw.bytes]
  simp only [Assembler.counted, List.flatten_append, List.length_append, hu2, hu4, hhandlers]
  omega

end CodeParts

namespace ClassFile

variable {pool : ConstantPool} {p : Nat} {rest : List UInt8}

/-- A pool as known before it is known how dynamic calls are linked. -/
def unlinked (pool : ConstantPool) : ConstantPool := { pool with bootstrapMethods := [] }

def IsHead (pool : ConstantPool) (access : Access) (name desc : String) (head : List UInt8) :
    Prop :=
  ∃ n d, pool.utf8 n = .ok name ∧ pool.utf8 d = .ok desc ∧
    head = Bytes.u2 access.toNat ++ Bytes.u2 n.toNat ++ Bytes.u2 d.toNat

theorem reads_member {access : Access} {name desc : String} {head attributes : List UInt8}
    {count : Nat} {code : Option (List UInt8)} (hhead : IsHead pool access name desc head)
    (hcount : count < 2 ^ 16)
    (hattributes : ∀ p, Reads (memberAttributes (unlinked pool) count none) p attributes rest
      code) :
    Reads (member (unlinked pool)) p (head ++ (Bytes.u2 count ++ attributes)) rest
      ⟨access, name, desc, code⟩ := by
  obtain ⟨n, d, hn, hd, rfl⟩ := hhead
  have hnat : (UInt16.ofNat count).toNat = count := UInt16.toNat_ofNat_of_lt' hcount
  simp only [List.append_assoc]
  refine (reads_index access).bind ((reads_index n).bind (.bind_nil (.ofExcept hn) ?_))
  refine (reads_index d).bind (.bind_nil (.ofExcept hd) ((reads_u2 count).bind ?_))
  rw [hnat]
  exact (hattributes _).bind_last (.pure _)

theorem reads_attributeBytes {index : UInt16} {info : List UInt8} (hinfo : info.length < 2 ^ 32) :
    Reads attributeBytes p (Bytes.u2 index.toNat ++ Bytes.u4 info.length ++ info) rest
      (index, info) :=
  Bytecode.reads_named hinfo fun _ => .pure (index, info)

/-- A member without attributes, or with no other than its code. -/
theorem reads_plainMember {access : Access} {name desc : String} {head : List UInt8}
    (hhead : IsHead pool access name desc head) :
    Reads (member (unlinked pool)) p (head ++ Assembler.counted []) rest
      ⟨access, name, desc, none⟩ :=
  reads_member hhead (by decide) fun _ => .pure none

theorem reads_codeMember {access : Access} {name desc : String} {head bytes code : List UInt8}
    (hhead : IsHead pool access name desc head) (hcode : Assembler.IsNamed pool "Code" bytes code)
    (hlen : bytes.length < 2 ^ 32) :
    Reads (member (unlinked pool)) p (head ++ Assembler.counted [code]) rest
      ⟨access, name, desc, some bytes⟩ := by
  obtain ⟨index, hindex, rfl⟩ := hcode
  refine reads_member hhead (show 1 < 2 ^ 16 by decide) fun p => ?_
  rw [List.flatten_singleton]
  refine (reads_attributeBytes hlen).bind_last (.bind_nil (.ofExcept hindex) ?_)
  exact .pure (some bytes)

theorem method_of_reads {owner : String} {access : Access} {name desc : String}
    {bytes : List UInt8} {code : Code}
    (h : Reads (Code.read pool owner access name desc) 0 bytes [] code) :
    method pool owner ⟨access, name, desc, some bytes⟩ =
      .ok ⟨access, name, desc, code.maxStack, code.maxLocals, code.instructions, code.handlers,
        code.declaredLocals⟩ := by
  rw [Reads, List.append_nil] at h
  change (Code.read pool owner access name desc ⟨0, bytes⟩ >>= fun r => Except.ok _) = _
  rw [h]
  rfl

end ClassFile

structure Method.ReadAs (m m' : Method) : Prop where
  access : m'.access = m.access
  name : m'.name = m.name
  desc : m'.desc = m.desc
  code : m.hasCode = true →
    m'.maxStack = m.maxStack ∧ m'.maxLocals = m.maxLocals ∧ ∃ f, m.SameCode f m'
  noCode : m.hasCode = false →
    m'.maxStack = 0 ∧ m'.maxLocals = 0 ∧ m'.instructions = .empty ∧ m'.handlers = [] ∧
      m'.declaredLocals = []

namespace ClassFile

variable {pool : ConstantPool} {m : Method} {owner : String}

/-- What is written of a method: its head, and its code in some parts if it has any. -/
inductive IsMethodItem (pool : ConstantPool) (m : Method) (F : CodeParts → Prop) :
    List UInt8 → Prop
  | code {w : CodeParts} {head bytes named : List UInt8} (hhas : m.hasCode = true)
    (hhead : IsHead pool m.access m.name m.desc head) (hw : w.IsOf pool m bytes) (hframes : F w)
    (hnamed : Assembler.IsNamed pool "Code" bytes named) :
    IsMethodItem pool m F (head ++ Assembler.counted [named])
  | noCode {head : List UInt8} (hhas : m.hasCode = false)
    (hhead : IsHead pool m.access m.name m.desc head) :
    IsMethodItem pool m F (head ++ Assembler.counted [])

def ReadsMethod (pool : ConstantPool) (owner : String) (bytes : List UInt8) (m : Method) : Prop :=
  ∃ member, (∀ p rest, Reads (ClassFile.member (unlinked pool)) p bytes rest member) ∧
    method pool owner member = .ok m

theorem reads_noCode {head : List UInt8} (hhas : m.hasCode = false)
    (hhead : IsHead pool m.access m.name m.desc head) :
    ∃ m', ReadsMethod pool owner (head ++ Assembler.counted []) m' ∧ m.ReadAs m' := by
  refine ⟨_, ⟨_, fun p rest => reads_plainMember hhead, rfl⟩, rfl, rfl, rfl, fun h => ?_,
    fun _ => ⟨rfl, rfl, rfl, rfl, rfl⟩⟩
  rw [hhas] at h
  cases h

/-- Code is read back with the frames that its stack map is read as. -/
theorem reads_codeItem {w : CodeParts} {head bytes named : List UInt8}
    {entries : List (Nat × Bytecode.FrameEntry)} {entry : List FrameValue}
    {frames : List (Nat × Frame)} (hhas : m.hasCode = true) (hm : m.Fits)
    (hhead : IsHead pool m.access m.name m.desc head) (hw : w.IsOf pool m bytes)
    (hnamed : Assembler.IsNamed pool "Code" bytes named) (hlen : bytes.length < 2 ^ 32)
    (hzero : ∀ name, pool.className 0 ≠ .ok name) (hread : w.FramesRead pool entries)
    (hentries : ∀ o ∈ entries.map (·.1) ++ entries.flatMap (fun (_, e) => e.mentioned),
      o ∈ PlacedNode.bounds w.placed w.stop)
    (hentry : Frame.entryLocals owner m.access m.name m.desc = .ok entry)
    (hframes : Bytecode.frames entry entries = .ok frames) :
    ∃ m', ReadsMethod pool owner (head ++ Assembler.counted [named]) m' ∧ m.ReadAs m' ∧
      m.SameCode (w.rename m entries) m' ∧
        m'.instructions = (w.result m entries frames).instructions := by
  have hcode := hw.reads_code hm hzero hread hentries hentry hframes
  have hsame {m' : Method}
      (hinstructions : m'.instructions = (w.result m entries frames).instructions)
      (hhandlers : m'.handlers = (w.result m entries frames).handlers)
      (hlocals : m'.declaredLocals = (w.result m entries frames).declaredLocals) :
      m.SameCode (w.rename m entries) m' :=
    hw.sameCode hm hinstructions hhandlers hlocals
  refine ⟨_, ⟨_, fun p rest => reads_codeMember hhead hnamed hlen, method_of_reads hcode⟩,
    ⟨rfl, rfl, rfl, fun _ => ⟨rfl, rfl, _, hsame rfl rfl rfl⟩, fun hnone => ?_⟩,
    hsame rfl rfl rfl, rfl⟩
  rw [hhas] at hnone
  cases hnone

end ClassFile

namespace Assembler

variable {u : PoolTable}

theorem enters_memberHead {access : Access} {name desc : String} (hname : ModifiedUtf8.Fits name)
    (hdesc : ModifiedUtf8.Fits desc) :
    Enters u (memberHead access name desc) (ClassFile.IsHead u.pool access name desc) := by
  refine (enters_utf8 hname).bind fun n => (enters_utf8 hdesc).bind fun d => .pure ?_
  exact fun hd hn => ⟨n, d, hn, hd, rfl⟩

/-- A field is read back as a member without code. -/
theorem enters_fieldBytes {f : Field} (hname : ModifiedUtf8.Fits f.name)
    (hdesc : ModifiedUtf8.Fits f.desc) :
    Enters u (fieldBytes f) fun out => ∀ p rest,
      Reads (ClassFile.member (ClassFile.unlinked u.pool)) p out rest
        ⟨f.access, f.name, f.desc, none⟩ :=
  (enters_memberHead hname hdesc).bind fun _ => .pure fun hhead _ _ =>
    ClassFile.reads_plainMember hhead

/-- A method is written with its code, of whose frames `F` is known. -/
theorem enters_methodBytes {m : Method} {F : List PlacedNode → List (List UInt8) → Prop}
    (hcount : u.bootstrapMethods.length < 2 ^ 16) (hname : ModifiedUtf8.Fits m.name)
    (hdesc : ModifiedUtf8.Fits m.desc)
    (hcode : m.hasCode = true → m.Fits ∧ ∀ placed : List PlacedNode,
      (∀ p ∈ placed, p.node ∈ m.instructions.nodes.toList) →
        Enters u (StackMap.frames (PlacedNode.labelOffset placed) none placed) (F placed)) :
    Enters u (methodBytes m) (ClassFile.IsMethodItem u.pool m fun w => F w.placed w.frames) := by
  refine (enters_memberHead hname hdesc).bind fun head => ?_
  split
  · next hhas =>
      obtain ⟨hm, hframes⟩ := hcode hhas
      refine (enters_code hcount hm hframes).bind fun code => ?_
      refine (enters_namedBytes (by decide)).bind fun named => .pure ?_
      exact fun hnamed ⟨w, hw, hframes⟩ hhead => .code hhas hhead hw hframes hnamed
  · next hhas => exact .pure fun hhead => .noCode (Bool.eq_false_iff.mpr hhas) hhead

/-- A method whose builder placed no frames is read back. -/
theorem enters_plainMethod (hu : u.IsSound) (hcount : u.bootstrapMethods.length < 2 ^ 16)
    {m : Method} (hname : ModifiedUtf8.Fits m.name) (hdesc : ModifiedUtf8.Fits m.desc)
    (hcode : m.hasCode = true → m.IsBuilt ∧ m.WithinLimits) (owner : String) :
    Enters u (methodBytes m) fun out => ∃ m', ClassFile.ReadsMethod u.pool owner out m' ∧
      m.ReadAs m' := by
  -- Without calls for frames there is no stack map, and nothing of one to be read.
  have hframes (hhas : m.hasCode = true) (placed : List PlacedNode)
      (hplaced : ∀ p ∈ placed, p.node ∈ m.instructions.nodes.toList) :
      Enters u (StackMap.frames (PlacedNode.labelOffset placed) none placed) (· = []) := by
    rw [StackMap.frames_of_none fun p hp => (hcode hhas).1.isFrame _ (hplaced p hp)]
    exact .pure rfl
  refine (enters_methodBytes hcount hname hdesc fun hhas =>
    ⟨(hcode hhas).1.fits (hcode hhas).2, hframes hhas⟩).imp ?_
  rintro _ (⟨hhas, hhead, hw, hframes, hnamed⟩ | ⟨hhas, hhead⟩)
  · obtain ⟨hbuilt, hlimits⟩ := hcode hhas
    have hm := hbuilt.fits hlimits
    have htable := hw.frameTable_of_none hframes
    have hlen := hw.length_lt hm (by rw [htable]; decide)
    obtain ⟨locals, hlocals⟩ := hbuilt.entryLocals owner
    obtain ⟨m', hread, hsame, -⟩ := ClassFile.reads_codeItem hhas hm hhead hw hnamed hlen
      hu.className_zero (CodeParts.framesRead_nil htable) (by simp) hlocals rfl
    exact ⟨m', hread, hsame⟩
  · exact ClassFile.reads_noCode hhas hhead

end Assembler

end Injection
