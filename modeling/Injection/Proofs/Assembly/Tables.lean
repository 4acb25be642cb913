import Injection.Assembly.Class
import Injection.Proofs.Assembly.Decoding

/-!
The tables beside the code. Every table that is written is read back, whichever tables stand
before and after it, and an empty table is not written at all.
-/

namespace Injection

open Reader

namespace Bytecode

variable {pool : ConstantPool} {len p : Nat} {rest : List UInt8}

theorem tables_eq_iterate (count : Nat) (t : Tables) :
    tables pool len count t = iterate (table pool len) count t := by
  induction count generalizing t with
  | zero => rfl
  | succ count ih =>
      rw [tables, iterate]
      congr 1
      funext t'
      exact ih t'

/-- A name, a length and as many bytes. -/
theorem reads_named {α : Type} {f : UInt16 → List UInt8 → Reader α} {index : UInt16}
    {info : List UInt8} {a : α} (hinfo : info.length < 2 ^ 32)
    (hf : ∀ p, Reads (f index info) p [] rest a) :
    Reads (u2 >>= fun name => u4 >>= fun length => bytes length.toNat >>= f name) p
      (Bytes.u2 index.toNat ++ Bytes.u4 info.length ++ info) rest a := by
  rw [List.append_assoc]
  refine (reads_index index).bind ((reads_u4 info.length).bind ((reads_bytes ?_).bind_last (hf _)))
  exact (UInt32.toNat_ofNat_of_lt' hinfo).symm

theorem length_counted {items : List (List UInt8)} {n : Nat} (h : ∀ item ∈ items, item.length = n) :
    (Assembler.counted items).length = 2 + n * items.length := by
  have hu2 := Bytes.length_bigEndian 2 items.length
  rw [Assembler.counted, List.length_append, Instruction.length_flatten h]
  exact congrArg (· + _) hu2

def lineItem (entry : Nat × UInt32) : List UInt8 :=
  Bytes.u2 entry.1 ++ Bytes.u2 entry.2.toNat

theorem reads_lineEntry {n : Nat} (hn : n ≤ 0xffff) (line : UInt32) :
    Reads lineEntry p (lineItem (n, line)) rest (n, line.toUInt16.toUInt32) := by
  refine (reads_u2 n).bind ((reads_u2 line.toNat).bind_last ?_)
  have hnat : (UInt16.ofNat n).toNat = n :=
    UInt16.toNat_ofNat_of_lt' (Nat.lt_of_le_of_lt hn (by decide))
  rw [hnat]
  exact .pure _

theorem reads_lineTable {index : UInt16} {entries : List (Nat × UInt32)} {t : Tables}
    (hname : pool.utf8 index = .ok "LineNumberTable") (hcount : entries.length < 2 ^ 16)
    (hentries : ∀ e ∈ entries, e.1 ≤ 0xffff) :
    Reads (table pool len t) p
      (Bytes.u2 index.toNat ++ Bytes.u4 (Assembler.counted (entries.map lineItem)).length ++
        Assembler.counted (entries.map lineItem)) rest
      { t with
        lines := t.lines ++ entries.map fun e => (e.1, e.2.toUInt16.toUInt32)
        mentioned := t.mentioned ++ entries.map (·.1) } := by
  have hlen : (Assembler.counted (entries.map lineItem)).length < 2 ^ 32 := by
    rw [length_counted (n := 4), List.length_map]
    · omega
    · intro item hitem
      obtain ⟨e, -, rfl⟩ := List.mem_map.mp hitem
      rfl
  refine reads_named hlen fun p => .bind_nil (.ofExcept hname) (.within ?_)
  have hitems : List.Forall₂ (fun item a => ∀ p rest, Reads lineEntry p item rest a)
      (entries.map lineItem) (entries.map fun e => (e.1, e.2.toUInt16.toUInt32)) := by
    rw [List.forall₂_map_left_iff, List.forall₂_map_right_iff, List.forall₂_same]
    exact fun e he p rest => reads_lineEntry (hentries e he) e.2
  refine (Reads.counted (by rwa [List.length_map]) hitems).bind_last ?_
  refine .bind_nil (.ensureEnd _) ?_
  rw [List.map_map]
  exact .pure _

def IsLocalItem (pool : ConstantPool) (d : DeclaredLocal) (item : List UInt8) : Prop :=
  ∃ name desc, pool.utf8 name = .ok d.name ∧ pool.utf8 desc = .ok d.desc ∧
    item = Bytes.u2 d.start.id ++ Bytes.u2 (d.stop.id - d.start.id) ++ Bytes.u2 name.toNat ++
      Bytes.u2 desc.toNat ++ Bytes.u2 d.slot.toNat

theorem reads_localEntry {d : DeclaredLocal} {item : List UInt8} (h : IsLocalItem pool d item)
    (hle : d.start.id ≤ d.stop.id) (hstop : d.stop.id ≤ len) (hlen : len ≤ 0xffff) :
    Reads (localEntry pool len) p item rest d := by
  obtain ⟨name, desc, hname, hdesc, rfl⟩ := h
  have hstart_lt : d.start.id < 2 ^ 16 := by omega
  have hlength_lt : d.stop.id - d.start.id < 2 ^ 16 := by omega
  have hstart : (UInt16.ofNat d.start.id).toNat = d.start.id :=
    UInt16.toNat_ofNat_of_lt' hstart_lt
  have hlength : (UInt16.ofNat (d.stop.id - d.start.id)).toNat = d.stop.id - d.start.id :=
    UInt16.toNat_ofNat_of_lt' hlength_lt
  have hsum : Checked.word ((UInt16.ofNat d.start.id).toNat +
      (UInt16.ofNat (d.stop.id - d.start.id)).toNat) = .ok d.stop.id := by
    rw [hstart, hlength, Nat.add_sub_cancel' hle, Checked.word, if_pos (by omega)]
  simp only [List.append_assoc]
  refine (reads_u2 _).bind ((reads_u2 _).bind ((reads_index name).bind ?_))
  refine .bind_nil (.ofExcept hname) ((reads_index desc).bind (.bind_nil (.ofExcept hdesc) ?_))
  refine (reads_index d.slot).bind_last (.bind_nil (.ofExcept hsum) ?_)
  rw [if_neg (Nat.not_lt.mpr hstop), hstart]
  exact .pure _

theorem length_localItem {d : DeclaredLocal} {item : List UInt8} (h : IsLocalItem pool d item) :
    item.length = 10 := by
  obtain ⟨name, desc, -, -, rfl⟩ := h
  rfl

theorem reads_localTable {index : UInt16} {locals : List DeclaredLocal}
    {items : List (List UInt8)} {t : Tables}
    (hname : pool.utf8 index = .ok "LocalVariableTable") (hcount : locals.length < 2 ^ 16)
    (hitems : List.Forall₂ (IsLocalItem pool) locals items)
    (hlocals : ∀ d ∈ locals, d.start.id ≤ d.stop.id ∧ d.stop.id ≤ len) (hlen : len ≤ 0xffff) :
    Reads (table pool len t) p
      (Bytes.u2 index.toNat ++ Bytes.u4 (Assembler.counted items).length ++
        Assembler.counted items) rest
      { t with
        locals := t.locals ++ locals
        mentioned := t.mentioned ++ locals.flatMap fun d => [d.start.id, d.stop.id] } := by
  have hinfo : (Assembler.counted items).length < 2 ^ 32 := by
    rw [length_counted (n := 10), ← hitems.length_eq]
    · omega
    · intro item hitem
      obtain ⟨d, -, hd⟩ := (forall₂_exists hitems).2 item hitem
      exact length_localItem hd
  refine reads_named hinfo fun p => .bind_nil (.ofExcept hname) (.within ?_)
  have hread : List.Forall₂ (fun item a => ∀ p rest, Reads (localEntry pool len) p item rest a)
      items locals := by
    have hboth := (List.forall₂_and_left ..).mpr ⟨hlocals, hitems⟩
    exact hboth.flip.imp fun item d hd p rest => reads_localEntry hd.2 hd.1.1 hd.1.2 hlen
  refine (Reads.counted (hitems.length_eq ▸ hcount) hread).bind_last ?_
  exact .bind_nil (.ensureEnd _) (.pure _)

def IsClassIndex (pool : ConstantPool) (name? : Option String) (index : UInt16) : Prop :=
  match name? with
  | some name => pool.className index = .ok name
  | none => index = 0

theorem reads_classIndex {α : Type} {f : Option String → Reader α} {name? : Option String}
    {index : UInt16} {bytes : List UInt8} {a : α} (h : IsClassIndex pool name? index)
    (hzero : ∀ name, pool.className 0 ≠ .ok name) (hf : Reads (f name?) p bytes rest a) :
    Reads (if index = 0 then pure none >>= f
      else some <$> Reader.ofExcept (pool.className index) >>= f) p bytes rest a := by
  cases name? with
  | none =>
      rw [if_pos (show index = 0 from h)]
      exact hf
  | some name =>
      have hne : index ≠ 0 := by
        rintro rfl
        exact hzero name h
      rw [if_neg hne]
      exact .bind_nil (.map some (.ofExcept h)) hf

def IsHandlerItem (pool : ConstantPool) (h : ExceptionHandler) (item : List UInt8) : Prop :=
  ∃ catchType, IsClassIndex pool h.catchType catchType ∧
    item = Bytes.u2 h.start.id ++ Bytes.u2 h.stop.id ++ Bytes.u2 h.handler.id ++
      Bytes.u2 catchType.toNat

theorem reads_handler {h : ExceptionHandler} {item : List UInt8} (hitem : IsHandlerItem pool h item)
    (hzero : ∀ name, pool.className 0 ≠ .ok name) (hstart : h.start.id ≤ 0xffff)
    (hstop : h.stop.id ≤ 0xffff) (hhandler : h.handler.id ≤ 0xffff) :
    Reads (handler pool) p item rest h := by
  obtain ⟨catchType, hcatch, rfl⟩ := hitem
  have hnat {n : Nat} (hn : n ≤ 0xffff) : (UInt16.ofNat n).toNat = n :=
    UInt16.toNat_ofNat_of_lt' (Nat.lt_of_le_of_lt hn (by decide))
  simp only [List.append_assoc]
  refine (reads_u2 _).bind ((reads_u2 _).bind ((reads_u2 _).bind ?_))
  refine (reads_index catchType).bind_last (reads_classIndex hcatch hzero ?_)
  rw [hnat hstart, hnat hstop, hnat hhandler]
  exact .pure _

end Bytecode

namespace Assembler

variable {u : PoolTable} {labelOffset : Label → Except AssembleError Nat}

def IsNamed (pool : ConstantPool) (name : String) (bytes out : List UInt8) : Prop :=
  ∃ index, pool.utf8 index = .ok name ∧
    out = Bytes.u2 index.toNat ++ Bytes.u4 bytes.length ++ bytes

theorem enters_namedBytes {name : String} {bytes : List UInt8} (hname : ModifiedUtf8.Fits name) :
    Enters u (namedBytes name bytes) (IsNamed u.pool name bytes) :=
  (enters_utf8 hname).bind fun index => .pure fun hindex => ⟨index, hindex, rfl⟩

/-- What is written of a table: nothing of an empty one. -/
def IsTable (pool : ConstantPool) (name : String) (items out : List (List UInt8)) : Prop :=
  items = [] ∧ out = [] ∨
    items ≠ [] ∧ ∃ bytes, IsNamed pool name (counted items) bytes ∧ out = [bytes]

theorem enters_tableBytes {name : String} {items : List (List UInt8)}
    (hname : ModifiedUtf8.Fits name) :
    Enters u (tableBytes name items) (IsTable u.pool name items) := by
  rw [tableBytes]
  split
  · next hempty => exact .pure (.inl ⟨List.isEmpty_iff.mp hempty, rfl⟩)
  · next hsome =>
      refine (enters_namedBytes hname).bind fun bytes => .pure fun h => .inr ⟨?_, bytes, h, rfl⟩
      rwa [List.isEmpty_iff] at hsome

/-- What is written of a table whose count may wrap: nothing if it wraps to 0. -/
def IsCountedTable (pool : ConstantPool) (name : String) (items out : List (List UInt8)) : Prop :=
  IsTable pool name items out ∨ 2 ^ 16 ≤ items.length ∧ out = []

theorem IsCountedTable.isTable {pool : ConstantPool} {name : String} {items out : List (List UInt8)}
    (h : IsCountedTable pool name items out) (hcount : items.length < 2 ^ 16) :
    IsTable pool name items out :=
  h.resolve_right fun hwrap => Nat.not_le.mpr hcount hwrap.1

theorem enters_countedTable {name : String} {items : List (List UInt8)}
    (hname : ModifiedUtf8.Fits name) :
    Enters u (countedTable name items) (IsCountedTable u.pool name items) := by
  rw [countedTable]
  split
  · next hzero =>
      refine .pure ?_
      by_cases hcount : items.length < 2 ^ 16
      · have hlen := UInt16.toNat_ofNat_of_lt' hcount
        rw [hzero] at hlen
        exact .inl (.inl ⟨List.length_eq_zero_iff.mp hlen.symm, rfl⟩)
      · exact .inr ⟨Nat.le_of_not_lt hcount, rfl⟩
  · next hsome =>
      refine (enters_namedBytes hname).bind fun bytes => .pure fun h => .inl (.inr ⟨?_, bytes, h, rfl⟩)
      rintro rfl
      exact hsome rfl

def offsetBytes (labelOffset : Label → Except AssembleError Nat) (l : Label) :
    Assembler (List UInt8) := do
  return Bytes.u2 (← ofExcept (labelOffset l))

theorem enters_offsetBytes (l : Label) :
    Enters u (offsetBytes labelOffset l) fun bytes =>
      ∃ n, labelOffset l = .ok n ∧ bytes = Bytes.u2 n :=
  (Enters.ofExcept _).bind fun n => .pure fun hn => ⟨n, hn, rfl⟩

/-- There is an item for every mark of a line number. -/
theorem enters_lines (nodes : List Instruction) :
    Enters u
      (nodes.filterMapM fun
        | .line n start => do return some ((← offsetBytes labelOffset start) ++ Bytes.u2 n.toNat)
        | _ => return none)
      fun items => ∃ entries, items = entries.map Bytecode.lineItem ∧
        List.Forall₂ (fun mark e => labelOffset mark.2 = .ok e.1 ∧ e.2 = mark.1)
          (nodes.filterMap Instruction.lineMark?) entries := by
  induction nodes with
  | nil => exact .pure ⟨[], rfl, .nil⟩
  | cons node nodes ih =>
      rw [List.filterMapM_cons]
      cases node with
      | line n start =>
          refine .bind (Q := fun item => ∃ o, labelOffset start = .ok o ∧
            item = some (Bytecode.lineItem (o, n))) ?_ fun item => ?_
          · refine (enters_offsetBytes start).bind fun bytes => .pure ?_
            rintro ⟨o, ho, rfl⟩
            exact ⟨o, ho, rfl⟩
          · cases item with
            | none => exact ih.imp fun _ _ h => by obtain ⟨o, -, h⟩ := h; cases h
            | some item =>
                refine ih.bind fun items => .pure ?_
                rintro ⟨entries, rfl, hentries⟩ ⟨o, ho, hitem⟩
                cases hitem
                exact ⟨(o, n) :: entries, rfl, .cons ⟨ho, rfl⟩ hentries⟩
      | _ => exact ih

theorem enters_localItem {l : DeclaredLocal} (hname : ModifiedUtf8.Fits l.name)
    (hdesc : ModifiedUtf8.Fits l.desc) :
    Enters u
      (do
        let start ← ofExcept (labelOffset l.start)
        let stop ← ofExcept (labelOffset l.stop)
        let name ← utf8 l.name
        let desc ← utf8 l.desc
        return Bytes.u2 start ++ Bytes.u2 (stop - start) ++ Bytes.u2 name.toNat ++
          Bytes.u2 desc.toNat ++ Bytes.u2 l.slot.toNat)
      fun item => ∃ start stop, labelOffset l.start = .ok start ∧ labelOffset l.stop = .ok stop ∧
        Bytecode.IsLocalItem u.pool { l with start := ⟨start⟩, stop := ⟨stop⟩ } item := by
  refine (Enters.ofExcept _).bind fun start => (Enters.ofExcept _).bind fun stop => ?_
  refine (enters_utf8 hname).bind fun name => (enters_utf8 hdesc).bind fun desc => .pure ?_
  exact fun hdesc hname hstop hstart => ⟨start, stop, hstart, hstop, name, desc, hname, hdesc, rfl⟩

/-- A class that may be absent goes by the index 0 then. -/
theorem enters_classIndex {β : Type} {f : UInt16 → Assembler β} {R : β → Prop}
    {name? : Option String} (hname : ∀ name ∈ name?, ModifiedUtf8.Fits name)
    (hf : ∀ index, Enters u (f index) fun b => Bytecode.IsClassIndex u.pool name? index → R b) :
    Enters u (match name? with
      | some name => classRef name >>= f
      | none => Pure.pure 0 >>= f) R := by
  cases name? with
  | some name => exact (enters_classRef (hname name rfl)).bind hf
  | none => exact (Enters.pure (Q := (· = 0)) rfl).bind hf

theorem enters_handlerItem {h : ExceptionHandler}
    (hcatch : ∀ name ∈ h.catchType, ModifiedUtf8.Fits name) :
    Enters u
      (do
        let start ← offsetBytes labelOffset h.start
        let stop ← offsetBytes labelOffset h.stop
        let handler ← offsetBytes labelOffset h.handler
        let catchType ← match h.catchType with
          | some name => classRef name
          | none => pure 0
        return start ++ stop ++ handler ++ Bytes.u2 catchType.toNat)
      fun item => ∃ start stop handler, labelOffset h.start = .ok start ∧
        labelOffset h.stop = .ok stop ∧ labelOffset h.handler = .ok handler ∧
          Bytecode.IsHandlerItem u.pool ⟨⟨start⟩, ⟨stop⟩, ⟨handler⟩, h.catchType⟩ item := by
  refine (enters_offsetBytes h.start).bind fun _ => (enters_offsetBytes h.stop).bind fun _ => ?_
  refine (enters_offsetBytes h.handler).bind fun _ => enters_classIndex hcatch fun index => ?_
  refine .pure ?_
  rintro hindex ⟨handler, hhandler, rfl⟩ ⟨stop, hstop, rfl⟩ ⟨start, hstart, rfl⟩
  exact ⟨start, stop, handler, hstart, hstop, hhandler, index, hindex, rfl⟩

end Assembler

end Injection
