import Injection.Proofs.Assembly.Members

/-!
What a class file holds of a class. The members and the attributes are entered into one pool, and
each of them is found again in the pool as it is when all are entered.
-/

namespace Injection

open Reader

/-- What the class-file format can hold of a class. Methods with code come from a builder. The
bootstrap methods that are collected on the way are counted in two bytes as well, and the length of
their table in four. -/
structure Class.Fits (c : Class) : Prop where
  name : ModifiedUtf8.Fits c.name
  superName : ∀ name ∈ c.superName, ModifiedUtf8.Fits name
  interfaces : ∀ name ∈ c.interfaces, ModifiedUtf8.Fits name
  sourceFile : ∀ file ∈ c.sourceFile, ModifiedUtf8.Fits file
  fields : ∀ f ∈ c.fields, ModifiedUtf8.Fits f.name ∧ ModifiedUtf8.Fits f.desc
  methods : ∀ m ∈ c.methods, ModifiedUtf8.Fits m.name ∧ ModifiedUtf8.Fits m.desc
  code : ∀ m ∈ c.methods, m.hasCode = true → m.IsBuilt ∧ m.WithinLimits
  interfaces_lt : c.interfaces.length < 2 ^ 16
  fields_lt : c.fields.length < 2 ^ 16
  methods_lt : c.methods.length < 2 ^ 16
  bootstraps : ∀ body t, Assembler.classBody c .empty = .ok (body, t) →
    t.bootstrapMethods.length < 2 ^ 16 ∧
      (Assembler.counted (t.bootstrapMethods.map Assembler.bootstrapBytes)).length < 2 ^ 32

/-- What the format can hold of a class whatever the code of its methods is. -/
structure Class.WithinLimits (c : Class) : Prop where
  name : ModifiedUtf8.Fits c.name
  superName : ∀ name ∈ c.superName, ModifiedUtf8.Fits name
  interfaces : ∀ name ∈ c.interfaces, ModifiedUtf8.Fits name
  sourceFile : ∀ file ∈ c.sourceFile, ModifiedUtf8.Fits file
  fields : ∀ f ∈ c.fields, ModifiedUtf8.Fits f.name ∧ ModifiedUtf8.Fits f.desc
  methods : ∀ m ∈ c.methods, ModifiedUtf8.Fits m.name ∧ ModifiedUtf8.Fits m.desc
  interfaces_lt : c.interfaces.length < 2 ^ 16
  fields_lt : c.fields.length < 2 ^ 16
  methods_lt : c.methods.length < 2 ^ 16
  bootstraps : ∀ body t, Assembler.classBody c .empty = .ok (body, t) →
    t.bootstrapMethods.length < 2 ^ 16 ∧
      (Assembler.counted (t.bootstrapMethods.map Assembler.bootstrapBytes)).length < 2 ^ 32

theorem Class.Fits.withinLimits {c : Class} (hc : c.Fits) : c.WithinLimits := { hc with }

namespace ClassFile

variable {pool : ConstantPool} {p : Nat} {rest : List UInt8}

theorem classAttributes_eq_iterate (count : Nat) (a : Attributes) :
    classAttributes pool count a = iterate (classAttribute pool) count a := by
  induction count generalizing a with
  | zero => rfl
  | succ count ih =>
      rw [classAttributes, iterate]
      congr 1
      funext a'
      exact ih a'

def IsSource (pool : ConstantPool) (sourceFile : Option String) (out : List (List UInt8)) : Prop :=
  match sourceFile with
  | some file => ∃ name index, pool.utf8 name = .ok "SourceFile" ∧ pool.utf8 index = .ok file ∧
    out = [Bytes.u2 name.toNat ++ Bytes.u4 2 ++ Bytes.u2 index.toNat]
  | none => out = []

theorem changes_source {sourceFile : Option String} {out : List (List UInt8)}
    (h : IsSource pool sourceFile out) :
    Changes (classAttribute (unlinked pool)) out fun a =>
      { a with sourceFile := sourceFile.or a.sourceFile } := by
  cases sourceFile with
  | none =>
      rw [show out = [] from h]
      exact changes_nil
  | some file =>
      obtain ⟨name, index, hname, hindex, rfl⟩ := h
      refine changes_singleton fun a p rest => ?_
      have hinfo : (Bytes.u2 index.toNat).length < 2 ^ 32 := by
        rw [Bytes.u2, Bytes.length_bigEndian]
        decide
      refine (reads_attributeBytes hinfo).bind_last (.bind_nil (.ofExcept hname) (.within ?_))
      exact (reads_index index).bind_last (.bind_nil (.ofExcept hindex)
        (.bind_nil (.ensureEnd _) (.pure _)))

theorem reads_bootstrapMethod {m : BootstrapMethod} (hargs : m.args.length < 2 ^ 16) :
    Reads bootstrapMethod p (Assembler.bootstrapBytes m) rest m := by
  refine (reads_index m.handle).bind ?_
  have hitems : List.Forall₂ (fun item a => ∀ p rest, Reads u2 p item rest a)
      (m.args.map fun a => Bytes.u2 a.toNat) m.args := by
    rw [List.forall₂_map_left_iff, List.forall₂_same]
    exact fun a _ p rest => reads_index a
  exact (Reads.counted (by rwa [List.length_map]) hitems).bind_last (.pure _)

theorem changes_bootstraps {methods : List BootstrapMethod} {out : List (List UInt8)}
    (htable : Assembler.IsTable pool "BootstrapMethods" (methods.map Assembler.bootstrapBytes) out)
    (hcount : methods.length < 2 ^ 16) (hargs : ∀ m ∈ methods, m.args.length < 2 ^ 16)
    (hlen : (Assembler.counted (methods.map Assembler.bootstrapBytes)).length < 2 ^ 32) :
    Changes (classAttribute (unlinked pool)) out fun a =>
      if methods = [] then a else { a with bootstrapMethods := methods } := by
  rcases htable with ⟨hnone, rfl⟩ | ⟨hsome, item, ⟨index, hindex, rfl⟩, rfl⟩
  · rw [List.map_eq_nil_iff] at hnone
    subst hnone
    exact changes_nil
  · rw [ne_eq, List.map_eq_nil_iff] at hsome
    refine changes_singleton fun a p rest => ?_
    rw [if_neg hsome]
    refine (reads_attributeBytes hlen).bind_last (.bind_nil (.ofExcept hindex) (.within ?_))
    have hitems : List.Forall₂ (fun item m => ∀ p rest, Reads bootstrapMethod p item rest m)
        (methods.map Assembler.bootstrapBytes) methods := by
      rw [List.forall₂_map_left_iff, List.forall₂_same]
      exact fun m hm p rest => reads_bootstrapMethod (hargs m hm)
    refine (Reads.counted (by rwa [List.length_map]) hitems).bind_last ?_
    exact .bind_nil (.ensureEnd _) (.pure _)

theorem length_classAttributes {sourceFile : Option String} {source bootstrap : List (List UInt8)}
    {items : List (List UInt8)} (hsource : IsSource pool sourceFile source)
    (htable : Assembler.IsTable pool "BootstrapMethods" items bootstrap) :
    (source ++ bootstrap).length ≤ 2 := by
  have hone : source.length ≤ 1 := by
    cases sourceFile with
    | none => rw [show source = [] from hsource]; exact Nat.zero_le 1
    | some file =>
        obtain ⟨name, index, -, -, rfl⟩ := hsource
        exact Nat.le_refl 1
  rw [List.length_append]
  rcases htable with ⟨-, rfl⟩ | ⟨-, item, -, rfl⟩
  · exact Nat.le_trans hone (by decide)
  · exact Nat.add_le_add_right hone 1

/-- The attributes of a class are read back, from whichever of the two there are. -/
theorem reads_classAttributes {sourceFile : Option String} {methods : List BootstrapMethod}
    {source bootstrap : List (List UInt8)} (hsource : IsSource pool sourceFile source)
    (htable : Assembler.IsTable pool "BootstrapMethods" (methods.map Assembler.bootstrapBytes)
      bootstrap)
    (hcount : methods.length < 2 ^ 16) (hargs : ∀ m ∈ methods, m.args.length < 2 ^ 16)
    (hlen : (Assembler.counted (methods.map Assembler.bootstrapBytes)).length < 2 ^ 32) :
    Reads (classAttributes (unlinked pool) (source ++ bootstrap).length ⟨none, []⟩) p
      (source ++ bootstrap).flatten rest ⟨sourceFile, methods⟩ := by
  have hchanges := (changes_source hsource).append (changes_bootstraps htable hcount hargs hlen)
  have hread := hchanges ⟨none, []⟩ p rest
  rw [← classAttributes_eq_iterate] at hread
  have hattributes : (if methods = [] then (⟨sourceFile.or none, []⟩ : Attributes)
      else ⟨sourceFile.or none, methods⟩) = ⟨sourceFile, methods⟩ := by
    rw [Option.or_none]
    split
    · next hnone => rw [hnone]
    · rfl
  rw [← hattributes]
  exact hread

end ClassFile

/-- What is entered of a class and encoded, before its attributes. -/
structure ClassParts where
  name : UInt16
  superName : UInt16
  interfaces : List UInt16
  fields : List (List UInt8)
  methods : List (List UInt8)

namespace ClassParts

def bytes (w : ClassParts) (c : Class) : List UInt8 :=
  Bytes.u2 c.access.toNat ++ Bytes.u2 w.name.toNat ++ Bytes.u2 w.superName.toNat ++
    Assembler.counted (w.interfaces.map fun i => Bytes.u2 i.toNat) ++ Assembler.counted w.fields ++
      Assembler.counted w.methods

/-- The parts are those of a class, as seen in a pool. What is known of the bytes of a method is
given by `P`. -/
structure IsOf (pool : ConstantPool) (c : Class) (P : Method → List UInt8 → Prop)
    (w : ClassParts) : Prop where
  name : pool.className w.name = .ok c.name
  superName : Bytecode.IsClassIndex pool c.superName w.superName
  interfaces : List.Forall₂ (fun name i => pool.className i = .ok name) c.interfaces w.interfaces
  fields : List.Forall₂ (fun f out => ∀ p rest,
    Reads (ClassFile.member (ClassFile.unlinked pool)) p out rest ⟨f.access, f.name, f.desc, none⟩)
    c.fields w.fields
  methods : List.Forall₂ P c.methods w.methods

end ClassParts

namespace Assembler

variable {u : PoolTable}

def classParts (c : Class) : Assembler ClassParts := do
  let name ← classRef c.name
  let superName ← match c.superName with
    | some name => classRef name
    | none => pure 0
  let interfaces ← c.interfaces.mapM classRef
  let fields ← c.fields.mapM fieldBytes
  let methods ← c.methods.mapM methodBytes
  return ⟨name, superName, interfaces, fields, methods⟩

theorem classBody_eq (c : Class) :
    classBody c = classParts c >>= fun w => classAttributes c >>= fun attributes =>
      pure (w.bytes c ++ counted attributes) := by
  simp only [classBody, classParts, ClassParts.bytes]
  cases c.superName <;> simp only [bind_assoc, pure_bind]

theorem enters_classParts {c : Class} {P : Method → List UInt8 → Prop} (hc : c.WithinLimits)
    (hmethods : ∀ m ∈ c.methods, Enters u (methodBytes m) (P m)) :
    Enters u (classParts c) (ClassParts.IsOf u.pool c P) := by
  refine (enters_classRef hc.name).bind fun name => ?_
  refine enters_classIndex hc.superName fun superName => ?_
  refine (Enters.mapM fun i hi => enters_classRef (hc.interfaces i hi)).bind fun interfaces => ?_
  refine (Enters.mapM fun f hf => enters_fieldBytes (hc.fields f hf).1 (hc.fields f hf).2).bind
    fun fields => ?_
  refine (Enters.mapM hmethods).bind fun methods => .pure ?_
  exact fun hmethods hfields hinterfaces hsuper hname =>
    ⟨hname, hsuper, hinterfaces, hfields, hmethods⟩

def sourceBytes (sourceFile : Option String) : Assembler (List (List UInt8)) := do
  match sourceFile with
  | some file =>
    let name ← utf8 "SourceFile"
    let file ← utf8 file
    return [Bytes.u2 name.toNat ++ Bytes.u4 2 ++ Bytes.u2 file.toNat]
  | none => return []

theorem enters_sourceBytes {sourceFile : Option String}
    (hfile : ∀ file ∈ sourceFile, ModifiedUtf8.Fits file) :
    Enters u (sourceBytes sourceFile) (ClassFile.IsSource u.pool sourceFile) := by
  cases sourceFile with
  | none => exact .pure rfl
  | some file =>
      refine (enters_utf8 (by decide)).bind fun name => ?_
      refine (enters_utf8 (hfile file rfl)).bind fun index => .pure ?_
      exact fun hindex hname => ⟨name, index, hname, hindex, rfl⟩

theorem classAttributes_eq (c : Class) :
    classAttributes c = sourceBytes c.sourceFile >>= fun source => get >>= fun t =>
      tableBytes "BootstrapMethods" (t.bootstrapMethods.map bootstrapBytes) >>= fun bootstrap =>
        pure (source ++ bootstrap) := by
  simp only [classAttributes, sourceBytes]
  cases c.sourceFile <;> simp only [bind_assoc, pure_bind]

/-- A table that is written adds no bootstrap method. -/
theorem tableBytes_bootstrapMethods {name : String} {items out : List (List UInt8)}
    {t t' : PoolTable} (h : tableBytes name items t = .ok (out, t')) :
    t'.bootstrapMethods = t.bootstrapMethods := by
  rw [tableBytes] at h
  split at h
  · cases h
    rfl
  · obtain ⟨bytes, t'', hnamed, h⟩ := bind_apply_eq_ok.mp h
    cases h
    rw [namedBytes] at hnamed
    obtain ⟨index, t', hindex, hnamed⟩ := bind_apply_eq_ok.mp hnamed
    cases hnamed
    rcases intern_eq_ok hindex with ⟨-, -, -, rfl⟩ | ⟨-, -, rfl⟩
    · rfl
    · rfl

/-- The attributes tell the source file and all the bootstrap methods of the pool. -/
theorem classAttributes_eq_ok {c : Class} {attributes : List (List UInt8)} {t t' : PoolTable}
    (hfile : ∀ file ∈ c.sourceFile, ModifiedUtf8.Fits file) (ht : t.IsSound)
    (h : classAttributes c t = .ok (attributes, t')) :
    t'.IsSound ∧ t.Within t' ∧ ∃ source bootstrap, attributes = source ++ bootstrap ∧
      ClassFile.IsSource t'.pool c.sourceFile source ∧
        IsTable t'.pool "BootstrapMethods" (t'.bootstrapMethods.map bootstrapBytes) bootstrap := by
  rw [classAttributes_eq] at h
  obtain ⟨source, t₁, hsource, h⟩ := bind_apply_eq_ok.mp h
  obtain ⟨_, _, ⟨⟩, h⟩ := bind_apply_eq_ok.mp h
  obtain ⟨bootstrap, t₂, htable, h⟩ := bind_apply_eq_ok.mp h
  cases h
  obtain ⟨ht₁, hgrow₁, hsource⟩ := enters_sourceBytes hfile t _ _ ht hsource
  obtain ⟨ht', hgrow, hboot⟩ := enters_tableBytes (by decide) t₁ _ _ ht₁ htable
  rw [← tableBytes_bootstrapMethods htable] at hboot
  exact ⟨ht', hgrow₁.trans hgrow, source, bootstrap, rfl, hsource hgrow, hboot (.refl _)⟩

end Assembler

namespace ClassParts

variable {pool : ConstantPool} {c : Class} {P : Method → List UInt8 → Prop} {w : ClassParts}

/-- The methods as members, and these with their code decoded. -/
theorem exists_members {owner : String} {R : Method → Method → Prop} {methods : List Method}
    {outs : List (List UInt8)}
    (h : List.Forall₂ (fun m out => ∃ m', ClassFile.ReadsMethod pool owner out m' ∧ R m m')
      methods outs) :
    ∃ members methods', List.Forall₂ (fun out member => ∀ p rest,
        Reads (ClassFile.member (ClassFile.unlinked pool)) p out rest member) outs members ∧
      members.mapM (ClassFile.method pool owner) = .ok methods' ∧
        List.Forall₂ R methods methods' := by
  induction h with
  | nil => exact ⟨[], [], .nil, rfl, .nil⟩
  | cons hm _ ih =>
      obtain ⟨m', ⟨member, hread, hmethod⟩, hm⟩ := hm
      obtain ⟨members, methods', hreads, hmethods, hall⟩ := ih
      refine ⟨member :: members, m' :: methods', .cons hread hreads, ?_, .cons hm hall⟩
      exact mapM_of_forall₂ (.cons hmethod (mapM_eq_ok hmethods))

theorem IsOf.reads_fields (hw : w.IsOf pool c P) :
    List.Forall₂ (fun out member => ∀ p rest,
      Reads (ClassFile.member (ClassFile.unlinked pool)) p out rest member)
      w.fields (c.fields.map fun f => ⟨f.access, f.name, f.desc, none⟩) := by
  rw [List.forall₂_map_right_iff]
  exact hw.fields.flip

theorem IsOf.reads_interfaces (hw : w.IsOf pool c P) :
    List.Forall₂ (fun out name => ∀ p rest,
      Reads (u2 >>= fun i => Reader.ofExcept ((ClassFile.unlinked pool).className i)) p out rest
        name)
      (w.interfaces.map fun i => Bytes.u2 i.toNat) c.interfaces := by
  rw [List.forall₂_map_left_iff]
  exact hw.interfaces.flip.imp fun i name h p rest => (reads_index i).bind_last (.ofExcept h)

end ClassParts

structure Class.IsWritten (c : Class) (u : PoolTable) (P : Method → List UInt8 → Prop)
    (w : ClassParts) (source bootstrap : List (List UInt8)) : Prop where
  pool : u.IsSound
  count_lt : u.bootstrapMethods.length < 2 ^ 16
  length_lt : (Assembler.counted (u.bootstrapMethods.map Assembler.bootstrapBytes)).length < 2 ^ 32
  parts : w.IsOf u.pool c P
  source : ClassFile.IsSource u.pool c.sourceFile source
  bootstrap : Assembler.IsTable u.pool "BootstrapMethods"
    (u.bootstrapMethods.map Assembler.bootstrapBytes) bootstrap

namespace ClassParts

def file (w : ClassParts) (c : Class) (u : PoolTable) (attributes : List (List UInt8)) :
    List UInt8 :=
  Bytes.u4 0xcafebabe ++ Bytes.u2 c.minorVersion.toNat ++ Bytes.u2 c.majorVersion.toNat ++
    u.bytes ++ (w.bytes c ++ Assembler.counted attributes)

end ClassParts

/-- A class that is assembled is written in parts, with its methods as they enter any pool. -/
theorem Class.exists_isWritten {c : Class} {bytes : List UInt8}
    {P : PoolTable → Method → List UInt8 → Prop} (hc : c.WithinLimits)
    (hmethods : ∀ u : PoolTable, u.IsSound → u.bootstrapMethods.length < 2 ^ 16 →
      ∀ m ∈ c.methods, Assembler.Enters u (Assembler.methodBytes m) (P u m))
    (h : c.assemble = .ok bytes) :
    ∃ u w source bootstrap, c.IsWritten u (P u) w source bootstrap ∧
      (∃ t, Assembler.classParts c .empty = .ok (w, t)) ∧
        bytes = w.file c u (source ++ bootstrap) := by
  obtain ⟨⟨body, u⟩, hbody, h⟩ := bind_eq_ok.mp h
  cases h
  obtain ⟨hcount, hlen⟩ := hc.bootstraps body u hbody
  rw [Assembler.classBody_eq] at hbody
  obtain ⟨w, t, hparts, hbody⟩ := Assembler.bind_apply_eq_ok.mp hbody
  obtain ⟨attributes, t', hattributes, hbody⟩ := Assembler.bind_apply_eq_ok.mp hbody
  change Except.ok (w.bytes c ++ Assembler.counted attributes, t') = .ok (body, u) at hbody
  cases hbody
  -- The attributes are entered last, so that the pool they leave is the one that is written.
  have hempty := PoolTable.empty_isSound
  have ht := (Assembler.enters_classParts hc (hmethods .empty hempty (by decide)) _ _ _ hempty
    hparts).1
  obtain ⟨hu, hgrow, source, bootstrap, rfl, hsource, htable⟩ :=
    Assembler.classAttributes_eq_ok hc.sourceFile ht hattributes
  obtain ⟨-, -, hw⟩ :=
    Assembler.enters_classParts hc (hmethods u hu hcount) _ _ _ hempty hparts
  exact ⟨u, w, source, bootstrap, ⟨hu, hcount, hlen, hw hgrow, hsource, htable⟩, ⟨t, hparts⟩, rfl⟩

theorem Class.assemble_eq_ok {c : Class} {bytes : List UInt8} (hc : c.Fits)
    (h : c.assemble = .ok bytes) :
    ∃ u w source bootstrap, c.IsWritten u
        (fun m out => ∃ m', ClassFile.ReadsMethod u.pool c.name out m' ∧ m.ReadAs m') w source
        bootstrap ∧
      bytes = w.file c u (source ++ bootstrap) := by
  obtain ⟨u, w, source, bootstrap, hw, -, hbytes⟩ := c.exists_isWritten hc.withinLimits
    (fun u hu hcount m hm => Assembler.enters_plainMethod hu hcount (hc.methods m hm).1
      (hc.methods m hm).2 (hc.code m hm) c.name) h
  exact ⟨u, w, source, bootstrap, hw, hbytes⟩

end Injection
