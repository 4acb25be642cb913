import Injection.Assembly.Layout
import Injection.Proofs.ClassFile.Pool

/-!
What a computation enters into a pool can be looked up there afterwards, in the pool it leaves
and in every pool that grows from it.
-/

namespace Injection

namespace PoolTable

def Within (t u : PoolTable) : Prop :=
  t.slots.IsPrefix u.slots ∧ t.bootstrapMethods.IsPrefix u.bootstrapMethods

theorem Within.refl (t : PoolTable) : t.Within t := ⟨List.prefix_rfl, List.prefix_rfl⟩

theorem Within.trans {t u v : PoolTable} (htu : t.Within u) (huv : u.Within v) : t.Within v :=
  ⟨htu.1.trans huv.1, htu.2.trans huv.2⟩

end PoolTable

namespace ConstantPool

/-- An entry at an index is found by looking it up. -/
theorem entry_eq {pool : ConstantPool} {index : UInt16} {e : PoolEntry}
    (hindex : pool.entries[index.toNat]? = some e) (he : e ≠ .unusable) :
    pool.entry index = .ok e := by
  rw [entry, hindex]
  cases e <;> first | rfl | exact absurd rfl he

end ConstantPool

namespace Assembler

variable {α β : Type} {u : PoolTable} {x : Assembler α} {f : α → Assembler β} {Q : α → Prop}
  {R : β → Prop}

/-- Where it succeeds, `x` leaves a sound table that has all it had before, and its result is as
`Q` says as soon as that table has grown into `u`. -/
def Enters (u : PoolTable) (x : Assembler α) (Q : α → Prop) : Prop :=
  ∀ t a t', t.IsSound → x t = .ok (a, t') → t'.IsSound ∧ t.Within t' ∧ (t'.Within u → Q a)

theorem bind_eq (t : PoolTable) : (x >>= f) t = (x t >>= fun r => f r.1 r.2) := rfl

theorem bind_apply_eq_ok {b : β} {t t'' : PoolTable} :
    (x >>= f) t = .ok (b, t'') ↔ ∃ a t', x t = .ok (a, t') ∧ f a t' = .ok (b, t'') := by
  rw [bind_eq, bind_eq_ok, Prod.exists]

namespace Enters

theorem pure {a : α} (h : Q a) : Enters u (pure a : Assembler α) Q := by
  rintro t _ _ ht ⟨⟩
  exact ⟨ht, .refl t, fun _ => h⟩

theorem throw_bind (e : AssembleError) (f : α → Assembler β) :
    Enters u ((MonadExcept.throw e : Assembler α) >>= f) R := by
  rintro t _ _ _ ⟨⟩

theorem ofExcept (r : Except AssembleError α) : Enters u (ofExcept r) (r = .ok ·) := by
  intro t a t' ht hrun
  cases r with
  | error e => cases hrun
  | ok a =>
      cases hrun
      exact ⟨ht, .refl t, fun _ => rfl⟩

theorem imp {R : α → Prop} (hx : Enters u x Q) (h : ∀ a, Q a → R a) : Enters u x R := by
  intro t a t' ht hrun
  obtain ⟨ht', hgrow, hQ⟩ := hx t a t' ht hrun
  exact ⟨ht', hgrow, fun hu => h a (hQ hu)⟩

/-- The second part starts from the table that the first one leaves. What the pool says of the
result of the first part may be used once the whole is done; what is true of it at any rate may
be used at once. -/
theorem bind_of {P : α → Prop} (hx : Enters u x Q) (hP : ∀ t a t', x t = .ok (a, t') → P a)
    (hf : ∀ a, P a → Enters u (f a) fun b => Q a → R b) : Enters u (x >>= f) R := by
  intro t b t'' ht hrun
  obtain ⟨a, t', hfirst, hrest⟩ := bind_apply_eq_ok.mp hrun
  obtain ⟨ht', hgrow, hQ⟩ := hx t a t' ht hfirst
  obtain ⟨ht'', hgrow', hR⟩ := hf a (hP t a t' hfirst) t' b t'' ht' hrest
  exact ⟨ht'', hgrow.trans hgrow', fun hu => hR hu (hQ (hgrow'.trans hu))⟩

theorem bind (hx : Enters u x Q) (hf : ∀ a, Enters u (f a) fun b => Q a → R b) :
    Enters u (x >>= f) R :=
  bind_of (P := fun _ => True) hx (fun _ _ _ _ => trivial) fun a _ => hf a

/-- The results of a loop, one for each item. -/
theorem mapM {xs : List α} {f : α → Assembler β} {R : α → β → Prop}
    (hf : ∀ a ∈ xs, Enters u (f a) (R a)) : Enters u (xs.mapM f) (List.Forall₂ R xs) := by
  induction xs with
  | nil => exact .pure .nil
  | cons a xs ih =>
      rw [List.mapM_cons]
      refine (hf a List.mem_cons_self).bind fun b => ?_
      refine (ih fun a ha => hf a (List.mem_cons_of_mem _ ha)).bind fun bs => ?_
      exact .pure fun hbs hb => .cons hb hbs

end Enters

/-- An entry is found in its place, or takes the next slots. -/
theorem intern_eq_ok {e : PoolEntry} {t t' : PoolTable} {index : UInt16}
    (h : intern e t = .ok (index, t')) :
    (∃ n, t.slots[n]? = some e ∧ index = UInt16.ofNat n ∧ t' = t) ∨
      t.slots.length + e.slots.length ≤ 65535 ∧ index = UInt16.ofNat t.slots.length ∧
        t' = { t with slots := t.slots ++ e.slots } := by
  rw [intern] at h
  split at h
  · next n hn =>
      cases h
      obtain ⟨hlt, hget, -⟩ := List.idxOf?_eq_some_iff.mp hn
      exact .inl ⟨n, List.getElem?_eq_some_iff.mpr ⟨hlt, hget⟩, rfl, rfl⟩
  · change (if 65535 < t.slots.length + e.slots.length then _ else _) = _ at h
    split at h
    · cases h
    · next hle =>
        cases h
        exact .inr ⟨Nat.le_of_not_lt hle, rfl, rfl⟩

/-- The index of an entry stands for it. -/
theorem enters_intern {e : PoolEntry} (he : e.Fits) :
    Enters u (intern e) (u.pool.entry · = .ok e) := by
  intro t index t' ht hrun
  have hlen := ht.length_le
  have hpos := e.length_slots_pos
  have hfound {t' : PoolTable} {n : Nat} (hn : t'.slots[n]? = some e) (hlt : n < 65535)
      (hu : t'.Within u) : u.pool.entry (UInt16.ofNat n) = .ok e := by
    have hnat : (UInt16.ofNat n).toNat = n :=
      UInt16.toNat_ofNat_of_lt' (Nat.lt_trans hlt (by decide))
    obtain ⟨more, hmore⟩ := hu.1
    refine ConstantPool.entry_eq ?_ he.ne_unusable
    rw [hnat, PoolTable.pool, List.getElem?_toArray, ← hmore]
    exact List.getElem?_append_left (List.getElem?_eq_some_iff.mp hn).1 ▸ hn
  rcases intern_eq_ok hrun with ⟨n, hn, rfl, rfl⟩ | ⟨hle, rfl, rfl⟩
  · have hlt := (List.getElem?_eq_some_iff.mp hn).1
    exact ⟨ht, .refl _, hfound hn (by omega)⟩
  · obtain ⟨entries, hentries, hslots⟩ := ht.slots
    have hnew : (t.slots ++ e.slots)[t.slots.length]? = some e := by
      rw [List.getElem?_append_right (Nat.le_refl _), Nat.sub_self, PoolEntry.slots]
      split <;> rfl
    refine ⟨⟨⟨entries ++ [e], ?_, ?_⟩, ?_, ht.args_lt⟩, ?_, hfound hnew (by omega)⟩
    · intro e' he'
      rcases List.mem_append.mp he' with he' | he'
      · exact hentries e' he'
      · rwa [List.mem_singleton.mp he']
    · simp [hslots, List.flatMap_append]
    · rwa [List.length_append]
    · exact ⟨List.prefix_append .., List.prefix_rfl⟩

theorem enters_utf8 {text : String} (h : ModifiedUtf8.Fits text) :
    Enters u (utf8 text) (u.pool.utf8 · = .ok text) := by
  refine (enters_intern (e := .utf8 text) h).imp fun index hindex => ?_
  rw [ConstantPool.utf8, hindex]
  rfl

theorem enters_classRef {name : String} (h : ModifiedUtf8.Fits name) :
    Enters u (classRef name) (u.pool.className · = .ok name) := by
  refine (enters_utf8 h).bind fun text => ?_
  refine (enters_intern (e := .classRef text) trivial).imp fun index hindex htext => ?_
  rw [ConstantPool.className, hindex]
  exact htext

theorem enters_nameAndType {name desc : String} (hname : ModifiedUtf8.Fits name)
    (hdesc : ModifiedUtf8.Fits desc) :
    Enters u (nameAndType name desc) (u.pool.nameAndType · = .ok (name, desc)) := by
  refine (enters_utf8 hname).bind fun n => (enters_utf8 hdesc).bind fun d => ?_
  refine (enters_intern (e := .nameAndType n d) trivial).imp fun index hindex hd hn => ?_
  rw [ConstantPool.nameAndType, hindex]
  change (u.pool.utf8 n >>= fun n => u.pool.utf8 d >>= fun d => Pure.pure (n, d)) = _
  rw [hn, hd]
  rfl

/-- A reference to a member of the kind `entry`, under which it is found as `interface` says. -/
theorem enters_member {entry : UInt16 → UInt16 → PoolEntry} {owner name desc : String}
    {interface : Bool} (hentry : ∀ m n, (entry m n).Fits)
    (hfound : ∀ index m n, u.pool.entry index = .ok (entry m n) →
      u.pool.memberRef index = u.pool.member m n interface)
    (howner : ModifiedUtf8.Fits owner) (hname : ModifiedUtf8.Fits name)
    (hdesc : ModifiedUtf8.Fits desc) :
    Enters u (member entry owner name desc)
      (u.pool.memberRef · = .ok ⟨owner, name, desc, interface⟩) := by
  refine (enters_classRef howner).bind fun m => (enters_nameAndType hname hdesc).bind fun n => ?_
  refine (enters_intern (hentry m n)).imp fun index hindex hn hm => ?_
  rw [hfound index m n hindex, ConstantPool.member, hm]
  change (u.pool.nameAndType n >>= fun r => Except.ok _) = _
  rw [hn]
  rfl

theorem enters_field {owner name desc : String} (howner : ModifiedUtf8.Fits owner)
    (hname : ModifiedUtf8.Fits name) (hdesc : ModifiedUtf8.Fits desc) :
    Enters u (member .fieldRef owner name desc)
      (u.pool.memberRef · = .ok ⟨owner, name, desc, false⟩) := by
  refine enters_member (fun _ _ => trivial) (fun index m n hindex => ?_) howner hname hdesc
  rw [ConstantPool.memberRef, hindex]
  rfl

theorem enters_method {owner name desc : String} {interface : Bool}
    (howner : ModifiedUtf8.Fits owner) (hname : ModifiedUtf8.Fits name)
    (hdesc : ModifiedUtf8.Fits desc) :
    Enters u (method owner name desc interface)
      (u.pool.memberRef · = .ok ⟨owner, name, desc, interface⟩) := by
  cases interface with
  | false =>
      refine enters_member (fun _ _ => trivial) (fun index m n hindex => ?_) howner hname hdesc
      rw [ConstantPool.memberRef, hindex]
      rfl
  | true =>
      refine enters_member (fun _ _ => trivial) (fun index m n hindex => ?_) howner hname hdesc
      rw [ConstantPool.memberRef, hindex]
      rfl

/-- The reference of a handle stands apart from the entry that holds it. -/
theorem handle_eq (h : Handle) :
    handle h = (if 1 ≤ h.kind.toNat && h.kind.toNat ≤ 4 then member .fieldRef h.owner h.name h.desc
      else method h.owner h.name h.desc (h.kind.toNat = 9 || h.interface)) >>=
        fun reference => intern (.methodHandle h.kind reference) := by
  rw [handle]
  split <;> rfl

theorem enters_handle {h : Handle} (hfits : h.Fits) :
    Enters u (handle h) (u.pool.handle · = .ok h) := by
  have hreference : Enters u
      (if 1 ≤ h.kind.toNat && h.kind.toNat ≤ 4 then member .fieldRef h.owner h.name h.desc
        else method h.owner h.name h.desc (h.kind.toNat = 9 || h.interface))
      (u.pool.memberRef · = .ok ⟨h.owner, h.name, h.desc, h.interface⟩) := by
    split
    · next hkind =>
        simp only [Bool.and_eq_true, decide_eq_true_eq] at hkind
        rw [hfits.field hkind.1 hkind.2]
        exact enters_field hfits.owner hfits.name hfits.desc
    · have hinterface : (decide (h.kind.toNat = 9) || h.interface) = h.interface := by
        by_cases hkind : h.kind.toNat = 9
        · rw [hfits.interface hkind, Bool.or_true]
        · rw [decide_eq_false hkind, Bool.false_or]
      rw [hinterface]
      exact enters_method hfits.owner hfits.name hfits.desc
  rw [handle_eq]
  refine hreference.bind fun reference => ?_
  refine (enters_intern (e := .methodHandle h.kind reference) trivial).imp
    fun index hindex href => ?_
  rw [ConstantPool.handle, hindex]
  change (u.pool.memberRef reference >>= fun m => Except.ok _) = _
  rw [href]
  rfl

theorem enters_internBootstrap {m : BootstrapMethod} (hargs : m.args.length < 2 ^ 16)
    (hu : u.bootstrapMethods.length < 2 ^ 16) :
    Enters u (internBootstrap m) (u.pool.bootstrapMethods[·.toNat]? = some m) := by
  intro t index t' ht hrun
  have hfound {t' : PoolTable} {n : Nat} (hn : t'.bootstrapMethods[n]? = some m)
      (hgrow : t'.Within u) : u.pool.bootstrapMethods[(UInt16.ofNat n).toNat]? = some m := by
    obtain ⟨more, hmore⟩ := hgrow.2
    have hget : u.bootstrapMethods[n]? = some m := by
      rw [← hmore]
      exact List.getElem?_append_left (List.getElem?_eq_some_iff.mp hn).1 ▸ hn
    have hlt := (List.getElem?_eq_some_iff.mp hget).1
    rwa [UInt16.toNat_ofNat', Nat.mod_eq_of_lt (by omega)]
  rw [internBootstrap] at hrun
  split at hrun
  · next n hn =>
      cases hrun
      obtain ⟨hlt, hget, -⟩ := List.idxOf?_eq_some_iff.mp hn
      exact ⟨ht, .refl _, hfound (List.getElem?_eq_some_iff.mpr ⟨hlt, hget⟩)⟩
  · cases hrun
    refine ⟨⟨ht.slots, ht.length_le, ?_⟩, ⟨List.prefix_rfl, List.prefix_append ..⟩, hfound ?_⟩
    · intro m' hm'
      rcases List.mem_append.mp hm' with hm' | hm'
      · exact ht.args_lt m' hm'
      · rwa [List.mem_singleton.mp hm']
    · simp

section

variable {pool : ConstantPool} {depth : Nat} {index : UInt16}

def number? : PoolEntry → Option Constant
  | .integer value => some (.int value)
  | .float bits => some (.float bits)
  | .long value => some (.long value)
  | .double bits => some (.double bits)
  | _ => none

theorem constantWithin_of_number {e : PoolEntry} {c : Constant}
    (hindex : pool.entry index = .ok e) (hc : number? e = some c) :
    pool.constantWithin depth index = .ok c := by
  cases e <;> cases hc <;>
    simp only [ConstantPool.constantWithin.eq_def, hindex, bind, Except.bind, Pure.pure,
      Except.pure]

theorem constantWithin_of_text {e : PoolEntry} {n : UInt16} {text : String} {c : Constant}
    (hindex : pool.entry index = .ok e) (htext : pool.utf8 n = .ok text)
    (hc : e = .string n ∧ c = .string text ∨ e = .classRef n ∧ c = .classRef text ∨
      e = .methodType n ∧ c = .methodType text) : pool.constantWithin depth index = .ok c := by
  rcases hc with ⟨rfl, rfl⟩ | ⟨rfl, rfl⟩ | ⟨rfl, rfl⟩ <;>
    simp only [ConstantPool.constantWithin.eq_def, hindex, htext, bind, Except.bind, Pure.pure,
      Except.pure]

theorem constantWithin_of_className {name : String} (h : pool.className index = .ok name) :
    pool.constantWithin depth index = .ok (.classRef name) := by
  obtain ⟨e, hentry, htext⟩ := bind_eq_ok.mp h
  cases e with
  | classRef n => exact constantWithin_of_text hentry htext (.inr (.inl ⟨rfl, rfl⟩))
  | _ => cases htext

theorem constantWithin_of_handle {h : Handle} (hfound : pool.handle index = .ok h) :
    pool.constantWithin depth index = .ok (.methodHandle h) := by
  obtain ⟨e, hentry, hrest⟩ := bind_eq_ok.mp hfound
  cases e with
  | methodHandle kind reference =>
      simp only [ConstantPool.constantWithin.eq_def, hentry, hfound, bind, Except.bind, Pure.pure,
        Except.pure]
  | _ => cases hrest

theorem constantWithin_of_dynamic {b nt : UInt16} {name desc : String} {h : Handle}
    {args : List Constant} (hindex : pool.entry index = .ok (.dynamic b nt))
    (hnt : pool.nameAndType nt = .ok (name, desc))
    (hb : pool.bootstrapWith (pool.constantWithin depth) b = .ok (h, args)) :
    pool.constantWithin (depth + 1) index = .ok (.dynamic name desc h args) := by
  simp only [ConstantPool.constantWithin.eq_def _ (depth + 1), hindex, hnt, hb, bind, Except.bind,
    Pure.pure, Except.pure]

end

/-- There is one index for each constant. -/
theorem length_constants {cs : List Constant} {t t' : PoolTable} {indices : List UInt16}
    (h : constants cs t = .ok (indices, t')) : indices.length = cs.length := by
  induction cs generalizing t t' indices with
  | nil =>
      rw [constants] at h
      cases h
      rfl
  | cons c cs ih =>
      rw [constants] at h
      obtain ⟨index, t₁, -, h⟩ := bind_apply_eq_ok.mp h
      obtain ⟨rest, t₂, hrest, h⟩ := bind_apply_eq_ok.mp h
      cases h
      rw [List.length_cons, ih hrest, List.length_cons]

/-- What a dynamic constant and a dynamic call have in common: the entry tells a bootstrap method
with its handle and arguments, and a name with its type. -/
theorem enters_linked {entry : UInt16 → UInt16 → PoolEntry} {name desc : String} {h : Handle}
    {args : List Constant} {look : UInt16 → Except ClassFileError Constant}
    (hu : u.bootstrapMethods.length < 2 ^ 16) (hentry : ∀ m n, (entry m n).Fits) (hh : h.Fits)
    (hname : ModifiedUtf8.Fits name) (hdesc : ModifiedUtf8.Fits desc)
    (hcount : args.length < 2 ^ 16)
    (hargs : Enters u (constants args) (·.mapM look = .ok args)) :
    Enters u (handle h >>= fun handle => constants args >>= fun args =>
        internBootstrap ⟨handle, args⟩ >>= fun b => nameAndType name desc >>= fun nt =>
          intern (entry b nt))
      fun index => ∃ b nt, u.pool.entry index = .ok (entry b nt) ∧
        u.pool.nameAndType nt = .ok (name, desc) ∧
          u.pool.bootstrapWith look b = .ok (h, args) := by
  refine (enters_handle hh).bind fun i => ?_
  refine hargs.bind_of (fun t a t' => length_constants) fun indices hlen => ?_
  refine (enters_internBootstrap (m := ⟨i, indices⟩) (hlen ▸ hcount) hu).bind fun b => ?_
  refine (enters_nameAndType hname hdesc).bind fun nt => ?_
  refine (enters_intern (hentry b nt)).imp fun index hindex hnt hb hindices hi => ?_
  refine ⟨b, nt, hindex, hnt, ?_⟩
  rw [ConstantPool.bootstrapWith, hb]
  change (u.pool.handle i >>= fun h => indices.mapM look >>= fun args => Except.ok (h, args)) = _
  rw [hi, hindices]
  rfl

mutual

/-- A constant is found under its index, as deep as it nests. -/
theorem enters_constant (hu : u.bootstrapMethods.length < 2 ^ 16) {depth : Nat} (c : Constant)
    (hc : c.Fits depth) : Enters u (constant c) (u.pool.constantWithin depth · = .ok c) := by
  have hnumber {e : PoolEntry} {c : Constant} (he : e.Fits) (hc : number? e = some c) :
      Enters u (intern e) (u.pool.constantWithin depth · = .ok c) :=
    (enters_intern he).imp fun _ hindex => constantWithin_of_number hindex hc
  rw [constant.eq_def]
  cases c with
  | int value => exact hnumber (e := .integer value) trivial rfl
  | float bits => exact hnumber (e := .float bits) trivial rfl
  | long value => exact hnumber (e := .long value) trivial rfl
  | double bits => exact hnumber (e := .double bits) trivial rfl
  | string text =>
      refine (enters_utf8 hc).bind fun n => (enters_intern (e := .string n) trivial).imp ?_
      exact fun _ hindex hn => constantWithin_of_text hindex hn (.inl ⟨rfl, rfl⟩)
  | classRef name => exact (enters_classRef hc).imp fun _ => constantWithin_of_className
  | methodType desc =>
      refine (enters_utf8 hc).bind fun n => (enters_intern (e := .methodType n) trivial).imp ?_
      exact fun _ hindex hn => constantWithin_of_text hindex hn (.inr (.inr ⟨rfl, rfl⟩))
  | methodHandle h => exact (enters_handle hc).imp fun _ => constantWithin_of_handle
  | dynamic name desc bootstrap args =>
      obtain ⟨hdepth, hname, hdesc, hbootstrap, hcount, hargs⟩ := hc
      obtain ⟨depth, rfl⟩ : ∃ d, depth = d + 1 := ⟨depth - 1, by omega⟩
      have hentry : ∀ m n, (PoolEntry.dynamic m n).Fits := fun _ _ => trivial
      refine (enters_linked hu hentry hbootstrap hname hdesc hcount
        (enters_constants hu args hargs)).imp ?_
      rintro index ⟨b, nt, hindex, hnt, hb⟩
      exact constantWithin_of_dynamic hindex hnt hb

theorem enters_constants (hu : u.bootstrapMethods.length < 2 ^ 16) {depth : Nat}
    (cs : List Constant) (hcs : Constant.AllFit depth cs) :
    Enters u (constants cs) (·.mapM (u.pool.constantWithin depth) = .ok cs) := by
  cases cs with
  | nil => exact .pure rfl
  | cons c cs =>
      rw [constants]
      refine (enters_constant hu c hcs.1).bind fun index => ?_
      refine (enters_constants hu cs hcs.2).bind fun indices => .pure fun hindices hindex => ?_
      rw [List.mapM_cons, hindex]
      change (indices.mapM (u.pool.constantWithin depth) >>= fun cs => Except.ok _) = _
      rw [hindices]
      rfl

end

theorem enters_invokeDynamic {name desc : String} {h : Handle} {args : List Constant}
    (hu : u.bootstrapMethods.length < 2 ^ 16) (hname : ModifiedUtf8.Fits name)
    (hdesc : ModifiedUtf8.Fits desc) (hh : h.Fits) (hcount : args.length < 2 ^ 16)
    (hargs : Constant.AllFit ConstantPool.dynamicDepth args) :
    Enters u (invokeDynamic name desc h args)
      (u.pool.invokeDynamic · = .ok (name, desc, h, args)) := by
  have hentry : ∀ m n, (PoolEntry.invokeDynamic m n).Fits := fun _ _ => trivial
  refine (enters_linked hu hentry hh hname hdesc hcount (enters_constants hu args hargs)).imp ?_
  rintro index ⟨b, nt, hindex, hnt, hb⟩
  have hlook : u.pool.bootstrapWith u.pool.constant b = .ok (h, args) := hb
  simp only [ConstantPool.invokeDynamic, hindex, hnt, hlook, bind, Except.bind, Pure.pure,
    Except.pure]

end Assembler

namespace Instruction

open Assembler

def FoundIn (pool : ConstantPool) (index : UInt16) : Instruction → Prop
  | type _ desc | newMultiArray desc _ => pool.className index = .ok desc
  | field _ owner name desc => pool.memberRef index = .ok ⟨owner, name, desc, false⟩
  | method _ owner name desc interface => pool.memberRef index = .ok ⟨owner, name, desc, interface⟩
  | invokeDynamic name desc bootstrap args =>
    pool.invokeDynamic index = .ok (name, desc, bootstrap, args)
  | ldc c => pool.constant index = .ok c
  | _ => True

theorem enters_poolIndex {u : PoolTable} (hu : u.bootstrapMethods.length < 2 ^ 16)
    {i : Instruction} (hi : i.Fits) : Enters u i.poolIndex (i.FoundIn u.pool) := by
  cases i with
  | type op desc => exact enters_classRef hi.2
  | newMultiArray desc dims => exact enters_classRef hi
  | field op owner name desc => exact enters_field hi.2.1 hi.2.2.1 hi.2.2.2
  | method op owner name desc interface => exact enters_method hi.2.1 hi.2.2.1 hi.2.2.2
  | invokeDynamic name desc bootstrap args =>
      obtain ⟨hname, hdesc, hbootstrap, hcount, hargs⟩ := hi
      exact enters_invokeDynamic hu hname hdesc hbootstrap hcount hargs
  | ldc c => exact enters_constant hu c hi
  | _ => exact .pure trivial

end Instruction

end Injection
