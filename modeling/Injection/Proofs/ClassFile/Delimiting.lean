import Injection.ClassFile.Parse
import Injection.Proofs.Assembly.FrameTrip
import Injection.Proofs.ClassFile.Reading

/-!
Where a class file ends. How many bytes a reader takes is told by these bytes alone: with others
behind them it reads the same, and when some of them are missing it runs out of bytes before it
can find anything else wrong. So nothing may follow a class file and nothing of it may be left out.
-/

namespace Injection

theorem splitExactly_eq_none {α : Type} {n : Nat} {as : List α} (h : as.length < n) :
    splitExactly n as = none := by
  refine Option.eq_none_iff_forall_ne_some.mpr fun ⟨front, rest⟩ hsplit => ?_
  obtain ⟨rfl, rfl⟩ := splitExactly_eq_some_iff.mp hsplit
  rw [List.length_append] at h
  omega

namespace Reader

variable {α β : Type} {r : Reader α} {f : α → Reader β}

/-- The reader runs out of bytes when some of the given ones are missing at the end. -/
def RunsOut (r : Reader α) (p : Nat) (bytes : List UInt8) : Prop :=
  ∀ front back, bytes = front ++ back → back ≠ [] → r ⟨p, front⟩ = .error .unexpectedEnd

/-- Where the reader succeeds it has taken some bytes: it reads the same from these whatever comes
after them, and runs out when some of them are missing. -/
def Delimits (r : Reader α) : Prop :=
  ∀ p bytes a c, r ⟨p, bytes⟩ = .ok (a, c) → ∃ taken, bytes = taken ++ c.rest ∧
    (∀ rest, Reads r p taken rest a) ∧ r.RunsOut p taken

theorem runsOut_nil (r : Reader α) (p : Nat) : r.RunsOut p [] := by
  intro front back h hback
  exact absurd (List.append_eq_nil_iff.mp h.symm).2 hback

/-- A sequence runs out in its first part or in its second. -/
theorem RunsOut.bind {p : Nat} {first second : List UInt8} {a : α} (hout : r.RunsOut p first)
    (hreads : ∀ rest, Reads r p first rest a) (hf : (f a).RunsOut (p + first.length) second) :
    (r >>= f).RunsOut p (first ++ second) := by
  intro front back h hback
  rw [bind_eq]
  rcases List.append_eq_append_iff.mp h with ⟨middle, rfl, hsecond⟩ | ⟨middle, hfirst, rfl⟩
  · rw [hreads middle]
    exact hf middle back hsecond hback
  · by_cases hmiddle : middle = []
    · subst hmiddle
      rw [List.append_nil] at hfirst
      subst hfirst
      have hread := hreads []
      rw [Reads, List.append_nil] at hread
      rw [hread]
      exact hf [] second rfl hback
    · rw [hout front middle hfirst hmiddle]
      rfl

namespace Delimits

theorem pure (a : α) : Delimits (pure a : Reader α) := by
  intro p bytes a' c h
  cases h
  exact ⟨[], rfl, fun rest => .pure a, runsOut_nil _ p⟩

theorem throw (e : ClassFileError) : Delimits (throw e : Reader α) := by
  intro p bytes a c h
  cases h

/-- A sequence that succeeds is cut where its first part ends. -/
theorem of_bind_eq_ok (hr : Delimits r) {p : Nat} {bytes : List UInt8} {result : β × Cursor}
    (h : (r >>= f) ⟨p, bytes⟩ = .ok result) :
    ∃ a first back, bytes = first ++ back ∧ (∀ rest, Reads r p first rest a) ∧
      r.RunsOut p first ∧ f a ⟨p + first.length, back⟩ = .ok result := by
  rw [bind_eq] at h
  obtain ⟨⟨a, middle⟩, ha, hresult⟩ := bind_eq_ok.mp h
  obtain ⟨first, rfl, hfirst, hout⟩ := hr p bytes a middle ha
  have hmiddle : middle = ⟨p + first.length, middle.rest⟩ :=
    (congrArg Prod.snd (Except.ok.inj ((hfirst middle.rest).symm.trans ha))).symm
  rw [hmiddle] at hresult
  exact ⟨a, first, middle.rest, rfl, hfirst, hout, hresult⟩

theorem bind (hr : Delimits r) (hf : ∀ a, Delimits (f a)) : Delimits (r >>= f) := by
  intro p bytes b c h
  obtain ⟨a, first, back, rfl, hfirst, hout, hb⟩ := hr.of_bind_eq_ok h
  obtain ⟨second, rfl, hsecond, hout'⟩ := hf a _ _ b c hb
  refine ⟨first ++ second, (List.append_assoc ..).symm, fun rest => ?_, hout.bind hfirst hout'⟩
  exact (hfirst _).bind (hsecond rest)

theorem map (hr : Delimits r) (g : α → β) : Delimits (g <$> r) := by
  rw [map_eq_pure_bind]
  exact hr.bind fun a => pure (g a)

theorem ofExcept (x : Except ClassFileError α) : Delimits (Reader.ofExcept x) := by
  cases x with
  | error e => exact throw e
  | ok a => exact pure a

/-- What is read from a sequence of bytes of its own takes nothing. -/
theorem within (info : List UInt8) (r : Reader α) : Delimits (Reader.within info r) := by
  cases hr : r (.ofBytes info) with
  | error e =>
      intro p bytes a c h
      rw [Reader.within, hr] at h
      cases h
  | ok result =>
      obtain ⟨a, rest⟩ := result
      intro p bytes a' c h
      rw [Reader.within, hr] at h
      cases h
      refine ⟨[], rfl, fun rest' => ?_, runsOut_nil _ p⟩
      simp only [Reads, Reader.within, hr]
      rfl

theorem bytes (n : Nat) : Delimits (Reader.bytes n) := by
  intro p bytes a c h
  rw [Reader.bytes] at h
  split at h
  · next front rest hsplit =>
      cases h
      obtain ⟨hlength, rfl⟩ := splitExactly_eq_some_iff.mp hsplit
      refine ⟨a, rfl, fun rest => reads_bytes hlength, fun front back happend hback => ?_⟩
      have hshort : front.length < n := by
        have hpos := List.length_pos_iff.mpr hback
        rw [← hlength, happend, List.length_append]
        omega
      simp only [Reader.bytes, splitExactly_eq_none hshort]
  · cases h

theorem u1 : Delimits Reader.u1 := (bytes 1).bind fun _ => pure _

theorem u2 : Delimits Reader.u2 := (bytes 2).bind fun _ => pure _

theorem u4 : Delimits Reader.u4 := (bytes 4).bind fun _ => pure _

theorem u8 : Delimits Reader.u8 := u4.bind fun _ => u4.bind fun _ => pure _

theorem i4 : Delimits Reader.i4 := u4.bind fun _ => pure _

theorem times (hr : Delimits r) (n : Nat) : Delimits (r.times n) := by
  induction n with
  | zero => exact pure []
  | succ n ih => exact hr.bind fun a => ih.bind fun as => pure (a :: as)

theorem counted (hr : Delimits r) : Delimits r.counted := u2.bind fun n => hr.times n.toNat

end Delimits

/-- The reader takes all bytes and refuses any that follow; it runs out when some are missing. -/
def Closes (r : Reader α) (name : String) : Prop :=
  ∀ p bytes a c, r ⟨p, bytes⟩ = .ok (a, c) → r.RunsOut p bytes ∧
    ∀ more ≠ [], r ⟨p, bytes ++ more⟩ = .error (.trailingBytes name)

namespace Closes

variable {name : String}

theorem ensureEnd (name : String) (a : α) :
    Closes (Reader.ensureEnd name >>= fun _ => Pure.pure a) name := by
  intro p bytes a' c h
  rw [bind_eq, Reader.ensureEnd] at h
  split at h
  · next hempty =>
      have hnil : bytes = [] := List.isEmpty_iff.mp hempty
      subst hnil
      refine ⟨runsOut_nil _ p, fun more hmore => ?_⟩
      rw [bind_eq, Reader.ensureEnd, if_neg (by simpa using hmore)]
      rfl
  · cases h

theorem throw (e : ClassFileError) : Closes (throw e : Reader α) name := by
  intro p bytes a c h
  cases h

theorem bind (hr : Delimits r) (hf : ∀ a, Closes (f a) name) : Closes (r >>= f) name := by
  intro p bytes b c h
  obtain ⟨a, first, back, rfl, hfirst, hout, hb⟩ := hr.of_bind_eq_ok h
  obtain ⟨hout', hmore⟩ := hf a _ _ b c hb
  refine ⟨hout.bind hfirst hout', fun more hne => ?_⟩
  rw [bind_eq, List.append_assoc, hfirst]
  exact hmore more hne

end Closes

end Reader

open Reader (Delimits Closes)

/-! ### The parts of a class file -/

theorem PoolEntry.delimits_read : Delimits PoolEntry.read := by
  refine .bind .u1 fun tag => ?_
  split
  · refine .bind .u2 fun length => .bind (.bytes _) fun bytes => ?_
    split
    · exact .pure _
    · exact .throw _
  · exact .bind .i4 fun _ => .pure _
  · exact .bind .u4 fun _ => .pure _
  · exact .bind .u8 fun _ => .pure _
  · exact .bind .u8 fun _ => .pure _
  · exact .bind .u2 fun _ => .pure _
  · exact .bind .u2 fun _ => .pure _
  · exact .bind .u2 fun _ => .bind .u2 fun _ => .pure _
  · exact .bind .u2 fun _ => .bind .u2 fun _ => .pure _
  · exact .bind .u2 fun _ => .bind .u2 fun _ => .pure _
  · exact .bind .u2 fun _ => .bind .u2 fun _ => .pure _
  · exact .bind .u1 fun _ => .bind .u2 fun _ => .pure _
  · exact .bind .u2 fun _ => .pure _
  · exact .bind .u2 fun _ => .bind .u2 fun _ => .pure _
  · exact .bind .u2 fun _ => .bind .u2 fun _ => .pure _
  · exact .bind .u2 fun _ => .pure _
  · exact .bind .u2 fun _ => .pure _
  · exact .throw _

/-- An entry that takes two slots is followed by the entries behind its second one. -/
theorem PoolEntry.delimits_readSlots (slots : Nat) : Delimits (PoolEntry.readSlots slots) := by
  fun_induction PoolEntry.readSlots slots with
  | case1 => exact .pure []
  | case2 =>
      refine .bind delimits_read fun entry => ?_
      split
      · exact .throw _
      · exact .pure _
  | case3 slots wide narrow =>
      refine .bind delimits_read fun entry => ?_
      split
      · exact wide.bind fun _ => .pure _
      · exact narrow.bind fun _ => .pure _

theorem ConstantPool.delimits_read : Delimits ConstantPool.read := by
  refine .bind .u2 fun count => ?_
  split
  · exact .throw _
  · exact .bind (PoolEntry.delimits_readSlots _) fun _ => .pure _

namespace ClassFile

variable (pool : ConstantPool)

theorem delimits_attributeBytes : Delimits attributeBytes :=
  .bind .u2 fun _ => .bind .u4 fun _ => .bind (.bytes _) fun _ => .pure _

theorem delimits_memberAttributes (count : Nat) (code : Option (List UInt8)) :
    Delimits (memberAttributes pool count code) := by
  induction count generalizing code with
  | zero => exact .pure code
  | succ count ih =>
      exact .bind delimits_attributeBytes fun _ => .bind (.ofExcept _) fun _ => ih _

theorem delimits_member : Delimits (member pool) :=
  .bind .u2 fun _ => .bind .u2 fun _ => .bind (.ofExcept _) fun _ => .bind .u2 fun _ =>
    .bind (.ofExcept _) fun _ => .bind .u2 fun count =>
      .bind (delimits_memberAttributes pool count.toNat none) fun _ => .pure _

/-- What an attribute says is read from its own bytes. -/
theorem delimits_classAttribute (a : Attributes) : Delimits (classAttribute pool a) := by
  refine .bind delimits_attributeBytes fun (name, info) => .bind (.ofExcept _) fun text => ?_
  split
  · exact .within info _
  · exact .within info _
  · exact .pure a

theorem delimits_classAttributes (count : Nat) (a : Attributes) :
    Delimits (classAttributes pool count a) := by
  induction count generalizing a with
  | zero => exact .pure a
  | succ count ih => exact .bind (delimits_classAttribute pool a) ih

theorem closes_layout : Closes layout "class file" := by
  refine .bind .u4 fun found => ?_
  split
  · exact .throw _
  · refine .bind .u2 fun minorVersion => .bind .u2 fun majorVersion =>
      .bind ConstantPool.delimits_read fun pool => .bind .u2 fun access =>
        .bind .u2 fun nameIndex => .bind (.ofExcept _) fun name => .bind .u2 fun superIndex => ?_
    have hinterface : Delimits (do Reader.ofExcept (pool.className (← Reader.u2))) :=
      .bind .u2 fun _ => .ofExcept _
    -- What follows the super class is the same whether or not there is one.
    extract_lets tail
    have htail : ∀ superName, Closes (tail superName) "class file" := fun superName =>
      .bind hinterface.counted fun interfaces =>
        .bind (delimits_member pool).counted fun fields =>
          .bind (delimits_member pool).counted fun methods => .bind .u2 fun count =>
            .bind (delimits_classAttributes pool count.toNat _) fun attributes =>
              .ensureEnd "class file" _
    split
    · exact .bind (.pure none) htail
    · exact .bind (.map (.ofExcept _) some) htail

end ClassFile

/-- A class file tells by itself where it ends: a part of it ends too early, and bytes after it
are refused as such. So no class file begins another one. -/
theorem Class.parse_selfDelimiting {bytes : List UInt8} {c : Class}
    (h : Class.parse bytes = .ok c) :
    (∀ front, front <+: bytes → front ≠ bytes → Class.parse front = .error .unexpectedEnd) ∧
    (∀ more, more ≠ [] → Class.parse (bytes ++ more) = .error (.trailingBytes "class file")) ∧
    ∀ other c', Class.parse other = .ok c' → bytes <+: other → bytes = other := by
  obtain ⟨⟨layout, rest⟩, hlayout, -⟩ := bind_eq_ok.mp h
  obtain ⟨hout, hmore⟩ := ClassFile.closes_layout 0 bytes layout rest hlayout
  have hrefused : ∀ more, more ≠ [] →
      Class.parse (bytes ++ more) = .error (.trailingBytes "class file") := by
    intro more hne
    rw [Class.parse, Cursor.ofBytes, hmore more hne]
    rfl
  refine ⟨?_, hrefused, ?_⟩
  · rintro front ⟨back, rfl⟩ hne
    have hback : back ≠ [] := by
      rintro rfl
      exact hne (List.append_nil front).symm
    rw [Class.parse, Cursor.ofBytes, hout front back rfl hback]
    rfl
  · rintro other c' hother ⟨more, rfl⟩
    by_contra hne
    have hmore : more ≠ [] := by
      rintro rfl
      exact hne (List.append_nil bytes).symm
    rw [hrefused more hmore] at hother
    cases hother

/-- A class file with frames and a bootstrap method, cut before its last byte and with a byte too
many. -/
theorem Class.parse_selfDelimiting_framed :
    ∃ bytes c, (Sample.plainClass [Sample.chooseMethod, Sample.framedMethod]).assemble = .ok bytes ∧
      Class.parse bytes = .ok c ∧
        Class.parse bytes.dropLast = .error .unexpectedEnd ∧
          Class.parse (bytes ++ [0]) = .error (.trailingBytes "class file") := by
  have hparsed : ∃ c ∈ (Sample.plainClass
      [Sample.chooseMethod, Sample.framedMethod]).assemble.toOption.bind
        fun bytes => (Class.parse bytes).toOption, c.methods.length = 2 := by
    decide +kernel
  obtain ⟨c, hc, -⟩ := hparsed
  obtain ⟨bytes, hbytes, hparse⟩ := Option.bind_eq_some_iff.mp hc
  have h := mem_toOption.mp hparse
  obtain ⟨hcut, hmore, -⟩ := Class.parse_selfDelimiting h
  have hne : bytes.dropLast ≠ bytes := by
    intro heq
    have hlast : bytes = [] := by
      have hlength := congrArg List.length heq
      rw [List.length_dropLast] at hlength
      exact List.length_eq_zero_iff.mp (by omega)
    subst hlast
    cases h
  exact ⟨bytes, c, mem_toOption.mp hbytes, h, hcut _ (List.dropLast_prefix bytes) hne,
    hmore [0] (List.cons_ne_nil _ _)⟩

end Injection
