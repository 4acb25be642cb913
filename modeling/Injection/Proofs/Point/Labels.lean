import Injection.Point.Allocation
import Mathlib.Data.List.TakeWhile
import Mathlib.Tactic.Common

/-!
Labels read back. The label of an element is made of the names and the descriptor that class files
give it; a target is read by rules of its own about what a name and a descriptor are. Where the
parts of an element keep to these rules, its label reads back as a target that accepts it.
-/

namespace Injection

/-! ### Characters of names -/

namespace Blank

def points : List Nat :=
  [9, 10, 11, 12, 13, 32, 133, 160, 5760, 8192, 8193, 8194, 8195, 8196, 8197, 8198, 8199, 8200,
    8201, 8202, 8232, 8233, 8239, 8287, 12288]

theorem mem_points_of_isBlank {c : Char} (hc : isBlank c = true) : c.toNat ∈ points := by
  simp only [isBlank, codes, CodeSet.contains] at hc
  generalize c.toNat = n at hc ⊢
  -- The search for the changes around `n` ends in one of the stretches between two of them.
  simp [CodeSet.countUpTo] at hc
  simp only [points, List.mem_cons, List.not_mem_nil, or_false]
  split_ifs at hc <;> omega

theorem isBlank_eq_false {c : Char} (hc : c.toNat ∉ points) : isBlank c = false :=
  Bool.eq_false_iff.mpr fun hblank => hc (mem_points_of_isBlank hblank)

/-- No white space stands in an identifier. -/
theorem isBlank_of_isIdentifierPart {c : Char} (hc : Letter.isIdentifierPart c = true) :
    isBlank c = false := by
  have hpoints : ∀ n ∈ points, Letter.isIdentifierPart (Char.ofNat n) = false := by decide +kernel
  refine isBlank_eq_false fun hmem => ?_
  have hpoint := hpoints _ hmem
  rw [Char.ofNat_toNat, hc] at hpoint
  cases hpoint

end Blank

theorem Letter.ne_of_isIdentifierPart {c d : Char} (hc : isIdentifierPart c = true)
    (hd : isIdentifierPart d = false) : c ≠ d := by
  rintro rfl
  rw [hc] at hd
  cases hd

/-- The name of a class consists of identifiers and slashes. -/
theorem AllocationTarget.chars_of_isClassName {cs : List Char} (hcs : isClassName cs = true) :
    ∀ c ∈ cs, c = '/' ∨ Letter.isIdentifierPart c = true := by
  have hparts : ∀ p ∈ Name.parts cs, ∀ c ∈ p, Letter.isIdentifierPart c = true := by
    simp only [isClassName, List.all_eq_true, Bool.and_eq_true] at hcs
    exact fun p hp => (hcs p hp).2
  clear hcs
  fun_induction Name.parts cs with
  | case1 => simp
  | case2 rest ih =>
      intro c hc
      rcases List.mem_cons.mp hc with rfl | hc
      · exact .inl rfl
      · exact ih (fun p hp => hparts p (List.mem_cons_of_mem _ hp)) c hc
  | case3 c rest hne part more hrest ih =>
      rw [hrest] at ih
      obtain ⟨hpart, hmore⟩ := List.forall_mem_cons.mp hparts
      obtain ⟨hc, hpart⟩ := List.forall_mem_cons.mp hpart
      exact List.forall_mem_cons.mpr
        ⟨.inr hc, ih (List.forall_mem_cons.mpr ⟨hpart, hmore⟩)⟩
  | case4 c rest hne hrest ih =>
      rw [hrest] at ih
      obtain ⟨hc, -⟩ := List.forall_mem_cons.mp (hparts [c] List.mem_cons_self)
      exact List.forall_mem_cons.mpr ⟨.inr hc, ih (by simp)⟩

@[simp] theorem AllocationTarget.unquote?_quoted (cs : List Char) :
    unquote? ('L' :: (cs ++ [';'])) = some cs := by
  simp [unquote?]

/-- The characters of the name of a member, initializers included. -/
theorem NamePattern.chars_of_isMemberName {cs : List Char} (hcs : isMemberName cs = true) :
    ∀ c ∈ cs, c = '<' ∨ c = '>' ∨ Letter.isIdentifierPart c = true := by
  simp only [isMemberName, Bool.or_eq_true, decide_eq_true_eq, Bool.and_eq_true,
    List.all_eq_true] at hcs
  -- Of the names of initializers the letters are looked up, by a computation on truth values.
  have hspecial {name : List Char} (hname : (name.all fun c =>
      c = '<' || (c = '>' || Letter.isIdentifierPart c)) = true) :
      ∀ c ∈ name, c = '<' ∨ c = '>' ∨ Letter.isIdentifierPart c = true := by
    simpa only [List.all_eq_true, Bool.or_eq_true, decide_eq_true_eq] using hname
  rcases hcs with (rfl | rfl) | ⟨-, hcs⟩
  · exact hspecial (by decide +kernel)
  · exact hspecial (by decide +kernel)
  · exact fun c hc => .inr (.inr (hcs c hc))

/-! ### Selectors -/

namespace Selector

open AllocationTarget (isClassName chars_of_isClassName)
open NamePattern (isMemberName chars_of_isMemberName)

/-- A part of a text in which no character means anything to the reader of selectors. -/
def IsPlain (cs : List Char) : Prop :=
  ∀ c ∈ cs, Blank.isBlank c = false ∧ startsDesc c = false ∧ c ≠ ';' ∧ c ≠ '.' ∧ c ≠ '*'

theorem isPlain_of_identifierPart {c : Char} (hc : Letter.isIdentifierPart c = true) :
    Blank.isBlank c = false ∧ startsDesc c = false ∧ c ≠ ';' ∧ c ≠ '.' ∧ c ≠ '*' := by
  obtain ⟨hopen, hcolon, hsemicolon, hdot, hstar⟩ :
      Letter.isIdentifierPart '(' = false ∧ Letter.isIdentifierPart ':' = false ∧
        Letter.isIdentifierPart ';' = false ∧ Letter.isIdentifierPart '.' = false ∧
        Letter.isIdentifierPart '*' = false := by
    decide +kernel
  have other {d : Char} (hd : Letter.isIdentifierPart d = false) : c ≠ d :=
    Letter.ne_of_isIdentifierPart hc hd
  refine ⟨Blank.isBlank_of_isIdentifierPart hc, ?_, other hsemicolon, other hdot, other hstar⟩
  rw [startsDesc, decide_eq_false (other hopen), decide_eq_false (other hcolon), Bool.or_self]

/-- The characters of names that are no identifiers. -/
theorem isPlain_delimiters : IsPlain ['/', '<', '>'] := by
  intro c hc
  simp only [List.mem_cons, List.not_mem_nil, or_false] at hc
  rcases hc with rfl | rfl | rfl <;> exact ⟨Blank.isBlank_eq_false (by decide), by decide⟩

theorem isPlain_className {cs : List Char} (hcs : isClassName cs = true) : IsPlain cs := by
  intro c hc
  rcases chars_of_isClassName hcs c hc with rfl | hc
  · exact isPlain_delimiters _ (by simp)
  · exact isPlain_of_identifierPart hc

theorem isPlain_memberName {cs : List Char} (hcs : isMemberName cs = true) : IsPlain cs := by
  intro c hc
  rcases chars_of_isMemberName hcs c hc with rfl | rfl | hc
  · exact isPlain_delimiters _ (by simp)
  · exact isPlain_delimiters _ (by simp)
  · exact isPlain_of_identifierPart hc

/-- Without dots a name is internal already. -/
theorem internal_of_isPlain {cs : List Char} (hcs : IsPlain cs) :
    Name.internal (String.ofList cs) = String.ofList cs := by
  rw [Name.internal, ← String.toList_inj, String.toList_map, String.toList_ofList]
  exact (List.map_congr_left fun c hc => if_neg (hcs c hc).2.2.2.1).trans (List.map_id cs)

theorem readOwner?_className {cs : List Char} (hcs : isClassName cs = true) :
    readOwner? cs = some (String.ofList cs) := by
  rw [readOwner?, internal_of_isPlain (isPlain_className hcs), String.toList_ofList]
  exact if_pos hcs

theorem splitOwner?_quoted {owner name : List Char} (howner : isClassName owner = true) :
    splitOwner? ('L' :: owner ++ ';' :: name) = some (some (String.ofList owner), name) := by
  have hplain : ∀ c ∈ owner, decide (c ≠ ';') = true :=
    fun c hc => decide_eq_true (isPlain_className howner c hc).2.2.1
  have htake : (owner ++ ';' :: name).takeWhile (· ≠ ';') = owner := by
    rw [List.takeWhile_append_of_pos hplain]
    simp
  have hdrop : (owner ++ ';' :: name).dropWhile (· ≠ ';') = ';' :: name := by
    rw [List.dropWhile_append_of_pos hplain]
    simp
  simp only [splitOwner?, List.cons_append, List.drop_one, List.tail_cons, htake, hdrop,
    List.head?_cons, decide_true, List.isEmpty_cons, Bool.not_false, Bool.and_self, if_true,
    readOwner?_className howner, Option.map_some]

theorem ofChars?_memberName {cs : List Char} (hcs : isMemberName cs = true) :
    NamePattern.ofChars? cs = some (.exact (String.ofList cs)) := by
  have hstar : '*' ∉ cs := fun hmem => (isPlain_memberName hcs '*' hmem).2.2.2.2 rfl
  have hany : cs ≠ ['*'] := by
    rintro rfl
    exact hstar (List.mem_singleton_self _)
  have hlast : cs.getLast? ≠ some '*' := fun h => hstar (List.mem_of_getLast? h)
  rw [NamePattern.ofChars?, if_neg hany, if_neg hlast, if_pos hcs]

/-- A text is read in two parts: what stands in front of the descriptor, and what stands from there
on. -/
theorem parse?_append {head name tail : List Char} {owner desc : Option String} {p : NamePattern}
    (hhead : ∀ c ∈ head, Blank.isBlank c = false ∧ startsDesc c = false)
    (hblank : ∀ c ∈ tail, Blank.isBlank c = false) (hstart : ∀ c ∈ tail.head?, startsDesc c = true)
    (hsplit : splitOwner? head = some (owner, name)) (hname : NamePattern.ofChars? name = some p)
    (hdesc : readDesc? tail = some desc) (hopen : p.isOverloads = true → desc = none) :
    parse? (String.ofList (head ++ tail)) = some ⟨owner, p, desc⟩ := by
  have hfilter : (head ++ tail).filter (!Blank.isBlank ·) = head ++ tail := by
    rw [List.filter_eq_self]
    intro c hc
    rw [Bool.not_eq_true']
    rcases List.mem_append.mp hc with hc | hc
    · exact (hhead c hc).1
    · exact hblank c hc
  have hfront : ∀ c ∈ head, (!startsDesc c) = true := by
    intro c hc
    rw [(hhead c hc).2]
    rfl
  have htail : tail.takeWhile (!startsDesc ·) = [] ∧ tail.dropWhile (!startsDesc ·) = tail := by
    cases tail with
    | nil => exact ⟨rfl, rfl⟩
    | cons c rest =>
        have hc : startsDesc c = true := hstart c rfl
        simp [hc]
  have hboth : (p.isOverloads && desc.isSome) = false := by
    cases hp : p.isOverloads with
    | false => rfl
    | true =>
        rw [hopen hp]
        rfl
  rw [parse?, String.toList_ofList, hfilter, List.takeWhile_append_of_pos hfront, htail.1,
    List.append_nil, List.dropWhile_append_of_pos hfront, htail.2, hsplit]
  simp only [Option.bind_eq_bind, Option.bind_some, hname, hdesc, hboth, Bool.false_eq_true,
    if_false]
  rfl

/-- A text of the printed form reads back as the selector of its parts. -/
theorem parse?_quoted {owner name : String} {tail : List Char} {desc : Option String}
    (howner : isClassName owner.toList = true) (hname : isMemberName name.toList = true)
    (hblank : ∀ c ∈ tail, Blank.isBlank c = false) (hstart : ∀ c ∈ tail.head?, startsDesc c = true)
    (hdesc : readDesc? tail = some desc) :
    parse? (String.ofList ('L' :: owner.toList ++ ';' :: name.toList ++ tail)) =
      some ⟨some owner, .exact name, desc⟩ := by
  have hhead : ∀ c ∈ 'L' :: owner.toList ++ ';' :: name.toList,
      Blank.isBlank c = false ∧ startsDesc c = false := by
    intro c hc
    simp only [List.cons_append, List.mem_cons, List.mem_append] at hc
    rcases hc with rfl | hc | rfl | hc
    · exact ⟨Blank.isBlank_eq_false (by decide), rfl⟩
    · exact ⟨(isPlain_className howner c hc).1, (isPlain_className howner c hc).2.1⟩
    · exact ⟨Blank.isBlank_eq_false (by decide), rfl⟩
    · exact ⟨(isPlain_memberName hname c hc).1, (isPlain_memberName hname c hc).2.1⟩
  have hsplit : splitOwner? ('L' :: owner.toList ++ ';' :: name.toList) =
      some (some owner, name.toList) := by
    rw [splitOwner?_quoted howner, String.ofList_toList]
  have hpattern := ofChars?_memberName hname
  rw [String.ofList_toList] at hpattern
  exact parse?_append hhead hblank hstart hsplit hpattern hdesc fun h => by cases h

end Selector

/-! ### Elements -/

namespace Element

open AllocationTarget (isClassName)
open NamePattern (isMemberName)

/-- Tells the elements whose parts are what a reader of targets takes them for: the owner is the
name of a class that is no array, the member has the name of a member, and the descriptor is a
valid one without white space. The constructor of an allocation gives nothing, and the first closing
parenthesis in its descriptor ends the parameters. -/
def isNameable : Element → Bool
  | method owner name desc =>
    isClassName owner.toList && isMemberName name.toList &&
      desc.toList.all (!Blank.isBlank ·) && (MethodDescriptor.parse desc).toOption.isSome
  | field owner name desc =>
    isClassName owner.toList && isMemberName name.toList &&
      desc.toList.all (!Blank.isBlank ·) && (FieldType.parse desc).toOption.isSome
  | allocation className none => isClassName className.toList
  | allocation className (some desc) =>
    isClassName className.toList && desc.toList.all (!Blank.isBlank ·) &&
      (MethodDescriptor.parse desc).toOption.isSome &&
      desc.toList.dropWhile (· ≠ ')') = [')', 'V']
  | place | constant _ | localVariable .. => false

variable {owner name desc className label : String}

theorem head?_of_methodDescriptor (hdesc : (MethodDescriptor.parse desc).toOption.isSome) :
    desc.toList.head? = some '(' := by
  cases hcs : desc.toList with
  | nil => simp [MethodDescriptor.parse, hcs, Except.toOption] at hdesc
  | cons c cs =>
      by_contra hc
      have hne : c ≠ '(' := fun h => hc (h ▸ rfl)
      simp [MethodDescriptor.parse, hcs, Except.toOption, hne] at hdesc

theorem parse?_method_label (he : (method owner name desc).isNameable = true)
    (hlabel : (method owner name desc).label? = some label) :
    Selector.parse? label = some ⟨some owner, .exact name, some desc⟩ := by
  simp only [isNameable, Bool.and_eq_true, List.all_eq_true, Bool.not_eq_true'] at he
  obtain ⟨⟨⟨howner, hname⟩, hblank⟩, hdesc⟩ := he
  have hstart := head?_of_methodDescriptor hdesc
  have hread : Selector.readDesc? desc.toList = some (some desc) := by
    obtain ⟨m, hm⟩ := Option.isSome_iff_exists.mp hdesc
    cases hcs : desc.toList with
    | nil => simp [hcs] at hstart
    | cons c cs =>
        obtain rfl : c = '(' := by simpa [hcs] using hstart
        have htext : String.ofList ('(' :: cs) = desc := by rw [← hcs, String.ofList_toList]
        simp [Selector.readDesc?, htext, hm]
  have hchars : label =
      String.ofList ('L' :: owner.toList ++ ';' :: name.toList ++ desc.toList) := by
    cases hlabel
    rw [← String.toList_inj]
    simp
  rw [hchars]
  exact Selector.parse?_quoted howner hname hblank
    (fun c hc => by rw [hstart] at hc; cases hc; rfl) hread

theorem parse?_field_label (he : (field owner name desc).isNameable = true)
    (hlabel : (field owner name desc).label? = some label) :
    Selector.parse? label = some ⟨some owner, .exact name, some desc⟩ := by
  simp only [isNameable, Bool.and_eq_true, List.all_eq_true, Bool.not_eq_true'] at he
  obtain ⟨⟨⟨howner, hname⟩, hblank⟩, hdesc⟩ := he
  have hread : Selector.readDesc? (':' :: desc.toList) = some (some desc) := by
    obtain ⟨t, ht⟩ := Option.isSome_iff_exists.mp hdesc
    simp [Selector.readDesc?, ht]
  have hchars : label =
      String.ofList ('L' :: owner.toList ++ ';' :: name.toList ++ ':' :: desc.toList) := by
    cases hlabel
    rw [← String.toList_inj]
    simp
  rw [hchars]
  refine Selector.parse?_quoted howner hname ?_ (fun c hc => by cases hc; rfl) hread
  exact List.forall_mem_cons.mpr ⟨Blank.isBlank_eq_false (by decide), hblank⟩

theorem filter_of_solid {cs : List Char} (hcs : ∀ c ∈ cs, Blank.isBlank c = false) :
    cs.filter (!Blank.isBlank ·) = cs :=
  List.filter_eq_self.mpr fun c hc => by rw [hcs c hc]; rfl

theorem solid_classLabel (hclass : isClassName className.toList = true) :
    ∀ c ∈ 'L' :: className.toList ++ [';'], Blank.isBlank c = false := by
  intro c hc
  simp only [List.cons_append, List.mem_cons, List.mem_append, List.not_mem_nil, or_false] at hc
  rcases hc with rfl | hc | rfl
  · exact Blank.isBlank_eq_false (by decide)
  · exact (Selector.isPlain_className hclass c hc).1
  · exact Blank.isBlank_eq_false (by decide)

theorem parse_classLabel (hclass : isClassName className.toList = true)
    (hlabel : (allocation className none).label? = some label) :
    AllocationTarget.parse (some label) = .ok ⟨some className, none⟩ := by
  have hplain := Selector.isPlain_className hclass
  have hchars : label.toList = 'L' :: className.toList ++ [';'] := by
    cases hlabel
    simp
  -- Nothing stands behind the owner, which is no name of a member.
  have hselector : AllocationTarget.readSelector? ('L' :: className.toList ++ [';']) = none := by
    have hhead : ∀ c ∈ 'L' :: className.toList ++ [';'], (!Selector.startsDesc c) = true := by
      intro c hc
      rw [Bool.not_eq_true']
      simp only [List.cons_append, List.mem_cons, List.mem_append, List.not_mem_nil, or_false] at hc
      rcases hc with rfl | hc | rfl
      · rfl
      · exact (hplain c hc).2.1
      · rfl
    have htake : ('L' :: className.toList ++ [';']).takeWhile (!Selector.startsDesc ·) =
        'L' :: className.toList ++ [';'] := List.takeWhile_eq_self_iff.mpr hhead
    have hname : NamePattern.ofChars? [] = none := rfl
    rw [AllocationTarget.readSelector?, Selector.parse?, String.toList_ofList,
      filter_of_solid (solid_classLabel hclass), htake, Selector.splitOwner?_quoted hclass]
    simp only [Option.bind_eq_bind, Option.bind_some, hname, Option.bind_none]
  have hclassRead : AllocationTarget.readClass? ('L' :: className.toList ++ [';']) =
      some ⟨some className, none⟩ := by
    rw [AllocationTarget.readClass?, List.cons_append, AllocationTarget.unquote?_quoted,
      Option.getD_some,
      Selector.internal_of_isPlain hplain, String.ofList_toList]
    exact if_pos hclass
  simp only [AllocationTarget.parse, hchars, filter_of_solid (solid_classLabel hclass), hselector,
    hclassRead]
  rfl

theorem parse_constructorLabel (he : (allocation className (some desc)).isNameable = true)
    (hlabel : (allocation className (some desc)).label? = some label) :
    AllocationTarget.parse (some label) = .ok ⟨some className, some desc⟩ := by
  simp only [isNameable, Bool.and_eq_true, List.all_eq_true, Bool.not_eq_true',
    decide_eq_true_eq] at he
  obtain ⟨⟨⟨hclass, hblank⟩, hdesc⟩, hclose⟩ := he
  have hsplit : desc.toList = desc.toList.takeWhile (· ≠ ')') ++ [')', 'V'] := by
    rw [← hclose, List.takeWhile_append_dropWhile]
  have hopen : ∀ c ∈ desc.toList.takeWhile (· ≠ ')'), decide (c ≠ ')') = true :=
    fun c hc => by simpa using List.mem_takeWhile_imp hc
  have hstart := head?_of_methodDescriptor hdesc
  generalize desc.toList.takeWhile (· ≠ ')') = params at hsplit hopen
  rw [hsplit] at hblank hstart
  have hchars : label.toList = params ++ ')' :: ('L' :: className.toList ++ [';']) := by
    cases hlabel
    simp [hsplit]
  have hsolid : ∀ c ∈ label.toList, Blank.isBlank c = false := by
    intro c hc
    rw [hchars] at hc
    rcases List.mem_append.mp hc with hc | hc
    · exact hblank c (List.mem_append_left _ hc)
    · rcases List.mem_cons.mp hc with rfl | hc
      · exact Blank.isBlank_eq_false (by decide)
      · exact solid_classLabel hclass c hc
  have hhead : label.toList.head? = some '(' := by
    rw [hchars]
    cases params with
    | nil => cases hstart
    | cons c params => exact hstart
  have hread : AllocationTarget.readShorthand? label.toList = some ⟨some className, some desc⟩ := by
    obtain ⟨m, hm⟩ := Option.isSome_iff_exists.mp hdesc
    have htext : String.ofList (params ++ [')', 'V']) = desc := by
      rw [← hsplit, String.ofList_toList]
    rw [AllocationTarget.readShorthand?, hchars, List.takeWhile_append_of_pos hopen,
      List.dropWhile_append_of_pos hopen]
    simp [hclass, htext, hm]
  simp only [AllocationTarget.parse, filter_of_solid hsolid, hhead, if_true, hread]

/-- The label of a member that can be named is a selector that accepts it. -/
theorem exists_selector_of_label {e : Element}
    (hmember : e = method owner name desc ∨ e = field owner name desc)
    (he : e.isNameable = true) (hlabel : e.label? = some label) :
    ∃ s, Selector.parse? label = some s ∧ s.accepts owner name desc = true := by
  refine ⟨⟨some owner, .exact name, some desc⟩, ?_, by
    simp [Selector.accepts, NamePattern.accepts, NamePattern.name?]⟩
  rcases hmember with rfl | rfl
  · exact parse?_method_label he hlabel
  · exact parse?_field_label he hlabel

/-- The label of an allocation that can be named is a target that accepts it. -/
theorem exists_target_of_label {desc? : Option String}
    (he : (allocation className desc?).isNameable = true)
    (hlabel : (allocation className desc?).label? = some label) :
    ∃ target, AllocationTarget.parse (some label) = .ok target ∧
      target.accepts className desc? = true := by
  cases desc? with
  | none => exact ⟨_, parse_classLabel he hlabel, by simp [AllocationTarget.accepts]⟩
  | some desc => exact ⟨_, parse_constructorLabel he hlabel, by simp [AllocationTarget.accepts]⟩

end Element

end Injection
