import Injection.Proofs.Point.Labels

/-!
The one text that stands for a selector. Reading a text gives a selector whose parts can be written,
and the text of such a selector reads back as it. So every text that is read has a normal form, and
an owner with dots is read like one with slashes.
-/

namespace Injection

open AllocationTarget (isClassName chars_of_isClassName)

/-! ### Names made of segments -/

namespace Name

variable {segment : List Char} {segments : List (List Char)} {cs : List Char}

theorem parts_of_segment (h : '/' ∉ segment) : parts segment = [segment] := by
  induction segment with
  | nil => rfl
  | cons c segment ih =>
      rw [parts, ih (List.not_mem_of_not_mem_cons h)]
      exact fun hc => List.ne_of_not_mem_cons h hc.symm

theorem parts_append_slash (h : '/' ∉ segment) :
    parts (segment ++ '/' :: cs) = segment :: parts cs := by
  induction segment with
  | nil => rfl
  | cons c segment ih =>
      rw [List.cons_append, parts, ih (List.not_mem_of_not_mem_cons h)]
      exact fun hc => List.ne_of_not_mem_cons h hc.symm

/-- The parts of a name are the segments that it was joined from. -/
theorem parts_intercalate (hne : segments ≠ []) (h : ∀ segment ∈ segments, '/' ∉ segment) :
    parts (['/'].intercalate segments) = segments := by
  induction segments with
  | nil => exact absurd rfl hne
  | cons segment segments ih =>
      obtain ⟨hsegment, hsegments⟩ := List.forall_mem_cons.mp h
      cases segments with
      | nil => rw [List.intercalate_singleton, parts_of_segment hsegment]
      | cons next segments =>
          rw [List.intercalate_cons_cons, List.append_assoc, List.singleton_append,
            parts_append_slash hsegment, ih (List.cons_ne_nil _ _) hsegments]

end Name

def Letter.IsIdentifier (text : String) : Prop :=
  text ≠ "" ∧ ∀ c ∈ text.toList, Letter.isIdentifierPart c = true

section

variable {segments : List String}

theorem isClassName_intercalate (hne : segments ≠ [])
    (h : ∀ segment ∈ segments, Letter.IsIdentifier segment) :
    isClassName ("/".intercalate segments).toList = true := by
  have hslash : Letter.isIdentifierPart '/' = false := by decide +kernel
  have hparts : Name.parts ("/".intercalate segments).toList = segments.map String.toList := by
    rw [String.toList_intercalate]
    refine Name.parts_intercalate (by simpa using hne) fun cs hcs hmem => ?_
    obtain ⟨segment, hsegment, rfl⟩ := List.mem_map.mp hcs
    exact Letter.ne_of_isIdentifierPart ((h segment hsegment).2 _ hmem) hslash rfl
  rw [AllocationTarget.isClassName, hparts, List.all_map, List.all_eq_true]
  intro segment hsegment
  obtain ⟨hempty, hletters⟩ := h segment hsegment
  simpa [hempty] using hletters

theorem Name.dotted_intercalate (h : ∀ segment ∈ segments, Letter.IsIdentifier segment) :
    dotted ("/".intercalate segments) = ".".intercalate segments := by
  have hslash : Letter.isIdentifierPart '/' = false := by decide +kernel
  rw [dotted, ← String.toList_inj, String.toList_map, String.toList_intercalate,
    String.toList_intercalate]
  induction segments with
  | nil => rfl
  | cons segment segments ih =>
      obtain ⟨hsegment, hsegments⟩ := List.forall_mem_cons.mp h
      have hsame : segment.toList.map (fun c => if c = '/' then '.' else c) = segment.toList :=
        (List.map_congr_left fun c hc =>
          if_neg (Letter.ne_of_isIdentifierPart (hsegment.2 c hc) hslash)).trans (List.map_id _)
      cases segments with
      | nil => simpa using hsame
      | cons next segments =>
          rw [List.map_cons, List.map_cons, List.intercalate_cons_cons,
            List.intercalate_cons_cons, List.map_append, List.map_append, hsame]
          exact congrArg _ (ih hsegments)

end

/-! ### The parts of a selector that can be written -/

namespace NamePattern

def IsWritable (p : NamePattern) : Prop :=
  ∀ name, p.name? = some name → isMemberName name.toList = true

variable {p : NamePattern} {cs : List Char}

theorem ofChars?_chars (hp : p.IsWritable) : ofChars? p.chars = some p := by
  cases p with
  | any => rfl
  | exact name =>
      rw [chars, Selector.ofChars?_memberName (hp name rfl), String.ofList_toList]
  | overloads name =>
      have hname : isMemberName name.toList = true := hp name rfl
      have hne : name.toList ++ ['*'] ≠ ['*'] := by
        intro h
        rw [List.append_left_eq_self.mp h] at hname
        cases hname
      rw [chars, ofChars?, if_neg hne, List.getLast?_concat, if_pos rfl, List.dropLast_concat,
        if_pos hname, String.ofList_toList]

theorem isWritable_of_ofChars? (h : ofChars? cs = some p) : p.IsWritable := by
  unfold ofChars? at h
  split_ifs at h with hany hlast hname hname
  · cases h
    exact fun name hname => by cases hname
  · cases h
    rintro name ⟨⟩
    rwa [String.toList_ofList]
  · cases h
    rintro name ⟨⟩
    rwa [String.toList_ofList]

/-- Nothing in a written pattern ends the owner or begins the descriptor. -/
theorem plain_chars (hp : p.IsWritable) {c : Char} (hc : c ∈ p.chars) :
    Blank.isBlank c = false ∧ Selector.startsDesc c = false ∧ c ≠ ';' ∧ c ≠ '.' := by
  have hstar : Blank.isBlank '*' = false ∧ Selector.startsDesc '*' = false ∧ '*' ≠ ';' ∧
      '*' ≠ '.' := ⟨Blank.isBlank_eq_false (by decide), by decide⟩
  have hplain {name : String} (hname : isMemberName name.toList = true) (hc : c ∈ name.toList) :
      Blank.isBlank c = false ∧ Selector.startsDesc c = false ∧ c ≠ ';' ∧ c ≠ '.' := by
    obtain ⟨hblank, hdesc, hsemicolon, hdot, -⟩ := Selector.isPlain_memberName hname c hc
    exact ⟨hblank, hdesc, hsemicolon, hdot⟩
  cases p with
  | any =>
      cases List.mem_singleton.mp hc
      exact hstar
  | exact name => exact hplain (hp name rfl) hc
  | overloads name =>
      rcases List.mem_append.mp hc with hc | hc
      · exact hplain (hp name rfl) hc
      · cases List.mem_singleton.mp hc
        exact hstar

end NamePattern

namespace Selector

open NamePattern (isMemberName)

structure IsDescriptor (desc : String) : Prop where
  solid : ∀ c ∈ desc.toList, Blank.isBlank c = false
  valid : (MethodDescriptor.parse desc).toOption.isSome ∨ (FieldType.parse desc).toOption.isSome

theorem isMethodDesc_of_parse {desc : String}
    (h : (MethodDescriptor.parse desc).toOption.isSome) : isMethodDesc desc.toList = true :=
  decide_eq_true (Element.head?_of_methodDescriptor h)

/-- No type of a field begins like that of a method. -/
theorem isMethodDesc_of_parse_field {desc : String}
    (h : (FieldType.parse desc).toOption.isSome) : isMethodDesc desc.toList = false := by
  refine decide_eq_false fun hopen => ?_
  cases hcs : desc.toList with
  | nil =>
      rw [hcs] at hopen
      cases hopen
  | cons c cs =>
      rw [hcs] at hopen
      cases hopen
      have hread : FieldType.read ('(' :: cs) =
          .error (.invalidDescriptor (String.ofList ('(' :: cs))) := rfl
      rw [FieldType.parse, hcs, hread] at h
      cases h

theorem readDesc?_descChars {desc : String} (h : IsDescriptor desc) :
    readDesc? (descChars desc) = some (some desc) := by
  rcases h.valid with hmethod | hfield
  · obtain ⟨m, hm⟩ := Option.isSome_iff_exists.mp hmethod
    rw [descChars, if_pos (isMethodDesc_of_parse hmethod)]
    cases hcs : desc.toList with
    | nil =>
        have hopen := Element.head?_of_methodDescriptor hmethod
        rw [hcs] at hopen
        cases hopen
    | cons c cs =>
        have hopen := Element.head?_of_methodDescriptor hmethod
        rw [hcs] at hopen
        cases hopen
        have htext : String.ofList ('(' :: cs) = desc := by rw [← hcs, String.ofList_toList]
        simp [readDesc?, htext, hm]
  · obtain ⟨t, ht⟩ := Option.isSome_iff_exists.mp hfield
    rw [descChars, isMethodDesc_of_parse_field hfield, if_neg Bool.false_ne_true]
    simp [readDesc?, ht]

/-- What is read as a descriptor is one, if no white space was left in it. -/
theorem isDescriptor_of_readDesc? {cs : List Char} {desc : String}
    (hsolid : ∀ c ∈ cs, Blank.isBlank c = false) (h : readDesc? cs = some (some desc)) :
    IsDescriptor desc := by
  unfold readDesc? at h
  split at h
  · cases h
  · rename_i cs
    obtain ⟨t, ht, hdesc⟩ := Option.map_eq_some_iff.mp h
    cases hdesc
    refine ⟨?_, .inr (by rw [ht]; rfl)⟩
    rw [String.toList_ofList]
    exact fun c hc => hsolid c (List.mem_cons_of_mem _ hc)
  · obtain ⟨m, hm, hdesc⟩ := Option.map_eq_some_iff.mp h
    cases hdesc
    refine ⟨?_, .inl (by rw [hm]; rfl)⟩
    rwa [String.toList_ofList]

/-- A selector whose parts can be written. -/
structure IsWritable (s : Selector) : Prop where
  owner : ∀ owner, s.owner = some owner → isClassName owner.toList = true
  name : s.name.IsWritable
  desc : ∀ desc, s.desc = some desc → IsDescriptor desc
  /-- With a descriptor, only one overload is meant. -/
  single : s.name.isOverloads = true → s.desc = none

/-! ### Owners -/

variable {head front name cs : List Char} {owner : Option String} {className : String}

/-- Without a semicolon the owner ends at the last dot. -/
theorem splitOwner?_of_no_semicolon (h : ∀ c ∈ head, c ≠ ';') :
    splitOwner? head =
      if (head.reverse.dropWhile (· ≠ '.')).isEmpty then
        some (none, (head.reverse.takeWhile (· ≠ '.')).reverse)
      else
        (readOwner? ((head.reverse.dropWhile (· ≠ '.')).drop 1).reverse).map fun owner =>
          (some owner, (head.reverse.takeWhile (· ≠ '.')).reverse) := by
  have hnone : (head.drop 1).dropWhile (· ≠ ';') = [] := by
    rw [List.dropWhile_eq_nil_iff]
    exact fun c hc => decide_eq_true (h c (List.mem_of_mem_drop hc))
  simp only [splitOwner?, hnone, List.isEmpty_nil, Bool.not_true, Bool.and_false,
    Bool.false_eq_true, if_false]

theorem splitOwner?_plain (hsemicolon : ∀ c ∈ head, c ≠ ';') (hdot : ∀ c ∈ head, c ≠ '.') :
    splitOwner? head = some (none, head) := by
  have hall : ∀ c ∈ head.reverse, decide (c ≠ '.') = true :=
    fun c hc => decide_eq_true (hdot c (List.mem_reverse.mp hc))
  rw [splitOwner?_of_no_semicolon hsemicolon, List.dropWhile_eq_nil_iff.mpr hall,
    List.takeWhile_eq_self_iff.mpr hall, List.reverse_reverse]
  rfl

theorem splitOwner?_dotted (hfront : ∀ c ∈ front, c ≠ ';') (hsemicolon : ∀ c ∈ name, c ≠ ';')
    (hdot : ∀ c ∈ name, c ≠ '.') :
    splitOwner? (front ++ '.' :: name) =
      (readOwner? front).map fun owner => (some owner, name) := by
  have hhead : ∀ c ∈ front ++ '.' :: name, c ≠ ';' := by
    intro c hc
    rcases List.mem_append.mp hc with hc | hc
    · exact hfront c hc
    · rcases List.mem_cons.mp hc with rfl | hc
      · decide
      · exact hsemicolon c hc
  have hall : ∀ c ∈ name.reverse, decide (c ≠ '.') = true :=
    fun c hc => decide_eq_true (hdot c (List.mem_reverse.mp hc))
  have hreverse : (front ++ '.' :: name).reverse = name.reverse ++ '.' :: front.reverse := by simp
  rw [splitOwner?_of_no_semicolon hhead, hreverse, List.dropWhile_append_of_pos hall,
    List.takeWhile_append_of_pos hall]
  simp

theorem isClassName_of_readOwner? {read : String} (h : readOwner? cs = some read) :
    isClassName read.toList = true := by
  unfold readOwner? at h
  dsimp only at h
  split_ifs at h with hparts
  cases h
  exact hparts

theorem isClassName_of_splitOwner? (h : splitOwner? head = some (owner, name)) :
    ∀ read, owner = some read → isClassName read.toList = true := by
  rintro read rfl
  unfold splitOwner? at h
  dsimp only at h
  split_ifs at h
  · obtain ⟨read', hread, hpair⟩ := Option.map_eq_some_iff.mp h
    cases hpair
    exact isClassName_of_readOwner? hread
  · cases h
  · obtain ⟨read', hread, hpair⟩ := Option.map_eq_some_iff.mp h
    cases hpair
    exact isClassName_of_readOwner? hread

/-- The dotted form of the name of a class is read as that name. -/
theorem readOwner?_dotted (h : isClassName className.toList = true) :
    readOwner? (Name.dotted className).toList = some className := by
  have hinternal : Name.internal (Name.dotted className) = className := by
    rw [Name.internal, Name.dotted, ← String.toList_inj, String.toList_map, String.toList_map,
      List.map_map]
    refine (List.map_congr_left fun c hc => ?_).trans (List.map_id _)
    have hdot := (isPlain_className h c hc).2.2.2.1
    by_cases hslash : c = '/'
    · rw [hslash]
      rfl
    · simp [hslash, hdot]
  rw [readOwner?, String.ofList_toList, hinternal]
  exact if_pos h

theorem plain_dotted (h : isClassName className.toList = true) {c : Char}
    (hc : c ∈ (Name.dotted className).toList) :
    Blank.isBlank c = false ∧ startsDesc c = false ∧ c ≠ ';' := by
  rw [Name.dotted, String.toList_map] at hc
  obtain ⟨d, hd, rfl⟩ := List.mem_map.mp hc
  split_ifs
  · exact ⟨Blank.isBlank_eq_false (by decide), by decide⟩
  · obtain ⟨hblank, hdesc, hsemicolon, -⟩ := isPlain_className h d hd
    exact ⟨hblank, hdesc, hsemicolon⟩

/-! ### The text of a selector -/

theorem descChars_of_head {desc : String} (h : IsDescriptor desc) :
    (∀ c ∈ descChars desc, Blank.isBlank c = false) ∧
      ∀ c ∈ (descChars desc).head?, startsDesc c = true := by
  unfold descChars
  split_ifs with hmethod
  · refine ⟨h.solid, fun c hc => ?_⟩
    cases Option.mem_unique hc (of_decide_eq_true hmethod)
    rfl
  · refine ⟨List.forall_mem_cons.mpr ⟨Blank.isBlank_eq_false (by decide), h.solid⟩, ?_⟩
    rintro c ⟨⟩
    rfl

variable {p : NamePattern} {desc : Option String}

/-- The text of a selector without the owner reads back, behind any front that gives the owner. -/
theorem parse?_front (hs : IsWritable ⟨owner, p, desc⟩)
    (hfront : ∀ c ∈ front, Blank.isBlank c = false ∧ startsDesc c = false)
    (hsplit : splitOwner? (front ++ p.chars) = some (owner, p.chars)) :
    parse? (String.ofList (front ++ p.chars ++ (desc.map descChars).getD [])) =
      some ⟨owner, p, desc⟩ := by
  have hhead : ∀ c ∈ front ++ p.chars, Blank.isBlank c = false ∧ startsDesc c = false := by
    intro c hc
    rcases List.mem_append.mp hc with hc | hc
    · exact hfront c hc
    · obtain ⟨hblank, hdesc, -⟩ := NamePattern.plain_chars hs.name hc
      exact ⟨hblank, hdesc⟩
  have hname := NamePattern.ofChars?_chars hs.name
  cases desc with
  | none => exact parse?_append hhead (by simp) (by simp) hsplit hname rfl fun _ => rfl
  | some desc =>
      have hvalid := hs.desc desc rfl
      obtain ⟨hblank, hstart⟩ := descChars_of_head hvalid
      exact parse?_append hhead hblank hstart hsplit hname (readDesc?_descChars hvalid) hs.single

theorem parse?_text {s : Selector} (hs : s.IsWritable) : parse? s.text = some s := by
  obtain ⟨owner, p, desc⟩ := s
  cases owner with
  | none =>
      refine parse?_front hs (by simp) (splitOwner?_plain ?_ ?_)
      · exact fun c hc => (NamePattern.plain_chars hs.name hc).2.2.1
      · exact fun c hc => (NamePattern.plain_chars hs.name hc).2.2.2
  | some owner =>
      have howner := hs.owner owner rfl
      have hfront : ∀ c ∈ 'L' :: owner.toList ++ [';'],
          Blank.isBlank c = false ∧ startsDesc c = false := by
        intro c hc
        simp only [List.cons_append, List.mem_cons, List.mem_append, List.not_mem_nil,
          or_false] at hc
        rcases hc with rfl | hc | rfl
        · exact ⟨Blank.isBlank_eq_false (by decide), rfl⟩
        · exact ⟨(isPlain_className howner c hc).1, (isPlain_className howner c hc).2.1⟩
        · exact ⟨Blank.isBlank_eq_false (by decide), rfl⟩
      refine parse?_front hs hfront ?_
      show splitOwner? ('L' :: owner.toList ++ [';'] ++ p.chars) = some (some owner, p.chars)
      rw [List.append_assoc, List.singleton_append, splitOwner?_quoted howner, String.ofList_toList]

/-- The text of a selector also reads back with its owner in dotted form. -/
theorem parse?_dotted (hs : IsWritable ⟨some className, p, desc⟩) :
    parse? (String.ofList ((Name.dotted className).toList ++ ['.'] ++ p.chars ++
      (desc.map descChars).getD [])) = some ⟨some className, p, desc⟩ := by
  have howner := hs.owner className rfl
  have hfront : ∀ c ∈ (Name.dotted className).toList ++ ['.'],
      Blank.isBlank c = false ∧ startsDesc c = false := by
    intro c hc
    rcases List.mem_append.mp hc with hc | hc
    · exact ⟨(plain_dotted howner hc).1, (plain_dotted howner hc).2.1⟩
    · cases List.mem_singleton.mp hc
      exact ⟨Blank.isBlank_eq_false (by decide), rfl⟩
  have hsplit : splitOwner? ((Name.dotted className).toList ++ ['.'] ++ p.chars) =
      some (some className, p.chars) := by
    rw [List.append_assoc, List.singleton_append, splitOwner?_dotted, readOwner?_dotted howner]
    · rfl
    · exact fun c hc => (plain_dotted howner hc).2.2
    · exact fun c hc => (NamePattern.plain_chars hs.name hc).2.2.1
    · exact fun c hc => (NamePattern.plain_chars hs.name hc).2.2.2
  exact parse?_front hs hfront hsplit

theorem isWritable_of_parse? {text : String} {s : Selector} (h : parse? text = some s) :
    s.IsWritable := by
  simp only [parse?, Option.bind_eq_bind] at h
  obtain ⟨⟨owner, name⟩, hsplit, h⟩ := Option.bind_eq_some_iff.mp h
  obtain ⟨p, hname, h⟩ := Option.bind_eq_some_iff.mp h
  obtain ⟨desc, hdesc, h⟩ := Option.bind_eq_some_iff.mp h
  split_ifs at h with hboth
  cases h
  have hsolid : ∀ c ∈ text.toList.filter (!Blank.isBlank ·), Blank.isBlank c = false :=
    fun c hc => by simpa using (List.mem_filter.mp hc).2
  refine ⟨isClassName_of_splitOwner? hsplit, NamePattern.isWritable_of_ofChars? hname, ?_, ?_⟩
  · rintro desc rfl
    exact isDescriptor_of_readDesc?
      (fun c hc => hsolid c ((List.dropWhile_sublist _).subset hc)) hdesc
  · intro hoverloads
    rw [hoverloads, Bool.true_and] at hboth
    exact Option.not_isSome_iff_eq_none.mp hboth

/-! ### One normal form -/

/-- The texts that may follow an owner: a name, a name for all its overloads or any name, and
unless all overloads are meant a descriptor. -/
inductive MemberText : NamePattern → Option String → String → Prop where
  | exact {name : String} (hname : isMemberName name.toList = true) :
      MemberText (.exact name) none name
  | overloads {name : String} (hname : isMemberName name.toList = true) :
      MemberText (.overloads name) none (name ++ "*")
  | any : MemberText .any none "*"
  | method {p : NamePattern} {m desc : String} (hm : MemberText p none m)
      (hp : p.isOverloads = false) (hsolid : ∀ c ∈ desc.toList, Blank.isBlank c = false)
      (hdesc : (MethodDescriptor.parse desc).toOption.isSome) : MemberText p (some desc) (m ++ desc)
  | field {p : NamePattern} {m desc : String} (hm : MemberText p none m)
      (hp : p.isOverloads = false) (hsolid : ∀ c ∈ desc.toList, Blank.isBlank c = false)
      (hdesc : (FieldType.parse desc).toOption.isSome) :
      MemberText p (some desc) (m ++ ":" ++ desc)

variable {m : String}

theorem MemberText.toList_eq (h : MemberText p desc m) :
    m.toList = p.chars ++ (desc.map descChars).getD [] := by
  induction h with
  | exact hname => simp [NamePattern.chars]
  | overloads hname => simp [NamePattern.chars]
  | any => rfl
  | method hm hp hsolid hdesc ih =>
      rw [String.toList_append, ih, Option.map_some, Option.getD_some, descChars,
        if_pos (isMethodDesc_of_parse hdesc)]
      simp
  | field hm hp hsolid hdesc ih =>
      rw [String.toList_append, String.toList_append, ih, Option.map_some, Option.getD_some,
        descChars, isMethodDesc_of_parse_field hdesc]
      simp

theorem MemberText.isWritable (h : MemberText p desc m)
    (howner : isClassName className.toList = true) :
    IsWritable ⟨some className, p, desc⟩ := by
  have howner' : ∀ read, some className = some read → isClassName read.toList = true := by
    rintro read ⟨⟩
    exact howner
  have hnone : ∀ read, (none : Option String) = some read → IsDescriptor read := by
    rintro read ⟨⟩
  induction h with
  | exact hname => exact ⟨howner', by rintro name ⟨⟩; exact hname, hnone, fun _ => rfl⟩
  | overloads hname => exact ⟨howner', by rintro name ⟨⟩; exact hname, hnone, fun _ => rfl⟩
  | any => exact ⟨howner', by rintro name ⟨⟩, hnone, fun _ => rfl⟩
  | method hm hp hsolid hdesc ih =>
      refine ⟨howner', ih.name, ?_, fun h => absurd (hp.symm.trans h) Bool.false_ne_true⟩
      rintro read ⟨⟩
      exact ⟨hsolid, .inl hdesc⟩
  | field hm hp hsolid hdesc ih =>
      refine ⟨howner', ih.name, ?_, fun h => absurd (hp.symm.trans h) Bool.false_ne_true⟩
      rintro read ⟨⟩
      exact ⟨hsolid, .inr hdesc⟩

theorem accepts_iff {className owner name d : String} :
    accepts ⟨some className, p, desc⟩ owner name d = true ↔
      owner = className ∧ (∀ n, p.name? = some n → name = n) ∧ ∀ d', desc = some d' → d = d' := by
  rw [accepts, NamePattern.accepts, Bool.and_eq_true, Bool.and_eq_true, Option.all_some,
    decide_eq_true_eq, and_assoc, eq_comm]
  cases p.name? <;> cases desc <;> simp [eq_comm]

/-- What is read from a text has one text, which reads back as it. An owner in either of its forms
gives one selector, and this accepts what its parts say. -/
theorem text_isNormalForm :
    (∀ text s, parse? text = some s → parse? s.text = some s) ∧
      ∀ segments p desc m, segments ≠ [] →
        (∀ segment ∈ segments, Letter.IsIdentifier segment) → MemberText p desc m →
        ∃ s, parse? ("L" ++ "/".intercalate segments ++ ";" ++ m) = some s ∧
          parse? (".".intercalate segments ++ "." ++ m) = some s ∧
          s.owner = some ("/".intercalate segments) ∧
          ∀ owner name d, s.accepts owner name d = true ↔
            owner = "/".intercalate segments ∧ (∀ n, p.name? = some n → name = n) ∧
              ∀ d', desc = some d' → d = d' := by
  refine ⟨fun text s h => parse?_text (isWritable_of_parse? h), ?_⟩
  intro segments p desc m hne hsegments hm
  have howner := isClassName_intercalate hne hsegments
  have hwritable := hm.isWritable howner
  refine ⟨⟨some ("/".intercalate segments), p, desc⟩, ?_, ?_, rfl, fun _ _ _ => accepts_iff⟩
  · have htext : "L" ++ "/".intercalate segments ++ ";" ++ m =
        text ⟨some ("/".intercalate segments), p, desc⟩ := by
      rw [← String.toList_inj, text, String.toList_ofList, chars, String.toList_append,
        hm.toList_eq]
      simp
    rw [htext]
    exact parse?_text hwritable
  · have htext : ".".intercalate segments ++ "." ++ m =
        String.ofList ((Name.dotted ("/".intercalate segments)).toList ++ ['.'] ++ p.chars ++
          (desc.map descChars).getD []) := by
      rw [← String.toList_inj, String.toList_ofList, String.toList_append, hm.toList_eq,
        Name.dotted_intercalate hsegments]
      simp
    rw [htext]
    exact parse?_dotted hwritable

/-- The field `count` of a class, once with white space, once with dots and once with slashes. -/
theorem text_isNormalForm_count :
    (parse? " com.example.Foo.count: I" = some ⟨some "com/example/Foo", .exact "count", some "I"⟩ ∧
      parse? (text ⟨some "com/example/Foo", .exact "count", some "I"⟩) =
        some ⟨some "com/example/Foo", .exact "count", some "I"⟩) ∧
      ∃ s, parse? "Lcom/example/Foo;count:I" = some s ∧ parse? "com.example.Foo.count:I" = some s ∧
        s.owner = some "com/example/Foo" ∧
        ∀ owner name d, s.accepts owner name d = true ↔
          owner = "com/example/Foo" ∧ (∀ n, some "count" = some n → name = n) ∧
            ∀ d', some "I" = some d' → d = d' := by
  have hread : parse? " com.example.Foo.count: I" =
      some ⟨some "com/example/Foo", .exact "count", some "I"⟩ := by
    decide +kernel
  have hsegments : ∀ segment ∈ ["com", "example", "Foo"], Letter.IsIdentifier segment := by
    have hletters : ∀ segment ∈ ["com", "example", "Foo"],
        segment ≠ "" ∧ (segment.toList.all Letter.isIdentifierPart) = true := by
      decide +kernel
    exact fun segment hsegment =>
      ⟨(hletters segment hsegment).1, List.all_eq_true.mp (hletters segment hsegment).2⟩
  have hletter : "I".toList = ['I'] := by decide
  have hsolid : ∀ c ∈ "I".toList, Blank.isBlank c = false := by
    intro c hc
    rw [hletter, List.mem_singleton] at hc
    cases hc
    decide
  have hmember : MemberText (.exact "count") (some "I") "count:I" :=
    .field (.exact (by decide +kernel)) rfl hsolid (by decide)
  have hslashes : "/".intercalate ["com", "example", "Foo"] = "com/example/Foo" := by decide
  have hdots : ".".intercalate ["com", "example", "Foo"] = "com.example.Foo" := by decide
  have hquoted : "L" ++ "com/example/Foo" ++ ";" ++ "count:I" = "Lcom/example/Foo;count:I" := by
    decide
  have hdotted : "com.example.Foo" ++ "." ++ "count:I" = "com.example.Foo.count:I" := by
    decide
  have hforms := text_isNormalForm.2 ["com", "example", "Foo"] _ _ _ (List.cons_ne_nil _ _)
    hsegments hmember
  rw [hslashes, hdots, hquoted, hdotted] at hforms
  exact ⟨⟨hread, text_isNormalForm.1 _ _ hread⟩, hforms⟩

end Selector

end Injection
