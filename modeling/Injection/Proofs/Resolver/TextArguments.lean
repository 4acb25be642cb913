import Injection.Proofs.Resolver.Completion
import Injection.Proofs.Resolver.Navigation

/-!
Texts that an annotation gives as a setting. The white space at either end of a setting is not part
of its value, so the text that is looked for is the one given without it. This is the text itself if
and only if it has none there.
-/

namespace Injection

/-! ### Settings -/

namespace Blank

variable {cs : List Char} {text : String}

theorem dropWhile_eq_self_iff :
    cs.dropWhile isBlank = cs ↔ ∀ c, cs.head? = some c → isBlank c = false := by
  cases cs with
  | nil => simp
  | cons c cs =>
      cases hc : isBlank c with
      | false => simp [hc]
      | true =>
          have hle := (List.dropWhile_sublist (l := cs) isBlank).length_le
          have hne : cs.dropWhile isBlank ≠ c :: cs := by
            intro h
            rw [h, List.length_cons] at hle
            omega
          simp [hc, hne]

theorem strip_eq_self_iff :
    strip text = text ↔
      ∀ c, text.toList.head? = some c ∨ text.toList.getLast? = some c → isBlank c = false := by
  rw [strip, ← String.toList_inj, String.toList_ofList]
  generalize text.toList = cs
  have hends : (∀ c, cs.head? = some c ∨ cs.getLast? = some c → isBlank c = false) ↔
      cs.dropWhile isBlank = cs ∧ cs.reverse.dropWhile isBlank = cs.reverse := by
    rw [dropWhile_eq_self_iff, dropWhile_eq_self_iff, List.head?_reverse]
    simp only [or_imp, forall_and]
  rw [hends]
  constructor
  · intro h
    -- Nothing can be taken away at the front if as much is left at the end.
    have hle := (List.dropWhile_sublist (l := (cs.dropWhile isBlank).reverse) isBlank).length_le
    rw [← List.length_reverse, h, List.length_reverse] at hle
    have hfront := (List.dropWhile_suffix isBlank).eq_of_length_le hle
    rw [hfront] at h
    exact ⟨hfront, List.reverse_eq_iff.mp h⟩
  · rintro ⟨hfront, hback⟩
    rw [hfront, hback, List.reverse_reverse]

end Blank

namespace Criteria

variable {key value : String} {c : Criteria}

/-- A setting that was made from a key and a value is split at the sign between them, whatever the
value. -/
theorem splitArg_keyed (hequals : '=' ∉ key.toList) (hkey : Blank.strip key = key) :
    splitArg (key ++ "=" ++ value) = (key, Blank.strip value) := by
  have hplain : ∀ c ∈ key.toList, decide (c ≠ '=') = true :=
    fun c hc => decide_eq_true fun h => hequals (h ▸ hc)
  have hchars : (key ++ "=" ++ value).toList = key.toList ++ '=' :: value.toList := by simp
  have htake : (key.toList ++ '=' :: value.toList).takeWhile (· ≠ '=') = key.toList := by
    rw [List.takeWhile_append_of_pos hplain]
    simp
  have hdrop : (key.toList ++ '=' :: value.toList).dropWhile (· ≠ '=') = '=' :: value.toList := by
    rw [List.dropWhile_append_of_pos hplain]
    simp
  simp only [splitArg, hchars, htake, hdrop, String.ofList_toList, hkey]

theorem arg?_single (hargs : c.args = [key ++ "=" ++ value]) (hequals : '=' ∉ key.toList)
    (hkey : Blank.strip key = key) (wanted : String) :
    c.arg? wanted = if wanted = key then some (Blank.strip value) else none := by
  rw [arg?, hargs, List.map_singleton, splitArg_keyed hequals hkey]
  by_cases h : wanted = key <;> simp [h]

end Criteria

namespace ConstantQuery

variable {c : Criteria} {text : String}

/-- The constant that is looked for, where nothing but a text is given. -/
theorem parse_text (hargs : c.args = ["stringValue" ++ "=" ++ text]) :
    parse c = .ok ⟨some (.string (Blank.strip text)), []⟩ := by
  have harg (wanted : String) := Criteria.arg?_single hargs (by decide) (by decide) wanted
  have hgiven : given c = [("stringValue", Blank.strip text)] := by
    simp [given, valueKeys, harg]
  have hexpand : c.arg? "expandZeroConditions" = none := by
    rw [harg]
    rfl
  simp only [parse, parseValue, hgiven, hexpand]
  rfl

theorem found?_text {i : Instruction} {value : ConstantValue} :
    found? ⟨some (.string text), []⟩ i = some value ↔
      i = .ldc (.string text) ∧ value = .string text := by
  have hloaded : i.loadedConstant? = some (.string text) ↔ i = .ldc (.string text) := by
    constructor
    · intro h
      unfold Instruction.loadedConstant? at h
      split at h <;> cases h
      rfl
    · rintro rfl
      rfl
  have hexpands : i.opcode?.any (expands ⟨some (.string text), []⟩) = false := by
    cases i.opcode? <;> rfl
  rw [found?, ← hloaded]
  cases i.loadedConstant? with
  | none => simp [hexpands]
  | some loaded =>
      by_cases h : loaded = .string text
      · simp [accepts, h, eq_comm]
      · have hother : ConstantValue.string text ≠ loaded := fun heq => h heq.symm
        simp [accepts, h, hother]

end ConstantQuery

/-! ### Nodes that are offered -/

namespace InstructionList

def FollowsText (is : InstructionList) (text : String) (p : Nat) : Prop :=
  ∃ q, q < p ∧ is.get? q = some (.ldc (.string text)) ∧
    ∀ k i, q < k → k < p → is.get? k = some i → i.isReal = false

/-- A call that takes a text and gives nothing, with the text loaded right in front of it. -/
def ConsumesText (is : InstructionList) (text : String) (p : Nat) : Prop :=
  (∃ op owner name ofInterface,
    is.get? p = some (.method op owner name Invocation.textConsumer ofInterface) ∧
      name ≠ "<init>") ∧
    is.FollowsText text p

end InstructionList

namespace PointContext

variable {ctx : PointContext} {text : String}

theorem pushedText?_eq_some_iff {v : Invocation} (hv : v.position ≤ ctx.instructions.size) :
    ctx.pushedText? v = some text ↔ ctx.instructions.FollowsText text v.position := by
  have hprev (q : Nat) : ctx.instructions.prevReal? v.position = some q ↔
      q < v.position ∧ ctx.instructions.holds (·.isReal) q = true ∧
        ∀ k, q < k → k < v.position → ctx.instructions.holds (·.isReal) k = false := by
    rw [InstructionList.prevReal?, Nat.min_eq_left hv, InstructionList.lastBefore_eq_some_iff]
  rw [pushedText?]
  constructor
  · intro h
    obtain ⟨q, hq, h⟩ := Option.bind_eq_some_iff.mp h
    obtain ⟨loaded, hloaded, h⟩ := Option.bind_eq_some_iff.mp h
    split at h
    · cases h
      obtain ⟨hlt, -, hlater⟩ := (hprev q).mp hq
      refine ⟨q, hlt, hloaded, fun k i hk hkp hi => ?_⟩
      have hreal := hlater k hk hkp
      rwa [InstructionList.holds, hi] at hreal
    · cases h
  · rintro ⟨q, hlt, hq, hlater⟩
    refine Option.bind_eq_some_iff.mpr ⟨q, (hprev q).mpr ⟨hlt, ?_, fun k hk hkp => ?_⟩,
      Option.bind_eq_some_iff.mpr ⟨_, hq, rfl⟩⟩
    · rw [InstructionList.holds, hq]
      rfl
    · rw [InstructionList.holds]
      cases hk' : ctx.instructions.get? k with
      | none => rfl
      | some i => exact hlater k i hk hkp hk'

theorem any_pushedText?_iff {v : Invocation} (hargument : ctx.criteria.arg? "ldc" = some text)
    (hv : v.position ≤ ctx.instructions.size) :
    ((ctx.pushedText? v).any fun pushed => (ctx.criteria.arg? "ldc").all (· = pushed)) = true ↔
      ctx.instructions.FollowsText text v.position := by
  rw [hargument, ← pushedText?_eq_some_iff hv]
  cases ctx.pushedText? v with
  | none => simp
  | some pushed => simp [eq_comm]

def textOffer? (ctx : PointContext) (node : Instruction × Nat) : Option Candidate :=
  (ctx.invocation? node).bind fun v =>
    if v.desc = Invocation.textConsumer &&
        (ctx.pushedText? v).any fun text => (ctx.criteria.arg? "ldc").all (· = text) then
      some (v.candidate v.position [])
    else none

theorem position_of_textOffer? {node : Instruction × Nat} {x : Candidate}
    (h : ctx.textOffer? node = some x) : x.position = node.2 := by
  obtain ⟨v, hv, h⟩ := Option.bind_eq_some_iff.mp h
  split at h
  · cases h
    exact position_of_invocation? hv
  · cases h

theorem isSome_textOffer?_iff (hselector : ctx.selector = some .any)
    (hargument : ctx.criteria.arg? "ldc" = some text) {i : Instruction} {p : Nat}
    (hi : ctx.instructions.get? p = some i) :
    (ctx.textOffer? (i, p)).isSome ↔ ctx.instructions.ConsumesText text p := by
  rw [InstructionList.ConsumesText, hi, textOffer?]
  cases i with
  | method op owner name desc ofInterface =>
      have hlt : p < ctx.instructions.size := (Array.getElem?_eq_some_iff.mp hi).1
      have hselects : ctx.selects owner name desc = true := by
        rw [selects, hselector]
        rfl
      have htext := any_pushedText?_iff (v := ⟨p, owner, name, desc⟩) hargument (Nat.le_of_lt hlt)
      by_cases hname : name = "<init>"
      · simp [invocation?, hname]
      · by_cases hdesc : desc = Invocation.textConsumer
        · subst hdesc
          simp [invocation?, hname, hselects, ← htext]
        · simp [invocation?, hname, hselects, hdesc]
  | _ => simp [invocation?]

end PointContext

/-! ### Answers -/

namespace Resolver

variable {r : Resolver} {t : Target} {s : Session} {kind : PointKind} {c : Criteria}

/-- An answer selects the nodes wanted: it lists their positions in order, and if there are none it
is an error that blames no test. -/
def Selects (answer : Except ResolveError (List Match)) (wanted : Nat → Prop) : Prop :=
  match answer with
  | .ok results =>
    results ≠ [] ∧ (results.map (·.position)).Pairwise (· < ·) ∧
      ∀ p, p ∈ results.map (·.position) ↔ wanted p
  | .error e => e = .noMatch none ∧ ∀ p, ¬ wanted p

theorem Selects.congr {answer : Except ResolveError (List Match)} {wanted wanted' : Nat → Prop}
    (h : Selects answer wanted) (hsame : ∀ p, wanted p ↔ wanted' p) : Selects answer wanted' := by
  rwa [show wanted' = wanted from funext fun p => propext (hsame p).symm]

section

variable {is : InstructionList} {offer? : Instruction × Nat → Option Candidate}
  (hplace : ∀ node x, offer? node = some x → x.position = node.2)

include hplace

theorem pairwise_position_offers :
    ((is.nodes.toList.zipIdx.filterMap offer?).map (·.position)).Pairwise (· < ·) := by
  have hnodes : is.nodes.toList.zipIdx.Pairwise (·.2 < ·.2) := by
    rw [← List.pairwise_map, List.zipIdx_map_snd, ← List.range_eq_range']
    exact List.pairwise_lt_range
  rw [List.pairwise_map]
  refine List.Pairwise.filterMap _ (fun node node' hlt x hx y hy => ?_) hnodes
  rwa [hplace node x hx, hplace node' y hy]

theorem mem_position_offers {p : Nat} :
    p ∈ (is.nodes.toList.zipIdx.filterMap offer?).map (·.position) ↔
      ∃ i, is.get? p = some i ∧ (offer? (i, p)).isSome := by
  have hnode (i : Instruction) : (i, p) ∈ is.nodes.toList.zipIdx ↔ is.get? p = some i := by
    rw [List.mem_zipIdx_iff_getElem?, Array.getElem?_toList]
    rfl
  rw [List.mem_map]
  constructor
  · rintro ⟨x, hx, rfl⟩
    obtain ⟨⟨i, position⟩, hmem, hoffer⟩ := List.mem_filterMap.mp hx
    obtain rfl := hplace _ x hoffer
    exact ⟨i, (hnode i).mp hmem, by rw [hoffer]; rfl⟩
  · rintro ⟨i, hi, hsome⟩
    obtain ⟨x, hoffer⟩ := Option.isSome_iff_exists.mp hsome
    exact ⟨x, List.mem_filterMap.mpr ⟨(i, p), (hnode i).mpr hi, hoffer⟩, hplace _ x hoffer⟩

theorem lt_size_of_mem_offers :
    ∀ x ∈ is.nodes.toList.zipIdx.filterMap offer?, x.position < is.size := by
  intro x hx
  obtain ⟨i, hi, -⟩ := (mem_position_offers hplace).mp (List.mem_map_of_mem hx)
  exact (Array.getElem?_eq_some_iff.mp hi).1

end

/-- Without a shift, a slice and an ordinal, a walk over the nodes selects those it offers. -/
theorem resolve_selects (hlive : s.watch.IsLive)
    (hkind : r.registry.lookup? c.value = some (.builtin kind)) (hbare : c.bare = c)
    {wanted : Option Selector} (hwanted : selector (.builtin kind) c .all = .ok wanted)
    {offer? : Instruction × Nat → Option Candidate}
    (hplace : ∀ node x, offer? node = some x → x.position = node.2)
    (hoffered : ∀ locals, kind.offered ⟨t.owner.name, t.method, c, wanted, locals, r.options⟩ =
      .ok (t.method.instructions.nodes.toList.zipIdx.filterMap offer?)) :
    Selects ((r.resolve (.mk c none) t .all).answer s)
      fun p => ∃ i, t.method.instructions.get? p = some i ∧ (offer? (i, p)).isSome := by
  let xs := t.method.instructions.nodes.toList.zipIdx.filterMap offer?
  obtain ⟨generated?, hs⟩ := r.exists_knows t hlive
  obtain ⟨s', hs', hanswer⟩ := exists_runWith_answer t kind hs
  have hcollect : (r.runWith t c .all (pure [])).answer s =
      .ok (collector t.method c [] xs).outcome := by
    rw [hanswer c .all _ hkind]
    change selector (.builtin kind) c .all >>= _ = _
    rw [hwanted]
    exact (walkWithin_answer rfl hs').trans (congrArg _ (hoffered _))
  have hresults : (collector t.method c [] xs).results = answered xs := by
    have hall := results_collector_bare t.method c xs
    rwa [hbare, InstructionList.shiftAll_zero (lt_size_of_mem_offers hplace)] at hall
  have hpositions : (answered xs).map (·.position) = xs.map (·.position) := by
    rw [answered, List.map_map, ← List.zipIdx_map_fst 0 xs, List.map_map]
    simp [Function.comp_def, Candidate.toMatch]
  rw [resolve_answer, run, sliceFilter, hcollect]
  change Selects (collector t.method c [] xs).outcome.conclude _
  -- Nothing is filtered or moved, so nothing is found just when nothing was offered.
  by_cases hempty : (collector t.method c [] xs).results = []
  · have hxs : xs = [] := by
      rw [hresults, answered, List.map_eq_nil_iff, List.zipIdx_eq_nil_iff] at hempty
      exact hempty
    have hconclude : (collector t.method c [] xs).outcome.conclude = .error (.noMatch none) := by
      rw [Outcome.conclude, Collector.outcome, if_pos (List.isEmpty_iff.mpr hempty),
        (blamed_collector hempty).mpr hxs]
    rw [hconclude]
    refine ⟨rfl, fun p hp => ?_⟩
    have hmem := (mem_position_offers hplace).mpr hp
    change p ∈ xs.map (·.position) at hmem
    rw [hxs] at hmem
    cases hmem
  · rw [conclude_eq_ok.mpr ⟨rfl, hempty⟩]
    refine ⟨hempty, ?_, fun p => ?_⟩
    · rw [Collector.outcome, hresults, hpositions]
      exact pairwise_position_offers hplace
    · rw [Collector.outcome, hresults, hpositions]
      exact mem_position_offers hplace

variable {text : String}

/-- An annotation for a constant with nothing but a text. -/
theorem resolve_constantText (hlive : s.watch.IsLive)
    (hconstant : r.registry.lookup? "CONSTANT" = some (.builtin .constant)) :
    Selects ((r.resolve ((AtSpec.ofValue "CONSTANT").apply (.arg "stringValue" text)) t .all).answer
      s) fun p => t.method.instructions.get? p = some (.ldc (.string (Blank.strip text))) := by
  let query : ConstantQuery := ⟨some (.string (Blank.strip text)), []⟩
  let offer? (node : Instruction × Nat) : Option Candidate :=
    (query.found? node.1).map fun value => ⟨node.2, .constant value, none, []⟩
  have hplace : ∀ node x, offer? node = some x → x.position = node.2 := by
    intro node x hx
    obtain ⟨value, -, rfl⟩ := Option.map_eq_some_iff.mp hx
    rfl
  let c : Criteria := { Criteria.ofValue "CONSTANT" with args := ["stringValue" ++ "=" ++ text] }
  have hoffered (locals : Option LocalsContext) :
      PointKind.constant.offered ⟨t.owner.name, t.method, c, none, locals, r.options⟩ =
        .ok (t.method.instructions.nodes.toList.zipIdx.filterMap offer?) := by
    let ctx : PointContext := ⟨t.owner.name, t.method, c, none, locals, r.options⟩
    have hvisits : PointKind.constant.visits ctx = .ok (PointContext.visits ctx.positioned
        fun i position => pure (offer? (i, position))) := by
      rw [PointKind.visits, PointContext.constantVisits, ConstantQuery.parse_text rfl]
      rfl
    rw [PointKind.offered, hvisits]
    exact congrArg _ (PointContext.filterMap_offer?_visits fun _ _ => Visit.isSteady_pure _)
  have hspec : (AtSpec.ofValue "CONSTANT").apply (.arg "stringValue" text) = .mk c none := rfl
  have hlookup : r.registry.lookup? c.value = some (.builtin .constant) := hconstant
  have hbare : c.bare = c := rfl
  have hwanted : selector (.builtin .constant) c .all = .ok none := rfl
  rw [hspec]
  refine (resolve_selects hlive hlookup hbare hwanted hplace hoffered).congr fun p => ?_
  constructor
  · rintro ⟨i, hi, hsome⟩
    obtain ⟨value, hfound⟩ := Option.isSome_iff_exists.mp (by simpa [offer?] using hsome)
    rw [hi, (ConstantQuery.found?_text.mp hfound).1]
  · intro hp
    refine ⟨_, hp, ?_⟩
    have hfound : query.found? (.ldc (.string (Blank.strip text))) =
        some (.string (Blank.strip text)) := ConstantQuery.found?_text.mpr ⟨rfl, rfl⟩
    simp [offer?, hfound]

/-- An annotation for the calls of any method that takes a text, with nothing but the text. -/
theorem resolve_calledText (hlive : s.watch.IsLive)
    (hcall : r.registry.lookup? "INVOKE_STRING" = some (.builtin .invokeString)) :
    Selects ((r.resolve (((AtSpec.ofValue "INVOKE_STRING").apply (.target "*")).apply
        (.arg "ldc" text)) t .all).answer s)
      (t.method.instructions.ConsumesText (Blank.strip text)) := by
  let c : Criteria :=
    { Criteria.ofValue "INVOKE_STRING" with target := some "*", args := ["ldc" ++ "=" ++ text] }
  let ctx (locals : Option LocalsContext) : PointContext :=
    ⟨t.owner.name, t.method, c, some .any, locals, r.options⟩
  have hargument : c.arg? "ldc" = some (Blank.strip text) :=
    (Criteria.arg?_single rfl (by decide) (by decide) "ldc").trans (if_pos rfl)
  have hoffered (locals : Option LocalsContext) :
      PointKind.invokeString.offered (ctx locals) =
        .ok (t.method.instructions.nodes.toList.zipIdx.filterMap (ctx none).textOffer?) := by
    have hoffers : t.method.instructions.nodes.toList.zipIdx.filterMap (ctx none).textOffer? =
        (ctx locals).invocations.filterMap fun v =>
          if v.desc = Invocation.textConsumer &&
              ((ctx locals).pushedText? v).any fun text => (c.arg? "ldc").all (· = text) then
            some (v.candidate v.position [])
          else none :=
      List.filterMap_filterMap.symm
    rw [hoffers]
    exact congrArg _ (PointContext.filterMap_offer?_invocationVisits _)
  -- The setting is read as the text without the white space around it.
  have hspec : ((AtSpec.ofValue "INVOKE_STRING").apply (.target "*")).apply (.arg "ldc" text) =
      .mk c none := rfl
  have hlookup : r.registry.lookup? c.value = some (.builtin .invokeString) := hcall
  have hbare : c.bare = c := rfl
  have hwanted : selector (.builtin .invokeString) c .all = .ok (some .any) := by
    have hparse : Selector.parse? "*" = some .any := by decide
    simp only [selector, c, hparse]
    rfl
  rw [hspec]
  refine (resolve_selects hlive hlookup hbare hwanted
    (fun node x => PointContext.position_of_textOffer?) hoffered).congr fun p => ?_
  have hoffer {i : Instruction} (hi : (ctx none).instructions.get? p = some i) :=
    PointContext.isSome_textOffer?_iff rfl hargument hi
  constructor
  · rintro ⟨i, hi, hsome⟩
    exact (hoffer hi).mp hsome
  · intro hp
    obtain ⟨op, owner, name, ofInterface, hi, -⟩ := hp.1
    exact ⟨_, hi, (hoffer hi).mpr hp⟩

/-- A text that is given as a setting is looked for without the white space at its ends: loads of
it, and calls of methods with it in front. So it is looked for as it stands if and only if it has no
white space there. -/
theorem resolve_textArgument (hlive : s.watch.IsLive)
    (hconstant : r.registry.lookup? "CONSTANT" = some (.builtin .constant))
    (hcall : r.registry.lookup? "INVOKE_STRING" = some (.builtin .invokeString)) (text : String) :
    Selects ((r.resolve ((AtSpec.ofValue "CONSTANT").apply (.arg "stringValue" text)) t .all).answer
      s) (fun p => t.method.instructions.get? p = some (.ldc (.string (Blank.strip text)))) ∧
    Selects ((r.resolve (((AtSpec.ofValue "INVOKE_STRING").apply (.target "*")).apply
        (.arg "ldc" text)) t .all).answer s)
      (t.method.instructions.ConsumesText (Blank.strip text)) ∧
    (Blank.strip text = text ↔
      ∀ c, text.toList.head? = some c ∨ text.toList.getLast? = some c →
        Blank.isBlank c = false) :=
  ⟨resolve_constantText hlive hconstant, resolve_calledText hlive hcall, Blank.strip_eq_self_iff⟩

/-- A method that prints two texts, of which one begins with white space. -/
def twoTexts : Target where
  owner := ⟨0, 52, 0x0021, "a/Main", some "java/lang/Object", [], none, [], []⟩
  method := {
    access := 0x0008
    name := "main"
    desc := "()V"
    maxStack := 0
    maxLocals := 0
    instructions := .ofList [.ldc (.string " x"),
      .method .invokestatic "a/Log" "write" "(Ljava/lang/String;)V" false,
      .ldc (.string "x"), .method .invokestatic "a/Log" "write" "(Ljava/lang/String;)V" false,
      .plain .returnVoid]
    handlers := []
    declaredLocals := [] }

/-- The setting that completion offers for the first text selects the other one. -/
theorem textArgument_selects_other :
    (Element.constant (.string " x")).label? = some "stringValue= x" ∧
      (classless.resolve ((AtSpec.ofValue "CONSTANT").apply (.arg "stringValue" " x")) twoTexts
        .all).answer freshSession = .ok [⟨0, 2, 2, .constant (.string "x"), none, []⟩] ∧
      ¬ Selects ((classless.resolve ((AtSpec.ofValue "CONSTANT").apply (.arg "stringValue" " x"))
        twoTexts .all).answer freshSession)
        (fun p => twoTexts.method.instructions.get? p = some (.ldc (.string " x"))) ∧
      ¬ Selects ((classless.resolve (((AtSpec.ofValue "INVOKE_STRING").apply (.target "*")).apply
        (.arg "ldc" " x")) twoTexts .all).answer freshSession)
        (twoTexts.method.instructions.ConsumesText " x") := by
  have hconstant : (classless.resolve ((AtSpec.ofValue "CONSTANT").apply
      (.arg "stringValue" " x")) twoTexts .all).answer freshSession =
        .ok [⟨0, 2, 2, .constant (.string "x"), none, []⟩] := by
    decide
  have hcalls : (classless.resolve (((AtSpec.ofValue "INVOKE_STRING").apply (.target "*")).apply
      (.arg "ldc" " x")) twoTexts .all).answer freshSession =
        .ok [⟨0, 3, 3, .method "a/Log" "write" "(Ljava/lang/String;)V", some "a/Log", []⟩] := by
    decide
  have hlabel : (Element.constant (.string " x")).label? = some "stringValue= x" := by
    decide
  refine ⟨hlabel, hconstant, fun h => ?_, fun h => ?_⟩
  · rw [hconstant] at h
    have hfirst := (h.2.2 0).mpr rfl
    simp at hfirst
  · rw [hcalls] at h
    have hwanted : twoTexts.method.instructions.ConsumesText " x" 1 :=
      ⟨⟨_, _, _, _, rfl, by decide⟩, 0, Nat.zero_lt_one, rfl, fun k i hk hlt => by omega⟩
    have hsecond := (h.2.2 1).mpr hwanted
    simp at hsecond

theorem resolve_textArgument_twoTexts :
    freshSession.watch.IsLive ∧
      classless.registry.lookup? "CONSTANT" = some (.builtin .constant) ∧
      classless.registry.lookup? "INVOKE_STRING" = some (.builtin .invokeString) ∧
      Selects ((classless.resolve ((AtSpec.ofValue "CONSTANT").apply (.arg "stringValue" "x"))
        twoTexts .all).answer freshSession)
        (fun p => twoTexts.method.instructions.get? p = some (.ldc (.string "x"))) ∧
      Selects ((classless.resolve (((AtSpec.ofValue "INVOKE_STRING").apply (.target "*")).apply
        (.arg "ldc" "x")) twoTexts .all).answer freshSession)
        (twoTexts.method.instructions.ConsumesText "x") := by
  have hlookup : classless.registry.lookup? "CONSTANT" = some (.builtin .constant) := rfl
  have hlookup' : classless.registry.lookup? "INVOKE_STRING" = some (.builtin .invokeString) := rfl
  obtain ⟨hconstant, hcalls, -⟩ := resolve_textArgument (t := twoTexts) (s := freshSession) rfl
    hlookup hlookup' "x"
  have hx : Blank.strip "x" = "x" := by decide
  rw [hx] at hconstant hcalls
  exact ⟨rfl, hlookup, hlookup', hconstant, hcalls⟩

end Resolver

end Injection
