import Injection.Sample.Written
import Injection.Source.Lambda
import Injection.Proofs.Source.EventOrder
import Mathlib.Data.Finset.Card

/-!
Which lambda expression a method was compiled from. The search goes outward from one capturing
method to the next, ends when it comes back to a method it has seen, and gives no lambda expression
to two methods.
-/

namespace Injection.Source

abbrev MethodName := String × String

theorem capturing?_eq_some {c : Class} {name : MethodName} {m : Method} {place : Nat}
    (h : capturing? c name.1 name.2 = some (m, place)) :
    m ∈ c.methods ∧ (capturedLambdas c m)[place]? = some name := by
  obtain ⟨m', hm', hplace⟩ := List.exists_of_findSome?_eq_some h
  obtain ⟨i, hi, heq⟩ := Option.map_eq_some_iff.mp hplace
  cases heq
  obtain ⟨hlt, hget, -⟩ := List.idxOf?_eq_some_iff.mp hi
  exact ⟨hm', List.getElem?_eq_some_iff.mpr ⟨hlt, hget⟩⟩

namespace LambdaSource

variable {c : Class} {source : SourceClass}

/-! ### The search ends -/

/-- The lambda expression at a place in the unit of a capturing method, given the lambda expression
of that method if it is compiled from one. -/
def written? (source : SourceClass) (capturing : Method) (place : Nat)
    (outer : Option LambdaSource) : Option LambdaSource := do
  let (method, body, root) ← enclosing? source (fun _ _ => outer) capturing
  let lambda ← (body.lambdas root)[place]?
  return ⟨method, lambda⟩

/-- The search with the methods it has seen, as it runs when nothing bounds the number of its
steps. -/
inductive Search (c : Class) (source : SourceClass) :
    List MethodName → MethodName → Option LambdaSource → Prop
  | seen {visited name} : name ∈ visited → Search c source visited name none
  | uncaptured {visited name} : name ∉ visited → capturing? c name.1 name.2 = none →
      Search c source visited name none
  | named {visited name m place} : name ∉ visited →
      capturing? c name.1 name.2 = some (m, place) → isLambdaName m.name = false →
      Search c source visited name (written? source m place none)
  | nested {visited name m place outer} : name ∉ visited →
      capturing? c name.1 name.2 = some (m, place) → isLambdaName m.name = true →
      Search c source (name :: visited) (m.name, m.desc) outer →
      Search c source visited name (written? source m place outer)

theorem written?_named {m : Method} (hm : isLambdaName m.name = false) (place : Nat)
    (outer : Option LambdaSource) :
    written? source m place outer = written? source m place none := by
  simp only [written?, enclosing?, hm, Bool.false_eq_true, if_false]

theorem locate?_succ (fuel : Nat) (visited : List MethodName) (name : MethodName) :
    locate? c source (fuel + 1) visited name.1 name.2 =
      if visited.contains name then none
      else (capturing? c name.1 name.2).bind fun (m, place) =>
        written? source m place (locate? c source fuel (name :: visited) m.name m.desc) := rfl

def unseen (c : Class) (visited : List MethodName) : Finset MethodName :=
  (c.methods.map fun m => (m.name, m.desc)).toFinset \ visited.toFinset

theorem card_unseen_lt {m : Method} (hm : m ∈ c.methods) {visited : List MethodName}
    (hnew : (m.name, m.desc) ∉ visited) :
    (unseen c ((m.name, m.desc) :: visited)).card < (unseen c visited).card := by
  rw [unseen, List.toFinset_cons, Finset.sdiff_insert]
  refine Finset.card_erase_lt_of_mem (Finset.mem_sdiff.mpr ⟨?_, ?_⟩)
  · exact List.mem_toFinset.mpr (List.mem_map_of_mem hm)
  · exact mt List.mem_toFinset.mp hnew

/-- Every step but the first sees another method of the class. -/
theorem search_locate? {fuel : Nat} {visited : List MethodName} {name : MethodName}
    (h : name ∈ visited ∨ (unseen c (name :: visited)).card < fuel) :
    Search c source visited name (locate? c source fuel visited name.1 name.2) := by
  induction fuel generalizing visited name with
  | zero => exact .seen (h.resolve_right (Nat.not_lt_zero _))
  | succ fuel ih =>
      rw [locate?_succ]
      by_cases hseen : name ∈ visited
      · rw [if_pos (List.contains_iff_mem.mpr hseen)]
        exact .seen hseen
      · rw [if_neg (mt List.contains_iff_mem.mp hseen)]
        cases hcapturing : capturing? c name.1 name.2 with
        | none => exact .uncaptured hseen hcapturing
        | some found =>
            obtain ⟨m, place⟩ := found
            have hm := (capturing?_eq_some hcapturing).1
            rw [Option.bind_some]
            cases hname : isLambdaName m.name with
            | false =>
                dsimp only
                rw [written?_named hname]
                exact .named hseen hcapturing hname
            | true =>
                refine .nested hseen hcapturing hname (@ih (name :: visited) (m.name, m.desc) ?_)
                by_cases hback : (m.name, m.desc) ∈ name :: visited
                · exact .inl hback
                · have hless := card_unseen_lt hm hback
                  have hleft := h.resolve_left hseen
                  exact .inr (by omega)

/-- A search has one answer. -/
theorem Search.unique {visited : List MethodName} {name : MethodName}
    {answer answer' : Option LambdaSource} (h : Search c source visited name answer)
    (h' : Search c source visited name answer') : answer = answer' := by
  induction h generalizing answer' with
  | seen hseen =>
      cases h' with
      | seen => rfl
      | uncaptured hnew | named hnew | nested hnew => exact absurd hseen hnew
  | uncaptured hnew hnone =>
      cases h' with
      | seen | uncaptured => rfl
      | named _ hsome | nested _ hsome => cases hnone.symm.trans hsome
  | named hnew hsome hname =>
      cases h' with
      | seen hseen => exact absurd hseen hnew
      | uncaptured _ hnone => cases hnone.symm.trans hsome
      | named _ hsome' =>
          cases hsome.symm.trans hsome'
          rfl
      | nested _ hsome' hname' =>
          cases hsome.symm.trans hsome'
          cases hname.symm.trans hname'
  | nested hnew hsome hname _ ih =>
      cases h' with
      | seen hseen => exact absurd hseen hnew
      | uncaptured _ hnone => cases hnone.symm.trans hsome
      | named _ hsome' hname' =>
          cases hsome.symm.trans hsome'
          cases hname.symm.trans hname'
      | nested _ hsome' _ houter =>
          cases hsome.symm.trans hsome'
          rw [ih houter]

/-- The search ends, and answers what is found in a bounded number of steps. -/
theorem search_iff_find? {name : MethodName} {answer : Option LambdaSource} :
    Search c source [] name answer ↔ find? c source name.1 name.2 = answer := by
  have hfound : Search c source [] name (find? c source name.1 name.2) := by
    refine search_locate? (.inr ?_)
    have hle : (unseen c [name]).card ≤ c.methods.length := by
      refine (Finset.card_le_card Finset.sdiff_subset).trans ((List.toFinset_card_le _).trans ?_)
      rw [List.length_map]
    omega
  exact ⟨hfound.unique, fun h => h ▸ hfound⟩

/-! ### The search is injective -/

/-- The lambda expression that a method was compiled from: a named method captures the method at
its place in the body, or a method captures it that was compiled from a lambda expression around
it. -/
inductive Stems (c : Class) (source : SourceClass) : MethodName → LambdaSource → Prop
  | named {name m place method body lambda} : capturing? c name.1 name.2 = some (m, place) →
      isLambdaName m.name = false → source.findMethod? m.name m.desc = some method →
      method.body = some body → (body.lambdas (.stmt body.root))[place]? = some lambda →
      Stems c source name ⟨method, lambda⟩
  | nested {name m place outer body root lambda} : capturing? c name.1 name.2 = some (m, place) →
      isLambdaName m.name = true → Stems c source (m.name, m.desc) outer →
      outer.method.body = some body → body.lambdaRoot? outer.lambda = some root →
      (body.lambdas root)[place]? = some lambda → Stems c source name ⟨outer.method, lambda⟩

theorem stems_of_search {visited : List MethodName} {name : MethodName} {a : LambdaSource}
    (h : Search c source visited name (some a)) : Stems c source name a := by
  generalize hanswer : some a = answer at h
  induction h generalizing a with
  | seen | uncaptured => cases hanswer
  | named _ hcapturing hname =>
      obtain ⟨⟨method, body, root⟩, hunit, h⟩ := Option.bind_eq_some_iff.mp hanswer.symm
      obtain ⟨lambda, hlambda, h⟩ := Option.bind_eq_some_iff.mp h
      cases h
      rw [enclosing?, if_neg (by simp [hname])] at hunit
      obtain ⟨method', hmethod, h⟩ := Option.bind_eq_some_iff.mp hunit
      obtain ⟨body', hbody, h⟩ := Option.bind_eq_some_iff.mp h
      cases h
      exact .named hcapturing hname hmethod hbody hlambda
  | nested _ hcapturing hname _ ih =>
      obtain ⟨⟨method, body, root⟩, hunit, h⟩ := Option.bind_eq_some_iff.mp hanswer.symm
      obtain ⟨lambda, hlambda, h⟩ := Option.bind_eq_some_iff.mp h
      cases h
      rw [enclosing?, if_pos hname] at hunit
      obtain ⟨outer, houter, h⟩ := Option.bind_eq_some_iff.mp hunit
      obtain ⟨body', hbody, h⟩ := Option.bind_eq_some_iff.mp h
      obtain ⟨root', hroot, h⟩ := Option.bind_eq_some_iff.mp h
      cases h
      rw [root?, hbody] at hroot
      exact .nested hcapturing hname (ih houter.symm) hbody hroot hlambda

theorem stems_of_find? {name : MethodName} {a : LambdaSource}
    (h : find? c source name.1 name.2 = some a) : Stems c source name a :=
  stems_of_search (search_iff_find?.mpr h)

theorem Stems.method_mem {name : MethodName} {a : LambdaSource} (h : Stems c source name a) :
    a.method ∈ source.methods := by
  induction h with
  | named _ _ hmethod => exact List.mem_of_find?_eq_some hmethod
  | nested _ _ _ _ _ _ ih => exact ih

theorem name_of_findMethod? {name desc : String} {method : SourceMethod}
    (h : source.findMethod? name desc = some method) :
    (method.name, method.desc) = (name, desc) := by
  have hfound := List.find?_some h
  simp only [Bool.and_eq_true, decide_eq_true_eq] at hfound
  rw [hfound.1, hfound.2]

/-- Two methods captured at one place of one method are the same. -/
theorem name_eq_of_place {name name' : MethodName} {m m' : Method} {place place' : Nat}
    (hmethods : (c.methods.map fun m => (m.name, m.desc)).Nodup)
    (h : capturing? c name.1 name.2 = some (m, place))
    (h' : capturing? c name'.1 name'.2 = some (m', place'))
    (hm : (m.name, m.desc) = (m'.name, m'.desc)) (hplace : place = place') : name = name' := by
  obtain ⟨hmem, hcaptured⟩ := capturing?_eq_some h
  obtain ⟨hmem', hcaptured'⟩ := capturing?_eq_some h'
  obtain rfl := List.inj_on_of_nodup_map hmethods hmem hmem' hm
  subst hplace
  exact Option.some.inj (hcaptured.symm.trans hcaptured')

/-- A lambda expression stands at one place of one unit. -/
theorem place_eq_of_lambda {body : Body} (hbody : body.IsTree) {root root' : WalkRoot}
    (hroot : body.IsUnit root) (hroot' : body.IsUnit root') {place place' : Nat} {lambda : ExprId}
    (h : (body.lambdas root)[place]? = some lambda)
    (h' : (body.lambdas root')[place']? = some lambda) : root = root' ∧ place = place' := by
  have hvalue {root : WalkRoot} {place : Nat}
      (h : (body.lambdas root)[place]? = some lambda) : lambda ∈ body.values root := by
    rw [Body.lambdas_eq_filter] at h
    exact List.mem_of_mem_filter (List.mem_of_getElem? h)
  obtain rfl := hbody.unit_eq hroot hroot' (hvalue h) (hvalue h')
  have hlt := (List.getElem?_eq_some_iff.mp h).1
  exact ⟨rfl, (List.getElem?_inj hlt (hbody.nodup_lambdas hroot)).mp (h.trans h'.symm)⟩

theorem eq_of_parts {a a' : LambdaSource} (hmethod : a.method = a'.method)
    (hlambda : a.lambda = a'.lambda) : a = a' := by
  cases a
  cases a'
  exact LambdaSource.mk.injEq .. ▸ ⟨hmethod, hlambda⟩

/-- No two methods were compiled from one lambda expression. -/
theorem Stems.name_eq (hmethods : (c.methods.map fun m => (m.name, m.desc)).Nodup)
    (htrees : ∀ method ∈ source.methods, ∀ body, method.body = some body → body.IsTree)
    {name name' : MethodName} {a : LambdaSource} (h : Stems c source name a)
    (h' : Stems c source name' a) : name = name' := by
  induction h generalizing name' with
  | @named name m place method body lambda hcapturing _ hmethod hbody hlambda =>
      have htree := htrees method (List.mem_of_find?_eq_some hmethod) body hbody
      cases h' with
      | @named _ m' _ _ body' _ hcapturing' _ hmethod' hbody' hlambda' =>
          cases hbody.symm.trans hbody'
          have hplace := (place_eq_of_lambda htree (.inl rfl) (.inl rfl) hlambda hlambda').2
          exact name_eq_of_place hmethods hcapturing hcapturing'
            ((name_of_findMethod? hmethod).symm.trans (name_of_findMethod? hmethod')) hplace
      | @nested _ m' _ outer body' root _ hcapturing' _ houter hbody' hroot hlambda' =>
          cases hbody.symm.trans hbody'
          obtain ⟨rfl, -⟩ := place_eq_of_lambda htree (.inl rfl) (.inr ⟨_, hroot⟩) hlambda hlambda'
          exact absurd hroot (htree.lambdaRoot?_ne_root _)
  | @nested name m place outer body root lambda hcapturing hname houter hbody hroot hlambda ih =>
      have htree := htrees outer.method houter.method_mem body hbody
      generalize ha : (⟨outer.method, lambda⟩ : LambdaSource) = a at h'
      cases h' with
      | @named _ m' _ method body' lambda' hcapturing' _ _ hbody' hlambda' =>
          cases ha
          cases hbody.symm.trans hbody'
          obtain ⟨rfl, -⟩ := place_eq_of_lambda htree (.inr ⟨_, hroot⟩) (.inl rfl) hlambda hlambda'
          exact absurd hroot (htree.lambdaRoot?_ne_root _)
      | @nested _ m' _ outer' body' root' lambda' hcapturing' _ houter' hbody' hroot' hlambda' =>
          obtain ⟨hmethod, rfl⟩ := LambdaSource.mk.inj ha
          cases hbody.symm.trans ((congrArg SourceMethod.body hmethod).trans hbody')
          obtain ⟨rfl, hplace⟩ :=
            place_eq_of_lambda htree (.inr ⟨_, hroot⟩) (.inr ⟨_, hroot'⟩) hlambda hlambda'
          -- Both methods around stem from the lambda expression of this unit.
          have hsame : outer' = outer :=
            eq_of_parts hmethod.symm (htree.lambda_eq hroot' hroot)
          exact name_eq_of_place hmethods hcapturing hcapturing' (ih (hsame ▸ houter')) hplace

/-! ### Cycles -/

/-- The search for the lambda expression of a method goes on to that of the lambda method that
captures it. -/
def Outward (c : Class) (name outer : MethodName) : Prop :=
  ∃ m place, capturing? c name.1 name.2 = some (m, place) ∧ isLambdaName m.name = true ∧
    outer = (m.name, m.desc)

/-- Outward from a method with a lambda expression there is a last method. -/
theorem Stems.acc {name : MethodName} {a : LambdaSource} (h : Stems c source name a) :
    Acc (Function.swap (Outward c)) name := by
  induction h with
  | named hcapturing hname =>
      refine ⟨_, ?_⟩
      rintro outer ⟨m', place', hcapturing', hname', rfl⟩
      cases hcapturing.symm.trans hcapturing'
      cases hname.symm.trans hname'
  | nested hcapturing hname _ _ _ _ ih =>
      refine ⟨_, ?_⟩
      rintro outer ⟨m', place', hcapturing', -, rfl⟩
      cases hcapturing.symm.trans hcapturing'
      exact ih

theorem not_transGen_self_of_acc {α : Type} {r : α → α → Prop} {a b : α}
    (h : Acc (Function.swap r) a) (hpath : Relation.ReflTransGen r a b) :
    ¬Relation.TransGen r b b := by
  induction h with
  | intro a _ ih =>
      rcases hpath.cases_head with rfl | ⟨next, hnext, hrest⟩
      · intro hcycle
        obtain ⟨next, hnext, hback⟩ := Relation.TransGen.head'_iff.mp hcycle
        exact ih next hnext hback hcycle
      · exact ih next hnext hrest

/-- The search for the lambda expression of a method ends, and so do the walks over the units it
looks into. It has no answer when it comes to lambda methods that capture each other in a cycle, and
different answers for different methods. -/
theorem find?_terminates_injectively {c : Class} {source : SourceClass}
    (hmethods : (c.methods.map fun m => (m.name, m.desc)).Nodup)
    (htrees : ∀ method ∈ source.methods, ∀ body, method.body = some body → body.IsTree) :
    (∀ method ∈ source.methods, ∀ body, method.body = some body → ∀ root, body.IsUnit root →
      ∀ events, body.Tells root events ↔ body.events root = events) ∧
    (∀ (name : MethodName) answer,
      Search c source [] name answer ↔ find? c source name.1 name.2 = answer) ∧
    (∀ name inner, Relation.ReflTransGen (Outward c) name inner →
      Relation.TransGen (Outward c) inner inner → find? c source name.1 name.2 = none) ∧
    ∀ (name name' : MethodName) a a', find? c source name.1 name.2 = some a →
      find? c source name'.1 name'.2 = some a' → name ≠ name' →
        a.method ≠ a'.method ∨ a.lambda ≠ a'.lambda := by
  refine ⟨fun method hmethod body hbody root hroot _ => ?_, fun _ _ => search_iff_find?, ?_, ?_⟩
  · exact ((htrees method hmethod body hbody).ends_of_isUnit hroot).tells_iff
  · intro name inner hpath hcycle
    refine Option.eq_none_iff_forall_ne_some.mpr fun a h => ?_
    exact not_transGen_self_of_acc (stems_of_find? h).acc hpath hcycle
  · intro name name' a a' h h' hne
    by_contra! hsame
    obtain rfl := eq_of_parts hsame.1 hsame.2
    exact hne ((stems_of_find? h).name_eq hmethods htrees (stems_of_find? h'))

def capturingMethod (name : String) (captured : List String) : Method where
  access := 0
  name
  desc := "()V"
  maxStack := 1
  maxLocals := 1
  instructions := .ofList (captured.map fun lambda =>
    .invokeDynamic "run" "()Ljava/lang/Runnable;" Sample.metafactory
      [.methodType "()V", .methodHandle ⟨6, Sample.className, lambda, "()V", false⟩,
        .methodType "()V"])
  handlers := []
  declaredLocals := []

/-- A lambda expression inside another one, and two lambda methods that capture each other. -/
def nestedClass : Class :=
  Sample.classOf [capturingMethod "run" ["lambda$run$1"],
    capturingMethod "lambda$run$1" ["lambda$run$0"], capturingMethod "lambda$run$0" [],
    capturingMethod "lambda$spin$0" ["lambda$spin$1"],
    capturingMethod "lambda$spin$1" ["lambda$spin$0"]]

/-- Two lambda expressions in a body whose expressions stand in front of their operands. -/
def nestedSource : SourceClass where
  name := Sample.className
  superName := some "java/lang/Object"
  fields := []
  methods := [Sample.writtenMethod 0 "run" "()V"
    [.expr (.cast 1 "Ljava/lang/Runnable;"), .expr (.lambda [] (.expr 2)),
      .expr (.lambda [] (.expr 3)), .expr (Sample.fooOn 4), .expr .this, .stmt (.expr 0)] [0]]
  span := .zero

/-- The outer lambda expression is that of the method with the higher number. -/
theorem find?_terminates_injectively_nested :
    find? nestedClass nestedSource "lambda$spin$0" "()V" = none ∧
      ∃ a a', find? nestedClass nestedSource "lambda$run$1" "()V" = some a ∧ a.lambda = 1 ∧
        find? nestedClass nestedSource "lambda$run$0" "()V" = some a' ∧ a'.lambda = 2 ∧
        (a.method ≠ a'.method ∨ a.lambda ≠ a'.lambda) := by
  have hmethods : (nestedClass.methods.map fun m => (m.name, m.desc)).Nodup := by decide
  have htrees : ∀ method ∈ nestedSource.methods, ∀ body, method.body = some body →
      body.IsTree := by
    decide +kernel
  obtain ⟨-, -, hcycle, hinjective⟩ := find?_terminates_injectively hmethods htrees
  have hstep (name outer : MethodName)
      (h : (capturing? nestedClass name.1 name.2).map (fun found => (found.1.name, found.1.desc)) =
        some outer) (hname : isLambdaName outer.1 = true) : Outward nestedClass name outer := by
    obtain ⟨⟨m, place⟩, hcapturing, rfl⟩ := Option.map_eq_some_iff.mp h
    exact ⟨m, place, hcapturing, hname, rfl⟩
  have hspin : Relation.TransGen (Outward nestedClass) ("lambda$spin$0", "()V")
      ("lambda$spin$0", "()V") :=
    .tail (.single (hstep _ ("lambda$spin$1", "()V") (by decide +kernel) (by decide +kernel)))
      (hstep _ _ (by decide +kernel) (by decide +kernel))
  have hfound (name : String) (e : ExprId)
      (h : (find? nestedClass nestedSource name "()V").map (·.lambda) = some e) :
      ∃ a, find? nestedClass nestedSource name "()V" = some a ∧ a.lambda = e :=
    Option.map_eq_some_iff.mp h
  obtain ⟨a, ha, hlambda⟩ := hfound "lambda$run$1" 1 (by decide +kernel)
  obtain ⟨a', ha', hlambda'⟩ := hfound "lambda$run$0" 2 (by decide +kernel)
  refine ⟨hcycle _ _ .refl hspin, a, a', ha, hlambda, ha', hlambda', ?_⟩
  exact hinjective ("lambda$run$1", "()V") ("lambda$run$0", "()V") a a' ha ha' (by decide)

end LambdaSource

end Injection.Source
