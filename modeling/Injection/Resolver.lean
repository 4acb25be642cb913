import Injection.ClassIndex
import Injection.Diagnostic
import Injection.Locals.Cache
import Injection.Source.Candidates

/-!
Resolving annotations: finding the instructions they mean, checking that there are any, showing
them in source, and offering what else they could mean.
-/

namespace Injection

open Source

/-- A method and the class that declares it. -/
structure Target where
  owner : Class
  method : Method

namespace Target

def find? (c : Class) (name : String) (desc : Option String) : Option Target :=
  (c.findMethod? name desc).map fun m => ⟨c, m⟩

def text (t : Target) : String := t.owner.name ++ "." ++ t.method.name ++ t.method.desc

/-- The source that the method was compiled from. -/
def sourceUnit? (t : Target) (source : SourceClass) : Option SourceUnit :=
  if isLambdaName t.method.name then
    (LambdaSource.find? t.owner source t.method.name t.method.desc).bind
      (SourceUnit.ofLambda? source)
  else (source.findMethod? t.method.name t.method.desc).bind (SourceUnit.ofMethod? source)

end Target

/-- What a walk found, and the test that rejected a candidate first. -/
structure Outcome where
  results : List Match
  blamed : Option Sieve
deriving DecidableEq, Inhabited

/-- The points known, the classes, and the settings. -/
structure Resolver where
  registry : Registry
  index : ClassIndex
  options : ResolverOptions

namespace Resolver

/-- The code of the problem reported for an annotation that does not resolve. -/
def unresolvedCode : String := "AT_UNRESOLVED"

def lookup (r : Resolver) (c : Criteria) : Except ResolveError InjectionPoint :=
  match r.registry.lookup? c.value with
  | some point => .ok point
  | none => .error (.unknownPoint c.value)

/-- The selector that a point is asked with. Completion accepts every member. -/
def selector (point : InjectionPoint) (c : Criteria) (mode : Mode) :
    Except ResolveError (Option Selector) :=
  if mode = .completion || !point.usesSelector then .ok none
  else
    match c.target with
    | none => if point.requiresTarget then .error (.missingTarget c.value) else .ok none
    | some text =>
      match Selector.parse? text with
      | some s => .ok (some s)
      | none => .error (.invalidSelector text)

/-- What completion keeps of an annotation, besides its slice: the kind and the opcode. -/
def completionCriteria (c : Criteria) : Criteria :=
  { Criteria.ofValue c.value with opcode := c.opcode, span := c.span }

/-- The analysis of a method, remembered or fresh. -/
def analysis (r : Resolver) (t : Target) : Request Cancelled MethodAnalysis :=
  AnalysisCache.analysis t.owner.name t.method r.index.hierarchy r.index.stamp

/-- What is known of the variables of a method. None are made up where its types do not settle. -/
def localsContext (r : Resolver) (t : Target) : Request Cancelled LocalsContext := fun s =>
  let context := fun generated? => LocalsContext.new t.owner.name t.method generated? r.options.locals
  match (r.analysis t).run.run s with
  | (.ok a, s) => (.ok (context a.generated?), s)
  | (.error .unsettled, s) => (.ok (context none), s)
  | (.error .cancelled, s) => (.error .cancelled, s)

/-- The walk for an annotation, given the filter of its slice. -/
def runWith (r : Resolver) (t : Target) (c : Criteria) (mode : Mode)
    (sliceFilter : Request ResolveError (List ResultFilter)) : Request ResolveError Outcome := do
  Request.ofQuery (Query.checkpoint .cancelled)
  let point ← Request.ofExcept (r.lookup c)
  let c := if mode = .completion then completionCriteria c else c
  let selector ← Request.ofExcept (selector point c mode)
  let locals ← if point.needsLocals then
      some <$> (r.localsContext t).mapError .ofCancelled
    else pure none
  let slice ← sliceFilter
  let ordinal := c.ordinal?.toList.map fun n => ResultFilter.ordinal n 0
  let ctx : PointContext := ⟨t.owner.name, t.method, c, selector, locals, r.options⟩
  let collector := Collector.new t.method mode c.shift.offset (slice ++ ordinal)
  let collector ← Request.ofQuery (point.find ctx collector)
  return ⟨collector.results, collector.blamed⟩

mutual

def run (r : Resolver) (t : Target) : AtSpec → Mode → Request ResolveError Outcome
  | .mk c slice, mode => r.runWith t c mode (sliceFilter r t slice)

/-- The filter of a slice, if there is one. If an end cannot be found, it rejects everything. -/
def sliceFilter (r : Resolver) (t : Target) :
    Option (Slice AtSpec) → Request ResolveError (List ResultFilter)
  | none => return []
  | some ⟨_, lower, upper⟩ => do
    let low ← bound r t t.method.instructions.first? List.min? lower
    let high ← bound r t t.method.instructions.last? List.max? upper
    return [.slice (low.bind fun low => high.map fun high => (low, high))]

/-- An end of a slice: of all the places that its annotation means, the one picked. -/
def bound (r : Resolver) (t : Target) (unbounded : Option Nat)
    (pick : List Nat → Option Nat) : Option AtSpec → Request ResolveError (Option Nat)
  | none => return unbounded
  | some a => do
    let outcome ← run r t a .all
    return pick (outcome.results.map (·.position))

end

/-- The instructions that an annotation means. It is an error if there are none, except in
completion. -/
def resolve (r : Resolver) (a : AtSpec) (t : Target) (mode : Mode) :
    Request ResolveError (List Match) := do
  let outcome ← r.run t a mode
  if outcome.results.isEmpty && mode ≠ .completion then throw (.noMatch outcome.blamed)
  return outcome.results

/-- The problem of an annotation that does not resolve. -/
def problem (a : AtSpec) (t : Target) (e : ResolveError) : Diagnostic where
  severity := .error
  code := unresolvedCode
  message := "cannot resolve @At(\"" ++ a.criteria.value ++ "\") in " ++ t.text ++ ": " ++ e.message
  span := a.criteria.span

/-- Resolves, and turns an error into the problem to report. -/
def checkResolved (r : Resolver) (a : AtSpec) (t : Target) :
    Request Cancelled (Option Diagnostic) := fun s =>
  match (r.resolve a t .first).run.run s with
  | (.ok _, s) => (.ok none, s)
  | (.error .cancelled, s) => (.error .cancelled, s)
  | (.error e, s) => (.ok (some (problem a t e)), s)

/-- Checks that an annotation means something. Unknown points are taken to be in order, and so are
points on local variables where these cannot be told. -/
def check (r : Resolver) (a : AtSpec) (t : Target) : Request Cancelled (Option Diagnostic) := do
  match r.registry.lookup? a.criteria.value with
  | none => return none
  | some point =>
    let untold ← if point.needsLocals then
        (fun c : LocalsContext => c.table.isEmpty) <$> r.localsContext t
      else pure false
    if untold then return none else r.checkResolved a t

/-- The first of all items with the same key, leaving out those with a key in `seen`. -/
def firsts {α κ : Type} [DecidableEq κ] (key : α → κ) (seen : List κ) : List α → List α
  | [] => []
  | a :: rest =>
    if key a ∈ seen then firsts key seen rest else a :: firsts key (key a :: seen) rest

/-- Where source shows what an annotation means. What it does not show is left out. -/
def navigateIn (r : Resolver) (a : AtSpec) (t : Target) (source : SourceClass) :
    Request ResolveError (List SourceMatch) := do
  let results ← r.resolve a t .all
  match t.sourceUnit? source with
  | none => return []
  | some u =>
    let point ← Request.ofExcept (r.lookup a.criteria)
    let selector ← Request.ofExcept (selector point a.criteria .all)
    let shown ← Request.ofExcept (u.candidates point a.criteria selector)
    let found := results.filterMap fun m => (shown.getD [])[m.index]?
    return firsts (·.index) [] found

/-- Where the source of the class shows what an annotation means. -/
def navigate (r : Resolver) (a : AtSpec) (t : Target) : Request ResolveError (List SourceMatch) :=
  match r.index.source? t.owner.name with
  | some source => r.navigateIn a t source
  | none => return []

/-- The item for a candidate: the text that selects it and the instruction it stands at. -/
def completionItem? (t : Target) (m : Match) : Option CompletionItem :=
  m.element.label?.map fun label =>
    ⟨label, some (((t.method.instructions.get? m.position).map (·.text)).getD "")⟩

/-- All that an annotation of the kind could select, each once. -/
def completions (r : Resolver) (a : AtSpec) (t : Target) :
    Request ResolveError (List CompletionItem) := do
  let results ← r.resolve a t .completion
  return firsts (·.label) [] (results.filterMap (completionItem? t))

/-- All that an annotation of the kind could select, as far as source shows it. -/
def sourceCompletions (r : Resolver) (a : AtSpec) (source : SourceClass) (m : SourceMethod) :
    Except ResolveError (List CompletionItem) := do
  let point ← r.lookup a.criteria
  match SourceUnit.ofMethod? source m with
  | none => return []
  | some u =>
    let shown ← u.candidates point (completionCriteria a.criteria) none
    let labels := (shown.getD []).filterMap (·.label)
    return (firsts id [] labels).map fun label => ⟨label, none⟩

def localsAt (r : Resolver) (t : Target) (position : Nat) : Request LocalsError LocalTable := do
  let c ← (r.localsContext t).mapError fun _ => LocalsError.cancelled
  Request.ofQuery (c.localsAt position)

end Resolver

end Injection
