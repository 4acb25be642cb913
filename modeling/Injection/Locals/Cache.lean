import Injection.Locals.Variable
import Injection.Stamp

/-!
Remembered analyses, one for each method, each with the stamp it was made under.

`lookup?`, `insert` and `clear` are the operations on the cache; a request looks its method up,
computes the analysis if it is not there, and enters it. A request without an answer enters nothing.
-/

namespace Injection

/-- A method of a class, by name and descriptor. -/
structure MethodKey where
  owner : String
  name : String
  desc : String
deriving DecidableEq, Hashable, Inhabited

namespace MethodKey

def of (owner : String) (m : Method) : MethodKey := ⟨owner, m.name, m.desc⟩

end MethodKey

/-- What an analysis found: the frames and the variables made up from them, or nothing when the
method has no types. The serial number tells analyses apart. -/
structure MethodAnalysis where
  serial : Nat
  found : Option (Frames × List LocalVariable)
deriving DecidableEq, Inhabited

namespace MethodAnalysis

def frames? (a : MethodAnalysis) : Option Frames := a.found.map (·.1)

def generated? (a : MethodAnalysis) : Option (List LocalVariable) := a.found.map (·.2)

/-- What the outcome of an analysis comes to. A failure of the method itself counts as finding
nothing. -/
def conclude (m : Method) :
    Except AnalyzeError Frames → Except Cancelled (Option (Frames × List LocalVariable))
  | .ok frames => .ok (some (frames, LocalVariable.generated m frames))
  | .error .cancelled => .error .cancelled
  | .error .unsettled => .error .unsettled
  | .error _ => .ok none

/-- What a fresh analysis of a method finds. -/
def compute (owner : String) (m : Method) (h : Hierarchy) :
    Query Cancelled (Option (Frames × List LocalVariable)) := fun w =>
  let (r, w) := (Analysis.analyze owner m h).run.run w
  (conclude m r, w)

end MethodAnalysis

/-- The remembered analyses, at most one for each method, and the number of those made so far. -/
structure AnalysisCache where
  entries : List (MethodKey × Stamped MethodAnalysis)
  made : Nat
deriving Inhabited

namespace AnalysisCache

def empty : AnalysisCache := ⟨[], 0⟩

def size (c : AnalysisCache) : Nat := c.entries.length

def isEmpty (c : AnalysisCache) : Bool := c.entries.isEmpty

/-- The analysis remembered for a method under a stamp. -/
def lookup? (c : AnalysisCache) (key : MethodKey) (stamp : Stamp) : Option MethodAnalysis :=
  (List.lookup key c.entries).bind (·.get? stamp)

/-- Enters an analysis in the place of the one before it. -/
def insert (c : AnalysisCache) (key : MethodKey) (entry : Stamped MethodAnalysis) :
    AnalysisCache :=
  { c with entries := (key, entry) :: c.entries.filter (·.1 ≠ key) }

/-- Forgets all analyses. -/
def clear (c : AnalysisCache) : AnalysisCache := { c with entries := [] }

end AnalysisCache

/-- The remembered analyses and the token of the current request. -/
structure Session where
  cache : AnalysisCache
  watch : Watch
deriving Inhabited

/-- A computation that uses the cache, looks at the token, and may fail. -/
abbrev Request (ε α : Type) := ExceptT ε (StateM Session) α

namespace Request

variable {ε ε' α : Type}

/-- A computation that does not use the cache. -/
def ofQuery (q : Query ε α) : Request ε α := fun s =>
  let (r, watch) := q.run.run s.watch
  (r, { s with watch })

def ofExcept (r : Except ε α) : Request ε α := fun s => (r, s)

def mapError (f : ε → ε') (r : Request ε α) : Request ε' α := fun s =>
  let (r, s) := r.run.run s
  (r.mapError f, s)

end Request

namespace AnalysisCache

/-- The analysis of a method under a stamp, remembered or fresh. -/
def analysis (owner : String) (m : Method) (h : Hierarchy) (stamp : Stamp) :
    Request Cancelled MethodAnalysis := do
  let key := MethodKey.of owner m
  match (← get).cache.lookup? key stamp with
  | some a => return a
  | none =>
    let found ← Request.ofQuery (MethodAnalysis.compute owner m h)
    modifyGet fun s =>
      let a : MethodAnalysis := ⟨s.cache.made, found⟩
      let cache := { s.cache with made := s.cache.made + 1 }
      (a, { s with cache := cache.insert key ⟨a, stamp⟩ })

end AnalysisCache

end Injection
