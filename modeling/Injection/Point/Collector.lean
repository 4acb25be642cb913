import Injection.Point.Element
import Injection.Point.Error

/-!
Collecting candidates. Each one is shifted, goes through the filters in order, and is kept if
none of them rejects it; a filter sees only what the filters in front of it let through.
-/

namespace Injection

/-- How much a walk is to find. -/
inductive Mode where
  | all
  /-- Only the first place that passes the filters. -/
  | first
  /-- All that could be asked for; nothing is shifted. -/
  | completion
deriving DecidableEq, Inhabited

namespace Mode

def name : Mode → String
  | all => "All"
  | first => "First"
  | completion => "Completion"

end Mode

/-- A test of candidates. A slice without bounds is one that could not be found; it rejects
everything. An ordinal counts what reached it. -/
inductive ResultFilter where
  | slice (bounds : Option (Nat × Nat))
  | ordinal (wanted seen : Nat)
deriving DecidableEq, Inhabited

namespace ResultFilter

def sieve : ResultFilter → Sieve
  | slice _ => .slice
  | ordinal .. => .ordinal

def accepts : ResultFilter → Match → Bool
  | slice bounds, m => bounds.any fun (low, high) => low ≤ m.offered && m.offered ≤ high
  | ordinal wanted seen, _ => seen = wanted

/-- The filter after it has seen a candidate. -/
def advance : ResultFilter → ResultFilter
  | slice bounds => slice bounds
  | ordinal wanted seen => ordinal wanted (seen + 1)

/-- Puts a candidate through filters. Answers which of them rejected it, if any did, and the
filters afterwards. -/
def run (m : Match) : List ResultFilter → Option Sieve × List ResultFilter
  | [] => (none, [])
  | f :: rest =>
    if f.accepts m then
      let (blamed, rest) := run m rest
      (blamed, f.advance :: rest)
    else (some f.sieve, f.advance :: rest)

end ResultFilter

structure Collector where
  method : Method
  mode : Mode
  shift : Int
  filters : List ResultFilter
  results : List Match
  /-- The number of candidates offered so far. -/
  candidates : Nat
  /-- The test that was the first to reject a candidate. -/
  blamed : Option Sieve
deriving Inhabited

namespace Collector

def new (method : Method) (mode : Mode) (shift : Int) (filters : List ResultFilter) : Collector :=
  ⟨method, mode, shift, filters, [], 0, none⟩

/-- Notes a rejection; only the first one counts. -/
def blame (c : Collector) (sieve : Sieve) : Collector :=
  { c with blamed := some (c.blamed.getD sieve) }

/-- The node that a candidate is shifted to. -/
def shifted? (c : Collector) (position : Nat) : Option Nat :=
  if c.mode = .completion then some position
  else c.method.instructions.offset? position c.shift

/-- Takes a candidate, and tells whether the walk is to stop. -/
def add (c : Collector) (candidate : Candidate) : Collector × Bool :=
  let counted := { c with candidates := c.candidates + 1 }
  match c.shifted? candidate.position with
  | none => (counted.blame .shift, false)
  | some position =>
    let m : Match :=
      ⟨c.candidates, candidate.position, position, candidate.element, candidate.qualifier,
        candidate.decorations⟩
    let (rejectedBy, filters) := ResultFilter.run m c.filters
    let passed := { counted with filters }
    match rejectedBy with
    | some sieve => (passed.blame sieve, false)
    | none => ({ passed with results := c.results ++ [m] }, c.mode = .first)

def trace (c : Collector) : String :=
  let names := c.filters.map fun f => "\"" ++ f.sieve.name ++ "\""
  let blamed := match c.blamed with
    | none => "None"
    | some sieve => "Some(\"" ++ sieve.name ++ "\")"
  "Collector \x7b method: " ++ c.method.name ++ c.method.desc ++ ", mode: " ++ c.mode.name ++
    ", shift: " ++ toString c.shift ++ ", filters: [" ++ ", ".intercalate names ++
    "], results: " ++ toString c.results.length ++ ", candidates: " ++ toString c.candidates ++
    ", blamed: " ++ blamed ++ " \x7d"

end Collector

/-- One stop of a walk: it may look at the token, may fail, and may offer a candidate. -/
abbrev Visit := Query ResolveError (Option Candidate)

namespace Collector

/-- Makes the stops of a walk one after the other until there is enough. -/
def walk (c : Collector) : List Visit → Query ResolveError Collector
  | [] => return c
  | visit :: rest => do
    match ← visit with
    | none => walk c rest
    | some candidate =>
      let (c, enough) := c.add candidate
      if enough then return c else walk c rest

end Collector

end Injection
