import Injection.Json.Basic

/-!
Stretches of source text, counted in bytes.
-/

namespace Injection

/-- A half-open stretch of source text. A span whose end is not after its start is empty. -/
structure Span where
  start : Nat
  stop : Nat
deriving DecidableEq, Hashable, Inhabited

namespace Span

/-- The span of a thing with no place in the text. -/
def zero : Span := ⟨0, 0⟩

def length (s : Span) : Nat := s.stop - s.start

def isEmpty (s : Span) : Bool := s.stop ≤ s.start

def endPoint (s : Span) : Span := ⟨s.stop, s.stop⟩

def trace (s : Span) : String :=
  "Span(" ++ toString s.start ++ ".." ++ toString s.stop ++ ")"

def toJson (s : Span) : Json := .object [("start", .int s.start), ("end", .int s.stop)]

end Span

end Injection
