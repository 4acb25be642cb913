/-!
Modification stamps. A host counts the changes of what it publishes; a result is remembered
together with the count at which it was computed and is read only at that count.
-/

namespace Injection

/-- The number of changes so far; it wraps like the host's 64-bit counter. -/
abbrev Stamp := UInt64

/-- A value and the stamp it was computed under. -/
structure Stamped (α : Type u) where
  value : α
  stamp : Stamp
deriving Inhabited

namespace Stamped

variable {α : Type u}

/-- Tells whether the value was computed under `stamp`. -/
def isCurrent (s : Stamped α) (stamp : Stamp) : Bool := s.stamp = stamp

/-- The value, if it was computed under `stamp`. -/
def get? (s : Stamped α) (stamp : Stamp) : Option α :=
  if s.isCurrent stamp then some s.value else none

theorem get?_eq_some_iff (s : Stamped α) (stamp : Stamp) (a : α) :
    s.get? stamp = some a ↔ s.stamp = stamp ∧ s.value = a := by
  simp [get?, isCurrent]

end Stamped

end Injection
