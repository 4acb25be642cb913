import Injection.Cancellation

/-!
Why an annotation does not resolve.
-/

namespace Injection

inductive Sieve where
  | shift
  | slice
  | ordinal
deriving DecidableEq, Inhabited

namespace Sieve

def name : Sieve → String
  | shift => "shift"
  | slice => "slice"
  | ordinal => "ordinal"

end Sieve

inductive ResolveError where
  | unknownPoint (code : String)
  | missingTarget (code : String)
  | invalidSelector (text : String)
  | invalidArgument (key value : String)
  /-- Nothing was found; if candidates were rejected, the test that rejected the first one. -/
  | noMatch (blamed : Option Sieve)
  | cancelled
deriving DecidableEq, Inhabited

namespace ResolveError

def message : ResolveError → String
  | unknownPoint code => "unknown injection point `" ++ code ++ "`"
  | missingTarget code => "injection point `" ++ code ++ "` requires a target"
  | invalidSelector text => "invalid target selector `" ++ text ++ "`"
  | invalidArgument key value => "invalid value `" ++ value ++ "` for `" ++ key ++ "`"
  | noMatch none => "no matching instruction"
  | noMatch (some sieve) =>
    "no matching instruction (all candidates rejected by the " ++ sieve.name ++ " filter)"
  | cancelled => Cancelled.message .cancelled

def ofCancelled (_ : Cancelled) : ResolveError := cancelled

end ResolveError

end Injection
