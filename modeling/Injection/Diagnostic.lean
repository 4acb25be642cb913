import Injection.Span

/-!
What the host is told about a source file: problems, and items offered for completion.
-/

namespace Injection

inductive Severity where
  | error
  | warning
  | info
deriving DecidableEq, Inhabited

namespace Severity

def name : Severity → String
  | error => "error"
  | warning => "warning"
  | info => "info"

end Severity

/-- A problem at a place of the source, with a code the host can filter by. -/
structure Diagnostic where
  severity : Severity
  code : String
  message : String
  span : Option Span
deriving DecidableEq, Inhabited

namespace Diagnostic

def toJson (d : Diagnostic) : Json :=
  .object [
    ("severity", .string d.severity.name),
    ("code", .string d.code),
    ("message", .string d.message),
    ("span", Json.option Span.toJson d.span)]

end Diagnostic

/-- A completion: the text to type and, if there is more to say, a detail beside it. -/
structure CompletionItem where
  label : String
  detail : Option String
deriving DecidableEq, Inhabited

end Injection
