import Injection.Config.LogDirective

/-!
Which log records are kept. A filter is a list of directives, separated by commas. It is shown with
its most specific directives first, those about fields and spans after the others.
-/

namespace Injection

/-- Adds a directive to a list that has the most specific ones first. It takes the place of one
about the same records. -/
def LogDirective.insert (d : LogDirective) : List LogDirective → List LogDirective
  | [] => [d]
  | e :: rest =>
    match d.compare e with
    | .gt => d :: e :: rest
    | .eq => d :: rest
    | .lt => e :: insert d rest

/-- Directives, the most specific first: those that hold for a record by itself, and those that
depend on its spans. -/
structure LogFilter where
  statics : List LogDirective
  dynamics : List LogDirective
deriving DecidableEq, Inhabited

namespace LogFilter

def ofDirectives (directives : List LogDirective) : LogFilter :=
  let (dynamics, rest) := directives.partition LogDirective.isDynamic
  let collect := fun l => List.foldl (fun set d => LogDirective.insert d set) [] l
  ⟨collect (rest ++ dynamics.filter LogDirective.isStatic), collect dynamics⟩

def parse? (text : String) : Option LogFilter :=
  (((text.splitOn ",").filter (!·.isEmpty)).mapM LogDirective.parse?).map ofDirectives

def text (f : LogFilter) : String :=
  ",".intercalate ((f.statics ++ f.dynamics).map LogDirective.text)

def warnings : LogFilter := ofDirectives [{ LogDirective.blank with level := .warn }]

/-- The directives that a configured level stands for: a level under any of its names, or
directives. -/
def directivesOf (level : String) : String :=
  let level := Blank.strip level
  let word := level.map Char.toLower
  if ["", "warn", "warning"].contains word then "warn"
  else if ["off", "none"].contains word then "off"
  else if ["trace", "debug", "info", "error"].contains word then word
  else level

/-- The filter for a configured level. A level that cannot be read keeps warnings. -/
def ofLevel (level : String) : LogFilter := (parse? (directivesOf level)).getD warnings

end LogFilter

end Injection
