/-!
The two written forms of a class name. Internally the parts of a name are joined by `/`
(`java/util/Map$Entry`); in source text they are joined by `.` (`java.util.Map$Entry`).
A nested class keeps its `$` in both.
-/

namespace Injection.Name

/-- Writes the dotted form of an internal name. -/
def dotted (name : String) : String :=
  name.map fun c => if c = '/' then '.' else c

/-- Writes the internal form of a dotted name. -/
def internal (name : String) : String :=
  name.map fun c => if c = '.' then '/' else c

/-- Tells the two characters that join the parts of a name. -/
def isSeparator (c : Char) : Bool := c = '/' || c = '.'

/-- The part of a name after its last separator. -/
def simple (name : String) : String :=
  String.ofList (name.toList.reverse.takeWhile (!isSeparator ·)).reverse

def parts : List Char → List (List Char)
  | [] => [[]]
  | '/' :: rest => [] :: parts rest
  | c :: rest =>
    match parts rest with
    | part :: more => (c :: part) :: more
    | [] => [[c]]

end Injection.Name
