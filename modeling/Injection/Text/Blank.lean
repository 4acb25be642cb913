import Injection.Text.CodeSet

/-!
White space: the characters with the property White_Space of Unicode.
-/

namespace Injection.Blank

def codes : CodeSet :=
  ⟨#[9, 14, 32, 33, 133, 134, 160, 161, 5760, 5761, 8192, 8203, 8232, 8234, 8239, 8240, 8287, 8288,
   12288, 12289]⟩

/-- Tells white space in the sense of Unicode. -/
def isBlank (c : Char) : Bool := codes.contains c

/-- A text without the white space at either end. -/
def strip (text : String) : String :=
  let cs := text.toList.dropWhile isBlank
  String.ofList (cs.reverse.dropWhile isBlank).reverse

end Injection.Blank
