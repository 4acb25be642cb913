import Injection.Binary.Reading
import Injection.Binary.Shortest
import Injection.Pattern.Reader
import Injection.Text.Numeral

/-!
Values that the field of a span has to have. A value is read as the first of these that it can be:
a truth value, an integer, a number, and a pattern for the text of the field.
-/

namespace Injection

inductive LogValue where
  | bool (value : Bool)
  /-- A number by its bits in the 64-bit format. -/
  | number (bits : Nat)
  /-- The value that is not a number. -/
  | notANumber
  | natural (n : Nat)
  | integer (i : Int)
  | pattern (text : String)
deriving DecidableEq, Inhabited

namespace LogValue

def ofBits (bits : Nat) : LogValue :=
  match BinaryFormat.double.decode bits with
  | .nan => notANumber
  | _ => number bits

/-- Reads a value. A text that is nothing else has to be a pattern. -/
def parse? (text : String) : Option LogValue :=
  if text = "true" then some (bool true)
  else if text = "false" then some (bool false)
  else
    (Numeral.toUnsigned? 64 text).map natural <|>
      (Numeral.toSigned? 64 text).map integer <|>
      (BinaryFormat.double.read? text).map ofBits <|>
      if Pattern.isWellFormed text then some (pattern text) else none

def text : LogValue → String
  | bool value => if value then "true" else "false"
  | number bits => BinaryFormat.double.text bits
  | notANumber => "NaN"
  | natural n => toString n
  | integer i => toString i
  | pattern text => text

/-- The place of each kind of value in the order. -/
def rank : LogValue → Nat
  | bool _ => 0
  | number _ => 1
  | notANumber => 2
  | natural _ => 3
  | integer _ => 4
  | pattern _ => 5

/-- Values are ordered by their kind, and then among themselves. -/
def compare : LogValue → LogValue → Ordering
  | bool a, bool b => Ord.compare a b
  | number a, number b =>
    Ord.compare (BinaryFormat.double.orderKey a) (BinaryFormat.double.orderKey b)
  | natural a, natural b => Ord.compare a b
  | integer a, integer b => Ord.compare a b
  | pattern a, pattern b => Ord.compare a b
  | a, b => Ord.compare a.rank b.rank

end LogValue

end Injection
