import Injection.Binary.Reading
import Injection.Point.Context
import Injection.Text.Numeral

/-!
Constants that code loads, and the comparisons with zero for which it loads none.
-/

namespace Injection

inductive ZeroCondition where
  | less
  | lessEqual
  | greaterEqual
  | greater
deriving DecidableEq, Inhabited

namespace ZeroCondition

def ofName? : String → Option ZeroCondition
  | "LESS_THAN_ZERO" => some less
  | "LESS_THAN_OR_EQUAL_TO_ZERO" => some lessEqual
  | "GREATER_THAN_OR_EQUAL_TO_ZERO" => some greaterEqual
  | "GREATER_THAN_ZERO" => some greater
  | _ => none

/-- The jumps a comparison may be compiled to: its own and that of its opposite. -/
def opcodes : ZeroCondition → List Opcode
  | less | greaterEqual => [.iflt, .ifge]
  | lessEqual | greater => [.ifle, .ifgt]

end ZeroCondition

/-- The constants that are wanted: one or all, and the comparisons that count as zero. -/
structure ConstantQuery where
  value : Option ConstantValue
  expand : List ZeroCondition
deriving DecidableEq, Inhabited

namespace ConstantQuery

def valueKeys : List String :=
  ["nullValue", "intValue", "floatValue", "longValue", "doubleValue", "stringValue", "classValue"]

/-- A text without the letters of a type at its end. -/
def trimSuffix (letters : List Char) (text : String) : String :=
  String.ofList (text.toList.reverse.dropWhile letters.contains).reverse

def readValue? (key text : String) : Option ConstantValue :=
  match key with
  | "nullValue" => if text = "true" then some .null else none
  | "intValue" => (Numeral.toSigned? 32 text).map fun i => .int (Int32.ofInt i)
  | "floatValue" =>
    (BinaryFormat.single.read? (trimSuffix ['f', 'F'] text)).map fun n => .float (UInt32.ofNat n)
  | "longValue" =>
    (Numeral.toSigned? 64 (trimSuffix ['l', 'L'] text)).map fun i => .long (Int64.ofInt i)
  | "doubleValue" =>
    (BinaryFormat.double.read? (trimSuffix ['d', 'D'] text)).map fun n => .double (UInt64.ofNat n)
  | "stringValue" => some (.string text)
  | "classValue" => if text = "" then none else some (.classOf (Name.internal text))
  | _ => none

def commaParts : List Char → List (List Char)
  | [] => [[]]
  | c :: rest =>
    if c = ',' then [] :: commaParts rest
    else
      match commaParts rest with
      | part :: more => (c :: part) :: more
      | [] => [[c]]

def readConditions (text : String) : Except ResolveError (List ZeroCondition) :=
  let names := (commaParts text.toList).map fun part => Blank.strip (String.ofList part)
  (names.filter (· ≠ "")).mapM fun name =>
    match ZeroCondition.ofName? name with
    | some condition => .ok condition
    | none => .error (.invalidArgument "expandZeroConditions" name)

/-- The constants that are given, with their settings. -/
def given (c : Criteria) : List (String × String) :=
  valueKeys.filterMap fun key => (c.arg? key).map fun text => (key, text)

/-- Reads the one constant that may be given. -/
def parseValue (c : Criteria) : Except ResolveError (Option ConstantValue) :=
  match given c with
  | [] => .ok none
  | [(key, text)] =>
    match readValue? key text with
    | some value => .ok (some value)
    | none => .error (.invalidArgument key text)
  | _ :: (key, text) :: _ => .error (.invalidArgument key text)

/-- Comparisons can only be asked for together with the integer zero. -/
def parse (c : Criteria) : Except ResolveError ConstantQuery := do
  let value ← parseValue c
  match c.arg? "expandZeroConditions" with
  | none => return ⟨value, []⟩
  | some text =>
    if value = some (.int 0) then return ⟨value, ← readConditions text⟩
    else throw (.invalidArgument "expandZeroConditions" text)

def accepts (q : ConstantQuery) (value : ConstantValue) : Bool := q.value.all (· = value)

def expands (q : ConstantQuery) (op : Opcode) : Bool := q.expand.any (·.opcodes.contains op)

end ConstantQuery

namespace Instruction

def loadedConstant? : Instruction → Option ConstantValue
  | .plain .aconstNull => some .null
  | .plain .iconstM1 => some (.int (-1))
  | .plain .iconst0 => some (.int 0)
  | .plain .iconst1 => some (.int 1)
  | .plain .iconst2 => some (.int 2)
  | .plain .iconst3 => some (.int 3)
  | .plain .iconst4 => some (.int 4)
  | .plain .iconst5 => some (.int 5)
  | .plain .lconst0 => some (.long 0)
  | .plain .lconst1 => some (.long 1)
  | .plain .fconst0 => some (.float 0)
  | .plain .fconst1 => some (.float 0x3f800000)
  | .plain .fconst2 => some (.float 0x40000000)
  | .plain .dconst0 => some (.double 0)
  | .plain .dconst1 => some (.double 0x3ff0000000000000)
  | .int .bipush n | .int .sipush n => some (.int n)
  | .ldc (.int n) => some (.int n)
  | .ldc (.float bits) => some (.float bits)
  | .ldc (.long n) => some (.long n)
  | .ldc (.double bits) => some (.double bits)
  | .ldc (.string text) => some (.string text)
  | .ldc (.classRef name) => some (.classOf name)
  | _ => none

end Instruction

namespace ConstantQuery

def found? (q : ConstantQuery) (i : Instruction) : Option ConstantValue :=
  match i.loadedConstant? with
  | some value => if q.accepts value then some value else none
  | none => if i.opcode?.any q.expands then some (.int 0) else none

end ConstantQuery

namespace PointContext

def constantVisits (ctx : PointContext) : Except ResolveError (List Visit) := do
  let query ← ConstantQuery.parse ctx.criteria
  return visits ctx.positioned fun i position =>
    pure ((query.found? i).map fun value => ⟨position, .constant value, none, []⟩)

end PointContext

end Injection
