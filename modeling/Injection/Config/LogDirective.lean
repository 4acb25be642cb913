import Injection.Config.LogValue
import Injection.Text.Blank
import Injection.Text.Letter

/-!
One directive of a log filter: a level, and the records that it holds for. These are all records,
those of a target, or those made in spans of a name or with a field:

    warn
    resolve=debug
    flow[analyze{kind=1}]=trace
-/

namespace Injection

/-- How much is kept: all records up to a level. -/
inductive LogLevel where
  | off
  | error
  | warn
  | info
  | debug
  | trace
deriving DecidableEq, Inhabited

namespace LogLevel

def all : List LogLevel := [off, error, warn, info, debug, trace]

def text : LogLevel → String
  | off => "off"
  | error => "error"
  | warn => "warn"
  | info => "info"
  | debug => "debug"
  | trace => "trace"

/-- Reads a level: its name in any case, or its number. -/
def parse? (text : String) : Option LogLevel :=
  match Numeral.toUnsigned? 64 text with
  | some n => all[n]?
  | none => all.find? fun l => l.text = text.map Char.toLower

end LogLevel

/-- A field of a span, and the value it has to have. -/
structure LogField where
  name : String
  value : Option LogValue
deriving DecidableEq, Inhabited

namespace LogField

/-- Reads `name` or `name=value`. What follows a second equals sign does not count. -/
def parse? (text : String) : Option LogField :=
  match text.splitOn "=" with
  | name :: value :: _ => (LogValue.parse? value).map fun value => ⟨name, some value⟩
  | _ => some ⟨text, none⟩

def text (f : LogField) : String :=
  match f.value with
  | some v => f.name ++ "=" ++ v.text
  | none => f.name

/-- Compares two values that are both there or both missing. -/
def compareValues : Option LogValue → Option LogValue → Ordering
  | some a, some b => a.compare b
  | _, _ => .eq

def compare (a b : LogField) : Ordering :=
  (Ord.compare a.value.isSome b.value.isSome).then
    ((Ord.compare a.name b.name).then (compareValues a.value b.value))

end LogField

structure LogDirective where
  target : Option String
  span : Option String
  fields : List LogField
  level : LogLevel
deriving DecidableEq, Inhabited

namespace LogDirective

def blank : LogDirective := ⟨none, none, [], .trace⟩

/-- The part of a directive before its level. -/
def scope (d : LogDirective) : String :=
  let inside := if d.fields.isEmpty then "" else
    "\x7b" ++ ",".intercalate (d.fields.map LogField.text) ++ "\x7d"
  d.target.getD "" ++
    if d.span.isNone && d.fields.isEmpty then "" else "[" ++ d.span.getD "" ++ inside ++ "]"

def text (d : LogDirective) : String :=
  if d.target.isNone && d.span.isNone && d.fields.isEmpty then d.level.text
  else d.scope ++ "=" ++ d.level.text

/-- Compares how specific two directives are: by the length of the target, by a span, by the
number of fields, and then by their texts. -/
def compare (a b : LogDirective) : Ordering :=
  (Ord.compare (a.target.map String.utf8ByteSize) (b.target.map String.utf8ByteSize)).then
    ((Ord.compare a.span.isSome b.span.isSome).then
      ((Ord.compare a.fields.length b.fields.length).then
        ((Ord.compare a.target b.target).then
          ((Ord.compare a.span b.span).then (List.compareLex LogField.compare a.fields b.fields)))))

/-- Tells a directive that cannot be decided without the spans of a record. -/
def isDynamic (d : LogDirective) : Bool := d.span.isSome || !d.fields.isEmpty

/-- Tells a directive that needs no more than the names of the fields. -/
def isStatic (d : LogDirective) : Bool := d.span.isNone && d.fields.all (·.value.isNone)

/-! ### Reading

The blanks around a directive do not count for where its parts begin and end. These places are
counted from the first character that is no blank, but the parts are cut out of the text as it is
written: before a directive that is more than one word there should be no blank. -/

/-- The bytes of a text from one place to another, if they are whole characters. -/
def cut (text : String) (first stop : Nat) : Option String :=
  String.fromUTF8? (text.toUTF8.extract first stop)

/-- Where the reader of a directive is. A part that is not yet at its end is given by the place
where it begins. -/
inductive Place where
  | start
  /-- In a level, or in a target. -/
  | word (first : Nat)
  /-- In the name of a span. -/
  | span (first : Nat)
  | field (first : Nat)
  /-- After the field. -/
  | fields
  /-- After the bracket that closes a span. -/
  | scope
  | level (first : Nat)
deriving DecidableEq

/-- Tells a character that a level or a target may start with. -/
def startsWord (c : Char) : Bool :=
  Letter.isLetterOrDigit c || c = '-' || c = ':' || c = '_'

/-- Reads on past the character `c` at the place `i`. -/
def step (text : String) (d : LogDirective) (place : Place) (i : Nat) (c : Char) :
    Option (LogDirective × Place) :=
  match place with
  | .start =>
    if c = '[' then some (d, .span (i + 1))
    else if startsWord c then some (d, .word i)
    else none
  | .word first =>
    if c = '=' then
      (cut text first i).map fun name => ({ d with target := some name }, .level (i + 1))
    else if c = '[' then
      (cut text first i).map fun name => ({ d with target := some name }, .span (i + 1))
    else some (d, place)
  | .span first =>
    if c = ']' then (cut text first i).map fun name => ({ d with span := some name }, .scope)
    else if c = '\x7b' then
      (cut text first i).map fun name =>
        ({ d with span := if name.isEmpty then none else some name }, .field (i + 1))
    else some (d, place)
  | .field first =>
    if c = '\x7d' then do
      let text ← cut text first i
      guard !text.isEmpty
      return ({ d with fields := [← LogField.parse? text] }, .fields)
    else some (d, place)
  | .fields => if c = ']' then some (d, .scope) else none
  | .scope => if c = '=' then some (d, .level (i + 1)) else none
  | .level _ => some (d, place)

/-- The directive that is read when the text ends. A word that is no level is a target, and a
level that is left out keeps everything. -/
def finish (text : String) (d : LogDirective) : Place → Option LogDirective
  | .word first => do
    let word ← cut text first text.utf8ByteSize
    match LogLevel.parse? word with
    | some level => return { d with level }
    | none => return { d with target := some word }
  | .level first => do
    let word ← cut text first text.utf8ByteSize
    if word.isEmpty then return { d with level := .trace }
    return { d with level := ← LogLevel.parse? word }
  | .scope => some d
  | _ => none

def read (text : String) (d : LogDirective) (place : Place) (i : Nat) :
    List Char → Option LogDirective
  | [] => finish text d place
  | c :: cs => (step text d place i c).bind fun (d, place) => read text d place (i + c.utf8Size) cs

def parse? (text : String) : Option LogDirective :=
  read text blank .start 0 (Blank.strip text).toList

end LogDirective

end Injection
