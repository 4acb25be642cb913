import Injection.Text.Numeral

/-!
The arguments of the command line: a command, the class file it is about, and options. An option
is written `--name value` or `--name=value`; after a lone `--` only class files stand. Values that
start with a hyphen have to be joined to their option, unless the option takes signed numbers.
-/

namespace Injection.CommandLine

/-- What the value of an option has to be. -/
inductive ValueKind where
  | text
  /-- A text that is not empty. -/
  | path
  /-- An integer of 32 bits. -/
  | integer
  /-- A natural of 64 bits. -/
  | index
deriving DecidableEq

def ValueKind.accepts : ValueKind → String → Bool
  | text, _ => true
  | path, value => !value.isEmpty
  | integer, value => (Numeral.toSigned? 32 value).isSome
  | index, value => (Numeral.toUnsigned? 64 value).isSome

/-- What stands after the name of an option, and how often the option may be given. -/
inductive OptionKind where
  | flag
  | once (kind : ValueKind)
  /-- A value that may start with a hyphen. -/
  | signed (kind : ValueKind)
  | many (kind : ValueKind)
deriving DecidableEq

namespace OptionKind

/-- Tells the values that an option of this kind can have; a flag has none to choose. -/
def accepts : OptionKind → String → Bool
  | flag, _ => true
  | once kind, value => kind.accepts value
  | signed kind, value => kind.accepts value
  | many kind, value => kind.accepts value

def isRepeatable : OptionKind → Bool
  | many _ => true
  | _ => false

def isSigned : OptionKind → Bool
  | signed _ => true
  | _ => false

end OptionKind

abbrev OptionTable := List (String × OptionKind)

/-- A part of the arguments. A flag is an option with an empty value. -/
inductive Word where
  | positional (text : String)
  | option (name value : String)
  | help
deriving DecidableEq

inductive Shape where
  | word (w : Word)
  /-- An option whose value is the next argument. -/
  | awaiting (name : String) (kind : OptionKind)
  /-- The mark after which there are no more options. -/
  | stop
  | unknown

/-- Tells an argument that is not taken for an option: it does not start with a hyphen, or it is
no more than one. -/
def isPlain (arg : String) : Bool := arg = "-" || arg.toList.head? ≠ some '-'

/-- The shape of a long option, given the text after its two hyphens. -/
def longShape (table : OptionTable) (text : List Char) : Shape :=
  let name := String.ofList (text.takeWhile (· ≠ '='))
  match text.dropWhile (· ≠ '='), List.lookup name table with
  | [], some .flag => .word (.option name "")
  | [], some kind => .awaiting name kind
  | [], none => if name = "help" then .word .help else .unknown
  | _, some .flag => .unknown
  | _ :: value, some _ => .word (.option name (String.ofList value))
  | _, none => .unknown

def shape (table : OptionTable) (arg : String) : Shape :=
  if isPlain arg then .word (.positional arg)
  else
    match arg.toList with
    | ['-', '-'] => .stop
    | '-' :: '-' :: text => longShape table text
    | '-' :: 'h' :: _ => .word .help
    | _ => .unknown

/-- Takes arguments apart. Help ends them. -/
def scan (table : OptionTable) : List String → Option (List Word)
  | [] => some []
  | arg :: rest =>
    match shape table arg with
    | .word .help => some [.help]
    | .word w => (scan table rest).map (w :: ·)
    | .stop => some (rest.map .positional)
    | .unknown => none
    | .awaiting name kind =>
      match rest with
      | [] => none
      | value :: rest =>
        if kind.isSigned || isPlain value then (scan table rest).map (.option name value :: ·)
        else none

def paths (words : List Word) : List String :=
  words.filterMap fun
    | .positional text => some text
    | _ => none

/-- The values given to an option, in order. -/
def valuesOf (name : String) (words : List Word) : List String :=
  words.filterMap fun
    | .option n value => if n = name then some value else none
    | _ => none

/-- Tells arguments without a contradiction in them: there is one class file at the most, no
option is given more often than it may be, and every value can be that of its option. Something may
still be missing. -/
def areInOrder (table : OptionTable) (words : List Word) : Bool :=
  (paths words).length ≤ 1 && (paths words).all ValueKind.path.accepts &&
    table.all fun (name, kind) =>
      (kind.isRepeatable || (valuesOf name words).length ≤ 1) &&
        (valuesOf name words).all kind.accepts

/-- The value of an option that is given at most once. -/
def valueOf? (name : String) (words : List Word) : Option String := (valuesOf name words).head?

def hasFlag (name : String) (words : List Word) : Bool := (valueOf? name words).isSome

/-- The class file, and where and how to look at it. -/
structure ClassArgs where
  path : String
  /-- The directories in which other classes are looked for, in order. -/
  classpath : List String
  config : Option String
  json : Bool
deriving DecidableEq

/-- An annotation, given by options, by its record, or by options in place of some of the
fields. -/
structure AtArgs where
  value : Option String
  target : Option String
  ordinal : Option Int
  opcode : Option String
  shift : Option String
  args : List String
  localName : Option String
  spec : Option String
deriving DecidableEq

/-- What is wanted. Methods are given as `name` or `name(desc)`. -/
inductive Command where
  | dump (method : Option String)
  | frames (method : String)
  | locals (method : String) (index : Option Nat)
  | resolve (method : String) (at_ : AtArgs) (first : Bool)
  | check (method : String) (at_ : AtArgs)
  | complete (method : String) (at_ : AtArgs)
deriving DecidableEq

inductive Action where
  | run (subject : ClassArgs) (command : Command)
  | help
  | version
deriving DecidableEq

def classOptions : OptionTable :=
  [("classpath", .many .path), ("config", .once .path), ("json", .flag),
    ("method", .once .text)]

def atOptions : OptionTable :=
  classOptions ++
    [("at", .once .text), ("target", .once .text), ("ordinal", .signed .integer),
      ("opcode", .once .text), ("shift", .signed .text), ("arg", .many .text),
      ("local", .once .text), ("spec", .once .text)]

def commands : List (String × OptionTable) :=
  [("dump", classOptions),
    ("frames", classOptions),
    ("locals", classOptions ++ [("insn", .once .index)]),
    ("resolve", atOptions ++ [("first", .flag)]),
    ("check", atOptions),
    ("complete", atOptions)]

/-- The class file, which has to be given. -/
def classArgs? (words : List Word) : Option ClassArgs :=
  (paths words).head?.map fun path =>
    ⟨path, valuesOf "classpath" words, valueOf? "config" words, hasFlag "json" words⟩

/-- The annotation. Without a record, its kind has to be given. -/
def atArgs? (words : List Word) : Option AtArgs :=
  let value := valueOf? "at" words
  let spec := valueOf? "spec" words
  if value.isNone && spec.isNone then none
  else
    some {
      value, spec
      target := valueOf? "target" words
      ordinal := (valueOf? "ordinal" words).bind (Numeral.toSigned? 32)
      opcode := valueOf? "opcode" words
      shift := valueOf? "shift" words
      args := valuesOf "arg" words
      localName := valueOf? "local" words }

/-- The command. All but one are about a method, which has to be given. -/
def command? (name : String) (words : List Word) : Option Command := do
  let method := valueOf? "method" words
  if name = "dump" then return .dump method
  let method ← method
  match name with
  | "frames" => return .frames method
  | "locals" =>
    return .locals method ((valueOf? "insn" words).bind (Numeral.toUnsigned? 64))
  | "resolve" => return .resolve method (← atArgs? words) (hasFlag "first" words)
  | "check" => return .check method (← atArgs? words)
  | "complete" => return .complete method (← atArgs? words)
  | _ => none

/-- Tells the arguments that may follow the word for help: nothing, or one command, which help may
be itself. -/
def isHelpTopic : List String → Bool
  | [] => true
  | [name] => name = "help" || (List.lookup name commands).isSome
  | _ => false

/-- Reads the arguments after the name of the program. When help is asked for, something may be
missing, but what is given before has to be in order. -/
def parse? : List String → Option Action
  | [] => none
  | name :: rest =>
    match List.lookup name commands with
    | some table => do
      let words ← scan table rest
      guard (areInOrder table words)
      if words.contains .help then return .help
      return .run (← classArgs? words) (← command? name words)
    | none =>
      if name = "help" then if isHelpTopic rest then some .help else none
      else if name = "--help" || name.startsWith "-h" then some .help
      else if name = "--version" || name.startsWith "-V" then some .version
      else none

end Injection.CommandLine
