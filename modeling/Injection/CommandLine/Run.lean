import Injection.At.Json
import Injection.CommandLine.Arguments
import Injection.CommandLine.Files
import Injection.CommandLine.Report
import Injection.Config.Basic

/-!
Running a command. All that a command does depends on its arguments and on the files it can read.
-/

namespace Injection.CommandLine

/-- How a command ended: its exit status, and what it printed. -/
structure Ending where
  status : Nat
  out : String
  err : String
deriving DecidableEq

namespace Ending

/-- A report, after which there is nothing to complain about. -/
def report (r : Report) (json : Bool) : Ending := ⟨0, r.output json, ""⟩

def failure (message : String) : Ending := ⟨2, "", message ++ "\n"⟩

end Ending

/-! ### Configuration -/

/-- The configuration files looked for in the current directory, in order. -/
def configNames : List String := ["pointcut.toml", ".pointcut.toml"]

def readConfig (files : Files) (path : String) : Except ConfigError Config := do
  let bytes ← (files path).mapError fun e => .unreadable path e.message
  match String.fromUTF8? ⟨bytes.toArray⟩ with
  | some text => Config.parse text
  | none => throw (.unreadable path "stream did not contain valid UTF-8")

/-- The text of an error together with that of its cause. -/
def configErrorText (e : ConfigError) : String :=
  match e with
  | .unreadable _ cause => e.message ++ ": " ++ cause
  | e => e.message

/-- The configuration in a given file, or else in the first that is found. -/
def loadConfig (files : Files) (path : Option String) : Except String Config :=
  match path with
  | some path =>
    (readConfig files path).mapError fun e =>
      "invalid config " ++ path ++ ": " ++ configErrorText e
  | none =>
    match configNames.find? fun name => (files name).isOk with
    | some name => (readConfig files name).mapError configErrorText
    | none => .ok .standard

/-! ### Annotations -/

/-- Reads an opcode by number or by mnemonic. -/
def opcode? (text : String) : Option Opcode :=
  (Numeral.toUnsigned? 8 text).map UInt8.ofNat <|> Opcode.ofMnemonic? text

/-- Reads a shift by word or by distance. -/
def shift? (text : String) : Option Shift :=
  match text.map Char.toLower with
  | "none" => some .none
  | "before" => some .before
  | "after" => some .after
  | word => (Numeral.toSigned? 32 word).map fun i => .moved (Int32.ofInt i)

/-- Gives a value to a field if there is one. -/
def override {α : Type} (value : Option α) (field : α) : α := value.getD field

def AtArgs.toSpec (a : AtArgs) : Except String AtSpec := do
  let base ← match a.spec with
    | none => pure (AtSpec.ofValue "")
    | some text =>
      match (Json.parse? text).bind AtSpec.ofJson? with
      | some base => pure base
      | none => throw "invalid --spec: not the record of an annotation"
  let opcode ← a.opcode.mapM fun text =>
    match opcode? text with
    | some o => pure (Int32.ofNat o.toNat)
    | none => throw ("unknown opcode `" ++ text ++ "`")
  let shift ← a.shift.mapM fun text =>
    match shift? text with
    | some s => pure s
    | none => throw ("invalid shift `" ++ text ++ "`")
  let spec := base.withCriteria fun c =>
    { c with
      value := override a.value c.value
      target := a.target <|> c.target
      ordinal := override (a.ordinal.map Int32.ofInt) c.ordinal
      opcode := override opcode c.opcode
      shift := override shift c.shift
      args := c.args ++ a.args
      local? := (a.localName.map fun name => { LocalDiscriminator.empty with names := [name] }) <|>
        c.local? }
  if spec.criteria.value.isEmpty then throw "no injection point given; pass --at or --spec"
  return spec

/-! ### Commands -/

/-- The class asked about, and what is needed to answer. -/
structure Session where
  subject : Class
  resolver : Resolver
  json : Bool

namespace Session

/-- The classes that a session knows: the one asked about, and those of the class path. -/
def index (files : Files) (classpath : List String) (name : String) (bytes : List UInt8) :
    ClassIndex :=
  .ofBytes (fun n => if n = name then some bytes else files.classFile? classpath n)
    (fun _ => none) 0

def start (files : Files) (args : ClassArgs) : Except String Session := do
  let config ← loadConfig files args.config
  let bytes ← (files args.path).mapError fun e =>
    "failed to read " ++ args.path ++ ": " ++ e.message
  let c ← (Class.parse bytes).mapError fun e =>
    "failed to parse " ++ args.path ++ ": " ++ e.message
  let index := index files args.classpath c.name bytes
  return ⟨c, ⟨.builtin, index, config.resolverOptions⟩, args.json⟩

/-- The method given as `name` or `name(desc)`. -/
def target (s : Session) (spec : String) : Except String Target :=
  let name := String.ofList (spec.toList.takeWhile (· ≠ '('))
  let desc := String.ofList (spec.toList.dropWhile (· ≠ '('))
  match Target.find? s.subject name (if desc.isEmpty then none else some desc) with
  | some t => .ok t
  | none => .error ("no method `" ++ spec ++ "` in " ++ s.subject.name)

/-- The answer to a request that nobody cancels. -/
def ask {ε α : Type} (request : Request ε α) : Except ε α :=
  (request.run.run ⟨.empty, .live⟩).1

def dump (s : Session) (method : Option String) : Except String Ending := do
  let methods ← match method with
    | some spec => do pure [(← s.target spec).method]
    | none => pure s.subject.methods
  return .report (dumpReport s.subject methods) s.json

def frames (s : Session) (method : String) : Except String Ending := do
  let t ← s.target method
  let a ← (ask (s.resolver.analysis t)).mapError Cancelled.message
  match a.frames? with
  | some frames => return .report (framesReport t.method frames) s.json
  | none => throw ("no frames could be computed for " ++ t.text)

/-- The positions of the instructions proper, or the one asked for. Positions have 32 bits; of an
index that is larger only these count. -/
def positions (t : Target) (index : Option Nat) : Except String (List Nat) :=
  let is := t.method.instructions
  match index with
  | some index =>
    let p := index % 2 ^ 32
    if p < is.size then .ok [p]
    else .error ("no instruction " ++ toString index ++ " in " ++ t.text)
  | none => .ok ((List.range is.size).filter fun p => (is.get? p).any (·.isReal))

def locals (s : Session) (method : String) (index : Option Nat) : Except String Ending := do
  let t ← s.target method
  let positions ← positions t index
  let rows ← (ask (positions.mapM fun p => (p, ·) <$> s.resolver.localsAt t p)).mapError
    LocalsError.message
  return .report (localsReport t.method rows) s.json

/-- What is said when an annotation means nothing. -/
def nothingFound (a : AtSpec) (t : Target) (blamed : Option Sieve) : String :=
  "@At(\"" ++ a.criteria.value ++ "\") matched nothing in " ++ t.text ++
    (match blamed with | some sieve => " (rejected by " ++ sieve.name ++ ")" | none => "") ++ "\n"

def resolve (s : Session) (method : String) (a : AtArgs) (first : Bool) :
    Except String Ending := do
  let t ← s.target method
  let spec ← a.toSpec
  match ask (s.resolver.resolve spec t (if first then .first else .all)) with
  | .ok found => return .report (matchesReport t.method found) s.json
  | .error (.noMatch blamed) =>
    return ⟨1, (matchesReport t.method []).output s.json, nothingFound spec t blamed⟩
  | .error e => throw e.message

def check (s : Session) (method : String) (a : AtArgs) : Except String Ending := do
  let t ← s.target method
  let spec ← a.toSpec
  let problem ← (ask (s.resolver.check spec t)).mapError Cancelled.message
  return ⟨if problem.isSome then 1 else 0, (checkReport problem).output s.json, ""⟩

def complete (s : Session) (method : String) (a : AtArgs) : Except String Ending := do
  let t ← s.target method
  let spec ← a.toSpec
  let items ← (ask (s.resolver.completions spec t)).mapError ResolveError.message
  return .report (completionReport items) s.json

def command (s : Session) : Command → Except String Ending
  | .dump method => s.dump method
  | .frames method => s.frames method
  | .locals method index => s.locals method index
  | .resolve method a first => s.resolve method a first
  | .check method a => s.check method a
  | .complete method a => s.complete method a

end Session

def versionText : String := "pointcut 0.1.0\n"

def usageText : String :=
  "Resolve @At injection points against compiled classes\n\n" ++
  "Usage: pointcut <COMMAND> <CLASS> [OPTIONS]\n\nCommands:\n" ++
  String.join (commands.map fun (name, table) =>
    "  " ++ alignLeft 8 name ++
      String.join (table.map fun (option, kind) =>
        " [--" ++ option ++ (if kind = .flag then "]" else " <VALUE>]")) ++ "\n")

def runAction (files : Files) : Action → Ending
  | .help => ⟨0, usageText, ""⟩
  | .version => ⟨0, versionText, ""⟩
  | .run subject command =>
    match (Session.start files subject).bind (·.command command) with
    | .ok ending => ending
    | .error message => .failure message

/-- Runs the program with the given arguments; `none` if they are not in order. -/
def run? (files : Files) (args : List String) : Option Ending :=
  (parse? args).map (runAction files)

end Injection.CommandLine
