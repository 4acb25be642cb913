import Injection.Resolver

/-!
What the commands print: the same report as lines of text or as indented JSON.
-/

namespace Injection.CommandLine

structure Report where
  text : String
  json : Json

namespace Report

def output (r : Report) (json : Bool) : String := if json then r.json.pretty ++ "\n" else r.text

end Report

/-- A text moved to the right end of a column. -/
def alignRight (width : Nat) (text : String) : String :=
  "".pushn ' ' (width - text.length) ++ text

/-- A text at the left end of a column. -/
def alignLeft (width : Nat) (text : String) : String := text.pushn ' ' (width - text.length)

/-- A position as the first column of a line. -/
def positionText (position : Nat) : String := alignRight 4 (toString position)

/-- The text of the instruction at a position. -/
def instructionText (m : Method) (position : Nat) : String :=
  ((m.instructions.get? position).map (·.text)).getD ""

/-- The beginning of a line about an instruction, with a column for what is said of it. -/
def instructionColumns (m : Method) (position : Nat) : String :=
  positionText position ++ "  " ++ alignLeft 40 (instructionText m position) ++ "  "

/-! ### Instruction lists -/

def methodText (m : Method) : String :=
  "\n" ++ m.name ++ m.desc ++ " (access 0x" ++ Hex.fixed 4 m.access.toNat ++ ")\n" ++
    String.join ((List.range m.instructions.size).map fun p =>
      "  " ++ positionText p ++ "  " ++ instructionText m p ++ "\n")

def methodJson (m : Method) : Json :=
  .object
    [("name", .string m.name), ("desc", .string m.desc), ("access", .nat m.access.toNat),
      ("insns", .list (fun p => .object
        [("index", .nat p), ("text", .string (instructionText m p))])
        (List.range m.instructions.size))]

/-- The instructions of some methods of a class. -/
def dumpReport (c : Class) (methods : List Method) : Report where
  text :=
    "class " ++ c.name ++ (match c.superName with | some s => " extends " ++ s | none => "") ++
      "\n" ++ String.join (methods.map methodText)
  json :=
    .object
      [("class", .string c.name), ("super_name", Json.option .string c.superName),
        ("methods", .list methodJson methods)]

/-! ### Frames -/

/-- The locals and the stack of a frame, the bottom of the stack first. -/
def frameTexts (f : TypeFrame) : List String × List String :=
  (f.locals.map (·.text), f.stack.reverse.map (·.text))

def frameText (frame : Option TypeFrame) : String :=
  match frame.map frameTexts with
  | some (locals, stack) =>
    "[" ++ " ".intercalate locals ++ "] [" ++ " ".intercalate stack ++ "]"
  | none => "unreachable"

/-- The frame before every instruction of a method. -/
def framesReport (m : Method) (frames : Frames) : Report where
  text :=
    m.name ++ m.desc ++ "\n" ++ String.join (frames.toList.zipIdx.map fun (frame, p) =>
      "  " ++ instructionColumns m p ++ frameText frame ++ "\n")
  json :=
    .object
      [("method", .string (m.name ++ m.desc)),
        ("frames", .list (fun (frame, p) => .object
          [("index", .nat p), ("insn", .string (instructionText m p)),
            ("locals", Json.option (fun f => .list .string (frameTexts f).1) frame),
            ("stack", Json.option (fun f => .list .string (frameTexts f).2) frame)])
          frames.toList.zipIdx)]

/-! ### Local variables -/

def variableText (v : LocalVariable) : String :=
  toString v.slot.toNat ++ ":" ++ v.name ++ "=" ++ v.desc

def variableJson (v : LocalVariable) : Json :=
  .object [("slot", .nat v.slot.toNat), ("name", .string v.name), ("desc", .string v.desc)]

def localsReport (m : Method) (rows : List (Nat × LocalTable)) : Report where
  text := String.join (rows.map fun (p, table) =>
    instructionColumns m p ++ " ".intercalate (table.present.map variableText) ++ "\n")
  json :=
    .object [("rows", .list (fun (p, table) => .object
      [("index", .nat p), ("insn", .string (instructionText m p)),
        ("locals", .list variableJson table.present)]) rows)]

/-! ### Annotations -/

def matchText (m : Method) (found : Match) : String :=
  positionText found.position ++ "  " ++ instructionText m found.position ++
    (match found.element.label? with | some label => "  (" ++ label ++ ")" | none => "") ++ "\n"

def matchJson (m : Method) (found : Match) : Json :=
  .object
    [("candidate", .nat found.index), ("insn", .nat found.position),
      ("original", .nat found.offered),
      ("text", .string (instructionText m found.position)),
      ("label", Json.option .string found.element.label?)]

def matchesReport (m : Method) (found : List Match) : Report where
  text := String.join (found.map (matchText m))
  json := .object [("matches", .list (matchJson m) found)]

def checkReport (problem : Option Diagnostic) : Report where
  text :=
    match problem with
    | none => "ok\n"
    | some d => "error[" ++ d.code ++ "]: " ++ d.message ++ "\n"
  json :=
    .object
      [("ok", .bool problem.isNone),
        ("diagnostic", Json.option (fun d : Diagnostic => .object
          [("code", .string d.code), ("message", .string d.message)]) problem)]

def completionReport (items : List CompletionItem) : Report where
  text := String.join (items.map fun i =>
    i.label ++ (match i.detail with | some detail => "\t" ++ detail | none => "") ++ "\n")
  json :=
    .object [("items", .list (fun i : CompletionItem => .object
      [("label", .string i.label), ("detail", Json.option .string i.detail)]) items)]

end Injection.CommandLine
