import Injection.CommandLine.Demand

/-!
The program: reads the files that a command may ask for, runs it, and prints what it answers.
-/

namespace Injection.CommandLine

def readError : IO.Error → ReadError
  | .noFileOrDirectory .. => .missing
  | .permissionDenied .. => .other "Permission denied (os error 13)"
  | .inappropriateType _ code _ => if code = 21 then .isADirectory else .notADirectory
  | .invalidArgument _ code text => if code = 0 - 36 then .nameTooLong else .other text
  | e => .other (toString e)

def readInto (answers : Answers) (path : String) : IO Answers := do
  try
    let bytes ← IO.FS.readBinFile path
    return (path, .ok bytes.toList) :: answers
  catch e => return (path, .error (readError e)) :: answers

/-- Reads the class files of some classes, and of their superclasses. -/
partial def readClasses (args : ClassArgs) (answers : Answers) : List String → IO Answers
  | [] => return answers
  | name :: names => do
    let paths := (args.pathsOf name).filter fun path => !answers.any (·.1 = path)
    if paths.isEmpty then readClasses args answers names
    else
      let answers ← paths.foldlM readInto answers
      let found := answers.files.classFile? args.classpath name
      readClasses args answers ((found.bind superName?).toList ++ names)

/-- Reads all files that a command may ask for. -/
def readAll : Action → IO Files
  | .run args _ => do
    let answers ← args.firstPaths.foldlM readInto []
    let names := ((answers.files args.path).toOption.map namedClasses).getD []
    let answers ← readClasses args answers names
    return answers.files
  | _ => return Answers.files []

end Injection.CommandLine

open Injection.CommandLine in
def main (args : List String) : IO UInt32 := do
  match parse? args with
  | none =>
    IO.eprint usageText
    return 2
  | some action =>
    let ending := runAction (← readAll action) action
    IO.print ending.out
    IO.eprint ending.err
    return ending.status.toUInt32
