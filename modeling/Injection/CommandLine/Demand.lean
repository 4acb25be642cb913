import Injection.CommandLine.Run

/-!
Which files a command may ask for, so that they can be read before it runs. Besides the class file
it is about, a command looks up the superclasses of classes that this file names, and theirs.
-/

namespace Injection.CommandLine

/-- The class names that a text of a constant pool may hold: the text itself, and in a descriptor
whatever stands between an `L` and a semicolon. -/
def namesIn (text : String) : List String :=
  text :: (text.splitOn ";").map fun part =>
    String.ofList ((part.toList.dropWhile (· ≠ 'L')).drop 1)

/-- The class names that a class file may hold. -/
def namedClasses (bytes : List UInt8) : List String :=
  match ClassFile.layout (.ofBytes bytes) with
  | .ok (layout, _) =>
    (layout.pool.entries.toList.flatMap fun
      | .utf8 text => namesIn text
      | _ => []).eraseDups.filter (!·.isEmpty)
  | .error _ => []

def superName? (bytes : List UInt8) : Option String :=
  (Class.parse bytes).toOption.bind (·.superName)

/-- The files that are read whatever they hold: the configuration and the class file asked about. -/
def ClassArgs.firstPaths (args : ClassArgs) : List String :=
  (match args.config with | some path => [path] | none => configNames) ++ [args.path]

/-- The paths at which the class file of a class is looked for. -/
def ClassArgs.pathsOf (args : ClassArgs) (name : String) : List String :=
  args.classpath.map (Files.join · (name ++ ".class"))

/-- Files that were read, each with what reading it gave. -/
abbrev Answers := List (String × Except ReadError (List UInt8))

/-- The files that were read; others count as missing. -/
def Answers.files (answers : Answers) : Files := fun path =>
  (List.lookup path answers).getD (.error .missing)

end Injection.CommandLine
