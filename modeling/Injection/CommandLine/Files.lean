/-!
The files that a command can read, and how a path leads to one of them: step by step, from the
root or from the working directory. Every step but the last has to lead to a directory, also one
that is taken back afterwards.
-/

namespace Injection.CommandLine

/-- Why a file cannot be read. -/
inductive ReadError where
  | missing
  | notADirectory
  | isADirectory
  | nameTooLong
  | other (text : String)
deriving DecidableEq, Inhabited

namespace ReadError

def message : ReadError → String
  | missing => "No such file or directory (os error 2)"
  | notADirectory => "Not a directory (os error 20)"
  | isADirectory => "Is a directory (os error 21)"
  | nameTooLong => "File name too long (os error 36)"
  | other text => text

end ReadError

/-- Answers for every path what reading the file gives: its bytes, or why it cannot be read. -/
abbrev Files := String → Except ReadError (List UInt8)

/-- A place in a tree of directories, as the names on the way from the root. -/
abbrev Location := List String

/-- A tree of directories, by the files in it and by directories that may be empty. -/
structure FileTree where
  files : List (Location × List UInt8)
  directories : List Location

namespace FileTree

/-- The number of bytes that a name may have. -/
def maxName : Nat := 255

/-- The number of bytes that a path may have. -/
def maxPath : Nat := 4095

/-- Tells a directory: it is there by itself, or has something in it. -/
def isDirectory (t : FileTree) (place : Location) : Bool :=
  (t.directories ++ t.files.map (·.1.dropLast)).any place.isPrefixOf

/-- Reads the file to which steps lead from a directory. An empty step or a dot stays, and two dots
lead to the directory around. -/
def read (t : FileTree) (directory : Location) : List String → Except ReadError (List UInt8)
  | [] => .error .isADirectory
  | step :: steps =>
    if step = "" || step = "." then t.read directory steps
    else if step = ".." then t.read directory.dropLast steps
    else if maxName < step.utf8ByteSize then .error .nameTooLong
    else
      let place := directory ++ [step]
      match List.lookup place t.files with
      | some bytes => if steps.isEmpty then .ok bytes else .error .notADirectory
      | none => if t.isDirectory place then t.read place steps else .error .missing

/-- The files of a tree, seen from a directory in it. -/
def seenFrom (t : FileTree) (directory : Location) : Files := fun path =>
  if maxPath < path.utf8ByteSize then .error .nameTooLong
  else if path = "" then .error .missing
  else t.read (if path.startsWith "/" then [] else directory) (path.splitOn "/")

end FileTree

namespace Files

/-- The directories at the root of a machine. -/
def rootDirectories : List String :=
  ["bin", "boot", "dev", "etc", "home", "lib", "media", "mnt", "opt", "proc", "root", "run",
    "sbin", "srv", "sys", "tmp", "usr", "var"]

/-- The working directory, for which a machine has made a place of its own. Its name is not known,
and no path can spell this one. -/
def workingDirectory : Location := ["tmp", "/"]

/-- The file that is always there and always empty. -/
def nullDevice : Location := ["dev", "null"]

/-- The files of a working directory that hold nothing else, given by their paths in it. -/
def ofList (files : List (String × List UInt8)) : Files :=
  let place := fun path =>
    workingDirectory ++ (path.splitOn "/").filter fun step => step ≠ "" && step ≠ "."
  FileTree.seenFrom
    ⟨(nullDevice, []) :: files.map fun (path, bytes) => (place path, bytes),
      workingDirectory :: rootDirectories.map ([·])⟩
    workingDirectory

/-- The path of a file in a directory. A path that starts at the root stays as it is. -/
def join (directory path : String) : String :=
  if path.startsWith "/" then path
  else if directory.endsWith "/" then directory ++ path
  else directory ++ "/" ++ path

/-- The class file of a class, from the first directory that has it. -/
def classFile? (files : Files) (classpath : List String) (name : String) : Option (List UInt8) :=
  classpath.findSome? fun root => (files (join root (name ++ ".class"))).toOption

end Files

end Injection.CommandLine
