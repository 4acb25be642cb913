import Injection.Sample.Compiled
import Injection.Source.Builder
import Injection.Source.Class

/-!
The sample class in source form.
-/

namespace Injection.Sample

open Injection.Source

/-- The call of the method `foo` on the receiver at a given place. -/
def fooOn (receiver : ExprId) : ExprForm := .call (some receiver) className "foo" "()V" .virtual []

def constructorSteps : List BuildStep :=
  [.expr .this, .expr (.call (some 0) "java/lang/Object" "<init>" "()V" .special []),
    .stmt (.expr 1)]

def logSteps : List BuildStep := [.declare .param "message" "Ljava/lang/String;"]

def tailSteps : List BuildStep :=
  [.expr .this, .expr (fooOn 0), .stmt (.expr 1), .stmt (.result none)]

def localSteps : List BuildStep :=
  [.declare .plain "x" "I", .expr (.literal (.int 1)), .stmt (.declare 0 (some 0)), .expr .this,
    .expr (fooOn 1), .stmt (.expr 2)]

def callsSteps : List BuildStep :=
  (List.range 5).flatMap fun i =>
    [.expr .this, .expr (fooOn (2 * i)), .stmt (.expr (2 * i + 1))]

def eachListSteps : List BuildStep :=
  [.declare .param "list" "Ljava/util/List;", .declare .loop "o" "Ljava/lang/Object;",
    .expr (.readLocal 0), .stmt (.block []),
    .stmt (.loopOver 1 0 (.iterable "java/util/List") 0)]

def eachArraySteps : List BuildStep :=
  [.declare .param "array" "[Ljava/lang/String;", .declare .loop "s" "Ljava/lang/String;",
    .expr (.readLocal 0), .stmt (.block []), .stmt (.loopOver 1 0 .array 0)]

def runSteps : List BuildStep :=
  [.declare .plain "r" "Ljava/lang/Runnable;", .expr .this, .expr (fooOn 0),
    .expr (.lambda [] (.expr 1)), .stmt (.declare 0 (some 2))]

def mixedSteps : List BuildStep :=
  [.declare .param "s" "Ljava/lang/String;", .declare .plain "data" "[I",
    .declare .plain "n" "I", .declare .plain "sb" "Ljava/lang/StringBuilder;",
    .expr .this, .expr (.readField (some 0) className "values" "[I" false),
    .stmt (.declare 1 (some 1)),
    .expr .this, .expr (.readField (some 2) className "values" "[I" false),
    .expr (.arrayLength 3), .stmt (.declare 2 (some 4)),
    .expr (.literal (.string "x")),
    .expr (.create "java/lang/StringBuilder" "(Ljava/lang/String;)V" [5] none),
    .stmt (.declare 3 (some 6)),
    .expr (.readLocal 2), .expr (.literal (.int 0)), .expr (.binary .less 7 8 .int),
    .expr (.literal (.int (-1))), .stmt (.result (some 10)), .stmt (.block [3]),
    .stmt (.branch 9 4 none),
    .expr .this, .expr (.literal (.int 7)),
    .expr (.writeField (some 11) className "count" "I" false 12), .stmt (.expr 13),
    .expr .this, .expr (.literal (.string "done")),
    .expr (.call (some 14) className "log" "(Ljava/lang/String;)V" .virtual [15]),
    .stmt (.expr 16),
    .expr (.readLocal 2), .stmt (.result (some 17))]

/-- The access flags, name, type, steps and statements of every method. -/
def methodSteps : List (Access × String × String × List BuildStep × List StmtId) :=
  [(1, "<init>", "()V", constructorSteps, [0]),
    (0, "foo", "()V", [], []),
    (0, "log", "(Ljava/lang/String;)V", logSteps, []),
    (0, "tail", "()V", tailSteps, [0, 1]),
    (0, "local", "()V", localSteps, [0, 1]),
    (0, "calls", "()V", callsSteps, [0, 1, 2, 3, 4]),
    (0, "eachList", "(Ljava/util/List;)V", eachListSteps, [1]),
    (0, "eachArray", "([Ljava/lang/String;)V", eachArraySteps, [1]),
    (0, "run", "()V", runSteps, [0]),
    (0, "mixed", "(Ljava/lang/String;)I", mixedSteps, [0, 1, 2, 5, 6, 7, 8])]

def writtenMethod (access : Access) (name desc : String) (steps : List BuildStep)
    (statements : List StmtId) : SourceMethod :=
  let body := Body.build .forInstance steps statements
  ⟨name, desc, access, some body, body.span⟩

def written : SourceClass where
  name := className
  superName := some "java/lang/Object"
  fields := [⟨"count", "I", false, true, ⟨0, 1⟩⟩, ⟨"values", "[I", false, false, ⟨1, 2⟩⟩]
  methods := methodSteps.map fun (access, name, desc, steps, statements) =>
    writtenMethod access name desc steps statements
  span := .zero

end Injection.Sample
