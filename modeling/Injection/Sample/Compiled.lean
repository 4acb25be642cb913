import Injection.Assembly.Class
import Injection.MethodBuilder

/-!
A small class in compiled form, with one method for each shape of code that matters: calls,
loops over an iterator and over an array, a lambda, field accesses, an allocation, constants, and
a comparison with zero.
-/

namespace Injection.Sample

def className : String := "com/example/Target"

def sourceFile : String := "Target.java"

/-- Loads the receiver and calls its method `foo`. -/
def callFoo : List BuilderCall :=
  [.var .aload 0, .method .invokevirtual className "foo" "()V"]

def thisLocal (stop : Nat) : BuilderCall :=
  .declareLocal "this" "Lcom/example/Target;" ⟨0⟩ ⟨stop⟩ 0

def constructorCalls : List BuilderCall :=
  [.mark, .line 4 ⟨0⟩, .var .aload 0, .method .invokespecial "java/lang/Object" "<init>" "()V",
    .var .aload 0, .pushInt 5, .field .putfield className "count" "I", .plain .returnVoid, .mark,
    thisLocal 1]

def emptyCalls : List BuilderCall := [.mark, .plain .returnVoid, .mark, thisLocal 1]

def tailCalls : List BuilderCall :=
  [.mark, .line 10 ⟨0⟩] ++ callFoo ++
    [.mark, .line 11 ⟨1⟩, .plain .returnVoid, .mark, thisLocal 2]

def localCalls : List BuilderCall :=
  [.mark, .plain .iconst1, .var .istore 1, .mark] ++ callFoo ++
    [.plain .returnVoid, .mark, thisLocal 2, .declareLocal "x" "I" ⟨1⟩ ⟨2⟩ 1]

def callsCalls : List BuilderCall :=
  [.mark] ++ callFoo ++ callFoo ++ callFoo ++ callFoo ++ callFoo ++
    [.plain .returnVoid, .mark, thisLocal 1]

/-- A loop over the items of a list, through its iterator. -/
def eachListCalls : List BuilderCall :=
  [.mark, .var .aload 1,
    .method .invokeinterface "java/util/List" "iterator" "()Ljava/util/Iterator;",
    .var .astore 2, .mark, .frameAppend [.object "java/util/Iterator"], .newLabel,
    .var .aload 2, .method .invokeinterface "java/util/Iterator" "hasNext" "()Z",
    .jump .ifeq ⟨2⟩, .var .aload 2,
    .method .invokeinterface "java/util/Iterator" "next" "()Ljava/lang/Object;",
    .var .astore 3, .mark, .jump .goto ⟨1⟩, .label ⟨2⟩, .frameChop 1, .plain .returnVoid, .mark,
    thisLocal 4, .declareLocal "list" "Ljava/util/List;" ⟨0⟩ ⟨4⟩ 1,
    .declareLocal "o" "Ljava/lang/Object;" ⟨3⟩ ⟨2⟩ 3]

/-- A loop over the items of an array, by index. -/
def eachArrayCalls : List BuilderCall :=
  [.mark, .var .aload 1, .var .astore 2, .var .aload 2, .plain .arraylength, .var .istore 3,
    .plain .iconst0, .var .istore 4, .mark,
    .frameAppend [.object "[Ljava/lang/String;", .int, .int], .newLabel, .var .iload 4,
    .var .iload 3, .jump .ifIcmpge ⟨2⟩, .var .aload 2, .var .iload 4, .plain .aaload,
    .var .astore 5, .mark, .iinc 4 1, .jump .goto ⟨1⟩, .label ⟨2⟩, .frameChop 3,
    .plain .returnVoid, .mark, thisLocal 4,
    .declareLocal "array" "[Ljava/lang/String;" ⟨0⟩ ⟨4⟩ 1,
    .declareLocal "s" "Ljava/lang/String;" ⟨3⟩ ⟨2⟩ 5]

def metafactoryDesc : String :=
  "(Ljava/lang/invoke/MethodHandles$Lookup;Ljava/lang/String;Ljava/lang/invoke/MethodType;" ++
    "Ljava/lang/invoke/MethodType;Ljava/lang/invoke/MethodHandle;" ++
    "Ljava/lang/invoke/MethodType;)Ljava/lang/invoke/CallSite;"

def metafactory : Handle :=
  ⟨6, "java/lang/invoke/LambdaMetafactory", "metafactory", metafactoryDesc, false⟩

def runCalls : List BuilderCall :=
  [.mark, .var .aload 0,
    .invokeDynamic "run" "(Lcom/example/Target;)Ljava/lang/Runnable;" metafactory
      [.methodType "()V", .methodHandle ⟨7, className, "lambda$run$0", "()V", false⟩,
        .methodType "()V"],
    .var .astore 1, .mark, .plain .returnVoid, .mark, thisLocal 2,
    .declareLocal "r" "Ljava/lang/Runnable;" ⟨1⟩ ⟨2⟩ 1]

def runLambdaCalls : List BuilderCall :=
  [.mark] ++ callFoo ++ [.plain .returnVoid, .mark, thisLocal 1]

def mixedCalls : List BuilderCall :=
  [.mark, .var .aload 0, .field .getfield className "values" "[I", .var .astore 2, .mark,
    .var .aload 0, .field .getfield className "values" "[I", .plain .arraylength,
    .var .istore 3, .mark, .type .newObject "java/lang/StringBuilder", .plain .dup,
    .ldc (.string "x"),
    .method .invokespecial "java/lang/StringBuilder" "<init>" "(Ljava/lang/String;)V",
    .var .astore 4, .mark, .newLabel, .var .iload 3, .jump .ifge ⟨4⟩, .plain .iconstM1,
    .plain .ireturn, .label ⟨4⟩,
    .frameAppend [.object "[I", .int, .object "java/lang/StringBuilder"], .var .aload 0,
    .pushInt 7, .field .putfield className "count" "I", .var .aload 0, .ldc (.string "done"),
    .method .invokevirtual className "log" "(Ljava/lang/String;)V", .var .iload 3,
    .plain .ireturn, .mark, thisLocal 5, .declareLocal "s" "Ljava/lang/String;" ⟨0⟩ ⟨5⟩ 1,
    .declareLocal "data" "[I" ⟨1⟩ ⟨5⟩ 2, .declareLocal "n" "I" ⟨2⟩ ⟨5⟩ 3,
    .declareLocal "sb" "Ljava/lang/StringBuilder;" ⟨3⟩ ⟨5⟩ 4]

/-- The access flags, name, type and code of every method. -/
def methodCalls : List (Access × String × String × List BuilderCall) :=
  [(1, "<init>", "()V", constructorCalls),
    (0, "foo", "()V", emptyCalls),
    (0, "log", "(Ljava/lang/String;)V", emptyCalls),
    (0, "tail", "()V", tailCalls),
    (0, "local", "()V", localCalls),
    (0, "calls", "()V", callsCalls),
    (0, "eachList", "(Ljava/util/List;)V", eachListCalls),
    (0, "eachArray", "([Ljava/lang/String;)V", eachArrayCalls),
    (0, "run", "()V", runCalls),
    (0x1002, "lambda$run$0", "()V", runLambdaCalls),
    (0, "mixed", "(Ljava/lang/String;)I", mixedCalls)]

def methods : Except ClassFileError (List Method) :=
  methodCalls.mapM fun (access, name, desc, calls) =>
    MethodBuilder.buildAll className access name desc calls

def classOf (methods : List Method) : Class where
  minorVersion := 0
  majorVersion := 52
  access := 0x21
  name := className
  superName := some "java/lang/Object"
  interfaces := []
  sourceFile := some sourceFile
  fields := [⟨0, "count", "I"⟩, ⟨0, "values", "[I"⟩]
  methods

/-- The bytes of the class file. All descriptors are well-formed and the code is small, so there
always are some. -/
def bytes : List UInt8 :=
  match methods with
  | .ok ms =>
    match (classOf ms).assemble with
    | .ok bytes => bytes
    | .error _ => []
  | .error _ => []

end Injection.Sample
