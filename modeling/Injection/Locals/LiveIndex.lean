import Injection.Locals.SharedCache
import Injection.Typing.Survey

/-!
An index that changes while methods are analysed.

An insertion stores the class file, then the class, and at last moves the stamp on. A query reads
the stamp and looks its method up; if it finds nothing it carries on one position after the other,
asking for one class after the other, until its analysis is done, and enters what it found under the
stamp it read. Nothing bounds the number of positions. Between any two of these steps anyone else
may take one. `LiveIndex.run` follows any sequence of such events.

Every event is one tick of a clock. The times in the phases and in the log record what happened
when; no step depends on them.
-/

namespace Injection

namespace MemoryIndex

/-- Stores the class file of a name, or takes it out if there is none. -/
def storeFile (m : MemoryIndex) (name : String) (file? : Option (List UInt8)) : MemoryIndex :=
  match file? with
  | some file => { m with bytes := put name file m.bytes }
  | none => { m with bytes := without name m.bytes }

def storeClass (m : MemoryIndex) (c : Class) : MemoryIndex :=
  { m with classes := put c.name c m.classes }

def bump (m : MemoryIndex) : MemoryIndex := { m with stamp := m.stamp + 1 }

end MemoryIndex

/-- What is added to an index: a class without a class file, or a class file. -/
inductive Insertion where
  | ofClass (c : Class)
  | ofBytes (bytes : List UInt8)
deriving DecidableEq

namespace Insertion

def read : Insertion → Except ClassFileError Class
  | ofClass c => .ok c
  | ofBytes bytes => Class.parse bytes

def file? : Insertion → Option (List UInt8)
  | ofClass _ => none
  | ofBytes bytes => some bytes

end Insertion

inductive InsertionPhase where
  /-- It is about to read its class and to store the class file. -/
  | arrived
  /-- It is about to store the class. -/
  | stored (c : Class)
  /-- It stored the class at a time and is about to move the stamp on. -/
  | written (c : Class) (wrote : Nat)
  | published (c : Class) (wrote bumped : Nat)
  | refused (e : ClassFileError)
deriving DecidableEq

namespace InsertionPhase

/-- Tells an insertion that moved the stamp on before a time. -/
def isBumpedBefore (time : Nat) : InsertionPhase → Bool
  | published _ _ bumped => bumped < time
  | _ => false

/-- Tells an insertion that moved the stamp on. -/
def isPublished : InsertionPhase → Bool
  | published .. => true
  | _ => false

end InsertionPhase

/-- What an analysis has come to when it asks for no class, and the token then. -/
abbrev Findings := Except AnalyzeError Progress × Watch

/-- A request for the analysis of a method, with what it sees of its token. -/
structure IndexQuery where
  owner : String
  method : Method
  watch : Watch
deriving DecidableEq

namespace IndexQuery

def key (q : IndexQuery) : MethodKey := .of q.owner q.method

/-- The start of a fresh analysis of the method. -/
def survey (q : IndexQuery) : Inquiry Findings := Survey.start q.owner q.method q.watch

/-- How an analysis goes on that asks for no class: with the next position, or not at all. -/
def proceed (q : IndexQuery) :
    Findings → Inquiry Findings ⊕ Except Cancelled (Option (Frames × List LocalVariable))
  | (.ok p, w) =>
    if p.machine.pending.isEmpty then .inr (MethodAnalysis.conclude q.method (.ok p.machine.frames))
    else .inl (Survey.turn q.owner q.method.instructions p w)
  | (.error e, _) => .inr (MethodAnalysis.conclude q.method (.error e))

end IndexQuery

/-- How far a query has come, and the time at which it read the stamp. -/
inductive QueryPhase where
  /-- It is about to read the stamp. -/
  | arrived
  /-- It is about to look its method up. -/
  | stamped (stamp : Stamp) (time : Nat)
  /-- It asked for classes at some times and has yet to ask for others before it is done. -/
  | computing (stamp : Stamp) (time : Nat) (asked : List Nat) (rest : Inquiry Findings)
  | answered (time : Nat) (answer : Except Cancelled MethodAnalysis)

namespace QueryPhase

/-- The time at which the stamp was read. -/
def readAt? : QueryPhase → Option Nat
  | arrived => none
  | stamped _ time | computing _ time _ _ | answered time _ => some time

/-- The answer, with the time at which the stamp was read. -/
def answer? : QueryPhase → Option (Nat × Except Cancelled MethodAnalysis)
  | answered time answer => some (time, answer)
  | _ => none

end QueryPhase

/-- An index and a cache, with all insertions and all queries in the order of their arrival. -/
structure LiveIndex where
  index : MemoryIndex
  cache : AnalysisCache
  insertions : List (Insertion × InsertionPhase)
  queries : List (IndexQuery × QueryPhase)
  /-- The number of events so far. -/
  clock : Nat
  /-- The times at which every analysis asked for its classes, by serial number. -/
  log : List (List Nat)

/-- What happens next; insertions and queries are named by their place. -/
inductive IndexEvent where
  | insert (what : Insertion)
  | ask (query : IndexQuery)
  | insertion (i : Nat)
  | query (i : Nat)
  | clear

namespace LiveIndex

def start (index : MemoryIndex) : LiveIndex := ⟨index, .empty, [], [], 0, []⟩

def advanceInsertion (s : LiveIndex) (i : Nat) (what : Insertion) (phase : InsertionPhase) :
    LiveIndex :=
  { s with insertions := s.insertions.set i (what, phase) }

def advanceQuery (s : LiveIndex) (i : Nat) (query : IndexQuery) (phase : QueryPhase) : LiveIndex :=
  { s with queries := s.queries.set i (query, phase) }

def insertionStep (s : LiveIndex) (i : Nat) : LiveIndex :=
  match s.insertions[i]? with
  | some (what, .arrived) =>
    match what.read with
    | .ok c =>
      { s with index := s.index.storeFile c.name what.file? }.advanceInsertion i what (.stored c)
    | .error e => s.advanceInsertion i what (.refused e)
  | some (what, .stored c) =>
    { s with index := s.index.storeClass c }.advanceInsertion i what (.written c s.clock)
  | some (what, .written c wrote) =>
    { s with index := s.index.bump }.advanceInsertion i what (.published c wrote s.clock)
  | _ => s

def queryStep (s : LiveIndex) (i : Nat) : LiveIndex :=
  match s.queries[i]? with
  | some (query, .arrived) => s.advanceQuery i query (.stamped s.index.stamp s.clock)
  | some (query, .stamped stamp time) =>
    match s.cache.lookup? query.key stamp with
    | some a => s.advanceQuery i query (.answered time (.ok a))
    | none => s.advanceQuery i query (.computing stamp time [] query.survey)
  | some (query, .computing stamp time asked (.ask name next)) =>
    s.advanceQuery i query
      (.computing stamp time (asked ++ [s.clock]) (next (s.index.index.class? name)))
  | some (query, .computing stamp time asked (.done findings)) =>
    match query.proceed findings with
    | .inl rest => s.advanceQuery i query (.computing stamp time asked rest)
    | .inr (.ok found) =>
      let (a, cache) := s.cache.add query.key stamp found
      { s with cache, log := s.log ++ [asked] }.advanceQuery i query (.answered time (.ok a))
    | .inr (.error e) => s.advanceQuery i query (.answered time (.error e))
  | _ => s

/-- What an event does. One for which nobody is ready changes nothing. -/
def act (s : LiveIndex) : IndexEvent → LiveIndex
  | .insert what => { s with insertions := s.insertions ++ [(what, .arrived)] }
  | .ask query => { s with queries := s.queries ++ [(query, .arrived)] }
  | .insertion i => s.insertionStep i
  | .query i => s.queryStep i
  | .clear => { s with cache := s.cache.clear }

def tick (s : LiveIndex) : LiveIndex := { s with clock := s.clock + 1 }

def step (s : LiveIndex) (e : IndexEvent) : LiveIndex := (s.act e).tick

/-- Follows the events from an index with an empty cache on. -/
def run (index : MemoryIndex) (events : List IndexEvent) : LiveIndex :=
  events.foldl step (start index)

def bumps (s : LiveIndex) : Nat := s.insertions.countP (·.2.isPublished)

/-- How often the stamp was moved on before a time. -/
def bumpsBefore (s : LiveIndex) (time : Nat) : Nat :=
  s.insertions.countP (·.2.isBumpedBefore time)

end LiveIndex

end Injection
