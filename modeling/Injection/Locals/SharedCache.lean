import Injection.Locals.Cache

/-!
One cache used by many callers at once.

A call looks its method up under the lock, computes outside it, and enters what it found under the
lock again; between these steps any other call may take its own, and the cache may be cleared.
`SharedCache.run` follows any sequence of such events. What happens within a step is the business
of the lookup, the analysis and the cache themselves.
-/

namespace Injection

/-- A request for an analysis, with what it sees of its token. -/
structure CacheCall where
  owner : String
  method : Method
  hierarchy : Hierarchy
  stamp : Stamp
  watch : Watch

namespace CacheCall

def key (call : CacheCall) : MethodKey := .of call.owner call.method

end CacheCall

inductive CallPhase where
  /-- It is about to look its method up. -/
  | arrived
  /-- It found nothing and is about to compute. -/
  | missed
  /-- It is about to enter what it computed. -/
  | computed (found : Option (Frames × List LocalVariable))
  | answered (answer : Except Cancelled MethodAnalysis)
deriving Inhabited

/-- A cache and all calls on it, in the order of their arrival. -/
structure SharedCache where
  cache : AnalysisCache
  calls : List (CacheCall × CallPhase)

/-- What happens next; calls are named by their place. -/
inductive CacheEvent where
  | arrive (call : CacheCall)
  | look (call : Nat)
  | compute (call : Nat)
  | enter (call : Nat)
  | clear

namespace CacheEvent

def caller? : CacheEvent → Option Nat
  | look i | compute i | enter i => some i
  | arrive _ | clear => none

end CacheEvent

namespace AnalysisCache

/-- Enters what an analysis found as a new one. -/
def add (c : AnalysisCache) (key : MethodKey) (stamp : Stamp)
    (found : Option (Frames × List LocalVariable)) : MethodAnalysis × AnalysisCache :=
  let a : MethodAnalysis := ⟨c.made, found⟩
  (a, { c with made := c.made + 1 }.insert key ⟨a, stamp⟩)

end AnalysisCache

namespace SharedCache

def empty : SharedCache := ⟨.empty, []⟩

def advance (s : SharedCache) (i : Nat) (call : CacheCall) (phase : CallPhase) : SharedCache :=
  { s with calls := s.calls.set i (call, phase) }

/-- An event for which a call is not ready changes nothing. -/
def step (s : SharedCache) : CacheEvent → SharedCache
  | .arrive call => { s with calls := s.calls ++ [(call, .arrived)] }
  | .look i =>
    match s.calls[i]? with
    | some (call, .arrived) =>
      match s.cache.lookup? call.key call.stamp with
      | some a => s.advance i call (.answered (.ok a))
      | none => s.advance i call .missed
    | _ => s
  | .compute i =>
    match s.calls[i]? with
    | some (call, .missed) =>
      match (MethodAnalysis.compute call.owner call.method call.hierarchy).answer call.watch with
      | .ok found => s.advance i call (.computed found)
      | .error .cancelled => s.advance i call (.answered (.error .cancelled))
      -- An analysis without end keeps its call waiting.
      | .error .unsettled => s
    | _ => s
  | .enter i =>
    match s.calls[i]? with
    | some (call, .computed found) =>
      let (a, cache) := s.cache.add call.key call.stamp found
      { s with cache }.advance i call (.answered (.ok a))
    | _ => s
  | .clear => { s with cache := s.cache.clear }

/-- Follows the events from an empty cache on. -/
def run (events : List CacheEvent) : SharedCache := events.foldl step empty

end SharedCache

end Injection
