/-!
Cooperative cancellation.

`TokenPool` holds the tokens of a program and the flags behind them: a clone shares the flag of
its source, a child has a flag of its own and also looks at the flag of the token it was made
from. `Watch` is what one request sees of its token over time: a count of the looks taken so far
and the look from which on the token is cancelled. A cancelled token stays cancelled.
-/

namespace Injection

/-- A token: its own flag and, for a child, the flag of the token it was made from. -/
structure Token where
  flag : Nat
  parent : Option Nat
deriving DecidableEq, Inhabited

/-- All tokens, in the order in which they were made, and the state of every flag. -/
structure TokenPool where
  tokens : List Token
  flags : List Bool
deriving DecidableEq, Inhabited

/-- A step in the life of the tokens; tokens are named by their place in the pool. -/
inductive TokenStep where
  | child (of : Nat)
  | clone (of : Nat)
  | cancel (token : Nat)
deriving DecidableEq, Inhabited

namespace TokenPool

def new : TokenPool := ⟨[⟨0, none⟩], [false]⟩

def isRaised (p : TokenPool) (flag : Nat) : Bool := p.flags.getD flag false

/-- A token is cancelled when its own flag or the flag of its parent is raised. -/
def isCancelled (p : TokenPool) (t : Token) : Bool :=
  p.isRaised t.flag || t.parent.any p.isRaised

def step (p : TokenPool) : TokenStep → TokenPool
  | .child i =>
    match p.tokens[i]? with
    | some t => ⟨p.tokens ++ [⟨p.flags.length, some t.flag⟩], p.flags ++ [false]⟩
    | none => p
  | .clone i =>
    match p.tokens[i]? with
    | some t => { p with tokens := p.tokens ++ [t] }
    | none => p
  | .cancel i =>
    match p.tokens[i]? with
    | some t => { p with flags := p.flags.set t.flag true }
    | none => p

def states (p : TokenPool) : List Bool := p.tokens.map p.isCancelled

end TokenPool

/-- Why a request has no answer: it found its token cancelled, or an analysis came to its bound on
the number of steps before it came to an end. -/
inductive Cancelled where
  | cancelled
  | unsettled
deriving DecidableEq, Inhabited

namespace Cancelled

def message : Cancelled → String
  | cancelled => "request cancelled"
  | unsettled => "the types did not settle"

end Cancelled

/-- What a request sees of its token: how often it has looked, and from which look on the token
is cancelled (`none`: never). -/
structure Watch where
  looks : Nat
  cancelledFrom : Option Nat
deriving DecidableEq, Inhabited

namespace Watch

def live : Watch := ⟨0, none⟩

/-- A token that was cancelled before the first look. -/
def dead : Watch := ⟨0, some 0⟩

/-- The state of the token at the coming look. -/
def isCancelled (w : Watch) : Bool := w.cancelledFrom.any (· ≤ w.looks)

def look (w : Watch) : Watch := { w with looks := w.looks + 1 }

def cancel (w : Watch) : Watch :=
  if w.isCancelled then w else { w with cancelledFrom := some w.looks }

end Watch

/-- A computation that looks at a token on its way and may fail. The looks taken remain counted
after a failure. -/
abbrev Query (ε α : Type) := ExceptT ε (StateM Watch) α

namespace Query

variable {ε ε' α : Type}

/-- Looks at the token and gives up if it is cancelled. -/
def checkpoint (cancelled : ε) : Query ε Unit := fun w =>
  (if w.isCancelled then .error cancelled else .ok (), w.look)

/-- Runs from a given state of the token and forgets the state reached. -/
def answer (q : Query ε α) (w : Watch) : Except ε α := (q.run.run w).1

def mapError (f : ε → ε') (q : Query ε α) : Query ε' α := fun w =>
  match q.run.run w with
  | (.ok a, w) => (.ok a, w)
  | (.error e, w) => (.error (f e), w)

def ofExcept (r : Except ε α) : Query ε α := fun w => (r, w)

end Query

end Injection
