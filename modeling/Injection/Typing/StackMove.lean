import Injection.Typing.Value

/-!
The nine instructions that drop, copy and exchange stack entries.

`StackMove.apply` works on values and takes the width of each into account. `StackMove.words` is
the same move on machine words, whatever they hold: it is what the instruction is defined to do.
A stack is a list with its top first.
-/

namespace Injection

inductive StackMove where
  | pop
  | pop2
  | dup
  | dupX1
  | dupX2
  | dup2
  | dup2X1
  | dup2X2
  | swap
deriving DecidableEq, Inhabited

namespace StackMove

def ofOpcode? (op : Opcode) : Option StackMove :=
  if op = Opcode.pop then some pop
  else if op = Opcode.pop2 then some pop2
  else if op = Opcode.dup then some dup
  else if op = Opcode.dupX1 then some dupX1
  else if op = Opcode.dupX2 then some dupX2
  else if op = Opcode.dup2 then some dup2
  else if op = Opcode.dup2X1 then some dup2X1
  else if op = Opcode.dup2X2 then some dup2X2
  else if op = Opcode.swap then some swap
  else none

/-- The move on a stack of typed values; `none` when there are too few. -/
def apply : StackMove → List TypeValue → Option (List TypeValue)
  | pop, _ :: rest => some rest
  | pop2, a :: rest =>
    if a.size = 1 then
      match rest with
      | _ :: rest => some rest
      | [] => none
    else some rest
  | dup, a :: rest => some (a :: a :: rest)
  | dupX1, a :: b :: rest => some (a :: b :: a :: rest)
  | dupX2, a :: b :: rest =>
    if b.size = 2 then some (a :: b :: a :: rest)
    else
      match rest with
      | c :: rest => some (a :: b :: c :: a :: rest)
      | [] => none
  | dup2, a :: rest =>
    if a.size = 2 then some (a :: a :: rest)
    else
      match rest with
      | b :: rest => some (a :: b :: a :: b :: rest)
      | [] => none
  | dup2X1, a :: b :: rest =>
    if a.size = 2 then some (a :: b :: a :: rest)
    else
      match rest with
      | c :: rest => some (a :: b :: c :: a :: b :: rest)
      | [] => none
  | dup2X2, a :: b :: rest =>
    if a.size = 2 then
      if b.size = 2 then some (a :: b :: a :: rest)
      else
        match rest with
        | c :: rest => some (a :: b :: c :: a :: rest)
        | [] => none
    else
      match rest with
      | c :: rest =>
        if c.size = 2 then some (a :: b :: c :: a :: b :: rest)
        else
          match rest with
          | d :: rest => some (a :: b :: c :: d :: a :: b :: rest)
          | [] => none
      | [] => none
  | swap, a :: b :: rest => some (b :: a :: rest)
  | _, _ => none

/-- The move on words; `none` when there are too few. -/
def words {α : Type} : StackMove → List α → Option (List α)
  | pop, _ :: rest => some rest
  | pop2, _ :: _ :: rest => some rest
  | dup, a :: rest => some (a :: a :: rest)
  | dupX1, a :: b :: rest => some (a :: b :: a :: rest)
  | dupX2, a :: b :: c :: rest => some (a :: b :: c :: a :: rest)
  | dup2, a :: b :: rest => some (a :: b :: a :: b :: rest)
  | dup2X1, a :: b :: c :: rest => some (a :: b :: c :: a :: b :: rest)
  | dup2X2, a :: b :: c :: d :: rest => some (a :: b :: c :: d :: a :: b :: rest)
  | swap, a :: b :: rest => some (b :: a :: rest)
  | _, _ => none

end StackMove

end Injection
