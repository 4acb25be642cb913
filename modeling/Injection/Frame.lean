import Injection.Access
import Injection.Descriptor

/-!
Stack-map frames: what the locals and the stack hold at a place of a method, as declared for the
verifier.

Frames are written with one entry for each value. `expand` gives the form with one entry for
each slot, in which a value of two words is followed by a `top` for its second slot.
-/

namespace Injection

/-- A place in an instruction list that jumps, ranges and lines refer to. -/
structure Label where
  id : Nat
deriving DecidableEq, Hashable, Inhabited

namespace Label

def text (l : Label) : String := "L" ++ toString l.id

end Label

/-- The type of a value in a frame. An object is given by its internal name or its array
descriptor, a fresh object by the label before the instruction that made it. -/
inductive FrameValue where
  | top
  | int
  | float
  | long
  | double
  | null
  | uninitializedThis
  | object (name : String)
  | uninitialized (label : Label)
deriving DecidableEq, Hashable, Inhabited

namespace FrameValue

def slots : FrameValue → Nat
  | long | double => 2
  | _ => 1

def ofFieldType (t : FieldType) : FrameValue :=
  match t with
  | .base .long => long
  | .base .double => double
  | .base .float => float
  | .base _ => int
  | .object name => object name
  | .array _ => object t.descriptor

def text : FrameValue → String
  | top => "T"
  | int => "I"
  | float => "F"
  | long => "J"
  | double => "D"
  | null => "null"
  | uninitializedThis => "uninitialized_this"
  | object name => name
  | uninitialized label => "uninitialized " ++ label.text

def relabel (f : Label → Label) : FrameValue → FrameValue
  | uninitialized label => uninitialized (f label)
  | v => v

end FrameValue

/-- How a frame was written: relative to the frame before it, in full, or (`expanded`) with no
account of it. `append` and `chop` carry the number of values added or removed. -/
inductive FrameKind where
  | same
  | same1
  | append (count : Nat)
  | chop (count : Nat)
  | full
  | expanded
deriving DecidableEq, Hashable, Inhabited

namespace FrameKind

def text : FrameKind → String
  | same => "Same"
  | same1 => "Same1"
  | append count => "Append(" ++ toString count ++ ")"
  | chop count => "Chop(" ++ toString count ++ ")"
  | full => "Full"
  | expanded => "New"

end FrameKind

/-- A frame. The locals are those that hold at the frame, one entry for each slot, whichever way
the frame was written. -/
structure Frame where
  kind : FrameKind
  locals : List FrameValue
  stack : List FrameValue
deriving DecidableEq, Hashable, Inhabited

namespace Frame

/-- One entry for each slot. -/
def expand (values : List FrameValue) : List FrameValue :=
  values.flatMap fun v => if v.slots = 2 then [v, .top] else [v]

/-- The frame of given values, with one local for each value. -/
def ofValues (kind : FrameKind) (locals stack : List FrameValue) : Frame :=
  ⟨kind, expand locals, stack⟩

def relabel (f : Label → Label) (frame : Frame) : Frame :=
  ⟨frame.kind, frame.locals.map (·.relabel f), frame.stack.map (·.relabel f)⟩

def text (frame : Frame) : String :=
  "FRAME " ++ frame.kind.text ++ " [" ++ " ".intercalate (frame.locals.map FrameValue.text) ++
    "] [" ++ " ".intercalate (frame.stack.map FrameValue.text) ++ "]"

/-- The values of the locals on entry to a method: the receiver, which a constructor has yet to
initialise, and the parameters. -/
def entryLocals (owner : String) (access : Access) (name desc : String) :
    Except ClassFileError (List FrameValue) := do
  let method ← MethodDescriptor.parse desc
  let receiver : List FrameValue :=
    if access.isStatic then []
    else if name = "<init>" then [.uninitializedThis]
    else [.object owner]
  return receiver ++ method.params.map .ofFieldType

end Frame

end Injection
