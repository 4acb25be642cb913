import Injection.Assembly.Layout

/-!
Encoding the frames of a method. A frame stands at the offset of the instruction after it and is
written relative to the frame before it, in the way it carries.
-/

namespace Injection

namespace Frame

/-- One entry for each value: drops the slot after each value of two words. -/
def compress : List FrameValue → List FrameValue
  | [] => []
  | [v] => [v]
  | v :: w :: rest => if v.slots = 2 then v :: compress rest else v :: compress (w :: rest)

end Frame

namespace StackMap

/-- The bytes of a value in a frame. -/
def verification (labelOffset : Label → Except AssembleError Nat) :
    FrameValue → Assembler (List UInt8)
  | .top => return [0]
  | .int => return [1]
  | .float => return [2]
  | .double => return [3]
  | .long => return [4]
  | .null => return [5]
  | .uninitializedThis => return [6]
  | .object name => do return 7 :: Bytes.u2 (← Assembler.classRef name).toNat
  | .uninitialized l => do return 8 :: Bytes.u2 (← Assembler.ofExcept (labelOffset l))

def verifications (labelOffset : Label → Except AssembleError Nat) (values : List FrameValue) :
    Assembler (List UInt8) := do
  let parts ← values.mapM (verification labelOffset)
  return parts.flatten

/-- The bytes of a frame at a distance from the one before it. -/
def frame (labelOffset : Label → Except AssembleError Nat) (delta : Nat) (f : Frame) :
    Assembler (List UInt8) := do
  let locals := Frame.compress f.locals
  match f.kind with
  | .same =>
    return if delta < 64 then [UInt8.ofNat delta] else 251 :: Bytes.u2 delta
  | .same1 =>
    let value ← verification labelOffset (f.stack.headD .top)
    return (if delta < 64 then [UInt8.ofNat (64 + delta)] else 247 :: Bytes.u2 delta) ++ value
  | .append count =>
    let added ← verifications labelOffset (locals.drop (locals.length - count))
    return (251 + UInt8.ofNat count) :: Bytes.u2 delta ++ added
  | .chop count => return (251 - UInt8.ofNat count) :: Bytes.u2 delta
  | .full | .expanded =>
    let localBytes ← verifications labelOffset locals
    let stackBytes ← verifications labelOffset f.stack
    return 255 :: Bytes.u2 delta ++ Bytes.u2 locals.length ++ localBytes ++
      Bytes.u2 f.stack.length ++ stackBytes

/-- The bytes of every frame among the nodes. -/
def frames (labelOffset : Label → Except AssembleError Nat) :
    (previous : Option UInt32) → List PlacedNode → Assembler (List (List UInt8))
  | _, [] => return []
  | previous, p :: rest =>
    match p.node with
    | .frame f => do
      let delta := match previous with
        | none => p.offset.toNat
        | some q => p.offset.toNat - (q + 1).toNat
      let bytes ← frame labelOffset delta f
      let rest ← frames labelOffset (some p.offset) rest
      return bytes :: rest
    | _ => frames labelOffset previous rest

end StackMap

end Injection
