import Injection.Frame

/-!
The reasons for which a class cannot be written as a class file.
-/

namespace Injection

inductive AssembleError where
  | unplacedLabel (label : Label)
  | branchOutOfRange (offset target : UInt32)
  | poolOverflow
  | invalidDescriptor (text : String)
  | codeTooLarge (method : String)
deriving DecidableEq, Inhabited

namespace AssembleError

def message : AssembleError → String
  | unplacedLabel label => "label " ++ label.text ++ " is never placed"
  | branchOutOfRange offset target =>
    "branch at offset " ++ toString offset ++ " cannot reach offset " ++ toString target
  | poolOverflow => "constant pool overflow"
  | invalidDescriptor text => "invalid descriptor `" ++ text ++ "`"
  | codeTooLarge method => "method `" ++ method ++ "` exceeds 65535 bytes of code"

end AssembleError

end Injection
