import Injection.Text.Hex

/-!
The reasons for which a class file, or a descriptor in it, is refused.
-/

namespace Injection

inductive ClassFileError where
  | unexpectedEnd
  | invalidMagic (found : UInt32)
  | invalidPoolIndex (index : UInt16)
  | invalidPoolTag (tag : UInt8)
  | poolTypeMismatch (index : UInt16) (expected found : String)
  | invalidText
  | invalidDescriptor (text : String)
  | invalidOpcode (opcode : UInt8) (offset : Nat)
  | invalidBranchTarget (offset : Nat) (target : Int)
  | malformedAttribute (name : String)
  | trailingBytes (after : String)
  /-- An intermediate number left its fixed width. -/
  | overflow
deriving DecidableEq, Inhabited

namespace ClassFileError

def message : ClassFileError → String
  | unexpectedEnd => "unexpected end of input"
  | invalidMagic found => "invalid classfile magic: 0x" ++ Hex.fixed 8 found.toNat
  | invalidPoolIndex index => "invalid constant pool index: " ++ toString index.toNat
  | invalidPoolTag tag => "invalid constant pool tag: " ++ toString tag.toNat
  | poolTypeMismatch index expected found =>
    "constant pool type mismatch at index " ++ toString index.toNat ++ ": expected " ++
      expected ++ ", found " ++ found
  | invalidText => "invalid modified UTF-8 constant"
  | invalidDescriptor text => "invalid descriptor: " ++ text
  | invalidOpcode opcode offset =>
    "invalid opcode 0x" ++ Hex.fixed 2 opcode.toNat ++ " at offset " ++ toString offset
  | invalidBranchTarget offset target =>
    "branch target " ++ toString target ++ " out of range at offset " ++ toString offset
  | malformedAttribute name => "malformed " ++ name ++ " attribute"
  | trailingBytes after => "trailing bytes after " ++ after
  | overflow => "arithmetic overflow"

end ClassFileError

end Injection
