/-!
Opcodes of the virtual machine, as they appear in an instruction list: forms with an implied or a
wide operand are brought to the plain form while decoding, so that `ILOAD_1` is `ILOAD` with the
operand 1.
-/

namespace Injection

/-- An opcode is any byte; those above 201 name no instruction. -/
abbrev Opcode := UInt8

namespace Opcode

@[match_pattern] def nop : Opcode := 0
@[match_pattern] def aconstNull : Opcode := 1
@[match_pattern] def iconstM1 : Opcode := 2
@[match_pattern] def iconst0 : Opcode := 3
@[match_pattern] def iconst1 : Opcode := 4
@[match_pattern] def iconst2 : Opcode := 5
@[match_pattern] def iconst3 : Opcode := 6
@[match_pattern] def iconst4 : Opcode := 7
@[match_pattern] def iconst5 : Opcode := 8
@[match_pattern] def lconst0 : Opcode := 9
@[match_pattern] def lconst1 : Opcode := 10
@[match_pattern] def fconst0 : Opcode := 11
@[match_pattern] def fconst1 : Opcode := 12
@[match_pattern] def fconst2 : Opcode := 13
@[match_pattern] def dconst0 : Opcode := 14
@[match_pattern] def dconst1 : Opcode := 15
@[match_pattern] def bipush : Opcode := 16
@[match_pattern] def sipush : Opcode := 17
@[match_pattern] def ldc : Opcode := 18
@[match_pattern] def iload : Opcode := 21
@[match_pattern] def lload : Opcode := 22
@[match_pattern] def fload : Opcode := 23
@[match_pattern] def dload : Opcode := 24
@[match_pattern] def aload : Opcode := 25
@[match_pattern] def iaload : Opcode := 46
@[match_pattern] def laload : Opcode := 47
@[match_pattern] def faload : Opcode := 48
@[match_pattern] def daload : Opcode := 49
@[match_pattern] def aaload : Opcode := 50
@[match_pattern] def baload : Opcode := 51
@[match_pattern] def caload : Opcode := 52
@[match_pattern] def saload : Opcode := 53
@[match_pattern] def istore : Opcode := 54
@[match_pattern] def lstore : Opcode := 55
@[match_pattern] def fstore : Opcode := 56
@[match_pattern] def dstore : Opcode := 57
@[match_pattern] def astore : Opcode := 58
@[match_pattern] def iastore : Opcode := 79
@[match_pattern] def lastore : Opcode := 80
@[match_pattern] def fastore : Opcode := 81
@[match_pattern] def dastore : Opcode := 82
@[match_pattern] def aastore : Opcode := 83
@[match_pattern] def bastore : Opcode := 84
@[match_pattern] def castore : Opcode := 85
@[match_pattern] def sastore : Opcode := 86
@[match_pattern] def pop : Opcode := 87
@[match_pattern] def pop2 : Opcode := 88
@[match_pattern] def dup : Opcode := 89
@[match_pattern] def dupX1 : Opcode := 90
@[match_pattern] def dupX2 : Opcode := 91
@[match_pattern] def dup2 : Opcode := 92
@[match_pattern] def dup2X1 : Opcode := 93
@[match_pattern] def dup2X2 : Opcode := 94
@[match_pattern] def swap : Opcode := 95
@[match_pattern] def iadd : Opcode := 96
@[match_pattern] def ladd : Opcode := 97
@[match_pattern] def fadd : Opcode := 98
@[match_pattern] def dadd : Opcode := 99
@[match_pattern] def isub : Opcode := 100
@[match_pattern] def lsub : Opcode := 101
@[match_pattern] def fsub : Opcode := 102
@[match_pattern] def dsub : Opcode := 103
@[match_pattern] def imul : Opcode := 104
@[match_pattern] def lmul : Opcode := 105
@[match_pattern] def fmul : Opcode := 106
@[match_pattern] def dmul : Opcode := 107
@[match_pattern] def idiv : Opcode := 108
@[match_pattern] def ldiv : Opcode := 109
@[match_pattern] def fdiv : Opcode := 110
@[match_pattern] def ddiv : Opcode := 111
@[match_pattern] def irem : Opcode := 112
@[match_pattern] def lrem : Opcode := 113
@[match_pattern] def frem : Opcode := 114
@[match_pattern] def drem : Opcode := 115
@[match_pattern] def ineg : Opcode := 116
@[match_pattern] def lneg : Opcode := 117
@[match_pattern] def fneg : Opcode := 118
@[match_pattern] def dneg : Opcode := 119
@[match_pattern] def ishl : Opcode := 120
@[match_pattern] def lshl : Opcode := 121
@[match_pattern] def ishr : Opcode := 122
@[match_pattern] def lshr : Opcode := 123
@[match_pattern] def iushr : Opcode := 124
@[match_pattern] def lushr : Opcode := 125
@[match_pattern] def iand : Opcode := 126
@[match_pattern] def land : Opcode := 127
@[match_pattern] def ior : Opcode := 128
@[match_pattern] def lor : Opcode := 129
@[match_pattern] def ixor : Opcode := 130
@[match_pattern] def lxor : Opcode := 131
@[match_pattern] def iinc : Opcode := 132
@[match_pattern] def i2l : Opcode := 133
@[match_pattern] def i2f : Opcode := 134
@[match_pattern] def i2d : Opcode := 135
@[match_pattern] def l2i : Opcode := 136
@[match_pattern] def l2f : Opcode := 137
@[match_pattern] def l2d : Opcode := 138
@[match_pattern] def f2i : Opcode := 139
@[match_pattern] def f2l : Opcode := 140
@[match_pattern] def f2d : Opcode := 141
@[match_pattern] def d2i : Opcode := 142
@[match_pattern] def d2l : Opcode := 143
@[match_pattern] def d2f : Opcode := 144
@[match_pattern] def i2b : Opcode := 145
@[match_pattern] def i2c : Opcode := 146
@[match_pattern] def i2s : Opcode := 147
@[match_pattern] def lcmp : Opcode := 148
@[match_pattern] def fcmpl : Opcode := 149
@[match_pattern] def fcmpg : Opcode := 150
@[match_pattern] def dcmpl : Opcode := 151
@[match_pattern] def dcmpg : Opcode := 152
@[match_pattern] def ifeq : Opcode := 153
@[match_pattern] def ifne : Opcode := 154
@[match_pattern] def iflt : Opcode := 155
@[match_pattern] def ifge : Opcode := 156
@[match_pattern] def ifgt : Opcode := 157
@[match_pattern] def ifle : Opcode := 158
@[match_pattern] def ifIcmpeq : Opcode := 159
@[match_pattern] def ifIcmpne : Opcode := 160
@[match_pattern] def ifIcmplt : Opcode := 161
@[match_pattern] def ifIcmpge : Opcode := 162
@[match_pattern] def ifIcmpgt : Opcode := 163
@[match_pattern] def ifIcmple : Opcode := 164
@[match_pattern] def ifAcmpeq : Opcode := 165
@[match_pattern] def ifAcmpne : Opcode := 166
@[match_pattern] def goto : Opcode := 167
@[match_pattern] def jsr : Opcode := 168
@[match_pattern] def ret : Opcode := 169
@[match_pattern] def tableswitch : Opcode := 170
@[match_pattern] def lookupswitch : Opcode := 171
@[match_pattern] def ireturn : Opcode := 172
@[match_pattern] def freturn : Opcode := 174
@[match_pattern] def dreturn : Opcode := 175
@[match_pattern] def areturn : Opcode := 176
@[match_pattern] def returnVoid : Opcode := 177
@[match_pattern] def getstatic : Opcode := 178
@[match_pattern] def putstatic : Opcode := 179
@[match_pattern] def getfield : Opcode := 180
@[match_pattern] def putfield : Opcode := 181
@[match_pattern] def invokevirtual : Opcode := 182
@[match_pattern] def invokespecial : Opcode := 183
@[match_pattern] def invokestatic : Opcode := 184
@[match_pattern] def invokeinterface : Opcode := 185
@[match_pattern] def invokedynamic : Opcode := 186
@[match_pattern] def newObject : Opcode := 187
@[match_pattern] def newarray : Opcode := 188
@[match_pattern] def anewarray : Opcode := 189
@[match_pattern] def arraylength : Opcode := 190
@[match_pattern] def athrow : Opcode := 191
@[match_pattern] def checkcast : Opcode := 192
@[match_pattern] def instanceOf : Opcode := 193
@[match_pattern] def monitorenter : Opcode := 194
@[match_pattern] def monitorexit : Opcode := 195
@[match_pattern] def multianewarray : Opcode := 197
@[match_pattern] def ifnull : Opcode := 198
@[match_pattern] def ifnonnull : Opcode := 199

/-- The names of the opcodes from 0 on. -/
def mnemonics : Array String :=
  #["NOP", "ACONST_NULL", "ICONST_M1", "ICONST_0", "ICONST_1", "ICONST_2", "ICONST_3",
    "ICONST_4", "ICONST_5", "LCONST_0", "LCONST_1", "FCONST_0", "FCONST_1", "FCONST_2",
    "DCONST_0", "DCONST_1", "BIPUSH", "SIPUSH", "LDC", "LDC_W", "LDC2_W", "ILOAD", "LLOAD",
    "FLOAD", "DLOAD", "ALOAD", "ILOAD_0", "ILOAD_1", "ILOAD_2", "ILOAD_3", "LLOAD_0", "LLOAD_1",
    "LLOAD_2", "LLOAD_3", "FLOAD_0", "FLOAD_1", "FLOAD_2", "FLOAD_3", "DLOAD_0", "DLOAD_1",
    "DLOAD_2", "DLOAD_3", "ALOAD_0", "ALOAD_1", "ALOAD_2", "ALOAD_3", "IALOAD", "LALOAD",
    "FALOAD", "DALOAD", "AALOAD", "BALOAD", "CALOAD", "SALOAD", "ISTORE", "LSTORE", "FSTORE",
    "DSTORE", "ASTORE", "ISTORE_0", "ISTORE_1", "ISTORE_2", "ISTORE_3", "LSTORE_0", "LSTORE_1",
    "LSTORE_2", "LSTORE_3", "FSTORE_0", "FSTORE_1", "FSTORE_2", "FSTORE_3", "DSTORE_0",
    "DSTORE_1", "DSTORE_2", "DSTORE_3", "ASTORE_0", "ASTORE_1", "ASTORE_2", "ASTORE_3",
    "IASTORE", "LASTORE", "FASTORE", "DASTORE", "AASTORE", "BASTORE", "CASTORE", "SASTORE",
    "POP", "POP2", "DUP", "DUP_X1", "DUP_X2", "DUP2", "DUP2_X1", "DUP2_X2", "SWAP", "IADD",
    "LADD", "FADD", "DADD", "ISUB", "LSUB", "FSUB", "DSUB", "IMUL", "LMUL", "FMUL", "DMUL",
    "IDIV", "LDIV", "FDIV", "DDIV", "IREM", "LREM", "FREM", "DREM", "INEG", "LNEG", "FNEG",
    "DNEG", "ISHL", "LSHL", "ISHR", "LSHR", "IUSHR", "LUSHR", "IAND", "LAND", "IOR", "LOR",
    "IXOR", "LXOR", "IINC", "I2L", "I2F", "I2D", "L2I", "L2F", "L2D", "F2I", "F2L", "F2D", "D2I",
    "D2L", "D2F", "I2B", "I2C", "I2S", "LCMP", "FCMPL", "FCMPG", "DCMPL", "DCMPG", "IFEQ",
    "IFNE", "IFLT", "IFGE", "IFGT", "IFLE", "IF_ICMPEQ", "IF_ICMPNE", "IF_ICMPLT", "IF_ICMPGE",
    "IF_ICMPGT", "IF_ICMPLE", "IF_ACMPEQ", "IF_ACMPNE", "GOTO", "JSR", "RET", "TABLESWITCH",
    "LOOKUPSWITCH", "IRETURN", "LRETURN", "FRETURN", "DRETURN", "ARETURN", "RETURN", "GETSTATIC",
    "PUTSTATIC", "GETFIELD", "PUTFIELD", "INVOKEVIRTUAL", "INVOKESPECIAL", "INVOKESTATIC",
    "INVOKEINTERFACE", "INVOKEDYNAMIC", "NEW", "NEWARRAY", "ANEWARRAY", "ARRAYLENGTH", "ATHROW",
    "CHECKCAST", "INSTANCEOF", "MONITORENTER", "MONITOREXIT", "WIDE", "MULTIANEWARRAY", "IFNULL",
    "IFNONNULL", "GOTO_W", "JSR_W"]

def mnemonic (op : Opcode) : String := mnemonics.getD op.toNat "<invalid>"

/-- A text with the letters `A` to `Z` in lower case. -/
def folded (text : String) : List Char := text.toList.map Char.toLower

/-- The opcode of a name, in any case. -/
def ofMnemonic? (name : String) : Option Opcode :=
  (mnemonics.findIdx? fun known => folded known = folded name).map UInt8.ofNat

def isReturn (op : Opcode) : Bool := ireturn ≤ op && op ≤ returnVoid

def isLocalLoad (op : Opcode) : Bool := iload ≤ op && op ≤ aload

def isLocalStore (op : Opcode) : Bool := istore ≤ op && op ≤ astore

/-- Jumps with one label, conditional or not. -/
def isJump (op : Opcode) : Bool :=
  (ifeq ≤ op && op ≤ jsr) || op = ifnull || op = ifnonnull

def isField (op : Opcode) : Bool := getstatic ≤ op && op ≤ putfield

def isInvoke (op : Opcode) : Bool := invokevirtual ≤ op && op ≤ invokeinterface

/-- The number of slots that a load or store touches. -/
def accessWidth (op : Opcode) : Nat :=
  if op = lload || op = dload || op = lstore || op = dstore then 2 else 1

inductive OperandForm where
  | plain
  /-- A signed byte. -/
  | byte
  /-- A signed number of two bytes. -/
  | short
  /-- The element type of a new array, one byte. -/
  | element
  /-- A constant, by a pool index of one byte. -/
  | constant
  /-- A constant, by a pool index of two bytes. -/
  | wideConstant
  /-- A local slot of one byte. -/
  | slot
  /-- A local slot below four told by the opcode itself: `first` stands for the slot 0 of `base`,
  and every fourth opcode begins the next one. -/
  | impliedSlot (first base : Opcode)
  | increment
  /-- A branch distance of two bytes. -/
  | branch
  /-- A branch distance of four bytes; the short form of the opcode is `base`. -/
  | wideBranch (base : Opcode)
  | tableSwitch
  | lookupSwitch
  | field
  | invoke
  | invokeDynamic
  | type
  | multiArray
  /-- Another opcode with a slot of two bytes. -/
  | wide
  | undefined
deriving DecidableEq, Inhabited

def operandForm (op : Opcode) : OperandForm :=
  let n := op.toNat
  if n ≤ 15 then .plain
  else if n = 16 then .byte
  else if n = 17 then .short
  else if n = 18 then .constant
  else if n ≤ 20 then .wideConstant
  else if n ≤ 25 then .slot
  else if n ≤ 45 then .impliedSlot 26 iload
  else if n ≤ 53 then .plain
  else if n ≤ 58 then .slot
  else if n ≤ 78 then .impliedSlot 59 istore
  else if n ≤ 131 then .plain
  else if n = 132 then .increment
  else if n ≤ 152 then .plain
  else if n ≤ 168 then .branch
  else if n = 169 then .slot
  else if n = 170 then .tableSwitch
  else if n = 171 then .lookupSwitch
  else if n ≤ 177 then .plain
  else if n ≤ 181 then .field
  else if n ≤ 185 then .invoke
  else if n = 186 then .invokeDynamic
  else if n = 187 then .type
  else if n = 188 then .element
  else if n = 189 then .type
  else if n ≤ 191 then .plain
  else if n ≤ 193 then .type
  else if n ≤ 195 then .plain
  else if n = 196 then .wide
  else if n = 197 then .multiArray
  else if n ≤ 199 then .branch
  else if n = 200 then .wideBranch goto
  else if n = 201 then .wideBranch jsr
  else .undefined

end Opcode

end Injection
