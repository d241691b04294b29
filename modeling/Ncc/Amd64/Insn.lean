import Ncc.Amd64.Frame
import Ncc.Color

/-! AMD64 insns as the other passes see them (amd64/insn.h, amd64/insn.c).

    An `insn_op` packs how many operands there are, their sizes, which of them the insn DEFs and
    USEs, and some flags. What an insn does to registers is read off these bits, except for the
    registers that an insn implies. -/

namespace Ncc.Amd64

/-! ### Packed fields -/

/-- I_FLAG_TARGET. -/
def flagTarget : BitVec 32 := 0x80000000

/-- AMD64_I_FLAG_*. -/
def flagDefZ : BitVec 32 := 0x00800000
@[inherit_doc flagDefZ] def flagDefcc : BitVec 32 := 0x04000000
@[inherit_doc flagDefZ] def flagUsecc : BitVec 32 := 0x08000000
@[inherit_doc flagDefZ] def flagSide : BitVec 32 := 0x10000000
@[inherit_doc flagDefZ] def flagDefmem : BitVec 32 := 0x20000000
@[inherit_doc flagDefZ] def flagUsemem : BitVec 32 := 0x40000000

/-- AMD64_SIZE_*. -/
def sizeByte : BitVec 32 := 0
@[inherit_doc sizeByte] def sizeWord : BitVec 32 := 1
@[inherit_doc sizeByte] def sizeDword : BitVec 32 := 2
@[inherit_doc sizeByte] def sizeQword : BitVec 32 := 3
@[inherit_doc sizeByte] def sizeOword : BitVec 32 := 4

/-- AMD64_I_ENC_OPERANDS. -/
def encOperands (n : BitVec 32) : BitVec 32 := n <<< 7

/-- AMD64_I_ENC_SIZE. -/
def encSize (n : Nat) (s : BitVec 32) : BitVec 32 := s <<< (9 + n * 2)

/-- AMD64_I_ENC_DEFS. -/
def encDefs (n : Nat) : BitVec 32 := 1 <<< (13 + n)

/-- AMD64_I_ENC_USES. -/
def encUses (n : Nat) : BitVec 32 := 1 <<< (15 + n)

/-- AMD64_I_ENC_IARGS. -/
def encIargs (n : Nat) : BitVec 32 := BitVec.ofNat 32 n <<< 17

/-- AMD64_I_ENC_FARGS. -/
def encFargs (n : Nat) : BitVec 32 := BitVec.ofNat 32 n <<< 20

/-- AMD64_I_ENC_FUSE. -/
def encFuse (n : Nat) : BitVec 32 := 1 <<< (24 + n)

/-- AMD64_I_OPERANDS. -/
def opOperands (i : BitVec 32) : Nat := (i >>> 7 &&& 3).toNat

/-- AMD64_I_DEFS. -/
def opDefs (i : BitVec 32) (n : Nat) : Bool := i >>> (13 + n) &&& 1 != 0

/-- AMD64_I_USES. -/
def opUses (i : BitVec 32) (n : Nat) : Bool := i >>> (15 + n) &&& 1 != 0

/-- AMD64_I_IARGS. -/
def opIargs (i : BitVec 32) : Nat := (i >>> 17 &&& 7).toNat

/-- AMD64_I_FARGS. -/
def opFargs (i : BitVec 32) : Nat := (i >>> 20 &&& 7).toNat

/-- AMD64_I_*. -/
inductive Opcode where
  | movb | movw | movl | movq | movsbl | movzbl | movsbq | movzbq | movswl | movzwl | movswq
  | movzwq | movslq | movzlq | movss | movsd | cvtsi2ssl | cvtsi2ssq | cvtsi2sdl | cvtsi2sdq
  | cvtss2sil | cvtss2siq | cvtsd2sil | cvtsd2siq | cvtss2sd | cvtsd2ss | zero | pushq | popq
  | leal | leaq | setz | setnz | setg | setle | setge | setl | seta | setbe | setae | setb | ret
  | retI | retF | shll | shlq | shrl | shrq | sarl | sarq | addl | addq | addss | addsd | subl
  | subq | subss | subsd | andl | andq | orl | orq | xorl | xorq | cmpl | cmpq | ucomiss | ucomisd
  | notl | notq | negl | negq | mulss | mulsd | divss | divsd | imull | imulq | divl | divq | idivl
  | idivq | cltd | cqto | rep | movsb | stosb | addb | subb | addw | subw | testl | testq | stosq
  | xmmzero | movups | movsw | movsl | movsq | incb | incw | incl | incq | decb | decw | decl
  | decq
  | call (iargs fargs : Fin 7)
  deriving DecidableEq

/-- AMD64_I(...): the `insn_op`. The size of an XMM operand has three bits, of which the field holds
    two. -/
def Opcode.bits : Opcode → BitVec 32
  | .movb =>
    0 ||| encOperands 2 ||| encSize 0 sizeByte ||| encUses 0 ||| encSize 1 sizeByte ||| encDefs 1
  | .movw =>
    1 ||| encOperands 2 ||| encSize 0 sizeWord ||| encUses 0 ||| encSize 1 sizeWord ||| encDefs 1
  | .movl =>
    2 ||| encOperands 2 ||| encSize 0 sizeDword ||| encUses 0 ||| encFuse 0 ||| encSize 1 sizeDword |||
      encDefs 1 ||| encFuse 1
  | .movq =>
    3 ||| encOperands 2 ||| encSize 0 sizeQword ||| encUses 0 ||| encFuse 0 ||| encSize 1 sizeQword |||
      encDefs 1 ||| encFuse 1
  | .movsbl =>
    4 ||| encOperands 2 ||| encSize 0 sizeByte ||| encUses 0 ||| encSize 1 sizeDword ||| encDefs 1
  | .movzbl =>
    5 ||| encOperands 2 ||| encSize 0 sizeByte ||| encUses 0 ||| encSize 1 sizeDword ||| encDefs 1
  | .movsbq =>
    6 ||| encOperands 2 ||| encSize 0 sizeByte ||| encUses 0 ||| encFuse 0 ||| encSize 1 sizeQword |||
      encDefs 1 ||| encFuse 1
  | .movzbq =>
    7 ||| encOperands 2 ||| encSize 0 sizeByte ||| encUses 0 ||| encFuse 0 ||| encSize 1 sizeQword |||
      encDefs 1 ||| encFuse 1
  | .movswl =>
    8 ||| encOperands 2 ||| encSize 0 sizeWord ||| encUses 0 ||| encFuse 0 ||| encSize 1 sizeDword |||
      encDefs 1 ||| encFuse 1
  | .movzwl =>
    9 ||| encOperands 2 ||| encSize 0 sizeWord ||| encUses 0 ||| encFuse 0 ||| encSize 1 sizeDword |||
      encDefs 1 ||| encFuse 1
  | .movswq =>
    10 ||| encOperands 2 ||| encSize 0 sizeWord ||| encUses 0 ||| encFuse 0 ||| encSize 1 sizeQword |||
      encDefs 1 ||| encFuse 1
  | .movzwq =>
    11 ||| encOperands 2 ||| encSize 0 sizeWord ||| encUses 0 ||| encFuse 0 ||| encSize 1 sizeQword |||
      encDefs 1 ||| encFuse 1
  | .movslq =>
    12 ||| encOperands 2 ||| encSize 0 sizeDword ||| encUses 0 ||| encFuse 0 |||
      encSize 1 sizeQword ||| encDefs 1 ||| encFuse 1
  | .movzlq =>
    13 ||| encOperands 2 ||| encSize 0 sizeDword ||| encUses 0 ||| encSize 1 sizeDword |||
      encDefs 1
  | .movss =>
    14 ||| encOperands 2 ||| encSize 0 sizeDword ||| encUses 0 ||| encSize 1 sizeDword |||
      encDefs 1
  | .movsd =>
    15 ||| encOperands 2 ||| encSize 0 sizeQword ||| encUses 0 ||| encSize 1 sizeQword |||
      encDefs 1
  | .cvtsi2ssl =>
    16 ||| encOperands 2 ||| encSize 0 sizeDword ||| encUses 0 ||| encSize 1 sizeDword |||
      encDefs 1
  | .cvtsi2ssq =>
    17 ||| encOperands 2 ||| encSize 0 sizeQword ||| encUses 0 ||| encSize 1 sizeDword |||
      encDefs 1
  | .cvtsi2sdl =>
    18 ||| encOperands 2 ||| encSize 0 sizeDword ||| encUses 0 ||| encSize 1 sizeQword |||
      encDefs 1
  | .cvtsi2sdq =>
    19 ||| encOperands 2 ||| encSize 0 sizeQword ||| encUses 0 ||| encSize 1 sizeQword |||
      encDefs 1
  | .cvtss2sil =>
    20 ||| encOperands 2 ||| encSize 0 sizeDword ||| encUses 0 ||| encSize 1 sizeDword |||
      encDefs 1
  | .cvtss2siq =>
    21 ||| encOperands 2 ||| encSize 0 sizeDword ||| encUses 0 ||| encSize 1 sizeQword |||
      encDefs 1
  | .cvtsd2sil =>
    22 ||| encOperands 2 ||| encSize 0 sizeQword ||| encUses 0 ||| encSize 1 sizeDword |||
      encDefs 1
  | .cvtsd2siq =>
    23 ||| encOperands 2 ||| encSize 0 sizeQword ||| encUses 0 ||| encSize 1 sizeQword |||
      encDefs 1
  | .cvtss2sd =>
    24 ||| encOperands 2 ||| encSize 0 sizeDword ||| encUses 0 ||| encSize 1 sizeQword |||
      encDefs 1
  | .cvtsd2ss =>
    25 ||| encOperands 2 ||| encSize 0 sizeQword ||| encUses 0 ||| encSize 1 sizeDword |||
      encDefs 1
  | .zero =>
    26 ||| flagDefcc ||| encOperands 2 ||| encSize 0 sizeDword ||| encDefs 0 |||
      encSize 1 sizeDword ||| encDefs 1
  | .pushq => 27 ||| flagSide ||| encOperands 1 ||| encSize 0 sizeQword ||| encUses 0
  | .popq => 28 ||| flagSide ||| encOperands 1 ||| encSize 0 sizeQword ||| encDefs 0
  | .leal =>
    29 ||| encOperands 2 ||| encSize 0 sizeDword ||| encUses 0 ||| encSize 1 sizeDword |||
      encDefs 1
  | .leaq =>
    30 ||| encOperands 2 ||| encSize 0 sizeQword ||| encUses 0 ||| encSize 1 sizeQword |||
      encDefs 1
  | .setz => 31 ||| flagUsecc ||| encOperands 1 ||| encSize 0 sizeByte ||| encDefs 0
  | .setnz => 32 ||| flagUsecc ||| encOperands 1 ||| encSize 0 sizeByte ||| encDefs 0
  | .setg => 33 ||| flagUsecc ||| encOperands 1 ||| encSize 0 sizeByte ||| encDefs 0
  | .setle => 34 ||| flagUsecc ||| encOperands 1 ||| encSize 0 sizeByte ||| encDefs 0
  | .setge => 35 ||| flagUsecc ||| encOperands 1 ||| encSize 0 sizeByte ||| encDefs 0
  | .setl => 36 ||| flagUsecc ||| encOperands 1 ||| encSize 0 sizeByte ||| encDefs 0
  | .seta => 37 ||| flagUsecc ||| encOperands 1 ||| encSize 0 sizeByte ||| encDefs 0
  | .setbe => 38 ||| flagUsecc ||| encOperands 1 ||| encSize 0 sizeByte ||| encDefs 0
  | .setae => 39 ||| flagUsecc ||| encOperands 1 ||| encSize 0 sizeByte ||| encDefs 0
  | .setb => 40 ||| flagUsecc ||| encOperands 1 ||| encSize 0 sizeByte ||| encDefs 0
  | .ret => 41 ||| flagSide
  | .retI => 42 ||| flagSide
  | .retF => 43 ||| flagSide
  | .shll =>
    44 ||| flagDefcc ||| flagDefZ ||| encOperands 2 ||| encSize 0 sizeByte ||| encUses 0 |||
      encSize 1 sizeDword ||| encUses 1 ||| encDefs 1
  | .shlq =>
    45 ||| flagDefcc ||| flagDefZ ||| encOperands 2 ||| encSize 0 sizeByte ||| encUses 0 |||
      encSize 1 sizeQword ||| encUses 1 ||| encDefs 1
  | .shrl =>
    46 ||| flagDefcc ||| flagDefZ ||| encOperands 2 ||| encSize 0 sizeByte ||| encUses 0 |||
      encSize 1 sizeDword ||| encUses 1 ||| encDefs 1
  | .shrq =>
    47 ||| flagDefcc ||| flagDefZ ||| encOperands 2 ||| encSize 0 sizeByte ||| encUses 0 |||
      encSize 1 sizeQword ||| encUses 1 ||| encDefs 1
  | .sarl =>
    48 ||| flagDefcc ||| flagDefZ ||| encOperands 2 ||| encSize 0 sizeByte ||| encUses 0 |||
      encSize 1 sizeDword ||| encUses 1 ||| encDefs 1
  | .sarq =>
    49 ||| flagDefcc ||| flagDefZ ||| encOperands 2 ||| encSize 0 sizeByte ||| encUses 0 |||
      encSize 1 sizeQword ||| encUses 1 ||| encDefs 1
  | .addl =>
    50 ||| flagDefcc ||| flagDefZ ||| encOperands 2 ||| encSize 0 sizeDword ||| encUses 0 |||
      encFuse 0 ||| encSize 1 sizeDword ||| encUses 1 ||| encDefs 1 ||| encFuse 1
  | .addq =>
    51 ||| flagDefcc ||| flagDefZ ||| encOperands 2 ||| encSize 0 sizeQword ||| encUses 0 |||
      encFuse 0 ||| encSize 1 sizeQword ||| encUses 1 ||| encDefs 1 ||| encFuse 1
  | .addss =>
    52 ||| encOperands 2 ||| encSize 0 sizeDword ||| encUses 0 ||| encSize 1 sizeDword |||
      encUses 1 ||| encDefs 1
  | .addsd =>
    53 ||| encOperands 2 ||| encSize 0 sizeQword ||| encUses 0 ||| encSize 1 sizeQword |||
      encUses 1 ||| encDefs 1
  | .subl =>
    54 ||| flagDefcc ||| flagDefZ ||| encOperands 2 ||| encSize 0 sizeDword ||| encUses 0 |||
      encFuse 0 ||| encSize 1 sizeDword ||| encUses 1 ||| encDefs 1 ||| encFuse 1
  | .subq =>
    55 ||| flagDefcc ||| flagDefZ ||| encOperands 2 ||| encSize 0 sizeQword ||| encUses 0 |||
      encFuse 0 ||| encSize 1 sizeQword ||| encUses 1 ||| encDefs 1 ||| encFuse 1
  | .subss =>
    56 ||| encOperands 2 ||| encSize 0 sizeDword ||| encUses 0 ||| encSize 1 sizeDword |||
      encUses 1 ||| encDefs 1
  | .subsd =>
    57 ||| encOperands 2 ||| encSize 0 sizeQword ||| encUses 0 ||| encSize 1 sizeQword |||
      encUses 1 ||| encDefs 1
  | .andl =>
    58 ||| flagDefcc ||| flagDefZ ||| encOperands 2 ||| encSize 0 sizeDword ||| encUses 0 |||
      encFuse 0 ||| encSize 1 sizeDword ||| encUses 1 ||| encDefs 1 ||| encFuse 1
  | .andq =>
    59 ||| flagDefcc ||| flagDefZ ||| encOperands 2 ||| encSize 0 sizeQword ||| encUses 0 |||
      encFuse 0 ||| encSize 1 sizeQword ||| encUses 1 ||| encDefs 1 ||| encFuse 1
  | .orl =>
    60 ||| flagDefcc ||| flagDefZ ||| encOperands 2 ||| encSize 0 sizeDword ||| encUses 0 |||
      encFuse 0 ||| encSize 1 sizeDword ||| encUses 1 ||| encDefs 1 ||| encFuse 1
  | .orq =>
    61 ||| flagDefcc ||| flagDefZ ||| encOperands 2 ||| encSize 0 sizeQword ||| encUses 0 |||
      encFuse 0 ||| encSize 1 sizeQword ||| encUses 1 ||| encDefs 1 ||| encFuse 1
  | .xorl =>
    62 ||| flagDefcc ||| flagDefZ ||| encOperands 2 ||| encSize 0 sizeDword ||| encUses 0 |||
      encFuse 0 ||| encSize 1 sizeDword ||| encUses 1 ||| encDefs 1 ||| encFuse 1
  | .xorq =>
    63 ||| flagDefcc ||| flagDefZ ||| encOperands 2 ||| encSize 0 sizeQword ||| encUses 0 |||
      encFuse 0 ||| encSize 1 sizeQword ||| encUses 1 ||| encDefs 1 ||| encFuse 1
  | .cmpl =>
    64 ||| flagDefcc ||| encOperands 2 ||| encSize 0 sizeDword ||| encUses 0 ||| encFuse 0 |||
      encSize 1 sizeDword ||| encUses 1 ||| encFuse 1
  | .cmpq =>
    65 ||| flagDefcc ||| encOperands 2 ||| encSize 0 sizeQword ||| encUses 0 ||| encFuse 0 |||
      encSize 1 sizeQword ||| encUses 1 ||| encFuse 1
  | .ucomiss =>
    66 ||| flagDefcc ||| encOperands 2 ||| encSize 0 sizeDword ||| encUses 0 |||
      encSize 1 sizeDword ||| encUses 1
  | .ucomisd =>
    67 ||| flagDefcc ||| encOperands 2 ||| encSize 0 sizeQword ||| encUses 0 |||
      encSize 1 sizeQword ||| encUses 1
  | .notl => 68 ||| encOperands 1 ||| encSize 0 sizeDword ||| encUses 0 ||| encDefs 0
  | .notq => 69 ||| encOperands 1 ||| encSize 0 sizeQword ||| encUses 0 ||| encDefs 0
  | .negl => 70 ||| flagDefcc ||| encOperands 1 ||| encSize 0 sizeDword ||| encUses 0 ||| encDefs 0
  | .negq => 71 ||| flagDefcc ||| encOperands 1 ||| encSize 0 sizeQword ||| encUses 0 ||| encDefs 0
  | .mulss =>
    72 ||| encOperands 2 ||| encSize 0 sizeDword ||| encUses 0 ||| encSize 1 sizeDword |||
      encUses 1 ||| encDefs 1
  | .mulsd =>
    73 ||| encOperands 2 ||| encSize 0 sizeQword ||| encUses 0 ||| encSize 1 sizeQword |||
      encUses 1 ||| encDefs 1
  | .divss =>
    74 ||| encOperands 2 ||| encSize 0 sizeDword ||| encUses 0 ||| encSize 1 sizeDword |||
      encUses 1 ||| encDefs 1
  | .divsd =>
    75 ||| encOperands 2 ||| encSize 0 sizeQword ||| encUses 0 ||| encSize 1 sizeQword |||
      encUses 1 ||| encDefs 1
  | .imull =>
    76 ||| flagDefcc ||| encOperands 2 ||| encSize 0 sizeDword ||| encUses 0 ||| encFuse 0 |||
      encSize 1 sizeDword ||| encUses 1 ||| encDefs 1
  | .imulq =>
    77 ||| flagDefcc ||| encOperands 2 ||| encSize 0 sizeQword ||| encUses 0 ||| encFuse 0 |||
      encSize 1 sizeQword ||| encUses 1 ||| encDefs 1
  | .divl => 78 ||| flagDefcc ||| encOperands 1 ||| encSize 0 sizeDword ||| encUses 0
  | .divq => 79 ||| flagDefcc ||| encOperands 1 ||| encSize 0 sizeQword ||| encUses 0
  | .idivl => 80 ||| flagDefcc ||| encOperands 1 ||| encSize 0 sizeDword ||| encUses 0
  | .idivq => 81 ||| flagDefcc ||| encOperands 1 ||| encSize 0 sizeQword ||| encUses 0
  | .cltd => 82
  | .cqto => 83
  | .rep => 84 ||| flagSide
  | .movsb => 85 ||| flagDefmem ||| flagUsemem
  | .stosb => 86 ||| flagDefmem
  | .call iargs fargs =>
    87 ||| flagUsemem ||| flagDefmem ||| flagSide ||| flagDefcc ||| encOperands 1 |||
      encSize 0 sizeQword ||| encUses 0 ||| encIargs iargs ||| encFargs fargs
  | .addb =>
    88 ||| flagDefcc ||| encOperands 2 ||| encSize 0 sizeByte ||| encUses 0 ||| encSize 1 sizeByte |||
      encUses 1 ||| encDefs 1
  | .subb =>
    89 ||| flagDefcc ||| encOperands 2 ||| encSize 0 sizeByte ||| encUses 0 ||| encSize 1 sizeByte |||
      encUses 1 ||| encDefs 1
  | .addw =>
    90 ||| flagDefcc ||| encOperands 2 ||| encSize 0 sizeWord ||| encUses 0 ||| encSize 1 sizeWord |||
      encUses 1 ||| encDefs 1
  | .subw =>
    91 ||| flagDefcc ||| encOperands 2 ||| encSize 0 sizeWord ||| encUses 0 ||| encSize 1 sizeWord |||
      encUses 1 ||| encDefs 1
  | .testl =>
    92 ||| flagDefcc ||| encOperands 2 ||| encSize 0 sizeDword ||| encUses 0 ||| encFuse 0 |||
      encSize 1 sizeDword ||| encUses 1 ||| encFuse 1
  | .testq =>
    93 ||| flagDefcc ||| encOperands 2 ||| encSize 0 sizeQword ||| encUses 0 ||| encFuse 0 |||
      encSize 1 sizeQword ||| encUses 1 ||| encFuse 1
  | .stosq => 94 ||| flagDefmem
  | .xmmzero =>
    95 ||| encOperands 2 ||| encSize 0 sizeOword ||| encDefs 0 ||| encSize 1 sizeOword |||
      encDefs 1
  | .movups =>
    96 ||| encOperands 2 ||| encSize 0 sizeOword ||| encUses 0 ||| encSize 1 sizeOword |||
      encDefs 1
  | .movsw => 97 ||| flagDefmem ||| flagUsemem
  | .movsl => 98 ||| flagDefmem ||| flagUsemem
  | .movsq => 99 ||| flagDefmem ||| flagUsemem
  | .incb => 100 ||| encOperands 1 ||| encSize 0 sizeByte ||| encUses 0 ||| encDefs 0 ||| encFuse 0
  | .incw => 101 ||| encOperands 1 ||| encSize 0 sizeWord ||| encUses 0 ||| encDefs 0 ||| encFuse 0
  | .incl => 102 ||| encOperands 1 ||| encSize 0 sizeDword ||| encUses 0 ||| encDefs 0 ||| encFuse 0
  | .incq => 103 ||| encOperands 1 ||| encSize 0 sizeQword ||| encUses 0 ||| encDefs 0 ||| encFuse 0
  | .decb => 104 ||| encOperands 1 ||| encSize 0 sizeByte ||| encUses 0 ||| encDefs 0 ||| encFuse 0
  | .decw => 105 ||| encOperands 1 ||| encSize 0 sizeWord ||| encUses 0 ||| encDefs 0 ||| encFuse 0
  | .decl => 106 ||| encOperands 1 ||| encSize 0 sizeDword ||| encUses 0 ||| encDefs 0 ||| encFuse 0
  | .decq => 107 ||| encOperands 1 ||| encSize 0 sizeQword ||| encUses 0 ||| encDefs 0 ||| encFuse 0

/-- The `insn_op`. -/
def Opcode.insnOp (op : Opcode) : BitVec 32 := op.bits ||| flagTarget

/-- AMD64_I_IS_CALL. -/
def Opcode.isCall : Opcode → Bool
  | .call _ _ => true
  | _ => false

/-- An insn with an AMD64 op, and `insn->amd64`: `amd64_insn_construct` sets as many operands as the op
    has. -/
structure TargetInsn where
  op : Opcode
  amd64 : List Operand
  length_amd64 : amd64.length = opOperands op.insnOp

/-! ### Registers -/

/-- `amd64_operand_regs`. -/
def operandRegs (o : Operand) : List PseudoReg := [o.reg, o.idx].filter (· ≠ regNone)

/-- DEFS_REGS0. -/
def defsRegs0 (insn : TargetInsn) (n : Nat) : List PseudoReg :=
  match insn.amd64[n]? with
  | some o =>
    if opOperands insn.op.insnOp ≥ n ∧ opDefs insn.op.insnOp n ∧ o.cls = .reg then [o.reg] else []
  | none => []

/-- The registers that an op DEFs whatever its operands are. -/
def Opcode.defs : Opcode → List PseudoReg
  | .call _ _ => itrash ++ (List.range nrFtrash).map xmm
  | .cltd | .cqto => [rdx]
  | .divl | .divq | .idivl | .idivq => [rax, rdx]
  | .movsq | .movsl | .movsw | .movsb => [rdi, rsi, rcx]
  | .stosq | .stosb => [rdi, rcx]
  | _ => []

/-- What `amd64_insn_defs_regs` adds. -/
def defsList (insn : TargetInsn) : List PseudoReg :=
  defsRegs0 insn 0 ++ defsRegs0 insn 1 ++ insn.op.defs

/-- `amd64_insn_defs_regs`: the set, and whether any is DEFd. -/
def insnDefsRegs (insn : TargetInsn) (regs : Regs) : Regs × Bool :=
  ((defsList insn).foldl regsAdd regs, !(defsList insn).isEmpty)

/-- USES_REGS0. -/
def usesRegs0 (insn : TargetInsn) (n : Nat) : List PseudoReg :=
  match insn.amd64[n]? with
  | some o =>
    if opOperands insn.op.insnOp ≥ n ∧ (opUses insn.op.insnOp n ∨ o.cls = .mem) then operandRegs o
    else []
  | none => []

/-- The registers that an op USEs whatever its operands are. -/
def Opcode.uses (op : Opcode) : List PseudoReg :=
  match op with
  | .call _ _ =>
    (List.range (opIargs op.insnOp)).map iargs ++ (List.range (opFargs op.insnOp)).map xmm
  | .cltd | .cqto => [rax]
  | .divl | .divq | .idivl | .idivq => [rax, rdx]
  | .movsq | .movsl | .movsw | .movsb => [rdi, rsi, rcx]
  | .stosq | .stosb => [rdi, rcx, rax]
  | .retI => [rax]
  | .retF => [xmm 0]
  | _ => []

/-- What `amd64_insn_uses_regs` adds. -/
def usesList (insn : TargetInsn) : List PseudoReg :=
  usesRegs0 insn 0 ++ usesRegs0 insn 1 ++ insn.op.uses

/-- `amd64_insn_uses_regs`: the set, and whether any is USEd. -/
def insnUsesRegs (insn : TargetInsn) (regs : Regs) : Regs × Bool :=
  ((usesList insn).foldl regsAdd regs, !(usesList insn).isEmpty)

/-- `amd64_operand_substitute_reg`. -/
def Operand.substituteReg (o : Operand) (bef aft : PseudoReg) : Operand :=
  { o with
    reg := if o.reg = bef then aft else o.reg
    idx := if o.idx = bef then aft else o.idx }

/-- What `amd64_insn_substitute_reg` does with an operand, given INSN_SUBSTITUTE_ALL. -/
def substitute0 (op : BitVec 32) (bef aft : PseudoReg) (n : Nat) (o : Operand) : Operand :=
  let o := if opDefs op n ∧ o.cls ≠ .mem then o.substituteReg bef aft else o
  if opUses op n ∨ o.cls = .mem then o.substituteReg bef aft else o

/-- `amd64_insn_substitute_reg`, given INSN_SUBSTITUTE_ALL. -/
def insnSubstituteReg (insn : TargetInsn) (bef aft : PseudoReg) : TargetInsn where
  op := insn.op
  amd64 := insn.amd64.mapIdx (substitute0 insn.op.insnOp bef aft)
  length_amd64 := (List.length_mapIdx ..).trans insn.length_amd64

/-! ### Substitution -/

/-- What becomes of a register. -/
def substituted (bef aft q : PseudoReg) : PseudoReg := if q = bef then aft else q

section
variable {insn : TargetInsn} {o : Operand} {bef aft q : PseudoReg} {n : Nat}

theorem substituted_substituted (bef aft q : PseudoReg) :
    substituted bef aft (substituted bef aft q) = substituted bef aft q := by
  unfold substituted
  split_ifs <;> simp_all

theorem substituted_of_ne (h : q ≠ bef) : substituted bef aft q = q := if_neg h

theorem substituteReg_twice (o : Operand) (bef aft : PseudoReg) :
    (o.substituteReg bef aft).substituteReg bef aft = o.substituteReg bef aft := by
  have hreg := substituted_substituted bef aft o.reg
  have hidx := substituted_substituted bef aft o.idx
  simp only [Operand.substituteReg, Operand.mk.injEq, true_and, and_true]
  exact ⟨hreg, hidx⟩

theorem substitute0_cls (op : BitVec 32) (n : Nat) (o : Operand) :
    (substitute0 op bef aft n o).cls = o.cls := by
  simp only [substitute0]
  split_ifs <;> rfl

/-- An operand that is DEFd or USEd is rewritten. -/
theorem substitute0_eq {op : BitVec 32}
    (h : opDefs op n = true ∧ o.cls ≠ .mem ∨ opUses op n = true ∨ o.cls = .mem) :
    substitute0 op bef aft n o = o.substituteReg bef aft := by
  have hcls : ∀ o : Operand, (o.substituteReg bef aft).cls = o.cls := fun _ => rfl
  simp only [substitute0]
  split_ifs <;> simp_all [substituteReg_twice]

theorem defsRegs0_substitute (bef aft : PseudoReg) :
    defsRegs0 (insnSubstituteReg insn bef aft) n = (defsRegs0 insn n).map (substituted bef aft) := by
  simp only [defsRegs0, insnSubstituteReg, List.getElem?_mapIdx]
  cases insn.amd64[n]? with
  | none => rfl
  | some o =>
    simp only [Option.map_some, substitute0_cls]
    split_ifs with h
    · have hdef : opDefs insn.op.insnOp n = true ∧ o.cls ≠ .mem := ⟨h.2.1, by simp [h.2.2]⟩
      rw [substitute0_eq (Or.inl hdef)]
      rfl
    · rfl

theorem operandRegs_substitute (hbef : bef ≠ regNone) (haft : aft ≠ regNone) (o : Operand) :
    operandRegs (o.substituteReg bef aft) = (operandRegs o).map (substituted bef aft) := by
  have hnone : ∀ q, substituted bef aft q ≠ regNone ↔ q ≠ regNone := by
    intro q
    unfold substituted
    split_ifs with h
    · simp [h, hbef, haft]
    · rfl
  have hfilter : ∀ l : List PseudoReg, (l.map (substituted bef aft)).filter (· ≠ regNone) =
      (l.filter (· ≠ regNone)).map (substituted bef aft) := by
    intro l
    rw [List.filter_map]
    congr 2
    funext q
    simpa using not_iff_not.mp (hnone q)
  exact hfilter [o.reg, o.idx]

theorem usesRegs0_substitute (hbef : bef ≠ regNone) (haft : aft ≠ regNone) :
    usesRegs0 (insnSubstituteReg insn bef aft) n = (usesRegs0 insn n).map (substituted bef aft) := by
  simp only [usesRegs0, insnSubstituteReg, List.getElem?_mapIdx]
  cases insn.amd64[n]? with
  | none => rfl
  | some o =>
    simp only [Option.map_some, substitute0_cls]
    split_ifs with h
    · rw [substitute0_eq (Or.inr h.2), operandRegs_substitute hbef haft]
    · rfl

/-- The registers that an insn names or implies. -/
def TargetInsn.Mentions (insn : TargetInsn) (q : PseudoReg) : Prop :=
  q ∈ defsList insn ∨ q ∈ usesList insn

theorem isPhysical_xmm {i : Nat} (h : i < 8) : isPhysical (xmm i) = true := by
  interval_cases i <;> decide

theorem isPhysical_iargs (i : Nat) : isPhysical (iargs i) = true := by
  by_cases h : i < 6
  · interval_cases i <;> decide
  · rw [iargs, List.getD_eq_default _ _ (not_lt.mp h)]
    decide

theorem isPhysical_defs {op : Opcode} (h : q ∈ op.defs) : isPhysical q = true := by
  unfold Opcode.defs at h
  split at h
  · rcases List.mem_append.mp h with h | h
    · exact List.all_eq_true.mp (by decide) q h
    · obtain ⟨i, hi, rfl⟩ := List.mem_map.mp h
      exact isPhysical_xmm (List.mem_range.mp hi)
  all_goals exact List.all_eq_true.mp (by decide) q h

theorem isPhysical_uses {op : Opcode} (h : q ∈ op.uses) : isPhysical q = true := by
  have hfargs : opFargs op.insnOp < 8 := by
    have hle : (op.insnOp >>> 20 &&& 7#32).toNat ≤ 7 := by
      rw [BitVec.toNat_and]
      exact Nat.and_le_right
    exact Nat.lt_succ_of_le hle
  unfold Opcode.uses at h
  split at h
  · rcases List.mem_append.mp h with h | h
    · obtain ⟨i, -, rfl⟩ := List.mem_map.mp h
      exact isPhysical_iargs i
    · obtain ⟨i, hi, rfl⟩ := List.mem_map.mp h
      exact isPhysical_xmm ((List.mem_range.mp hi).trans hfargs)
  all_goals exact List.all_eq_true.mp (by decide) q h

/-- What an insn mentions is rewritten, but for what it implies. -/
theorem mentions_substitute (hbef : isPhysical bef = false) (haft : aft ≠ regNone) :
    (insnSubstituteReg insn bef aft).Mentions q ↔
      q = aft ∧ insn.Mentions bef ∨ q ≠ bef ∧ insn.Mentions q := by
  have hnone : bef ≠ regNone := fun h => by simp [h, isPhysical, regNone] at hbef
  have himplied : ∀ {l : List PseudoReg}, (∀ q ∈ l, isPhysical q = true) →
      l.map (substituted bef aft) = l := by
    intro l hl
    have hsame : ∀ q ∈ l, substituted bef aft q = q := by
      intro q hq
      refine substituted_of_ne fun h => ?_
      rw [← h, hl q hq] at hbef
      exact absurd hbef (by decide)
    exact (List.map_congr_left hsame).trans (List.map_id l)
  have hdefs : defsList (insnSubstituteReg insn bef aft) =
      (defsList insn).map (substituted bef aft) := by
    have hop := himplied fun q (hq : q ∈ insn.op.defs) => isPhysical_defs hq
    simp only [defsList, defsRegs0_substitute, List.map_append, hop]
    rfl
  have huses : usesList (insnSubstituteReg insn bef aft) =
      (usesList insn).map (substituted bef aft) := by
    have hop := himplied fun q (hq : q ∈ insn.op.uses) => isPhysical_uses hq
    simp only [usesList, usesRegs0_substitute hnone haft, List.map_append, hop]
    rfl
  have hmem : ∀ l : List PseudoReg, q ∈ l.map (substituted bef aft) ↔
      q = aft ∧ bef ∈ l ∨ q ≠ bef ∧ q ∈ l := by
    intro l
    rw [List.mem_map]
    constructor
    · rintro ⟨x, hx, rfl⟩
      by_cases h : x = bef
      · exact Or.inl ⟨by simp [substituted, h], h ▸ hx⟩
      · rw [substituted_of_ne h]
        exact Or.inr ⟨h, hx⟩
    · rintro (⟨rfl, hx⟩ | ⟨h, hx⟩)
      · exact ⟨bef, hx, by simp [substituted]⟩
      · exact ⟨q, hx, substituted_of_ne h⟩
  rw [TargetInsn.Mentions, hdefs, huses, hmem, hmem, TargetInsn.Mentions, TargetInsn.Mentions]
  tauto

end

end Ncc.Amd64
