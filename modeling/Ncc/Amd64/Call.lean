import Ncc.Amd64.Machine
import Ncc.Amd64.Selxn
import Ncc.Lib.Layout

/-! Passing arguments: what a call emits (gen.c, amd64/gen.c), and where a function looks for them
    (block.c, amd64/amd64.c).

    Caller and callee each decide by themselves where an argument is. `gen_call` makes an insn of
    each argument, `call0` marks those that do not fit in registers, `call1` puts them on the stack
    from the last to the first and `call2` loads the registers. `amd64_formal_declare` counts
    registers and frame offsets from left to right.

    Operands made here never enter the address-mode cache, so their age is of no account. -/

namespace Ncc.Amd64

/-- ROUND_UP, of an int to AMD64_STACK_ALIGN. -/
def roundUp (i : BitVec 32) : BitVec 32 := (i + 7).sdiv 8 * 8

/-- ROUND_UP, while the int does not overflow. -/
theorem toNat_roundUp {i : BitVec 32} (h : i.toNat + 7 < 2 ^ 31) :
    (roundUp i).toNat = (i.toNat + 7) / 8 * 8 := by
  have hsum : (i + 7).toNat = i.toNat + 7 := by
    rw [BitVec.toNat_add, show (7 : BitVec 32).toNat = 7 from rfl]
    omega
  have hmsb : (i + 7).msb = false := by
    rw [BitVec.msb_eq_false_iff_two_mul_lt, hsum]
    omega
  have hdiv : (i + 7).sdiv 8 = (i + 7) / 8 := by
    rw [BitVec.sdiv_eq, hmsb]
    rfl
  rw [roundUp, hdiv, BitVec.toNat_mul, BitVec.toNat_udiv, hsum, show (8 : BitVec 32).toNat = 8 from rfl]
  omega

/-- A nonnegative int is the same word as a long. -/
theorem signExtend_of_lt {i : BitVec 32} (h : i.toNat < 2 ^ 31) :
    i.signExtend 64 = BitVec.ofNat 64 i.toNat := by
  apply BitVec.eq_of_toNat_eq
  rw [BitVec.signExtend_eq_setWidth_of_msb_false, BitVec.toNat_setWidth, BitVec.toNat_ofNat]
  rw [BitVec.msb_eq_false_iff_two_mul_lt]
  omega

/-- MAX_OBJECT_SIZE. -/
def maxObjectSize : Nat := 128 * 1024 * 1024

/-- What `type_sizeof` says of a struct or union: it gives up on a larger one. -/
structure ObjectSize where
  bytes : Nat
  le : bytes ≤ maxObjectSize
  deriving DecidableEq

/-- The type of an argument: a machine type (see `TypeBits`), or a struct or union. -/
inductive ArgType where
  | scalar (ts : TypeBits)
  | strun (size : ObjectSize)
  deriving DecidableEq

/-- TYPE_DISCRETE. -/
def ArgType.discrete : ArgType → Bool
  | .scalar ts => !ts.floating
  | .strun _ => false

/-- TYPE_FLOATING. -/
def ArgType.floating : ArgType → Bool
  | .scalar ts => ts.floating
  | .strun _ => false

/-- `type_sizeof`. -/
def ArgType.sizeof : ArgType → Nat
  | .scalar ts => ts.sizeof
  | .strun size => size.bytes

/-- AMD64_NR_IARGS. -/
def nrIargs : Nat := 6

/-- AMD64_NR_FARGS. -/
def nrFargs : Nat := 6

/-- `amd64_iargs`. -/
def iargs (i : Nat) : PseudoReg := [rdi, rsi, rdx, rcx, r8, r9].getD i regNone

/-- A function type; of the return type only matters whether it is a struct or union. -/
structure FuncType where
  strun : Bool
  formals : List ArgType
  variadic : Bool

/-! ### The callee -/

/-- Where a formal is: `arg_reg` or `offset` of its symbol. -/
inductive Home where
  | reg (r : PseudoReg)
  | frame (offset : BitVec 32)
  deriving DecidableEq

/-- `amd64_nr_iargs`, `amd64_nr_fargs` and `amd64_arg_addr`. -/
structure FormalState where
  iargs : Nat
  fargs : Nat
  argAddr : BitVec 32
  deriving DecidableEq

/-- `amd64_func_new`. -/
def amd64FuncNew (variadic : Bool) : FormalState :=
  if variadic then ⟨nrIargs, nrFargs, 16⟩ else ⟨0, 0, 16⟩

/-- `amd64_formal_declare`. -/
def amd64FormalDeclare (st : FormalState) (t : ArgType) : FormalState × Home :=
  if t.discrete && st.iargs < nrIargs then
    ({ st with iargs := st.iargs + 1 }, .reg (iargs st.iargs))
  else if t.floating && st.fargs < nrFargs then
    ({ st with fargs := st.fargs + 1 }, .reg (xmm st.fargs))
  else
    ({ st with argAddr := roundUp (st.argAddr + BitVec.ofNat 32 t.sizeof) }, .frame st.argAddr)

/-- `formals_declare`. -/
def formalsDeclare : FormalState → List ArgType → List Home
  | _, [] => []
  | st, t :: ts =>
    let (st', home) := amd64FormalDeclare st t
    home :: formalsDeclare st' ts

/-- The formals of a function with the pointer that a struct is returned through. -/
def FuncType.allFormals (f : FuncType) : List ArgType :=
  (if f.strun then [.scalar .ulong] else []) ++ f.formals

/-- `func_new` and `formals_declare`: the homes of all formals. -/
def FuncType.homes (f : FuncType) : List Home :=
  formalsDeclare (amd64FuncNew f.variadic) f.allFormals

/-! ### The arguments of a call -/

/-- An actual argument that `gen` has reduced to a leaf, or the address of a struct. -/
inductive Actual where
  | scalar (o : Ncc.Operand)
  | strun (address : Ncc.Operand) (size : ObjectSize)

def Actual.type : Actual → ArgType
  | .scalar o => .scalar o.ts
  | .strun _ size => .strun size

/-- I_ARG, I_VARG, I_BLKARG. -/
inductive ArgOp where
  | arg | varg | blkarg
  deriving DecidableEq

/-- An I_ARGUMENT, with its `src1` and, of I_BLKARG, the constant in `src2`. -/
structure ArgInsn where
  op : ArgOp
  src1 : Ncc.Operand
  size : ObjectSize

/-- The insn that `gen_call` makes of an argument. -/
def genArg (variadic : Bool) : Actual → ArgInsn
  | .scalar o => ⟨if variadic then .varg else .arg, o, ⟨0, Nat.zero_le _⟩⟩
  | .strun address size => ⟨.blkarg, address, size⟩

/-- The arguments of a call with the address of the temporary that a struct is returned in. -/
def FuncType.allActuals (f : FuncType) (temp : Ncc.Operand) (actuals : List Actual) :
    List Actual :=
  (if f.strun then [.scalar temp] else []) ++ actuals

/-- `gen_call`: it takes the arguments from the last to the first and prepends their insns. -/
def FuncType.genCall (f : FuncType) (temp : Ncc.Operand) (actuals : List Actual) :
    List ArgInsn :=
  (f.allActuals temp actuals).map (genArg f.variadic)

/-! ### The caller -/

/-- `call0`: demote the I_ARGs that do not fit in registers. -/
def call0 : Nat → Nat → List ArgInsn → Nat × Nat × List ArgInsn
  | iargs, fargs, [] => (iargs, fargs, [])
  | iargs, fargs, insn :: insns =>
    if insn.op = .arg then
      if insn.src1.ts.floating then
        if fargs = nrFargs then
          let (i, f, l) := call0 iargs fargs insns
          (i, f, { insn with op := .varg } :: l)
        else
          let (i, f, l) := call0 iargs (fargs + 1) insns
          (i, f, insn :: l)
      else if iargs = nrIargs then
        let (i, f, l) := call0 iargs fargs insns
        (i, f, { insn with op := .varg } :: l)
      else
        let (i, f, l) := call0 (iargs + 1) fargs insns
        (i, f, insn :: l)
    else
      let (i, f, l) := call0 iargs fargs insns
      (i, f, insn :: l)

/-- `amd64_operand_small`. -/
def operandSmall (o : Operand) : Bool := o.cls = .con && o.i &&& 0xFFFFFFFF = o.i && o.sym.isNone

/-- `lea_choices`: addresses are never moved to an XMM register. -/
def leaOp (ts : TypeBits) : Op := if isLongs ts then .leaq else .leal

/-- `move_choices`. -/
def moveOp : TypeBits → Op
  | .long | .ulong => .movq
  | .float => .movss
  | .double => .movsd
  | _ => .movl

/-- `store_choices`. -/
def storeOp : TypeBits → Op
  | .char | .schar | .uchar => .movb
  | .short | .ushort => .movw
  | .int | .uint => .movl
  | .long | .ulong => .movq
  | .float => .movss
  | .double => .movsd

/-- `move`. -/
def move (src dst : Operand) : Code :=
  if src.cls = .eff then ⟨leaOp dst.ts, [src, dst]⟩
  else if isLongs src.ts && operandSmall src then ⟨.movl, [src, dst]⟩
  else ⟨moveOp dst.ts, [src, dst]⟩

/-- The stack pointer, as an operand. -/
def rspOperand : Operand := operandReg .long rsp 0

/-- What `call` keeps: the temporaries made so far, and `stack_allocked`. -/
structure CallState where
  temps : Nat
  stackAllocked : BitVec 32

/-- `stack_alloc`. -/
def stackAlloc (st : CallState) (bytes : BitVec 32) : CallState × List Code :=
  ({ st with stackAllocked := st.stackAllocked + roundUp bytes },
    [⟨.subq, [operandCon .long ((roundUp bytes).signExtend 64) none 0, rspOperand]⟩])

section
variable (constant : TypeBits → Word → Symbol) (temp : TypeBits → Nat → PseudoReg)
variable (selxns : Selxns)

/-- `amd64_operand_tmp`. -/
def operandTmp (n : Nat) (ts : TypeBits) : Operand := operandReg ts (temp ts n) 0

/-- `dehuge`. -/
def dehuge (n : Nat) (o : Operand) : Nat × Operand × List Code :=
  if operandHuge o then (n + 1, operandTmp temp n o.ts, [move o (operandTmp temp n o.ts)])
  else (n, o, [])

/-- `demem`. -/
def demem (n : Nat) (o : Operand) : Nat × Operand × List Code :=
  if o.cls = .mem then (n + 1, operandTmp temp n o.ts, [move o (operandTmp temp n o.ts)])
  else (n, o, [])

/-- `memorize`. -/
def memorize (n : Nat) (o : Operand) : Nat × Operand × List Code :=
  let (n, o, codes) := dehuge temp n (materialize selxns o)
  (n, { o with cls := .mem }, codes)

/-- `store`. -/
def store (n : Nat) (src dst : Operand) : Nat × List Code :=
  let (n, dst, codes₁) := memorize temp selxns n dst
  let (n, src, codes₂) := dehuge temp n src
  let (n, src, codes₃) := demem temp n src
  (n, codes₁ ++ codes₂ ++ codes₃ ++ [⟨storeOp src.ts, [src, dst]⟩])

/-- BLKCOPY_MAX. -/
def blkcopyMax : Nat := 4

/-- The load/store cycles that a small copy takes. -/
def blkcopyCopies (bytes : Nat) : Nat :=
  bytes / 16 + bytes / 8 % 2 + bytes / 4 % 2 + bytes / 2 % 2 + bytes % 2

/-- The address so much further on. -/
def Operand.displace (o : Operand) (n : Nat) : Operand := { o with i := o.i + BitVec.ofNat 64 n }

/-- BLKCOPY0. -/
def blkcopy0 (op : Op) (src1 dst r : Operand) : List Code := [⟨op, [src1, r]⟩, ⟨op, [r, dst]⟩]

/-- What is copied next of less than 16 bytes. -/
def blkcopyOp (bytes : Nat) : Op :=
  if 8 ≤ bytes then .movq else if 4 ≤ bytes then .movl else if 2 ≤ bytes then .movw else .movb

/-- A temporary, made when it is first needed. -/
def orTmp (n : Nat) (ts : TypeBits) : Option Operand → Nat × Operand
  | none => (n + 1, operandTmp temp n ts)
  | some o => (n, o)

theorem moveSize_blkcopyOp (bytes : Nat) (h : bytes ≠ 0) :
    0 < (blkcopyOp bytes).moveSize ∧ (blkcopyOp bytes).moveSize ≤ bytes := by
  unfold blkcopyOp
  split_ifs <;> simp only [Op.moveSize] <;> omega

/-- The loop of `blkcopy`. -/
def blkcopyLoop (n : Nat) (tmp tmpXmm : Option Operand) (src1 dst : Operand) (bytes : Nat) :
    Nat × List Code :=
  if _h : bytes = 0 then (n, [])
  else if 16 ≤ bytes then
    let (n, r) := orTmp temp n .double tmpXmm
    let (n, codes) := blkcopyLoop n tmp (some r) (src1.displace 16) (dst.displace 16) (bytes - 16)
    (n, blkcopy0 .movups src1 dst r ++ codes)
  else
    let op := blkcopyOp bytes
    let (n, r) := orTmp temp n .long tmp
    let (n, codes) := blkcopyLoop n (some r) tmpXmm (src1.displace op.moveSize)
      (dst.displace op.moveSize) (bytes - op.moveSize)
    (n, blkcopy0 op src1 dst r ++ codes)
termination_by bytes
decreasing_by
  · omega
  · have := moveSize_blkcopyOp bytes (by assumption)
    omega

/-- The string move for so many bytes. -/
def stringOp (bytes : Nat) : Op :=
  if bytes % 2 = 1 then .movsb else if bytes / 2 % 2 = 1 then .movsw
  else if bytes / 4 % 2 = 1 then .movsl else .movsq

/-- `blkcopy`. -/
def blkcopy (n : Nat) (src1 dst : Operand) (bytes : Nat) : Nat × List Code :=
  if blkcopyMax < blkcopyCopies bytes then
    let op := stringOp bytes
    (n, [move src1 (operandReg .ulong rsi 0), move dst (operandReg .ulong rdi 0),
      move (operandCon .long (BitVec.ofNat 64 (bytes / op.stringSize)) none 0)
        (operandReg .ulong rcx 0),
      ⟨.rep, []⟩, ⟨op, []⟩])
  else
    let (n, src1, codes₁) := memorize temp selxns n src1
    let (n, dst, codes₂) := memorize temp selxns n dst
    let (n, codes₃) := blkcopyLoop temp n none none src1 dst bytes
    (n, codes₁ ++ codes₂ ++ codes₃)

/-- One turn of the loop of `call1`. -/
def call1Arg (st : CallState) (insn : ArgInsn) : CallState × List Code :=
  match insn.op with
  | .arg => (st, [])
  | .varg =>
    let o := operandImport constant insn.src1 0
    if o.ts.integral then
      let (n, o, codes) := dehuge temp st.temps o
      (⟨n, st.stackAllocked + 8⟩, codes ++ [⟨.pushq, [o]⟩])
    else
      let (st, codes₁) := stackAlloc st (BitVec.ofNat 32 o.ts.sizeof)
      let (n, codes₂) := store temp selxns st.temps o rspOperand
      ({ st with temps := n }, codes₁ ++ codes₂)
  | .blkarg =>
    let (st, codes₁) := stackAlloc st (BitVec.ofNat 32 insn.size.bytes)
    let (n, codes₂) := blkcopy temp selxns st.temps (operandImport constant insn.src1 0)
      rspOperand insn.size.bytes
    ({ st with temps := n }, codes₁ ++ codes₂)

/-- `call1`, which walks the insns backwards. -/
def call1 (st : CallState) : List ArgInsn → CallState × List Code
  | [] => (st, [])
  | insn :: insns =>
    let (st, codes₁) := call1 st insns
    let (st, codes₂) := call1Arg constant temp selxns st insn
    (st, codes₁ ++ codes₂)

/-- `call2`, with its counters. -/
def call2 : Nat → Nat → List ArgInsn → List Code
  | _, _, [] => []
  | i, f, insn :: insns =>
    if insn.op = .arg then
      let arg := operandImport constant insn.src1 0
      if arg.ts.floating then
        move arg (operandReg arg.ts (xmm f) 0) :: call2 i (f + 1) insns
      else
        move arg (operandReg arg.ts (iargs i) 0) :: call2 (i + 1) f insns
    else call2 i f insns

/-- What `call` emits, for the I_ARGUMENTs before it: the code up to the AMD64_I_CALL, that insn,
    and the code after it. The counters are 0 again after each call. -/
def call (n : Nat) (args : List ArgInsn) (src : Operand) (dst : Option Operand) :
    List Code × Code × List Code :=
  let (i, f, args) := call0 0 0 args
  let (st, codes₁) := call1 constant temp selxns ⟨n, 0⟩ args
  let (_, src, codes₂) := dehuge temp st.temps src
  (codes₁ ++ call2 constant 0 0 args ++ codes₂, ⟨.call i f, [src]⟩,
    (if st.stackAllocked ≠ 0 then
      [⟨.addq, [operandCon .long (st.stackAllocked.signExtend 64) none 0, rspOperand]⟩]
    else []) ++
    match dst with
    | none => []
    | some dst => [move (operandReg dst.ts (if dst.ts.floating then xmm 0 else rax) 0) dst])

end

end Ncc.Amd64
