import Ncc.Memory
import Ncc.Amd64.Operand

/-! The AMD64 insns that calls and frames are made of, and what they do (amd64/insn.h).

    A machine is its registers, physical and pseudo, and its memory. An XMM register has a second
    half, which only MOVUPS uses. What the called function does is a parameter of the machine. -/

namespace Ncc.Amd64

/-- AMD64_REG_*. -/
def rsi : PseudoReg := 0
@[inherit_doc rsi] def rdi : PseudoReg := 1
@[inherit_doc rsi] def rax : PseudoReg := 2
@[inherit_doc rsi] def rcx : PseudoReg := 3
@[inherit_doc rsi] def rdx : PseudoReg := 4
@[inherit_doc rsi] def rsp : PseudoReg := 6
@[inherit_doc rsi] def r8 : PseudoReg := 7
@[inherit_doc rsi] def r9 : PseudoReg := 8

/-- AMD64_REG_XMM. -/
def xmm (i : Nat) : PseudoReg := BitVec.ofNat 32 i ||| 0x00100000

/-- AMD64_I_*. -/
inductive Op where
  | movb | movw | movl | movq | movss | movsd | movups | leal | leaq
  | pushq | popq | addq | subq | rep | movsb | movsw | movsl | movsq
  | zero | xmmzero | stosq
  | call (iargs fargs : Nat)
  deriving DecidableEq

/-- An AMD64 insn, with `insn->amd64`. -/
structure Code where
  op : Op
  opr : List Operand
  deriving DecidableEq

/-- AMD64_I_SIZE of a move. -/
def Op.moveSize : Op → Nat
  | .movb => 1
  | .movw => 2
  | .movl | .movss => 4
  | _ => 8

/-- The bytes that one step of a string move copies. -/
def Op.stringSize : Op → Nat
  | .movsb => 1
  | .movsw => 2
  | .movsl => 4
  | _ => 8

structure Machine where
  regs : PseudoReg → Word
  high : PseudoReg → Word
  mem : Mem
  rep : Bool

/-- Replace the `n` low bytes. -/
def insertLow (n : Nat) (old w : Word) : Word :=
  old >>> (8 * n) <<< (8 * n) ||| (w.setWidth (8 * n)).setWidth 64

/-- What a move leaves in a register that held `old`: moves of 4 bytes clear the rest of an integer
    register, and the rest of an XMM register if they are loads. -/
def Op.moved (op : Op) (load : Bool) (old w : Word) : Word :=
  match op with
  | .movb => insertLow 1 old w
  | .movw => insertLow 2 old w
  | .movl => insertLow 4 0 w
  | .movss => insertLow 4 (if load then 0 else old) w
  | _ => w

section
variable (env : Env)

/-- The `n` bytes that an operand stands for, if it is no address. -/
def Machine.value (s : Machine) (o : Operand) (n : Nat) : Word :=
  match o.cls with
  | .reg => s.regs o.reg
  | .con => symWord env o.sym + o.i
  | .mem => loadWord s.mem (o.address env s.regs) n
  | .eff => o.address env s.regs

/-- Write a register. -/
def Machine.setReg (s : Machine) (r : PseudoReg) (w : Word) : Machine :=
  { s with regs := Function.update s.regs r w }

/-- MOVB, MOVW, MOVL, MOVQ, MOVSS, MOVSD. -/
def Machine.move (s : Machine) (op : Op) (src dst : Operand) : Machine :=
  let w := s.value env src op.moveSize
  if dst.cls = .mem then
    { s with mem := storeWord s.mem (dst.address env s.regs) op.moveSize w }
  else
    s.setReg dst.reg (op.moved (src.cls = .mem) (s.regs dst.reg) w)

/-- MOVUPS: 16 bytes. -/
def Machine.moveWide (s : Machine) (src dst : Operand) : Machine :=
  if dst.cls = .mem then
    let a := dst.address env s.regs
    { s with mem := storeWord (storeWord s.mem a 8 (s.regs src.reg)) (a + 8) 8 (s.high src.reg) }
  else
    let a := src.address env s.regs
    { s.setReg dst.reg (loadWord s.mem a 8) with
      high := Function.update s.high dst.reg (loadWord s.mem (a + 8) 8) }

/-- MOVSB, MOVSW, MOVSL, MOVSQ, with the direction flag clear. -/
def Machine.string (s : Machine) (n : Nat) : Machine :=
  let m := storeWord s.mem (s.regs rdi) n (loadWord s.mem (s.regs rsi) n)
  { (s.setReg rsi (s.regs rsi + BitVec.ofNat 64 n)).setReg rdi (s.regs rdi + BitVec.ofNat 64 n) with
    mem := m }

/-- A string move after REP, with so much in RCX. -/
def Machine.repeat (n : Nat) : Nat → Machine → Machine
  | 0, s => s
  | k + 1, s => Machine.repeat n k ((s.string n).setReg rcx (BitVec.ofNat 64 k))

/-- PUSHQ. -/
def Machine.push (s : Machine) (o : Operand) : Machine :=
  let a := s.regs rsp - 8
  { s.setReg rsp a with mem := storeWord s.mem a 8 (s.value env o 8) }

/-- POPQ, of a register. -/
def Machine.pop (s : Machine) (o : Operand) : Machine :=
  (s.setReg rsp (s.regs rsp + 8)).setReg o.reg (loadWord s.mem (s.regs rsp) 8)

/-- STOSQ, with the direction flag clear. -/
def Machine.stos (s : Machine) : Machine :=
  { s.setReg rdi (s.regs rdi + 8) with mem := storeWord s.mem (s.regs rdi) 8 (s.regs rax) }

/-- STOSQ after REP, with so much in RCX. -/
def Machine.repeatStos : Nat → Machine → Machine
  | 0, s => s
  | k + 1, s => Machine.repeatStos k (s.stos.setReg rcx (BitVec.ofNat 64 k))

variable (callee : Word → Machine → Machine)

/-- One insn. -/
def Code.exec (code : Code) (s : Machine) : Machine :=
  match code.op, code.opr with
  | .call _ _, [o] => callee (s.value env o 8) s
  | .pushq, [o] => s.push env o
  | .popq, [o] => s.pop o
  | .zero, [_, dst] => s.setReg dst.reg 0
  | .xmmzero, [_, dst] =>
    { s.setReg dst.reg 0 with high := Function.update s.high dst.reg 0 }
  | .stosq, [] =>
    if s.rep then { Machine.repeatStos (s.regs rcx).toNat s with rep := false } else s.stos
  | .addq, [src, dst] => s.setReg dst.reg (s.regs dst.reg + s.value env src 8)
  | .subq, [src, dst] => s.setReg dst.reg (s.regs dst.reg - s.value env src 8)
  | .leal, [src, dst] => s.setReg dst.reg (insertLow 4 0 (src.address env s.regs))
  | .leaq, [src, dst] => s.setReg dst.reg (src.address env s.regs)
  | .movups, [src, dst] => s.moveWide env src dst
  | .rep, [] => { s with rep := true }
  | op, [] =>
    if s.rep then { Machine.repeat op.stringSize (s.regs rcx).toNat s with rep := false }
    else s.string op.stringSize
  | op, [src, dst] => s.move env op src dst
  | _, _ => s

/-- Some insns. -/
def execs (codes : List Code) (s : Machine) : Machine :=
  codes.foldl (fun s code => code.exec env callee s) s

end

/-! ### Moves -/

section
variable {env : Env} {callee : Word → Machine → Machine} {s : Machine} {w old : Word} {n k : Nat}

@[simp] theorem execs_nil : execs env callee [] s = s := rfl

@[simp] theorem execs_cons (code : Code) (l : List Code) :
    execs env callee (code :: l) s = execs env callee l (code.exec env callee s) := rfl

theorem execs_append (l₁ l₂ : List Code) :
    execs env callee (l₁ ++ l₂) s = execs env callee l₂ (execs env callee l₁ s) :=
  List.foldl_append

@[simp] theorem setReg_mem (r : PseudoReg) : (s.setReg r w).mem = s.mem := rfl

@[simp] theorem setReg_self (r : PseudoReg) : (s.setReg r w).regs r = w :=
  Function.update_self ..

theorem setReg_ne {r q : PseudoReg} (h : q ≠ r) : (s.setReg r w).regs q = s.regs q :=
  Function.update_of_ne h ..

theorem wordByte_insertLow (hk : k < n) (hn : n ≤ 8) :
    wordByte (insertLow n old w) k = wordByte w k := by
  apply BitVec.eq_of_getLsbD_eq
  intro j hj
  simp [wordByte, insertLow, hj, show 8 * k + j < 8 * n by omega, show 8 * k + j < 64 by omega]

/-- A move keeps the bytes it moves. -/
theorem wordByte_moved (op : Op) (load : Bool) (hk : k < op.moveSize) :
    wordByte (op.moved load old w) k = wordByte w k := by
  cases op with
  | movb | movw | movl | movss => exact wordByte_insertLow hk (by decide)
  | _ => rfl

end

end Ncc.Amd64
