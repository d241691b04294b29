import Ncc.Amd64.Insn

/-! What AMD64 insns do to the machine.

    An insn reads its operands and implied registers and then writes: `writes` lists what, and `exec`
    writes it. So what an insn reads is what the list depends on, and what it changes is on the list.
    Operands are in AT&T order, the destination last. -/

namespace Ncc.Amd64

/-! ### The machine -/

/-- The flags that condition codes depend on. -/
inductive Flag
  | zf | sf | cf | of | pf
  deriving DecidableEq

def flagsAll : List Flag := [.zf, .sf, .cf, .of, .pf]

/-- The machine: an XMM register has a second half, and REP is kept for the next insn. -/
structure Cpu where
  regs : PseudoReg → Word
  high : PseudoReg → Word
  flags : Flag → Bool
  mem : Mem
  rep : Bool

/-- What a called function leaves behind. -/
structure CallEffect where
  regs : PseudoReg → Word
  high : PseudoReg → Word
  flags : Flag → Bool
  mem : Mem

/-- What is left to the machine and the rest of the program: floating-point arithmetic, the flags that
    an insn leaves undefined, and calls. -/
structure Hardware where
  convert : Opcode → Word → Word
  arith : Opcode → Word → Word → Word
  ucomi : Opcode → Word → Word → Flag → Bool
  undefined : Opcode → List Word → Flag → Bool
  call : Word → List Word → Word → Mem → CallEffect

/-- Something that an insn writes: the low bytes of a register, the second half of an XMM register, a
    flag, or memory. A function that returns leaves for an address, with a value. -/
inductive Write
  | reg (r : PseudoReg) (n : Nat) (w : Word)
  | high (r : PseudoReg) (w : Word)
  | flag (f : Flag) (b : Bool)
  | store (a : Word) (n : Nat) (w : Word)
  | memory (m : Mem)
  | rep (b : Bool)
  | leave (addr value : Word)

def Write.apply (s : Cpu) : Write → Cpu
  | .reg r n w => { s with regs := Function.update s.regs r (insertLow n (s.regs r) w) }
  | .high r w => { s with high := Function.update s.high r w }
  | .flag f b => { s with flags := Function.update s.flags f b }
  | .store a n w => { s with mem := storeWord s.mem a n w }
  | .memory m => { s with mem := m }
  | .rep b => { s with rep := b }
  | .leave _ _ => s

/-! ### Ops -/

/-- Two-operand integer arithmetic. -/
inductive Alu
  | add | sub | and | or | xor

inductive Shift
  | shl | shr | sar

/-- What an op does, with its operand sizes in bytes. -/
inductive Kind
  | move (n m : Nat) (signed : Bool)
  | moveXmm (n : Nat)
  | movups
  | convert (n m : Nat) (integer : Bool)
  | arith (n : Nat)
  | ucomi (n : Nat)
  | xmmzero
  | zero
  | lea (n : Nat)
  | alu (f : Alu) (n : Nat)
  | compare (n : Nat)
  | test (n : Nat)
  | shift (f : Shift) (n : Nat)
  | not (n : Nat)
  | neg (n : Nat)
  | inc (n : Nat)
  | dec (n : Nat)
  | imul (n : Nat)
  | div (n : Nat) (signed : Bool)
  | extend (n : Nat)
  | set (cc : ConditionCode)
  | movs (n : Nat)
  | stos (n : Nat)
  | rep
  | push
  | pop
  | ret (value : Option PseudoReg)
  | call (iargs fargs : Nat)

/-- The insn that `amd64_insn_text` gives for an op. -/
def Opcode.kind : Opcode → Kind
  | .movb => .move 1 1 false
  | .movw => .move 2 2 false
  | .movl | .movzlq => .move 4 4 false
  | .movq => .move 8 8 false
  | .movsbl => .move 1 4 true
  | .movzbl => .move 1 4 false
  | .movsbq => .move 1 8 true
  | .movzbq => .move 1 8 false
  | .movswl => .move 2 4 true
  | .movzwl => .move 2 4 false
  | .movswq => .move 2 8 true
  | .movzwq => .move 2 8 false
  | .movslq => .move 4 8 true
  | .movss => .moveXmm 4
  | .movsd => .moveXmm 8
  | .cvtsi2ssl => .convert 4 4 false
  | .cvtsi2ssq => .convert 8 4 false
  | .cvtsi2sdl => .convert 4 8 false
  | .cvtsi2sdq => .convert 8 8 false
  | .cvtss2sil => .convert 4 4 true
  | .cvtss2siq => .convert 4 8 true
  | .cvtsd2sil => .convert 8 4 true
  | .cvtsd2siq => .convert 8 8 true
  | .cvtss2sd => .convert 4 8 false
  | .cvtsd2ss => .convert 8 4 false
  | .zero => .zero
  | .pushq => .push
  | .popq => .pop
  | .leal => .lea 4
  | .leaq => .lea 8
  | .setz => .set .z
  | .setnz => .set .nz
  | .setg => .set .g
  | .setle => .set .le
  | .setge => .set .ge
  | .setl => .set .l
  | .seta => .set .a
  | .setbe => .set .be
  | .setae => .set .ae
  | .setb => .set .b
  | .ret => .ret none
  | .retI => .ret (some rax)
  | .retF => .ret (some (xmm 0))
  | .shll => .shift .shl 4
  | .shlq => .shift .shl 8
  | .shrl => .shift .shr 4
  | .shrq => .shift .shr 8
  | .sarl => .shift .sar 4
  | .sarq => .shift .sar 8
  | .addb => .alu .add 1
  | .addw => .alu .add 2
  | .addl => .alu .add 4
  | .addq => .alu .add 8
  | .subb => .alu .sub 1
  | .subw => .alu .sub 2
  | .subl => .alu .sub 4
  | .subq => .alu .sub 8
  | .andl => .alu .and 4
  | .andq => .alu .and 8
  | .orl => .alu .or 4
  | .orq => .alu .or 8
  | .xorl => .alu .xor 4
  | .xorq => .alu .xor 8
  | .addss | .subss | .mulss | .divss => .arith 4
  | .addsd | .subsd | .mulsd | .divsd => .arith 8
  | .cmpl => .compare 4
  | .cmpq => .compare 8
  | .testl => .test 4
  | .testq => .test 8
  | .ucomiss => .ucomi 4
  | .ucomisd => .ucomi 8
  | .notl => .not 4
  | .notq => .not 8
  | .negl => .neg 4
  | .negq => .neg 8
  | .incb => .inc 1
  | .incw => .inc 2
  | .incl => .inc 4
  | .incq => .inc 8
  | .decb => .dec 1
  | .decw => .dec 2
  | .decl => .dec 4
  | .decq => .dec 8
  | .imull => .imul 4
  | .imulq => .imul 8
  | .divl => .div 4 false
  | .divq => .div 8 false
  | .idivl => .div 4 true
  | .idivq => .div 8 true
  | .cltd => .extend 4
  | .cqto => .extend 8
  | .rep => .rep
  | .movsb => .movs 1
  | .movsw => .movs 2
  | .movsl => .movs 4
  | .movsq => .movs 8
  | .stosb => .stos 1
  | .stosq => .stos 8
  | .xmmzero => .xmmzero
  | .movups => .movups
  | .call iargs fargs => .call iargs fargs

/-! ### Arithmetic -/

/-- The low bytes of a word. -/
def low (n : Nat) (w : Word) : BitVec (8 * n) := w.setWidth (8 * n)

/-- The low bytes, zero- or sign-extended. -/
def extendLow (n : Nat) (signed : Bool) (w : Word) : Word :=
  if signed then (low n w).signExtend 64 else (low n w).setWidth 64

/-- The flags of a result. -/
def resultFlags (n : Nat) (w : Word) : List Write :=
  [.flag .zf (low n w == 0), .flag .sf (low n w).msb,
    .flag .pf ((List.range 8).countP (fun i => w.getLsbD i) % 2 == 0)]

def Alu.eval (f : Alu) (a b : Word) : Word :=
  match f with
  | add => a + b
  | sub => a - b
  | and => a &&& b
  | or => a ||| b
  | xor => a ^^^ b

/-- The flags after `a f b`. -/
def Alu.flags (f : Alu) (n : Nat) (a b : Word) : List Write :=
  resultFlags n (f.eval a b) ++
    match f with
    | add => [.flag .cf ((low n (a + b)).ult (low n a)),
        .flag .of (BitVec.saddOverflow (low n a) (low n b))]
    | sub => [.flag .cf ((low n a).ult (low n b)),
        .flag .of (BitVec.ssubOverflow (low n a) (low n b))]
    | _ => [.flag .cf false, .flag .of false]

/-- A shift by so many bits, and the last bit that is shifted out. -/
def Shift.eval (f : Shift) (n : Nat) (a : Word) (count : Nat) : Word × Bool :=
  match f with
  | shl => (a <<< count, a.getLsbD (8 * n - count))
  | shr => (extendLow n false a >>> count, a.getLsbD (count - 1))
  | sar => ((extendLow n true a).sshiftRight count, (extendLow n true a).getLsbD (count - 1))

/-- Quotient and remainder. Where the quotient does not fit the machine stops, which is left out. -/
def divide (n : Nat) (signed : Bool) (hi lo d : Word) : Word × Word :=
  if signed then
    let a := (low n hi ++ low n lo).toInt
    (BitVec.ofInt 64 (a.tdiv (low n d).toInt), BitVec.ofInt 64 (a.tmod (low n d).toInt))
  else
    let a := (low n hi ++ low n lo).toNat
    (BitVec.ofNat 64 (a / (low n d).toNat), BitVec.ofNat 64 (a % (low n d).toNat))

/-- Does the condition hold? -/
def ccHolds (flags : Flag → Bool) : ConditionCode → Bool
  | .z => flags .zf
  | .nz => !flags .zf
  | .g => !flags .zf && flags .sf == flags .of
  | .le => flags .zf || flags .sf != flags .of
  | .ge => flags .sf == flags .of
  | .l => flags .sf != flags .of
  | .a => !flags .cf && !flags .zf
  | .be => flags .cf || flags .zf
  | .ae => !flags .cf
  | .b => flags .cf
  | _ => false

/-- `k` steps of MOVS. -/
def stringMoves (n : Nat) : Nat → Mem → Word → Word → List Write
  | 0, _, _, _ => []
  | k + 1, m, src, dst =>
    let w := loadWord m src n
    .store dst n w ::
      stringMoves n k (storeWord m dst n w) (src + BitVec.ofNat 64 n) (dst + BitVec.ofNat 64 n)

/-- `k` steps of STOS. -/
def stringStores (n : Nat) (w : Word) : Nat → Word → List Write
  | 0, _ => []
  | k + 1, dst => .store dst n w :: stringStores n w k (dst + BitVec.ofNat 64 n)

/-! ### Insns -/

section
variable (env : Env) (hw : Hardware) (s : Cpu)

/-- What `n` bytes of an operand hold. -/
def Cpu.get (o : Operand) (n : Nat) : Word :=
  extendLow n false <| match o.cls with
    | .reg => s.regs o.reg
    | .con => symWord env o.sym + o.i
    | .mem => loadWord s.mem (o.address env s.regs) n
    | .eff => o.address env s.regs

/-- Write `n` bytes to a register: 4 bytes clear the others. -/
def putReg (r : PseudoReg) (n : Nat) (w : Word) : Write :=
  if n = 4 then .reg r 8 (extendLow 4 false w) else .reg r n w

/-- Write `n` bytes to an operand; `reg` is the write if it is a register. -/
def Cpu.place (o : Operand) (reg : Write) (n : Nat) (w : Word) : List Write :=
  match o.cls with
  | .reg => [reg]
  | .mem => [.store (o.address env s.regs) n w]
  | _ => []

/-- Write `n` bytes to an operand. -/
def Cpu.put (o : Operand) (n : Nat) (w : Word) : List Write := s.place env o (putReg o.reg n w) n w

/-- Write `n` bytes to an operand: the others of an XMM register are kept. -/
def Cpu.putXmm (o : Operand) (n : Nat) (w : Word) : List Write := s.place env o (.reg o.reg n w) n w

/-- How often a string insn is repeated. -/
def Cpu.count : Nat := if s.rep then (s.regs rcx).toNat else 1

/-- What a string insn leaves in RCX. -/
def Cpu.counted : List Write := if s.rep then [.reg rcx 8 0, .rep false] else []

/-- The count of a shift, less what the machine drops of it. -/
def Cpu.shiftCount (src : Operand) (n : Nat) : Nat := (s.get env src 1).toNat % (8 * n)

/-- What an insn writes. -/
def TargetInsn.writes (insn : TargetInsn) : List Write :=
  match insn.op.kind, insn.amd64 with
  | .move n m signed, [src, dst] => s.put env dst m (extendLow n signed (s.get env src n))
  | .moveXmm n, [src, dst] =>
    if src.cls = .mem ∧ dst.cls = .reg then [.reg dst.reg 8 (s.get env src n), .high dst.reg 0]
    else s.putXmm env dst n (s.get env src n)
  | .movups, [src, dst] =>
    match src.cls, dst.cls with
    | .reg, .mem =>
      [.store (dst.address env s.regs) 8 (s.regs src.reg),
        .store (dst.address env s.regs + 8) 8 (s.high src.reg)]
    | .mem, .reg =>
      [.reg dst.reg 8 (loadWord s.mem (src.address env s.regs) 8),
        .high dst.reg (loadWord s.mem (src.address env s.regs + 8) 8)]
    | .reg, .reg => [.reg dst.reg 8 (s.regs src.reg), .high dst.reg (s.high src.reg)]
    | _, _ => []
  | .convert n m integer, [src, dst] =>
    let w := hw.convert insn.op (s.get env src n)
    if integer then s.put env dst m w else s.putXmm env dst m w
  | .arith n, [src, dst] =>
    s.putXmm env dst n (hw.arith insn.op (s.get env dst n) (s.get env src n))
  | .ucomi n, [src, dst] =>
    flagsAll.map fun f => .flag f (hw.ucomi insn.op (s.get env dst n) (s.get env src n) f)
  | .xmmzero, [src, dst] =>
    [.reg dst.reg 8 (s.regs dst.reg ^^^ s.regs src.reg),
      .high dst.reg (s.high dst.reg ^^^ s.high src.reg)]
  | .zero, [src, dst] =>
    let a := s.get env dst 4
    let b := s.get env src 4
    s.put env dst 4 (a ^^^ b) ++ Alu.flags .xor 4 a b
  | .lea n, [src, dst] => s.put env dst n (src.address env s.regs)
  | .alu f n, [src, dst] =>
    let a := s.get env dst n
    let b := s.get env src n
    s.put env dst n (f.eval a b) ++ f.flags n a b
  | .compare n, [src, dst] => Alu.flags .sub n (s.get env dst n) (s.get env src n)
  | .test n, [src, dst] => Alu.flags .and n (s.get env dst n) (s.get env src n)
  | .shift f n, [src, dst] =>
    let a := s.get env dst n
    let count := s.shiftCount env src n
    let r := f.eval n a count
    s.put env dst n r.1 ++
      if count = 0 then []
      else resultFlags n r.1 ++
        [.flag .cf r.2, .flag .of (hw.undefined insn.op [a, BitVec.ofNat 64 count] .of)]
  | .not n, [dst] => s.put env dst n (~~~s.get env dst n)
  | .neg n, [dst] =>
    let a := s.get env dst n
    s.put env dst n (-a) ++ Alu.flags .sub n 0 a
  | .inc n, [dst] =>
    let a := s.get env dst n
    s.put env dst n (a + 1) ++ resultFlags n (a + 1) ++
      [.flag .of (BitVec.saddOverflow (low n a) 1)]
  | .dec n, [dst] =>
    let a := s.get env dst n
    s.put env dst n (a - 1) ++ resultFlags n (a - 1) ++
      [.flag .of (BitVec.ssubOverflow (low n a) 1)]
  | .imul n, [src, dst] =>
    let a := s.get env dst n
    let b := s.get env src n
    let lost := BitVec.smulOverflow (low n a) (low n b)
    s.put env dst n (a * b) ++ [.flag .cf lost, .flag .of lost] ++
      [.zf, .sf, .pf].map fun f => .flag f (hw.undefined insn.op [a, b] f)
  | .div n signed, [o] =>
    let hi := s.regs rdx
    let lo := s.regs rax
    let d := s.get env o n
    let r := divide n signed hi lo d
    [putReg rax n r.1, putReg rdx n r.2] ++
      flagsAll.map fun f => .flag f (hw.undefined insn.op [hi, lo, d] f)
  | .extend n, [] => [putReg rdx n (if (low n (s.regs rax)).msb then -1 else 0)]
  | .set cc, [dst] => s.put env dst 1 (if ccHolds s.flags cc then 1 else 0)
  | .movs n, [] =>
    let step := BitVec.ofNat 64 (n * s.count)
    stringMoves n s.count s.mem (s.regs rsi) (s.regs rdi) ++
      [.reg rsi 8 (s.regs rsi + step), .reg rdi 8 (s.regs rdi + step)] ++ s.counted
  | .stos n, [] =>
    let step := BitVec.ofNat 64 (n * s.count)
    stringStores n (s.regs rax) s.count (s.regs rdi) ++
      [.reg rdi 8 (s.regs rdi + step)] ++ s.counted
  | .rep, [] => [.rep true]
  | .push, [o] => [.store (s.regs rsp - 8) 8 (s.get env o 8), .reg rsp 8 (s.regs rsp - 8)]
  | .pop, [dst] =>
    let popped := Write.apply s (.reg rsp 8 (s.regs rsp + 8))
    .reg rsp 8 (s.regs rsp + 8) :: popped.put env dst 8 (loadWord s.mem (s.regs rsp) 8)
  | .ret value, [] =>
    [.leave (loadWord s.mem (s.regs rsp) 8) ((value.map s.regs).getD 0),
      .reg rsp 8 (s.regs rsp + 8)]
  | .call i f, [o] =>
    let args := (List.range i).map (fun k => s.regs (iargs k)) ++
      (List.range f).map fun k => s.regs (xmm k)
    let e := hw.call (s.get env o 8) args (s.regs rsp) s.mem
    (itrash ++ (List.range nrFtrash).map xmm).map (fun r => .reg r 8 (e.regs r)) ++
      (List.range 16).map (fun k => .high (xmm k) (e.high (xmm k))) ++
      flagsAll.map (fun f => .flag f (e.flags f)) ++ [.memory e.mem]
  | _, _ => []

/-- Execute an insn. -/
def TargetInsn.exec (insn : TargetInsn) : Cpu := (insn.writes env hw s).foldl Write.apply s

end

end Ncc.Amd64
