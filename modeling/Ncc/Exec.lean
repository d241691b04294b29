import Ncc.Insn

/-! What IR instructions do.

    A pseudo-register holds a 64-bit word. A register operand reads that word at the operand's type:
    truncated, then zero- or sign-extended, as `gen_cast` relies on when it emits a narrowing I_MOVE
    whose source operand re-types the register. A result is written at the type of the dst. What the
    IR leaves to the machine (floating-point arithmetic, calls, inline assembly, addresses) is the
    `Env` every definition below takes. -/

namespace Ncc

/-- Byte-addressed memory. -/
abbrev Mem := Word → BitVec 8

/-- An argument passed since the last call; `size` is for I_BLKARG. -/
structure Arg where
  op : InsnOp
  ts : TypeBits
  word : Word
  size : Word
  deriving DecidableEq, Inhabited

/-- The state of a function between two insns. -/
structure State where
  regs : PseudoReg → Word
  ccs : CcSet
  mem : Mem
  args : List Arg
  ret : Option Word
  deriving Inhabited

/-- What a call leaves behind. -/
structure CallResult where
  value : Word
  ccs : CcSet
  mem : Mem
  deriving Inhabited

/-- What inline assembly leaves behind: the machine registers, codes and memory after its text. -/
structure AsmResult where
  out : PseudoReg → Word
  ccs : CcSet
  mem : Mem
  deriving Inhabited

/-- The machine and the rest of the program. -/
structure Env where
  symAddr : Symbol → Word
  frame : Word
  single : Word → Word
  fUnary : InsnOp → TypeBits → Word → Word
  fBinary : InsnOp → TypeBits → Word → Word → Word
  fCast : TypeBits → TypeBits → Word → Word
  fCmp : TypeBits → Word → Word → CcSet
  testCcs : Word → CcSet
  call : Word → List Arg → Mem → CallResult
  asm : String → List (PseudoReg × Word) → Mem → AsmResult
  deriving Inhabited

/-! ### Memory words -/

/-- Byte `k` of a word, least significant first. -/
def wordByte (w : Word) (k : Nat) : BitVec 8 := (w >>> (8 * k)).setWidth 8

/-- The word whose `n` low bytes are given. -/
def ofBytes (f : Nat → BitVec 8) : Nat → Word
  | 0 => 0
  | n + 1 => ofBytes f n ||| ((f n).setWidth 64 <<< (8 * n))

/-- Read `n` bytes at `a`. -/
def loadWord (m : Mem) (a : Word) (n : Nat) : Word := ofBytes (fun k => m (a + BitVec.ofNat 64 k)) n

/-- Write the `n` low bytes of `w` at `a`. -/
def storeWord (m : Mem) (a : Word) (n : Nat) (w : Word) : Mem := fun x =>
  if (x - a).toNat < n then wordByte w (x - a).toNat else m x

theorem getLsbD_ofBytes (f : Nat → BitVec 8) (j : Nat) : ∀ n, n ≤ 8 →
    (ofBytes f n).getLsbD j = (decide (j < 8 * n) && (f (j / 8)).getLsbD (j % 8))
  | 0, _ => by simp [ofBytes]
  | n + 1, hn => by
      simp only [ofBytes, BitVec.getLsbD_or, getLsbD_ofBytes f j n (by omega),
        BitVec.getLsbD_shiftLeft, BitVec.getLsbD_setWidth]
      by_cases hlt : j < 8 * n
      · simp [hlt, show j < 8 * (n + 1) by omega]
      · by_cases hlt' : j < 8 * (n + 1)
        · have hdiv : j / 8 = n := by omega
          have hmod : j - 8 * n = j % 8 := by omega
          simp [hlt, hlt', hdiv, hmod, show j < 64 by omega, show j % 8 < 64 by omega]
        · have : 8 ≤ j - 8 * n := by omega
          simp [hlt, hlt', BitVec.getLsbD_of_ge _ _ this]

/-- Reading back what was just written gives the low bytes of the word. -/
theorem loadWord_storeWord (m : Mem) (a w : Word) {n : Nat} (hn : n ≤ 8) :
    loadWord (storeWord m a n w) a n = (w.setWidth (8 * n)).setWidth 64 := by
  apply BitVec.eq_of_getLsbD_eq
  intro j hj
  rw [loadWord, getLsbD_ofBytes _ _ n hn]
  by_cases hlt : j < 8 * n
  · have hmod : j / 8 % 2 ^ 64 = j / 8 := Nat.mod_eq_of_lt (by omega)
    have hk : (a + BitVec.ofNat 64 (j / 8) - a).toNat = j / 8 := by
      rw [add_sub_cancel_left, BitVec.toNat_ofNat, hmod]
    have hsum : 8 * (j / 8) + j % 8 = j := by omega
    simp only [storeWord, hk, if_pos (show j / 8 < n by omega), wordByte, BitVec.getLsbD_setWidth,
      BitVec.getLsbD_ushiftRight, hsum]
    simp [hlt, hj, show j % 8 < 8 by omega]
  · simp [hlt]

/-- A word of the type's size carries every bit the type keeps. -/
theorem fit_setWidth (ts : TypeBits) (w : Word) :
    fit ts ((w.setWidth (8 * ts.sizeof)).setWidth 64) = fit ts w := by
  cases ts <;> simp [fit, conNormalize, TypeBits.sizeof]

/-! ### Operands and results -/

/-- The address a constant's symbol contributes. -/
def symWord (env : Env) : Option Symbol → Word
  | some x => env.symAddr x
  | none => 0

/-- The value an operand denotes, at its type. -/
def Operand.read (env : Env) (regs : PseudoReg → Word) (o : Operand) : Word :=
  match o.val with
  | .reg r => fit o.ts (regs r)
  | .con c sym =>
    match o.ts with
    | .float => fit .float (env.single c)
    | .double => c
    | ts => conNormalize ts (symWord env sym + c)

/-- The value of an operand that may be absent. -/
def readOpt (env : Env) (regs : PseudoReg → Word) : Option Operand → Word
  | some o => o.read env regs
  | none => 0

/-- The type of an operand that may be absent. -/
def tsOpt : Option Operand → TypeBits
  | some o => o.ts
  | none => .long

/-- What an operand denotes fits its type. -/
@[simp] theorem fit_readOpt (env : Env) (regs : PseudoReg → Word) (o : Option Operand) :
    fit (tsOpt o) (readOpt env regs o) = readOpt env regs o := by
  rcases o with _ | ⟨ts, _ | r, n⟩
  · rfl
  · cases ts <;> exact fit_fit _ _
  · exact fit_fit ts _

/-- The zero of an integral type. -/
theorem read_zero {env : Env} {o : Option Operand} (hz : operandIsZero o = true)
    (hint : (tsOpt o).floating = false) (regs : PseudoReg → Word) : readOpt env regs o = 0 := by
  rcases o with _ | ⟨ts, ⟨c, _ | y⟩ | r, n⟩
  · exact nomatch hz
  · have hts : ts.floating = false := hint
    have hc : c = 0#64 := by simpa [operandIsZero, hts] using hz
    subst hc
    cases ts with
    | float | double => exact nomatch hts
    | _ => rfl
  · exact nomatch hz
  · exact nomatch hz

/-- Write a result to the dst of an insn. -/
def State.write (s : State) (dst : Option Operand) (v : Word) : State :=
  match dst with
  | some ⟨ts, .reg r, _⟩ => { s with regs := Function.update s.regs r (fit ts v) }
  | _ => s

/-- Integer arithmetic on 64-bit words, signed or unsigned by the type of the result. -/
def aluBinary (op : InsnOp) (ts : TypeBits) (a b : Word) : Word :=
  match op with
  | .add => a + b
  | .sub => a - b
  | .mul => a * b
  | .div => if ts.signed then a.sdiv b else a / b
  | .mod => if ts.signed then a.srem b else a % b
  | .shr => if ts.signed then a.sshiftRight (b.toNat % 64) else a >>> (b.toNat % 64)
  | .shl => a <<< (b.toNat % 64)
  | .xor => a ^^^ b
  | .or => a ||| b
  | .and => a &&& b
  | _ => 0

/-- The value an expression insn computes from its operands and memory. -/
def exprValue (env : Env) (op : InsnOp) (ts ts₁ : TypeBits) (a b : Word) (mem : Mem) : Word :=
  match op with
  | .frame => env.frame + a
  | .load => loadWord mem a ts.sizeof
  | .move => a
  | .cast => if ts.floating || ts₁.floating then env.fCast ts ts₁ a else a
  | .neg => if ts.floating then env.fUnary .neg ts a else -a
  | .com => ~~~a
  | op => if ts.floating then env.fBinary op ts a b else aluBinary op ts a b

/-- Does the code hold after comparing `x` with `y`? -/
def cmpHolds {n : Nat} (x y : BitVec n) : ConditionCode → Bool
  | .z => x == y
  | .nz => x != y
  | .g => y.slt x
  | .le => !y.slt x
  | .ge => !x.slt y
  | .l => x.slt y
  | .a => y.ult x
  | .be => !y.ult x
  | .ae => !x.ult y
  | .b => x.ult y
  | _ => false

/-- The codes I_CMP sets: integers compare at the width of the type. -/
def cmpCodes (env : Env) (ts : TypeBits) (a b : Word) : CcSet :=
  if ts.floating then env.fCmp ts a b
  else Finset.univ.filter fun cc =>
    cmpHolds (a.setWidth (8 * ts.sizeof)) (b.setWidth (8 * ts.sizeof)) cc

/-- The codes I_TEST sets: only Z and its inverse are guaranteed. -/
def testCodes (env : Env) (ts : TypeBits) (a b : Word) : CcSet :=
  Finset.univ.filter fun cc =>
    if cc = .z then fit ts (a &&& b) = 0
    else if cc = .nz then fit ts (a &&& b) ≠ 0
    else cc ∈ env.testCcs (a &&& b)

/-- The words of the input clause, by machine register. -/
def Iasm.read (a : Iasm) (regs : PseudoReg → Word) : List (PseudoReg × Word) :=
  a.inputs.entries.map fun e => (e.1, regs e.2)

/-- The machine register an output variable is retrieved from. -/
def Iasm.source (a : Iasm) (r : PseudoReg) : PseudoReg :=
  ((a.outputs.entries.find? (fun e => e.2 = r)).map Prod.fst).getD r

/-- The effect of inline assembly. -/
def execAsm (env : Env) (a : Iasm) (s : State) : State :=
  let res := env.asm a.text (a.read s.regs) (if a.usesMem then s.mem else fun _ => 0)
  { s with
    regs := fun r => if r ∈ a.defs then res.out (a.source r) else s.regs r
    ccs := if a.defsCc then res.ccs else s.ccs
    mem := if a.defsMem then res.mem else s.mem }

/-- Execute one insn. -/
def exec (env : Env) (insn : Insn) (s : State) : State :=
  let d := readOpt env s.regs insn.dst
  let a := readOpt env s.regs insn.src1
  let b := readOpt env s.regs insn.src2
  match insn.op with
  | .nop | .number => s
  | .store => { s with mem := storeWord s.mem d (tsOpt insn.src1).sizeof a }
  | .blkcopy =>
    { s with mem := fun x => if (x - d).toNat < b.toNat then s.mem (a + (x - d)) else s.mem x }
  | .blkzero => { s with mem := fun x => if (x - d).toNat < a.toNat then 0 else s.mem x }
  | .call =>
    let res := env.call a s.args s.mem
    { s with ccs := res.ccs, mem := res.mem, args := [] }.write insn.dst res.value
  | .arg | .varg | .blkarg => { s with args := s.args ++ [⟨insn.op, tsOpt insn.src1, a, b⟩] }
  | .ret => { s with ret := some a }
  | .cmp => { s with ccs := cmpCodes env (tsOpt insn.src1) a b }
  | .test => { s with ccs := testCodes env (tsOpt insn.src1) a b }
  | .set cc => s.write insn.dst (if cc ∈ s.ccs then 1 else 0)
  | .asm => execAsm env insn.iasm s
  | op => s.write insn.dst (exprValue env op (tsOpt insn.dst) (tsOpt insn.src1) a b s.mem)

/-- Execute a sequence of insns. -/
def execs (env : Env) (insns : List Insn) (s : State) : State :=
  insns.foldl (fun s insn => exec env insn s) s

@[simp] theorem execs_nil (env : Env) (s : State) : execs env [] s = s := rfl

@[simp] theorem execs_cons (env : Env) (i : Insn) (l : List Insn) (s : State) :
    execs env (i :: l) s = execs env l (exec env i s) := rfl

@[simp] theorem execs_append (env : Env) (l₁ l₂ : List Insn) (s : State) :
    execs env (l₁ ++ l₂) s = execs env l₂ (execs env l₁ s) := List.foldl_append

/-! ### Frame lemmas -/

section Frame
variable (env : Env)

@[simp] theorem write_ccs (s : State) (dst : Option Operand) (v : Word) :
    (s.write dst v).ccs = s.ccs := by unfold State.write; split <;> rfl

@[simp] theorem write_mem (s : State) (dst : Option Operand) (v : Word) :
    (s.write dst v).mem = s.mem := by unfold State.write; split <;> rfl

@[simp] theorem write_args (s : State) (dst : Option Operand) (v : Word) :
    (s.write dst v).args = s.args := by unfold State.write; split <;> rfl

@[simp] theorem write_ret (s : State) (dst : Option Operand) (v : Word) :
    (s.write dst v).ret = s.ret := by unfold State.write; split <;> rfl

theorem write_regs_of_notMem {s : State} {dst : Option Operand} {v : Word} {r : PseudoReg}
    (h : r ∉ operandRegs dst) : (s.write dst v).regs r = s.regs r := by
  unfold State.write
  split
  · exact Function.update_of_ne (by simpa [operandRegs] using h) ..
  · rfl

/-- An insn changes no register it does not DEF. -/
theorem exec_regs_of_notMem {insn : Insn} {s : State} {r : PseudoReg}
    (h : r ∉ insnDefsRegs insn) : (exec env insn s).regs r = s.regs r := by
  obtain ⟨op, dst, src1, src2, vol, iasm⟩ := insn
  cases op <;> simp only [insnDefsRegs, InsnOp.useDst, reduceCtorEq, if_false, if_true,
    mem_regsUnion, not_or, Bool.false_eq_true] at h <;> simp only [exec]
  case asm => simp [execAsm, h.2]
  all_goals exact write_regs_of_notMem h

/-- An insn that does not DEF memory leaves it alone. -/
theorem exec_mem_of_not_defsMem {insn : Insn} {s : State} (h : insnDefsMem insn = false) :
    (exec env insn s).mem = s.mem := by
  obtain ⟨op, dst, src1, src2, vol, iasm⟩ := insn
  cases op <;> simp_all [insnDefsMem, InsnOp.defMem, exec, execAsm]

/-- An insn that does not DEF the condition codes leaves them alone. -/
theorem exec_ccs_of_not_defsCc {insn : Insn} {s : State} (h : insnDefsCc insn = false) :
    (exec env insn s).ccs = s.ccs := by
  obtain ⟨op, dst, src1, src2, vol, iasm⟩ := insn
  cases op <;> simp_all [insnDefsCc, InsnOp.defCc, exec, execAsm]

/-- What an operand denotes depends on its register only. -/
theorem readOpt_congr {regs regs' : PseudoReg → Word} {o : Option Operand}
    (h : ∀ r ∈ operandRegs o, regs' r = regs r) : readOpt env regs' o = readOpt env regs o := by
  rcases o with _ | ⟨ts, _ | r, n⟩
  · rfl
  · rfl
  · simp only [readOpt, Operand.read, h r (by simp [operandRegs])]

theorem exec_store {st : Insn} (h : st.op = .store) (s : State) :
    exec env st s = { s with
      mem := storeWord s.mem (readOpt env s.regs st.dst) (tsOpt st.src1).sizeof
        (readOpt env s.regs st.src1) } := by
  simp only [exec, h]

theorem exec_load {i : Insn} (h : i.op = .load) (s : State) : exec env i s =
    s.write i.dst (loadWord s.mem (readOpt env s.regs i.src1) (tsOpt i.dst).sizeof) := by
  simp only [exec, h, exprValue]

theorem write_congr {s : State} {dst : Option Operand} {v w : Word}
    (h : fit (tsOpt dst) v = fit (tsOpt dst) w) : s.write dst v = s.write dst w := by
  rcases dst with _ | ⟨ts, _ | r, n⟩
  · rfl
  · rfl
  · simp only [State.write]; rw [show fit ts v = fit ts w from h]

/-! ### Substitution of equals -/

theorem read_substituteReg {regs : PseudoReg → Word} {bef aft : PseudoReg}
    (h : regs bef = regs aft) (o : Option Operand) :
    readOpt env regs (operandSubstituteReg o bef aft) = readOpt env regs o := by
  rcases o with _ | ⟨ts, _ | r, n⟩
  · rfl
  · rfl
  · by_cases hr : r = bef
    · subst hr; simp [operandSubstituteReg, readOpt, Operand.read, h]
    · simp [operandSubstituteReg, hr]

@[simp] theorem tsOpt_substituteReg (o : Option Operand) (bef aft : PseudoReg) :
    tsOpt (operandSubstituteReg o bef aft) = tsOpt o := by
  rcases o with _ | ⟨ts, _ | r, n⟩
  · rfl
  · rfl
  · by_cases hr : r = bef <;> simp [operandSubstituteReg, tsOpt, hr]

theorem read_substituteUses {regs : PseudoReg → Word} {bef aft : PseudoReg}
    (h : regs bef = regs aft) (a : Iasm) :
    (a.substituteUses bef aft).read regs = a.read regs := by
  simp only [Iasm.read, Iasm.substituteUses, regmapsSubstitute, Assoc.mapValues, List.map_map]
  refine List.map_congr_left fun e _ => ?_
  by_cases he : e.2 = bef <;> simp [he, h]

/-- Renaming the USEs of a register to one that holds the same word changes nothing. -/
theorem exec_substituteUses {insn : Insn} {s : State} {bef aft : PseudoReg}
    (h : s.regs bef = s.regs aft) :
    exec env (insnSubstituteUses insn bef aft) s = exec env insn s := by
  obtain ⟨op, dst, src1, src2, vol, iasm⟩ := insn
  cases op <;> simp [insnSubstituteUses, InsnOp.useDst, exec, read_substituteReg env h]
  case asm => simp only [execAsm, read_substituteUses h]; rfl

@[simp] theorem insnDefsRegs_substituteUses (insn : Insn) (bef aft : PseudoReg) :
    insnDefsRegs (insnSubstituteUses insn bef aft) = insnDefsRegs insn := by
  obtain ⟨op, dst, src1, src2, vol, iasm⟩ := insn
  cases op <;> simp [insnDefsRegs, insnSubstituteUses, InsnOp.useDst, Iasm.substituteUses]

end Frame

end Ncc
