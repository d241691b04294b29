import Ncc.Regs

/-! Machine-independent IR instructions and the queries on them (insn.h, insn.c, asm.h). -/

namespace Ncc

/-- Identity of a symbol whose address a constant can refer to. -/
abbrev Symbol := Nat

/-- Numbers that value numbering assigns to operands; 0 is "none". -/
abbrev ValueNumber := Nat

/-- The union in `struct operand`: O_CON or O_REG. -/
inductive OperandVal where
  | con (con : Word) (sym : Option Symbol)
  | reg (reg : PseudoReg)
  deriving DecidableEq

/-- `struct operand`; an absent operand is `none` in the insn that lacks it. -/
structure Operand where
  ts : TypeBits
  val : OperandVal
  number : ValueNumber := 0
  deriving DecidableEq

/-- `operand_reg`. -/
def operandReg (ts : TypeBits) (r : PseudoReg) : Operand := { ts := ts, val := .reg r }

/-- `operand_i`. -/
def operandI (ts : TypeBits) (i : Word) (sym : Option Symbol) : Operand :=
  { ts := ts, val := .con i sym }

/-- The register of an O_REG operand. -/
def Operand.reg? (o : Operand) : Option PseudoReg :=
  match o.val with
  | .reg r => some r
  | .con _ _ => none

/-- OPERAND_CON. -/
def operandCon : Option Operand → Bool
  | some ⟨_, .con _ _, _⟩ => true
  | _ => false

/-- OPERAND_PURE_CON. -/
def operandPureCon : Option Operand → Bool
  | some ⟨_, .con _ none, _⟩ => true
  | _ => false

/-- Is the operand the constant zero? A floating zero has either sign. -/
def operandIsZero : Option Operand → Bool
  | some ⟨ts, .con c none, _⟩ => if ts.floating then fEq c 0#64 else c == 0#64
  | _ => false

/-- Are the operands identical? Floating constants are compared with `==` on doubles. -/
def operandIsSame : Option Operand → Option Operand → Bool
  | none, none => true
  | some o₁, some o₂ =>
    if o₁.ts ≠ o₂.ts then false
    else
      match o₁.val, o₂.val with
      | .reg r₁, .reg r₂ => r₁ == r₂
      | .con c₁ s₁, .con c₂ s₂ =>
        if o₁.ts.floating then fEq c₁ c₂ else s₁ == s₂ && c₁ == c₂
      | _, _ => false
  | _, _ => false

/-- I_*. The ten I_SET_cc ops are one constructor over the code they test. -/
inductive InsnOp where
  | nop | frame | load | store | blkcopy | blkzero | call | arg | varg | blkarg | ret
  | move | cast | neg | com | cmp
  | add | sub | mul | div | mod | shr | shl | xor | or | and
  | set (cc : ConditionCode) | number | test | asm
  deriving DecidableEq, Inhabited

namespace InsnOp

/-- I_DST: the insn has a dst. -/
def hasDst : InsnOp → Bool
  | nop | arg | varg | blkarg | ret | cmp | test | asm => false
  | _ => true

/-- I_USE_DST: the insn USEs (instead of DEFs) its dst. -/
def useDst : InsnOp → Bool
  | store | blkcopy | blkzero => true
  | _ => false

/-- I_DEF_CC. -/
def defCc : InsnOp → Bool
  | call | cmp | test => true
  | _ => false

/-- I_USE_MEM. -/
def useMem : InsnOp → Bool
  | load | call => true
  | _ => false

/-- I_DEF_MEM. -/
def defMem : InsnOp → Bool
  | store | blkcopy | blkzero | call => true
  | _ => false

/-- I_SIDE. -/
def side : InsnOp → Bool
  | call | arg | varg | blkarg | ret | asm => true
  | _ => false

/-- I_SAFE_CC: guaranteed to preserve the condition codes, in target code, too. -/
def safeCc : InsnOp → Bool
  | nop | frame | load | store | move | set _ => true
  | _ => false

/-- I_ARGUMENT: passes an argument of the call that follows. -/
def argument : InsnOp → Bool
  | arg | varg | blkarg => true
  | _ => false

/-- I_SLVN: eligible for value numbering. -/
def slvn : InsnOp → Bool
  | frame | load | move | cast | neg | com | add | sub | mul | div | mod | shr | shl
  | xor | or | and => true
  | _ => false

/-- I_LICM: eligible for loop-invariant code motion. -/
def licm : InsnOp → Bool
  | load | move | cast | neg | com | add | sub | mul | div | mod | shr | shl
  | xor | or | and => true
  | _ => false

end InsnOp

/-- `struct iasm`. In `inputs` and `outputs` the machine register is the key. Every variable that
    the input clause maps is in `uses`, because `asm_ioputs` adds it to both. -/
structure Iasm where
  text : String
  defs : Regs
  uses : Regs
  inputs : Regmaps
  outputs : Regmaps
  defsMem : Bool
  usesMem : Bool
  defsCc : Bool
  inputs_uses : ∀ e ∈ inputs.entries, e.2 ∈ uses
  deriving DecidableEq

/-- The payload `asm_new` builds. -/
def asmNew : Iasm where
  text := ""
  defs := []
  uses := []
  inputs := .empty
  outputs := .empty
  defsMem := false
  usesMem := false
  defsCc := false
  inputs_uses := fun _ h => absurd h List.not_mem_nil

/-- `struct insn`. The index of an insn is its position in its block; `iasm` is used by I_ASM. -/
structure Insn where
  op : InsnOp
  dst : Option Operand := none
  src1 : Option Operand := none
  src2 : Option Operand := none
  isVolatile : Bool := false
  iasm : Iasm := asmNew
  deriving DecidableEq

/-- The insn with the given op and operands (`insn_new`, and what `insn_replace` leaves behind: no
    flag survives it). -/
def insnNew (op : InsnOp) (dst src1 src2 : Option Operand := none) : Insn :=
  { op := op, dst := dst, src1 := src1, src2 := src2 }

/-- What `insn_construct` makes: only the ops that have a dst get one, I_NUMBER stands for no real
    insn, and there is no I_SET_cc for a code that is no condition. -/
structure Insn.Formed (insn : Insn) : Prop where
  real : insn.op ≠ .number
  dst : insn.op.hasDst = false → insn.dst = none
  cc : ∀ cc, insn.op = .set cc → cc.conditional = true

/-- Is the insn a pure register to register copy? If so, its destination and source. -/
def insnCopy (insn : Insn) : Option (PseudoReg × PseudoReg) :=
  match insn.op, insn.dst, insn.src1 with
  | .move, some ⟨_, .reg d, _⟩, some ⟨_, .reg s, _⟩ => some (d, s)
  | _, _, _ => none

/-- Is the insn a load of a constant? If so, its destination and the constant. -/
def insnCon (insn : Insn) : Option (PseudoReg × Operand) :=
  match insn.op, insn.dst, insn.src1 with
  | .move, some ⟨_, .reg d, _⟩, some o => if operandCon (some o) then some (d, o) else none
  | _, _, _ => none

/-- Does the insn have effects beyond the registers, condition codes and memory it DEFs? -/
def insnSideEffects (insn : Insn) : Bool := insn.isVolatile || insn.op.side

/-- Does the insn update the condition codes? -/
def insnDefsCc (insn : Insn) : Bool :=
  if insn.op = .asm then insn.iasm.defsCc else insn.op.defCc

/-- The condition codes the insn uses. -/
def insnUsesCc (insn : Insn) : CcSet :=
  match insn.op with
  | .set cc => {cc}
  | _ => ∅

/-- Does the insn write memory? -/
def insnDefsMem (insn : Insn) : Bool :=
  if insn.op = .asm then insn.iasm.defsMem else insn.op.defMem

/-- Does the insn read memory? -/
def insnUsesMem (insn : Insn) : Bool :=
  if insn.op = .asm then insn.iasm.usesMem else insn.op.useMem

/-- A test of a register against a pure constant; the register under test. -/
def insnTestCon (insn : Insn) : Option PseudoReg :=
  match insn.op, insn.src1, insn.src2 with
  | .cmp, some o₁, some o₂ =>
    if operandPureCon (some o₂) && o₁.reg?.isSome then o₁.reg?
    else if operandPureCon (some o₁) && o₂.reg?.isSome then o₂.reg?
    else none
  | _, _, _ => none

/-- Just like `insnTestCon`, except that the constant must be zero. -/
def insnTestZ (insn : Insn) : Option PseudoReg :=
  if operandIsZero insn.src1 || operandIsZero insn.src2 then insnTestCon insn else none

/-- The register an operand mentions, as a set. -/
def operandRegs (o : Option Operand) : Regs :=
  match o with
  | some ⟨_, .reg r, _⟩ => [r]
  | _ => []

/-- The registers the insn DEFs. -/
def insnDefsRegs (insn : Insn) : Regs :=
  let regs := if insn.op.useDst then [] else operandRegs insn.dst
  if insn.op = .asm then regsUnion regs insn.iasm.defs else regs

/-- The registers the insn USEs. -/
def insnUsesRegs (insn : Insn) : Regs :=
  let regs := if insn.op.useDst then operandRegs insn.dst else []
  let regs := regsUnion regs (operandRegs insn.src1)
  let regs := regsUnion regs (operandRegs insn.src2)
  if insn.op = .asm then regsUnion regs insn.iasm.uses else regs

theorem sorted_operandRegs (o : Option Operand) : (operandRegs o).Pairwise (· < ·) := by
  rcases o with _ | ⟨ts, _ | r, n⟩ <;> simp [operandRegs]

theorem sorted_insnDefsRegs (insn : Insn) : (insnDefsRegs insn).Pairwise (· < ·) := by
  have h : (if insn.op.useDst then [] else operandRegs insn.dst).Pairwise (· < ·) := by
    split
    · exact List.Pairwise.nil
    · exact sorted_operandRegs _
  simp only [insnDefsRegs]
  by_cases hop : insn.op = .asm
  · rw [if_pos hop]; exact sorted_regsUnion _ h
  · rw [if_neg hop]; exact h

theorem sorted_insnUsesRegs (insn : Insn) : (insnUsesRegs insn).Pairwise (· < ·) := by
  have h : (if insn.op.useDst then operandRegs insn.dst else []).Pairwise (· < ·) := by
    split
    · exact sorted_operandRegs _
    · exact List.Pairwise.nil
  have h₂ := sorted_regsUnion (operandRegs insn.src2)
    (sorted_regsUnion (operandRegs insn.src1) h)
  simp only [insnUsesRegs]
  by_cases hop : insn.op = .asm
  · rw [if_pos hop]; exact sorted_regsUnion _ h₂
  · rw [if_neg hop]; exact h₂

/-- INSN_SUBSTITUTE_REG0. -/
def operandSubstituteReg (o : Option Operand) (bef aft : PseudoReg) : Option Operand :=
  o.map fun o =>
    match o.val with
    | .reg r => if r = bef then { o with val := .reg aft } else o
    | .con _ _ => o

/-- INSN_SUBSTITUTE_REG1 on `uses` and `in`. -/
def Iasm.substituteUses (a : Iasm) (bef aft : PseudoReg) : Iasm :=
  { a with
    uses := regsSubstitute a.uses bef aft
    inputs := regmapsSubstitute a.inputs bef aft
    inputs_uses := by
      intro e he
      obtain ⟨v, hv, hev⟩ := Assoc.mem_mapValues.mp he
      have hu := a.inputs_uses _ hv
      rw [mem_regsSubstitute, ← hev]
      by_cases h : v = bef
      · subst h; exact Or.inl ⟨if_pos rfl, hu⟩
      · rw [if_neg h]; exact Or.inr ⟨hu, h⟩ }

/-- Replace the USEs of `bef` by `aft` (`insn_substitute_reg` with INSN_SUBSTITUTE_USES). -/
def insnSubstituteUses (insn : Insn) (bef aft : PseudoReg) : Insn :=
  { insn with
    dst := if insn.op.useDst then operandSubstituteReg insn.dst bef aft else insn.dst
    src1 := operandSubstituteReg insn.src1 bef aft
    src2 := operandSubstituteReg insn.src2 bef aft
    iasm := if insn.op = .asm then insn.iasm.substituteUses bef aft else insn.iasm }

/-- INSN_SUBSTITUTE_REG1 on `defs` and `out`. -/
def Iasm.substituteDefs (a : Iasm) (bef aft : PseudoReg) : Iasm :=
  { a with
    defs := regsSubstitute a.defs bef aft
    outputs := regmapsSubstitute a.outputs bef aft }

/-- Replace the DEFs of `bef` by `aft` (`insn_substitute_reg` with INSN_SUBSTITUTE_DEFS). -/
def insnSubstituteDefs (insn : Insn) (bef aft : PseudoReg) : Insn :=
  { insn with
    dst := if insn.op.useDst then insn.dst else operandSubstituteReg insn.dst bef aft
    iasm := if insn.op = .asm then insn.iasm.substituteDefs bef aft else insn.iasm }

/-- Replace every mention of `bef` by `aft` (`insn_substitute_reg` with INSN_SUBSTITUTE_ALL). -/
def insnSubstituteReg (insn : Insn) (bef aft : PseudoReg) : Insn :=
  insnSubstituteUses (insnSubstituteDefs insn bef aft) bef aft

/-- INSN_SUBSTITUTE_CON0. -/
def operandSubstituteCon (o : Option Operand) (r : PseudoReg) (value : Operand) : Option Operand :=
  o.map fun o => if o.val = .reg r then value else o

/-- Replace the USEs of `r` by a constant, operand types and all (`insn_substitute_con`). -/
def insnSubstituteCon (insn : Insn) (r : PseudoReg) (value : Operand) : Insn :=
  { insn with
    dst := if insn.op.useDst then operandSubstituteCon insn.dst r value else insn.dst
    src1 := operandSubstituteCon insn.src1 r value
    src2 := operandSubstituteCon insn.src2 r value }

/-- STRIP0. -/
def operandStrip (o : Option Operand) : Option Operand :=
  o.map fun o =>
    match o.val with
    | .reg r => { o with val := .reg (pseudoRegBase r) }
    | .con _ _ => o

/-- `insn_strip_indices` on the payload of I_ASM. -/
def Iasm.strip (a : Iasm) : Iasm :=
  { a with
    defs := regsStrip a.defs
    uses := regsStrip a.uses
    inputs := regmapsStrip a.inputs
    outputs := regmapsStrip a.outputs
    inputs_uses := by
      intro e he
      obtain ⟨v, hv, hev⟩ := Assoc.mem_mapValues.mp he
      exact mem_regsStrip.mpr ⟨v, a.inputs_uses _ hv, hev.symm⟩ }

/-- `insn_strip_indices`. -/
def insnStripIndices (insn : Insn) : Insn :=
  { insn with
    dst := operandStrip insn.dst
    src1 := operandStrip insn.src1
    src2 := operandStrip insn.src2
    iasm := if insn.op = .asm then insn.iasm.strip else insn.iasm }

/-- `insn_substitute_reg`; the flags are INSN_SUBSTITUTE_DEFS and INSN_SUBSTITUTE_USES. -/
def insnSubstitute (insn : Insn) (bef aft : PseudoReg) (defs uses : Bool) : Insn :=
  let insn := if defs then insnSubstituteDefs insn bef aft else insn
  if uses then insnSubstituteUses insn bef aft else insn

section
variable {insn : Insn} {bef aft r : PseudoReg}

theorem mem_operandRegs_substituteReg {o : Option Operand} :
    r ∈ operandRegs (operandSubstituteReg o bef aft) ↔
      (r = aft ∧ bef ∈ operandRegs o) ∨ (r ∈ operandRegs o ∧ r ≠ bef) := by
  rcases o with _ | ⟨ts, _ | x, n⟩
  · simp [operandSubstituteReg, operandRegs]
  · simp [operandSubstituteReg, operandRegs]
  · by_cases hx : x = bef
    · subst hx; simp [operandSubstituteReg, operandRegs]
    · simp only [operandSubstituteReg, Option.map_some, if_neg hx, operandRegs, List.mem_singleton,
        Ne.symm hx, and_false, false_or]
      exact ⟨fun h => ⟨h, h ▸ hx⟩, And.left⟩

theorem mem_defsRegs_substituteDefs : r ∈ insnDefsRegs (insnSubstituteDefs insn bef aft) ↔
    (r = aft ∧ bef ∈ insnDefsRegs insn) ∨ (r ∈ insnDefsRegs insn ∧ r ≠ bef) := by
  obtain ⟨op, dst, src1, src2, vol, iasm⟩ := insn
  by_cases hu : op.useDst = true
  · have hop : op ≠ .asm := by rintro rfl; exact absurd hu (by decide)
    simp [insnDefsRegs, insnSubstituteDefs, hu, hop]
  · by_cases hop : op = .asm
    · simp only [insnDefsRegs, insnSubstituteDefs, hop, if_true, mem_regsUnion,
        Iasm.substituteDefs, mem_regsSubstitute, mem_operandRegs_substituteReg,
        InsnOp.useDst, Bool.false_eq_true, if_false]
      tauto
    · simp only [insnDefsRegs, insnSubstituteDefs, hu, hop, if_false,
        mem_operandRegs_substituteReg, Bool.false_eq_true]

theorem mem_usesRegs_substituteUses : r ∈ insnUsesRegs (insnSubstituteUses insn bef aft) ↔
    (r = aft ∧ bef ∈ insnUsesRegs insn) ∨ (r ∈ insnUsesRegs insn ∧ r ≠ bef) := by
  obtain ⟨op, dst, src1, src2, vol, iasm⟩ := insn
  by_cases hop : op = .asm
  · simp only [insnUsesRegs, insnSubstituteUses, hop, if_true, mem_regsUnion, Iasm.substituteUses,
      mem_regsSubstitute, mem_operandRegs_substituteReg, InsnOp.useDst, Bool.false_eq_true,
      if_false, List.not_mem_nil, false_or]
    tauto
  · by_cases hu : op.useDst = true
    · simp only [insnUsesRegs, insnSubstituteUses, hop, hu, if_true, if_false, mem_regsUnion,
        mem_operandRegs_substituteReg]
      tauto
    · simp only [insnUsesRegs, insnSubstituteUses, hop, hu, if_false, mem_regsUnion,
        mem_operandRegs_substituteReg, Bool.false_eq_true, List.not_mem_nil, false_or]
      tauto

@[simp] theorem insnUsesRegs_substituteDefs (insn : Insn) (bef aft : PseudoReg) :
    insnUsesRegs (insnSubstituteDefs insn bef aft) = insnUsesRegs insn := by
  obtain ⟨op, dst, src1, src2, vol, iasm⟩ := insn
  by_cases hop : op = .asm
  · subst hop
    simp [insnUsesRegs, insnSubstituteDefs, InsnOp.useDst, Iasm.substituteDefs]
  · by_cases hu : op.useDst = true <;> simp [insnUsesRegs, insnSubstituteDefs, hu, hop]

end

end Ncc
