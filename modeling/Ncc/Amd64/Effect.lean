import Ncc.Amd64.Cpu

/-! What the passes ask about the effects of AMD64 insns (amd64/insn.c).

    The queries read the bits of the op and the classes of the operands. They are compared with what
    the machine writes, and with what the writes depend on. -/

namespace Ncc.Amd64

/-! ### The queries -/

/-- AMD64_SIZE_* of an operand, in bytes, if it is at most 8. -/
def opSize (i : BitVec 32) (n : Nat) : Nat := 2 ^ (i >>> (9 + n * 2) &&& 3).toNat

/-- `amd64_insn_defs_cc`. -/
def insnDefsCc (insn : TargetInsn) : Bool := insn.op.insnOp &&& flagDefcc != 0

/-- `amd64_insn_uses_cc`: all codes, if any. -/
def insnUsesCc (insn : TargetInsn) : CcSet :=
  if insn.op.insnOp &&& flagUsecc != 0 then Finset.univ else ∅

/-- AMD64_I_FLAG_SIDE. -/
def Opcode.side (op : Opcode) : Bool := op.insnOp &&& flagSide != 0

/-- `amd64_insn_side_effects`. -/
def insnSideEffects (insn : TargetInsn) : Bool :=
  if insn.op.side then true
  else
    let regs := (insnDefsRegs insn []).1
    decide (rsp ∈ regs) || decide (rbp ∈ regs)

/-- AMD64_OPERAND_ZERO. -/
def operandZero (o : Operand) : Bool := o.cls = .con && o.sym = none && o.i = 0

/-- `amd64_insn_test_z`. -/
def insnTestZ (insn : TargetInsn) : Option PseudoReg :=
  match insn.op, insn.amd64 with
  | .cmpl, [o₀, o₁] | .cmpq, [o₀, o₁] =>
    if operandZero o₀ || operandZero o₁ then
      let o := if o₁.cls = .reg then some o₀ else none
      let o := if o₁.cls = .reg then some o₁ else o
      o.map Operand.reg
    else none
  | _, _ => none

/-- DEFS_Z0. -/
def defsZ0 (insn : TargetInsn) (n : Nat) (o : Option Operand) : Option Operand :=
  match insn.amd64[n]? with
  | some x => if opDefs insn.op.insnOp n ∧ x.cls = .reg then some x else o
  | none => o

/-- `amd64_insn_defs_z`. -/
def insnDefsZ (insn : TargetInsn) : Option PseudoReg :=
  if insn.op.insnOp &&& flagDefZ != 0 then
    (defsZ0 insn 1 (defsZ0 insn 0 none)).map Operand.reg
  else none

/-- DEFS_MEM0. -/
def defsMem0 (insn : TargetInsn) (n : Nat) : Bool :=
  match insn.amd64[n]? with
  | some o => opOperands insn.op.insnOp ≥ n && opDefs insn.op.insnOp n && o.cls = .mem
  | none => false

/-- `amd64_insn_defs_mem`. -/
def insnDefsMem (insn : TargetInsn) : Bool :=
  insn.op.insnOp &&& flagDefmem != 0 || defsMem0 insn 0 || defsMem0 insn 1

/-- USES_MEM0. -/
def usesMem0 (insn : TargetInsn) (n : Nat) : Bool :=
  match insn.amd64[n]? with
  | some o => opOperands insn.op.insnOp ≥ n && opUses insn.op.insnOp n && o.cls = .mem
  | none => false

/-- `amd64_insn_uses_mem`. -/
def insnUsesMem (insn : TargetInsn) : Bool :=
  insn.op.insnOp &&& flagUsemem != 0 || usesMem0 insn 0 || usesMem0 insn 1

/-! ### The table of ops -/

/-- INC and DEC, which do not have AMD64_I_FLAG_DEFCC. -/
def Opcode.steps (op : Opcode) : Bool :=
  match op.kind with
  | .inc _ | .dec _ => true
  | _ => false

/-- What the bits of an op have to say about its operands, for what the op does. -/
def Opcode.declared (op : Opcode) : Bool :=
  let i := op.insnOp
  let defcc := i &&& flagDefcc != 0
  match op.kind with
  | .move .. | .moveXmm _ | .movups | .convert .. | .lea _ =>
    opOperands i == 2 && opUses i 0 && opDefs i 1
  | .arith _ => opOperands i == 2 && opUses i 0 && opUses i 1 && opDefs i 1
  | .ucomi _ | .compare _ | .test _ => opOperands i == 2 && opUses i 0 && opUses i 1 && defcc
  | .xmmzero => opOperands i == 2 && opDefs i 1
  | .zero => opOperands i == 2 && opDefs i 1 && defcc
  | .alu .. | .shift .. | .imul _ =>
    opOperands i == 2 && opUses i 0 && opUses i 1 && opDefs i 1 && defcc
  | .not _ | .inc _ | .dec _ => opOperands i == 1 && opUses i 0 && opDefs i 0
  | .neg _ => opOperands i == 1 && opUses i 0 && opDefs i 0 && defcc
  | .div .. =>
    opOperands i == 1 && opUses i 0 && defcc && op.defs == [rax, rdx] && op.uses == [rax, rdx]
  | .extend _ => op.defs == [rdx] && op.uses == [rax]
  | .set _ => opOperands i == 1 && opDefs i 0 && i &&& flagUsecc != 0
  | .movs _ =>
    i &&& flagDefmem != 0 && i &&& flagUsemem != 0 && op.defs == [rdi, rsi, rcx] &&
      op.uses == [rdi, rsi, rcx]
  | .stos _ => i &&& flagDefmem != 0 && op.defs == [rdi, rcx] && op.uses == [rdi, rcx, rax]
  | .rep => true
  | .push => opOperands i == 1 && opUses i 0 && op.side
  | .pop => opOperands i == 1 && opDefs i 0 && op.side
  | .ret value => op.side && value.toList == op.uses
  | .call iargs' fargs =>
    opOperands i == 1 && opUses i 0 && i &&& flagUsemem != 0 && i &&& flagDefmem != 0 && op.side &&
      defcc && op.defs == itrash ++ (List.range nrFtrash).map xmm &&
      op.uses == (List.range iargs').map iargs ++ (List.range fargs).map xmm

theorem declared (op : Opcode) : op.declared = true := by
  cases op
  case call iargs fargs => revert iargs fargs; decide
  all_goals decide

/-! ### What is written -/

section
variable {env : Env} {hw : Hardware} {insn : TargetInsn} {s s' : Cpu} {o src dst : Operand}
  {r : PseudoReg} {k n : Nat}

theorem mem_insnDefsRegs : r ∈ (insnDefsRegs insn []).1 ↔ r ∈ defsList insn := by
  show r ∈ regsUnion [] (defsList insn) ↔ _
  simp

theorem mem_insnUsesRegs : r ∈ (insnUsesRegs insn []).1 ↔ r ∈ usesList insn := by
  show r ∈ regsUnion [] (usesList insn) ↔ _
  simp

/-- The insn owns up to what it writes. -/
def Write.Within (insn : TargetInsn) : Write → Prop
  | .reg r _ _ => r ∈ defsList insn ∨ insn.op.side = true ∧ r = rsp
  | .high r _ => r ∈ defsList insn ∨ insn.op.isCall = true
  | .flag _ _ => insnDefsCc insn = true ∨ insn.op.steps = true
  | .store _ _ _ => insnDefsMem insn = true ∨ insn.op.side = true
  | .memory _ => insnDefsMem insn = true
  | .rep _ | .leave _ _ => True

theorem mem_defsList (h : insn.amd64[k]? = some o) (hk : k < 2) (hn : k ≤ opOperands insn.op.insnOp)
    (hdef : opDefs insn.op.insnOp k = true) (hreg : o.cls = .reg) : o.reg ∈ defsList insn := by
  have hmem : o.reg ∈ defsRegs0 insn k := by
    rw [defsRegs0, h]
    dsimp only
    rw [if_pos ⟨hn, hdef, hreg⟩]
    exact List.mem_singleton_self _
  rw [defsList, List.mem_append, List.mem_append]
  interval_cases k
  · exact Or.inl (Or.inl hmem)
  · exact Or.inl (Or.inr hmem)

theorem insnDefsMem_of (h : insn.amd64[k]? = some o) (hk : k < 2)
    (hn : k ≤ opOperands insn.op.insnOp) (hdef : opDefs insn.op.insnOp k = true)
    (hmem : o.cls = .mem) : insnDefsMem insn = true := by
  have hmem : defsMem0 insn k = true := by
    rw [defsMem0, h]
    simp [hn, hdef, hmem]
  rw [insnDefsMem]
  interval_cases k <;> simp [hmem]

theorem within_place {x : Write} (h : insn.amd64[k]? = some o) (hk : k < 2)
    (hn : k ≤ opOperands insn.op.insnOp) (hdef : opDefs insn.op.insnOp k = true)
    (hx : o.reg ∈ defsList insn → x.Within insn) (w : Word) :
    ∀ y ∈ s.place env o x n w, y.Within insn := by
  intro y hy
  rw [Cpu.place] at hy
  split at hy
  · rename_i hreg
    obtain rfl := List.mem_singleton.mp hy
    exact hx (mem_defsList h hk hn hdef hreg)
  · rename_i hmem
    obtain rfl := List.mem_singleton.mp hy
    exact Or.inl (insnDefsMem_of h hk hn hdef hmem)
  · exact absurd hy List.not_mem_nil

theorem within_putReg (h : r ∈ defsList insn) (w : Word) : (putReg r n w).Within insn := by
  rw [putReg]
  split_ifs <;> exact Or.inl h

theorem within_put (h : insn.amd64[k]? = some o) (hk : k < 2) (hn : k ≤ opOperands insn.op.insnOp)
    (hdef : opDefs insn.op.insnOp k = true) (w : Word) : ∀ x ∈ s.put env o n w, x.Within insn :=
  within_place h hk hn hdef (fun hr => within_putReg hr w) w

theorem within_putXmm (h : insn.amd64[k]? = some o) (hk : k < 2)
    (hn : k ≤ opOperands insn.op.insnOp) (hdef : opDefs insn.op.insnOp k = true) (w : Word) :
    ∀ x ∈ s.putXmm env o n w, x.Within insn :=
  within_place h hk hn hdef Or.inl w

def Write.isFlag : Write → Bool
  | .flag _ _ => true
  | _ => false

/-- Flags only. -/
def Flagged (l : List Write) : Prop := ∀ x ∈ l, x.isFlag = true

theorem flagged_map (l : List Flag) (g : Flag → Bool) : Flagged (l.map fun f => .flag f (g f)) := by
  intro x hx
  obtain ⟨f, -, rfl⟩ := List.mem_map.mp hx
  rfl

theorem flagged_resultFlags (n : Nat) (w : Word) : Flagged (resultFlags n w) := by
  simp [Flagged, resultFlags, Write.isFlag]

theorem flagged_aluFlags (f : Alu) (n : Nat) (a b : Word) : Flagged (f.flags n a b) := by
  cases f <;> simp [Flagged, Alu.flags, resultFlags, Write.isFlag]

theorem within_flagged {l : List Write} (h : Flagged l)
    (hcc : insnDefsCc insn = true ∨ insn.op.steps = true) : ∀ x ∈ l, x.Within insn := by
  intro x hx
  have hflag := h x hx
  cases x with
  | flag f b => exact hcc
  | _ => exact nomatch hflag

theorem within_append {l l' : List Write} (h : ∀ x ∈ l, x.Within insn)
    (h' : ∀ x ∈ l', x.Within insn) : ∀ x ∈ l ++ l', x.Within insn := by
  intro x hx
  exact (List.mem_append.mp hx).elim (h x) (h' x)

theorem within_stringMoves (h : insnDefsMem insn = true) : ∀ (k : Nat) (m : Mem) (a b : Word),
    ∀ x ∈ stringMoves n k m a b, x.Within insn
  | 0, _, _, _, _, hx => absurd hx List.not_mem_nil
  | k + 1, _, _, _, x, hx => by
    rcases List.mem_cons.mp hx with rfl | hx
    · exact Or.inl h
    · exact within_stringMoves h k _ _ _ x hx

theorem within_stringStores (h : insnDefsMem insn = true) (w : Word) : ∀ (k : Nat) (b : Word),
    ∀ x ∈ stringStores n w k b, x.Within insn
  | 0, _, _, hx => absurd hx List.not_mem_nil
  | k + 1, _, x, hx => by
    rcases List.mem_cons.mp hx with rfl | hx
    · exact Or.inl h
    · exact within_stringStores h w k _ x hx

theorem within_nil : ∀ x ∈ ([] : List Write), x.Within insn := fun _ h => absurd h List.not_mem_nil

theorem within_cons {x : Write} {l : List Write} (hx : x.Within insn) (h : ∀ y ∈ l, y.Within insn) :
    ∀ y ∈ x :: l, y.Within insn := by
  intro y hy
  rcases List.mem_cons.mp hy with rfl | hy
  · exact hx
  · exact h y hy

theorem within_counted (h : rcx ∈ defsList insn) : ∀ x ∈ s.counted, x.Within insn := by
  rw [Cpu.counted]
  split_ifs
  · exact within_cons (Or.inl h) (within_cons trivial within_nil)
  · exact within_nil

theorem mem_defsList_op (h : r ∈ insn.op.defs) : r ∈ defsList insn :=
  List.mem_append_right _ h

theorem insnDefsMem_flag (h : insn.op.insnOp &&& flagDefmem ≠ 0) : insnDefsMem insn = true := by
  rw [insnDefsMem, bne_iff_ne.mpr h]
  rfl

/-- An insn owns up to everything it writes. -/
theorem within_writes (hform : insn.op.kind = .xmmzero → ∀ x ∈ insn.amd64, x.cls = .reg) :
    ∀ x ∈ insn.writes env hw s, x.Within insn := by
  have hdecl := declared insn.op
  rw [Opcode.declared] at hdecl
  have hsnd : ∀ {src dst}, insn.amd64 = [src, dst] → insn.amd64[1]? = some dst := fun h => by rw [h]; rfl
  have hfst : ∀ {dst}, insn.amd64 = [dst] → insn.amd64[0]? = some dst := fun h => by rw [h]; rfl
  unfold TargetInsn.writes
  split
  all_goals
    rename_i hk hops
    simp only [hk, Bool.and_eq_true, beq_iff_eq, bne_iff_ne] at hdecl
  · -- move
    exact within_put (hsnd hops) (by omega) (by omega) hdecl.2 _
  · -- moveXmm
    split_ifs with hload
    · have hdst := mem_defsList (hsnd hops) (by omega) (by omega) hdecl.2 hload.2
      exact within_cons (Or.inl hdst) (within_cons (Or.inl hdst) within_nil)
    · exact within_putXmm (hsnd hops) (by omega) (by omega) hdecl.2 _
  · -- movups
    split
    · rename_i hmem
      have hdefs := insnDefsMem_of (hsnd hops) (by omega) (by omega) hdecl.2 hmem
      exact within_cons (Or.inl hdefs) (within_cons (Or.inl hdefs) within_nil)
    · rename_i hreg
      have hdst := mem_defsList (hsnd hops) (by omega) (by omega) hdecl.2 hreg
      exact within_cons (Or.inl hdst) (within_cons (Or.inl hdst) within_nil)
    · rename_i hreg
      have hdst := mem_defsList (hsnd hops) (by omega) (by omega) hdecl.2 hreg
      exact within_cons (Or.inl hdst) (within_cons (Or.inl hdst) within_nil)
    · exact within_nil
  · -- convert
    dsimp only
    split_ifs
    · exact within_put (hsnd hops) (by omega) (by omega) hdecl.2 _
    · exact within_putXmm (hsnd hops) (by omega) (by omega) hdecl.2 _
  · -- arith
    exact within_putXmm (hsnd hops) (by omega) (by omega) hdecl.2 _
  · -- ucomi
    exact within_flagged (flagged_map _ _) (Or.inl (bne_iff_ne.mpr hdecl.2))
  · -- xmmzero
    rename_i src dst
    have hreg := hform hk dst (by rw [hops]; simp)
    have hdst := mem_defsList (hsnd hops) (by omega) (by omega) hdecl.2 hreg
    exact within_cons (Or.inl hdst) (within_cons (Or.inl hdst) within_nil)
  · -- zero
    exact within_append (within_put (hsnd hops) (by omega) (by omega) hdecl.1.2 _)
      (within_flagged (flagged_aluFlags _ _ _ _) (Or.inl (bne_iff_ne.mpr hdecl.2)))
  · -- lea
    exact within_put (hsnd hops) (by omega) (by omega) hdecl.2 _
  · -- alu
    exact within_append (within_put (hsnd hops) (by omega) (by omega) hdecl.1.2 _)
      (within_flagged (flagged_aluFlags _ _ _ _) (Or.inl (bne_iff_ne.mpr hdecl.2)))
  · -- compare
    exact within_flagged (flagged_aluFlags _ _ _ _) (Or.inl (bne_iff_ne.mpr hdecl.2))
  · -- test
    exact within_flagged (flagged_aluFlags _ _ _ _) (Or.inl (bne_iff_ne.mpr hdecl.2))
  · -- shift
    have hcc : insnDefsCc insn = true := bne_iff_ne.mpr hdecl.2
    refine within_append (within_put (hsnd hops) (by omega) (by omega) hdecl.1.2 _) ?_
    split_ifs
    · exact within_nil
    · exact within_append (within_flagged (flagged_resultFlags _ _) (Or.inl hcc))
        (within_cons (Or.inl hcc) (within_cons (Or.inl hcc) within_nil))
  · -- not
    exact within_put (hfst hops) (by omega) (by omega) hdecl.2 _
  · -- neg
    exact within_append (within_put (hfst hops) (by omega) (by omega) hdecl.1.2 _)
      (within_flagged (flagged_aluFlags _ _ _ _) (Or.inl (bne_iff_ne.mpr hdecl.2)))
  · -- inc
    have hsteps : insn.op.steps = true := by rw [Opcode.steps, hk]
    exact within_append (within_append (within_put (hfst hops) (by omega) (by omega) hdecl.2 _)
      (within_flagged (flagged_resultFlags _ _) (Or.inr hsteps)))
      (within_cons (Or.inr hsteps) within_nil)
  · -- dec
    have hsteps : insn.op.steps = true := by rw [Opcode.steps, hk]
    exact within_append (within_append (within_put (hfst hops) (by omega) (by omega) hdecl.2 _)
      (within_flagged (flagged_resultFlags _ _) (Or.inr hsteps)))
      (within_cons (Or.inr hsteps) within_nil)
  · -- imul
    have hcc : insnDefsCc insn = true := bne_iff_ne.mpr hdecl.2
    exact within_append (within_append
      (within_put (hsnd hops) (by omega) (by omega) hdecl.1.2 _)
      (within_cons (Or.inl hcc) (within_cons (Or.inl hcc) within_nil)))
      (within_flagged (flagged_map _ _) (Or.inl hcc))
  · -- div
    have hcc : insnDefsCc insn = true := bne_iff_ne.mpr hdecl.1.1.2
    have hdefs : ∀ r ∈ [rax, rdx], r ∈ defsList insn := fun r hr =>
      mem_defsList_op (hdecl.1.2 ▸ hr)
    exact within_append (within_cons (within_putReg (hdefs rax (by simp)) _)
      (within_cons (within_putReg (hdefs rdx (by simp)) _) within_nil))
      (within_flagged (flagged_map _ _) (Or.inl hcc))
  · -- extend
    have hdefs : rdx ∈ defsList insn := mem_defsList_op (hdecl.1 ▸ List.mem_singleton_self rdx)
    exact within_cons (within_putReg hdefs _) within_nil
  · -- set
    exact within_put (hfst hops) (by omega) (by omega) hdecl.1.2 _
  · -- movs
    have hdefs : ∀ r ∈ [rdi, rsi, rcx], r ∈ defsList insn := fun r hr =>
      mem_defsList_op (hdecl.1.2 ▸ hr)
    refine within_append (within_append
      (within_stringMoves (insnDefsMem_flag hdecl.1.1.1) _ _ _ _)
      (within_cons (Or.inl (hdefs rsi (by simp)))
        (within_cons (Or.inl (hdefs rdi (by simp))) within_nil))) ?_
    exact within_counted (hdefs rcx (by simp))
  · -- stos
    have hdefs : ∀ r ∈ [rdi, rcx], r ∈ defsList insn := fun r hr =>
      mem_defsList_op (hdecl.1.2 ▸ hr)
    refine within_append (within_append
      (within_stringStores (insnDefsMem_flag hdecl.1.1) _ _ _)
      (within_cons (Or.inl (hdefs rdi (by simp))) within_nil)) ?_
    exact within_counted (hdefs rcx (by simp))
  · -- rep
    exact within_cons trivial within_nil
  · -- push
    exact within_cons (Or.inr hdecl.2) (within_cons (Or.inr ⟨hdecl.2, rfl⟩) within_nil)
  · -- pop
    exact within_cons (Or.inr ⟨hdecl.2, rfl⟩)
      (within_put (hfst hops) (by omega) (by omega) hdecl.1.2 _)
  · -- ret
    exact within_cons trivial (within_cons (Or.inr ⟨hdecl.1, rfl⟩) within_nil)
  · -- call
    have hcc : insnDefsCc insn = true := bne_iff_ne.mpr hdecl.1.1.2
    have hmem := insnDefsMem_flag hdecl.1.1.1.1.2
    have hcall : insn.op.isCall = true := by
      cases hop : insn.op
      case call => rfl
      all_goals exact absurd hk (by rw [hop]; exact Kind.noConfusion)
    refine within_append (within_append (within_append ?_ ?_)
      (within_flagged (flagged_map _ _) (Or.inl hcc))) (within_cons hmem within_nil)
    · intro x hx
      obtain ⟨r, hr, rfl⟩ := List.mem_map.mp hx
      exact Or.inl (mem_defsList_op (hdecl.1.2 ▸ hr))
    · intro x hx
      obtain ⟨k, -, rfl⟩ := List.mem_map.mp hx
      exact Or.inr hcall
  · exact within_nil

end

/-! ### What is read -/

/-- Operands as they are made: a register operand has a register, and the operands of ZERO and XMMZERO
    are one register. -/
structure TargetInsn.Formed (insn : TargetInsn) : Prop where
  reg : ∀ o ∈ insn.amd64, o.cls = .reg → o.reg ≠ regNone
  zero : insn.op = .zero ∨ insn.op = .xmmzero →
    ∃ r, ∀ o ∈ insn.amd64, o.cls = .reg ∧ o.reg = r

/-- The machines agree on what the insn says that it reads; a side effect may read the stack. -/
structure Agree (insn : TargetInsn) (s s' : Cpu) : Prop where
  uses : ∀ r ∈ (insnUsesRegs insn []).1, s'.regs r = s.regs r ∧ s'.high r = s.high r
  flags : (insnUsesCc insn).Nonempty → s'.flags = s.flags
  mem : insnUsesMem insn = true → s'.mem = s.mem
  side : insn.op.side = true → s'.regs rsp = s.regs rsp ∧ s'.mem = s.mem
  rep : s'.rep = s.rep

section
variable {env : Env} {hw : Hardware} {insn : TargetInsn} {s s' : Cpu} {o src dst : Operand}
  {r : PseudoReg} {k n : Nat}

theorem mem_usesList (h : insn.amd64[k]? = some o) (hk : k < 2) (hn : k ≤ opOperands insn.op.insnOp)
    (huse : opUses insn.op.insnOp k = true ∨ o.cls = .mem) (hr : r ∈ operandRegs o) :
    r ∈ usesList insn := by
  have hmem : r ∈ usesRegs0 insn k := by
    rw [usesRegs0, h]
    dsimp only
    rwa [if_pos ⟨hn, huse⟩]
  rw [usesList, List.mem_append, List.mem_append]
  interval_cases k
  · exact Or.inl (Or.inl hmem)
  · exact Or.inl (Or.inr hmem)

theorem mem_usesList_op (h : r ∈ insn.op.uses) : r ∈ usesList insn := List.mem_append_right _ h

theorem insnUsesMem_of (h : insn.amd64[k]? = some o) (hk : k < 2)
    (hn : k ≤ opOperands insn.op.insnOp) (huse : opUses insn.op.insnOp k = true)
    (hmem : o.cls = .mem) : insnUsesMem insn = true := by
  have hmem : usesMem0 insn k = true := by
    rw [usesMem0, h]
    simp [hn, huse, hmem]
  rw [insnUsesMem]
  interval_cases k <;> simp [hmem]

theorem Agree.regs (ha : Agree insn s s') (r : PseudoReg) (hr : r ∈ usesList insn) :
    s'.regs r = s.regs r ∧ s'.high r = s.high r := ha.uses r (mem_insnUsesRegs.mpr hr)

theorem Agree.address (ha : Agree insn s s') (h : insn.amd64[k]? = some o) (hk : k < 2)
    (hn : k ≤ opOperands insn.op.insnOp) (huse : opUses insn.op.insnOp k = true ∨ o.cls = .mem) :
    o.address env s'.regs = o.address env s.regs := by
  refine address_congr fun r hr => (ha.regs r (mem_usesList h hk hn huse ?_)).1
  simp only [Operand.mentions, Bool.or_eq_true, Bool.and_eq_true, decide_eq_true_eq] at hr
  simp only [operandRegs, List.mem_filter, List.mem_cons, List.not_mem_nil, or_false,
    decide_eq_true_eq]
  rcases hr with ⟨hne, rfl⟩ | ⟨hne, rfl⟩
  · exact ⟨Or.inl rfl, hne⟩
  · exact ⟨Or.inr rfl, hne⟩

theorem Agree.reg (ha : Agree insn s s') (hform : insn.Formed) (h : insn.amd64[k]? = some o)
    (hk : k < 2) (hn : k ≤ opOperands insn.op.insnOp) (huse : opUses insn.op.insnOp k = true)
    (hreg : o.cls = .reg) : s'.regs o.reg = s.regs o.reg ∧ s'.high o.reg = s.high o.reg := by
  refine ha.regs o.reg (mem_usesList h hk hn (Or.inl huse) ?_)
  have hne := hform.reg o (List.mem_of_getElem? h) hreg
  simp [operandRegs, hne]

/-- An operand that is USEd holds the same. -/
theorem Agree.get (ha : Agree insn s s') (hform : insn.Formed) (h : insn.amd64[k]? = some o)
    (hk : k < 2) (hn : k ≤ opOperands insn.op.insnOp) (huse : opUses insn.op.insnOp k = true) :
    s'.get env o n = s.get env o n := by
  rw [Cpu.get, Cpu.get]
  congr 1
  cases hcls : o.cls with
  | reg => exact (ha.reg hform h hk hn huse hcls).1
  | con => rfl
  | mem =>
    dsimp only
    rw [ha.mem (insnUsesMem_of h hk hn huse hcls), ha.address h hk hn (Or.inl huse)]
  | eff => exact ha.address h hk hn (Or.inl huse)

theorem Agree.place (ha : Agree insn s s') (h : insn.amd64[k]? = some o) (hk : k < 2)
    (hn : k ≤ opOperands insn.op.insnOp) (x : Write) (w : Word) :
    s'.place env o x n w = s.place env o x n w := by
  rw [Cpu.place, Cpu.place]
  cases hcls : o.cls with
  | mem =>
    dsimp only
    rw [ha.address h hk hn (Or.inr hcls)]
  | _ => rfl

theorem Agree.put (ha : Agree insn s s') (h : insn.amd64[k]? = some o) (hk : k < 2)
    (hn : k ≤ opOperands insn.op.insnOp) (w : Word) : s'.put env o n w = s.put env o n w :=
  ha.place h hk hn _ w

theorem Agree.putXmm (ha : Agree insn s s') (h : insn.amd64[k]? = some o) (hk : k < 2)
    (hn : k ≤ opOperands insn.op.insnOp) (w : Word) : s'.putXmm env o n w = s.putXmm env o n w :=
  ha.place h hk hn _ w

/-- RSP is moved before the destination of a POPQ is looked at. -/
theorem Agree.apply_rsp (ha : Agree insn s s') (hrsp : s'.regs rsp = s.regs rsp) (w : Word) :
    Agree insn (Write.apply s (.reg rsp 8 w)) (Write.apply s' (.reg rsp 8 w)) := by
  have hregs : ∀ r, s'.regs r = s.regs r →
      (Write.apply s' (.reg rsp 8 w)).regs r = (Write.apply s (.reg rsp 8 w)).regs r := by
    intro r hr
    by_cases h : r = rsp
    · subst h
      simp only [Write.apply, Function.update_self, hr]
    · simp only [Write.apply, Function.update_of_ne h, hr]
  exact ⟨fun r hr => ⟨hregs r (ha.uses r hr).1, (ha.uses r hr).2⟩, ha.flags, ha.mem,
    fun hside => ⟨hregs rsp hrsp, (ha.side hside).2⟩, ha.rep⟩

theorem aluFlags_xor_self (n : Nat) (a : Word) : Alu.flags .xor n a a = Alu.flags .xor n 0 0 := by
  simp [Alu.flags, Alu.eval]

theorem op_of_kind_zero {op : Opcode} (h : op.kind = .zero) : op = .zero := by
  cases op
  case zero => rfl
  all_goals exact Kind.noConfusion h

theorem op_of_kind_xmmzero {op : Opcode} (h : op.kind = .xmmzero) : op = .xmmzero := by
  cases op
  case xmmzero => rfl
  all_goals exact Kind.noConfusion h

/-- What an insn writes depends on what it says that it reads. -/
theorem Agree.writes (ha : Agree insn s s') (hform : insn.Formed) :
    insn.writes env hw s' = insn.writes env hw s := by
  have hdecl := declared insn.op
  rw [Opcode.declared] at hdecl
  have hops : ∀ {src dst}, insn.amd64 = [src, dst] →
      insn.amd64[0]? = some src ∧ insn.amd64[1]? = some dst := fun h => by rw [h]; exact ⟨rfl, rfl⟩
  have hop : ∀ {dst}, insn.amd64 = [dst] → insn.amd64[0]? = some dst := fun h => by rw [h]; rfl
  have hget : ∀ {k o n}, insn.amd64[k]? = some o → k < 2 → k ≤ opOperands insn.op.insnOp →
      opUses insn.op.insnOp k = true → s'.get env o n = s.get env o n :=
    fun h hk hn huse => ha.get hform h hk hn huse
  unfold TargetInsn.writes
  split
  all_goals
    rename_i hk hamd
    simp only [hk, Bool.and_eq_true, beq_iff_eq, bne_iff_ne] at hdecl ⊢
  · -- move
    have h := hops hamd
    rw [hget h.1 (by omega) (by omega) hdecl.1.2, ha.put h.2 (by omega) (by omega)]
  · -- moveXmm
    have h := hops hamd
    rw [hget h.1 (by omega) (by omega) hdecl.1.2, ha.putXmm h.2 (by omega) (by omega)]
  · -- movups
    have h := hops hamd
    rename_i src dst
    split
    · rename_i hsrc hdst
      obtain ⟨hregs, hhigh⟩ := ha.reg hform h.1 (by omega) (by omega) hdecl.1.2 hsrc
      rw [ha.address h.2 (by omega) (by omega) (Or.inr hdst), hregs, hhigh]
    · rename_i hsrc _
      rw [ha.address h.1 (by omega) (by omega) (Or.inr hsrc),
        ha.mem (insnUsesMem_of h.1 (by omega) (by omega) hdecl.1.2 hsrc)]
    · rename_i hsrc _
      obtain ⟨hregs, hhigh⟩ := ha.reg hform h.1 (by omega) (by omega) hdecl.1.2 hsrc
      rw [hregs, hhigh]
    · rfl
  · -- convert
    have h := hops hamd
    rw [hget h.1 (by omega) (by omega) hdecl.1.2, ha.put h.2 (by omega) (by omega),
      ha.putXmm h.2 (by omega) (by omega)]
  · -- arith
    have h := hops hamd
    rw [hget h.1 (by omega) (by omega) hdecl.1.1.2, hget h.2 (by omega) (by omega) hdecl.1.2,
      ha.putXmm h.2 (by omega) (by omega)]
  · -- ucomi
    have h := hops hamd
    rw [hget h.1 (by omega) (by omega) hdecl.1.1.2, hget h.2 (by omega) (by omega) hdecl.1.2]
  · -- xmmzero: the two operands are one register
    rename_i src dst
    obtain ⟨r, hr⟩ := hform.zero (Or.inr (op_of_kind_xmmzero hk))
    have hsrc := hr src (by rw [hamd]; simp)
    have hdst := hr dst (by rw [hamd]; simp)
    rw [hsrc.2, hdst.2, BitVec.xor_self, BitVec.xor_self, BitVec.xor_self, BitVec.xor_self]
  · -- zero: likewise
    have h := hops hamd
    rename_i src dst
    obtain ⟨r, hr⟩ := hform.zero (Or.inl (op_of_kind_zero hk))
    have hsrc := hr src (by rw [hamd]; simp)
    have hdst := hr dst (by rw [hamd]; simp)
    have hsame : ∀ t : Cpu, t.get env dst 4 = t.get env src 4 := fun t => by
      rw [Cpu.get, Cpu.get, hsrc.1, hdst.1, hsrc.2, hdst.2]
    simp only [hsame, BitVec.xor_self, aluFlags_xor_self]
    rw [ha.put h.2 (by omega) (by omega), aluFlags_xor_self]
  · -- lea
    have h := hops hamd
    rw [ha.address h.1 (by omega) (by omega) (Or.inl hdecl.1.2), ha.put h.2 (by omega) (by omega)]
  · -- alu
    have h := hops hamd
    rw [hget h.1 (by omega) (by omega) hdecl.1.1.1.2, hget h.2 (by omega) (by omega) hdecl.1.1.2,
      ha.put h.2 (by omega) (by omega)]
  · -- compare
    have h := hops hamd
    rw [hget h.1 (by omega) (by omega) hdecl.1.1.2, hget h.2 (by omega) (by omega) hdecl.1.2]
  · -- test
    have h := hops hamd
    rw [hget h.1 (by omega) (by omega) hdecl.1.1.2, hget h.2 (by omega) (by omega) hdecl.1.2]
  · -- shift
    have h := hops hamd
    rw [Cpu.shiftCount, Cpu.shiftCount, hget h.1 (by omega) (by omega) hdecl.1.1.1.2,
      hget h.2 (by omega) (by omega) hdecl.1.1.2, ha.put h.2 (by omega) (by omega)]
  · -- not
    have h := hop hamd
    rw [hget h (by omega) (by omega) hdecl.1.2, ha.put h (by omega) (by omega)]
  · -- neg
    have h := hop hamd
    rw [hget h (by omega) (by omega) hdecl.1.1.2, ha.put h (by omega) (by omega)]
  · -- inc
    have h := hop hamd
    rw [hget h (by omega) (by omega) hdecl.1.2, ha.put h (by omega) (by omega)]
  · -- dec
    have h := hop hamd
    rw [hget h (by omega) (by omega) hdecl.1.2, ha.put h (by omega) (by omega)]
  · -- imul
    have h := hops hamd
    rw [hget h.1 (by omega) (by omega) hdecl.1.1.1.2, hget h.2 (by omega) (by omega) hdecl.1.1.2,
      ha.put h.2 (by omega) (by omega)]
  · -- div
    have h := hop hamd
    have huses : ∀ r ∈ [rax, rdx], s'.regs r = s.regs r := fun r hr =>
      (ha.regs r (mem_usesList_op (hdecl.2 ▸ hr))).1
    rw [hget h (by omega) (by omega) hdecl.1.1.1.2, huses rax (by simp), huses rdx (by simp)]
  · -- extend
    rw [(ha.regs rax (mem_usesList_op (hdecl.2 ▸ List.mem_singleton_self rax))).1]
  · -- set
    have h := hop hamd
    have hcc : (insnUsesCc insn).Nonempty := by
      rw [insnUsesCc, if_pos (bne_iff_ne.mpr hdecl.2)]
      exact ⟨.z, Finset.mem_univ _⟩
    rw [ha.flags hcc, ha.put h (by omega) (by omega)]
  · -- movs
    have huses : ∀ r ∈ [rdi, rsi, rcx], s'.regs r = s.regs r := fun r hr =>
      (ha.regs r (mem_usesList_op (hdecl.2 ▸ hr))).1
    have hmem : insnUsesMem insn = true := by
      rw [insnUsesMem, bne_iff_ne.mpr hdecl.1.1.2]
      rfl
    rw [Cpu.count, Cpu.count, Cpu.counted, Cpu.counted, ha.rep, ha.mem hmem, huses rdi (by simp),
      huses rsi (by simp), huses rcx (by simp)]
  · -- stos
    have huses : ∀ r ∈ [rdi, rcx, rax], s'.regs r = s.regs r := fun r hr =>
      (ha.regs r (mem_usesList_op (hdecl.2 ▸ hr))).1
    rw [Cpu.count, Cpu.count, Cpu.counted, Cpu.counted, ha.rep, huses rdi (by simp),
      huses rcx (by simp), huses rax (by simp)]
  · -- push
    rw [hget (hop hamd) (by omega) (by omega) hdecl.1.2, (ha.side hdecl.2).1]
  · -- pop
    obtain ⟨hrsp, hmem⟩ := ha.side hdecl.2
    rw [hrsp, hmem, (ha.apply_rsp hrsp _).put (hop hamd) (by omega) (by omega)]
  · -- ret
    rename_i value
    obtain ⟨hrsp, hmem⟩ := ha.side hdecl.1
    have hvalue : value.map s'.regs = value.map s.regs := by
      cases value with
      | none => rfl
      | some r =>
        have hr : r ∈ insn.op.uses := hdecl.2 ▸ List.mem_singleton_self r
        rw [Option.map_some, Option.map_some, (ha.regs r (mem_usesList_op hr)).1]
    rw [hrsp, hmem, hvalue]
  · -- call
    rename_i i f o
    obtain ⟨hrsp, hmem⟩ := ha.side hdecl.1.1.1.2
    have huses : ∀ r ∈ (List.range i).map iargs ++ (List.range f).map xmm,
        s'.regs r = s.regs r := fun r hr => (ha.regs r (mem_usesList_op (hdecl.2 ▸ hr))).1
    have hiargs : (List.range i).map (fun k => s'.regs (iargs k)) =
        (List.range i).map fun k => s.regs (iargs k) :=
      List.map_congr_left fun k hk => huses _ (List.mem_append_left _ (List.mem_map_of_mem hk))
    have hfargs : (List.range f).map (fun k => s'.regs (xmm k)) =
        (List.range f).map fun k => s.regs (xmm k) :=
      List.map_congr_left fun k hk => huses _ (List.mem_append_right _ (List.mem_map_of_mem hk))
    rw [hget (hop hamd) (by omega) (by omega) hdecl.1.1.1.1.1.1.2, hrsp, hmem, hiargs, hfargs]

end

/-! ### The Z flag -/

/-- An op that sets the Z flag for the register that it DEFs is arithmetic or a shift. -/
def Opcode.zeroes (op : Opcode) : Bool :=
  op.insnOp &&& flagDefZ == 0 ||
    match op.kind with
    | .alu _ n | .shift _ n =>
      (n == 4 || n == 8) && opSize op.insnOp 1 == n && !opDefs op.insnOp 0 && opDefs op.insnOp 1
    | _ => false

theorem zeroes (op : Opcode) : op.zeroes = true := by
  cases op
  case call iargs fargs => revert iargs fargs; decide
  all_goals decide

/-- The insn is a shift by a count of which the machine keeps nothing. -/
def TargetInsn.stays (env : Env) (insn : TargetInsn) (s : Cpu) : Bool :=
  match insn.op.kind, insn.amd64 with
  | .shift _ n, [src, _] => s.shiftCount env src n == 0
  | _, _ => false

section
variable {env : Env} {hw : Hardware} {insn cmp : TargetInsn} {s : Cpu} {o src dst : Operand}
  {r : PseudoReg} {n : Nat} {w : Word} {l l' : List Write}

/-- What is not written stays. -/
theorem foldl_apply_eq {α : Type} (g : Cpu → α) : ∀ {l : List Write} {s : Cpu},
    (∀ x ∈ l, ∀ s, g (Write.apply s x) = g s) → g (l.foldl Write.apply s) = g s
  | [], _, _ => rfl
  | x :: l, s, h => by
    rw [List.foldl_cons, foldl_apply_eq g fun y hy => h y (List.mem_cons_of_mem _ hy),
      h x (List.mem_cons_self ..)]

theorem regs_flagged (h : Flagged l) : (l.foldl Write.apply s).regs = s.regs := by
  refine foldl_apply_eq Cpu.regs fun x hx s => ?_
  have hflag := h x hx
  cases x with
  | flag f b => rfl
  | _ => exact nomatch hflag

theorem insertLow_eight (old w : Word) : insertLow 8 old w = w := by
  have hold : old >>> (8 * 8) = 0#64 := BitVec.ushiftRight_eq_zero le_rfl
  rw [insertLow, hold, BitVec.zero_shiftLeft, BitVec.zero_or]
  exact (BitVec.setWidth_setWidth_of_le w le_rfl).trans (BitVec.setWidth_eq w)

/-- The Z flag after the flags of a result, if nothing sets it later. -/
theorem zf_resultFlags (h : ∀ x ∈ l', ∀ b, x ≠ .flag .zf b) :
    ((l ++ (resultFlags n w ++ l')).foldl Write.apply s).flags .zf = (low n w == 0) := by
  rw [List.foldl_append, List.foldl_append, foldl_apply_eq fun t => t.flags .zf]
  · simp [resultFlags, Write.apply, Function.update]
  · intro x hx t
    have hne := h x hx
    cases x with
    | flag f b =>
      have hf : Flag.zf ≠ f := fun hf => hne b (hf ▸ rfl)
      exact Function.update_of_ne hf ..
    | _ => rfl

/-- A result that is written to a register, at its width and, as the rest is cleared, at 64 bits. -/
theorem low_putReg {m : Nat} (hn : n = 4 ∨ n = 8) (hm : m = 4 ∨ m = 8) (hle : n ≤ m) :
    low m ((Write.apply s (putReg r n w)).regs r) = 0 ↔ low n w = 0 := by
  rcases hn with rfl | rfl
  · have hregs : (Write.apply s (putReg r 4 w)).regs r = extendLow 4 false w := by
      rw [putReg, if_pos rfl]
      simp only [Write.apply, Function.update_self, insertLow_eight]
    rw [hregs]
    rcases hm with rfl | rfl
    · simp [low, extendLow]
    · simp only [low, extendLow, Bool.false_eq_true, if_false]
      bv_omega
  · have hregs : (Write.apply s (putReg r 8 w)).regs r = w := by
      rw [putReg, if_neg (by decide)]
      simp only [Write.apply, Function.update_self, insertLow_eight]
    obtain rfl : m = 8 := by omega
    rw [hregs]

/-- What an insn that sets the Z flag for a register writes. -/
theorem writes_of_defsZ (h : insnDefsZ insn = some r) (hstays : insn.stays env s = false) :
    ∃ n w l, (n = 4 ∨ n = 8) ∧ opSize insn.op.insnOp 1 = n ∧
      insn.writes env hw s = putReg r n w :: (resultFlags n w ++ l) ∧ Flagged l ∧
      ∀ x ∈ l, ∀ b, x ≠ .flag .zf b := by
  rw [insnDefsZ] at h
  split_ifs at h with hdefz
  have hop := zeroes insn.op
  rw [Opcode.zeroes, beq_eq_false_iff_ne.mpr (bne_iff_ne.mp hdefz), Bool.false_or] at hop
  have hdst : ∀ {src dst}, insn.amd64 = [src, dst] → opDefs insn.op.insnOp 0 = false →
      dst.cls = .reg ∧ dst.reg = r := by
    intro src dst hamd hdef
    simp only [defsZ0, hamd, List.getElem?_cons_succ, List.getElem?_cons_zero, hdef,
      Bool.false_eq_true, false_and, if_false] at h
    split_ifs at h with hcls
    · exact ⟨hcls.2, Option.some.inj h⟩
    · exact nomatch h
  have htwo : opOperands insn.op.insnOp = 2 → ∃ src dst, insn.amd64 = [src, dst] := fun h =>
    List.length_eq_two.mp (insn.length_amd64.trans h)
  have hput : ∀ {dst : Operand}, dst.cls = .reg ∧ dst.reg = r → ∀ n w,
      s.put env dst n w = [putReg r n w] := fun h n w => by
    rw [Cpu.put, Cpu.place, h.1, h.2]
  have hdecl := declared insn.op
  rw [Opcode.declared] at hdecl
  cases hk : insn.op.kind
  case alu f n =>
    simp only [hk, Bool.and_eq_true, Bool.or_eq_true, beq_iff_eq, Bool.not_eq_true'] at hop hdecl
    obtain ⟨src, dst, hamd⟩ := htwo hdecl.1.1.1.1
    obtain ⟨l, hl, hflags, hzf⟩ : ∃ l, f.flags n (s.get env dst n) (s.get env src n) =
        resultFlags n (f.eval (s.get env dst n) (s.get env src n)) ++ l ∧ Flagged l ∧
          ∀ x ∈ l, ∀ b, x ≠ .flag .zf b := by
      cases f <;> exact ⟨_, rfl, by simp [Flagged, Write.isFlag], by simp⟩
    refine ⟨n, f.eval (s.get env dst n) (s.get env src n), l, hop.1.1.1, hop.1.1.2, ?_, hflags, hzf⟩
    rw [TargetInsn.writes, hk, hamd]
    dsimp only
    rw [hput (hdst hamd hop.1.2), hl, List.singleton_append]
  case shift f n =>
    simp only [hk, Bool.and_eq_true, Bool.or_eq_true, beq_iff_eq, Bool.not_eq_true'] at hop hdecl
    obtain ⟨src, dst, hamd⟩ := htwo hdecl.1.1.1.1
    rw [TargetInsn.stays, hk, hamd] at hstays
    have hwrites : insn.writes env hw s =
        putReg r n (f.eval n (s.get env dst n) (s.shiftCount env src n)).1 ::
          (resultFlags n (f.eval n (s.get env dst n) (s.shiftCount env src n)).1 ++
            [.flag .cf (f.eval n (s.get env dst n) (s.shiftCount env src n)).2,
              .flag .of (hw.undefined insn.op
                [s.get env dst n, BitVec.ofNat 64 (s.shiftCount env src n)] .of)]) := by
      rw [TargetInsn.writes, hk, hamd]
      dsimp only
      rw [hput (hdst hamd hop.1.2), if_neg (beq_eq_false_iff_ne.mp hstays), List.singleton_append]
    exact ⟨n, _, _, hop.1.1.1, hop.1.1.2, hwrites, by simp [Flagged, Write.isFlag], by simp⟩
  all_goals
    rw [hk] at hop
    exact nomatch hop

theorem opSize_of_testZ (h : insnTestZ cmp = some r) :
    opSize cmp.op.insnOp 1 = 4 ∨ opSize cmp.op.insnOp 1 = 8 := by
  rw [insnTestZ] at h
  split at h
  · rename_i hop _
    exact Or.inl (by rw [hop]; decide)
  · rename_i hop _
    exact Or.inr (by rw [hop]; decide)
  · exact nomatch h

/-- The Z flag is what a comparison of the register with zero would leave. -/
theorem zf_exec (h : insnDefsZ insn = some r) (htest : insnTestZ cmp = some r)
    (hstays : insn.stays env s = false) (hsize : opSize insn.op.insnOp 1 ≤ opSize cmp.op.insnOp 1) :
    (insn.exec env hw s).flags .zf =
      decide (low (opSize cmp.op.insnOp 1) ((insn.exec env hw s).regs r) = 0) := by
  obtain ⟨n, w, l, hn, hop, hwrites, hflags, hzf⟩ := @writes_of_defsZ env hw insn s r h hstays
  have hall : Flagged (resultFlags n w ++ l) := fun x hx =>
    (List.mem_append.mp hx).elim (flagged_resultFlags n w x) (hflags x)
  rw [TargetInsn.exec, hwrites, List.foldl_cons, regs_flagged hall,
    decide_eq_decide.mpr (low_putReg hn (opSize_of_testZ htest) (hop ▸ hsize))]
  exact @zf_resultFlags _ n w [] l hzf

end

/-! ### The queries are sound -/

section
variable (env : Env) (hw : Hardware) (insn : TargetInsn)

/-- What an insn does to the machine is what the queries say: what changes is DEFd, what is written
    depends on what is USEd, and the Z flag is set for the register that `amd64_insn_defs_z` names. An
    insn with side effects may use the stack besides; INC and DEC set flags besides. -/
structure EffectsSound : Prop where
  regs : ∀ s r, (insn.exec env hw s).regs r ≠ s.regs r →
    r ∈ (insnDefsRegs insn []).1 ∨ insn.op.side = true ∧ r = rsp
  high : ∀ s r, (insn.exec env hw s).high r ≠ s.high r →
    r ∈ (insnDefsRegs insn []).1 ∨ insn.op.isCall = true
  flags : ∀ s f, (insn.exec env hw s).flags f ≠ s.flags f →
    insnDefsCc insn = true ∨ insn.op.steps = true
  mem : ∀ s, (insn.exec env hw s).mem ≠ s.mem → insnDefsMem insn = true ∨ insn.op.side = true
  reads : ∀ s s', Agree insn s s' → insn.writes env hw s' = insn.writes env hw s
  zero : ∀ s r cmp, insnDefsZ insn = some r → insnTestZ cmp = some r →
    insn.stays env s = false → opSize insn.op.insnOp 1 ≤ opSize cmp.op.insnOp 1 →
      (insn.exec env hw s).flags .zf =
        decide (low (opSize cmp.op.insnOp 1) ((insn.exec env hw s).regs r) = 0)

end

section
variable {env : Env} {hw : Hardware} {insn : TargetInsn}

theorem TargetInsn.Formed.within (hform : insn.Formed) (s : Cpu) :
    ∀ x ∈ insn.writes env hw s, x.Within insn :=
  within_writes fun hk x hx => by
    obtain ⟨r, hr⟩ := hform.zero (Or.inr (op_of_kind_xmmzero hk))
    exact (hr x hx).1

theorem regs_exec (hform : insn.Formed) {s : Cpu} {r : PseudoReg}
    (hr : (insn.exec env hw s).regs r ≠ s.regs r) :
    r ∈ (insnDefsRegs insn []).1 ∨ insn.op.side = true ∧ r = rsp := by
  by_contra hno
  rw [not_or] at hno
  refine hr (foldl_apply_eq (fun t : Cpu => t.regs r) fun x hx t => ?_)
  have hx' := hform.within s x hx
  cases x with
  | reg q n w =>
    have hne : r ≠ q := by
      rintro rfl
      exact hx'.elim (fun h => hno.1 (mem_insnDefsRegs.mpr h)) hno.2
    exact Function.update_of_ne hne ..
  | _ => rfl

/-- An insn that moves the stack pointer has side effects. -/
theorem sideEffects_of_rsp (hform : insn.Formed) {s : Cpu}
    (h : (insn.exec env hw s).regs rsp ≠ s.regs rsp) : insnSideEffects insn = true := by
  rw [insnSideEffects]
  split_ifs with hside
  · rfl
  · rcases regs_exec hform h with hdef | hrsp
    · simp only [hdef, decide_true, Bool.true_or]
    · exact absurd hrsp.1 hside

end

/-- The queries are sound for every insn and every machine. -/
theorem effects_sound (env : Env) (hw : Hardware) (insn : TargetInsn) (hform : insn.Formed) :
    EffectsSound env hw insn := by
  refine ⟨fun s r hr => regs_exec hform hr, fun s r hr => ?_, fun s f hf => ?_, fun s hm => ?_,
    fun s s' ha => ha.writes hform, fun s r cmp h htest hstays hsize => zf_exec h htest hstays hsize⟩
  all_goals
    by_contra hno
    rw [not_or] at hno
  · refine hr (foldl_apply_eq (fun t : Cpu => t.high r) fun x hx t => ?_)
    have hx' := hform.within s x hx
    cases x with
    | high q w =>
      have hne : r ≠ q := by
        rintro rfl
        exact hx'.elim (fun h => hno.1 (mem_insnDefsRegs.mpr h)) hno.2
      exact Function.update_of_ne hne ..
    | _ => rfl
  · refine hf (foldl_apply_eq (fun t : Cpu => t.flags f) fun x hx t => ?_)
    have hx' := hform.within s x hx
    cases x with
    | flag g b => exact absurd hx' (not_or.mpr hno)
    | _ => rfl
  · refine hm (foldl_apply_eq Cpu.mem fun x hx t => ?_)
    have hx' := hform.within s x hx
    cases x with
    | store a n w => exact absurd hx' (not_or.mpr hno)
    | memory m => exact absurd hx' hno.1
    | _ => rfl

/-- A machine of which nothing is asked. -/
def idleHardware : Hardware where
  convert _ w := w
  arith _ a _ := a
  ucomi _ _ _ _ := false
  undefined _ _ _ := false
  call _ _ _ m := ⟨fun _ => 0, fun _ => 0, fun _ => false, m⟩

def idleCpu : Cpu := ⟨fun _ => 0, fun _ => 0, fun _ => false, fun _ => 0, false⟩

/-- `shll %cl, %eax`. -/
def shiftInsn : TargetInsn := ⟨.shll, [operandReg .char rcx 0, operandReg .int rax 1], rfl⟩

/-- `incl %eax`. -/
def incInsn : TargetInsn := ⟨.incl, [operandReg .int rax 0], rfl⟩

/-- `pushq %rax`. -/
def pushInsn : TargetInsn := ⟨.pushq, [operandReg .long rax 0], rfl⟩

/-- `addq %rcx, %rax`. -/
def addInsn : TargetInsn := ⟨.addq, [operandReg .long rcx 0, operandReg .long rax 1], rfl⟩

/-- `cmpl $0, %eax`. -/
def testInsn : TargetInsn := ⟨.cmpl, [operandCon .int 0 none 0, operandReg .int rax 1], rfl⟩

theorem formed_of_regs {insn : TargetInsn} (h : ∀ o ∈ insn.amd64, o.cls = .reg → o.reg ≠ regNone)
    (hop : insn.op ≠ .zero ∧ insn.op ≠ .xmmzero) : insn.Formed :=
  ⟨h, fun hz => absurd hz (not_or.mpr hop)⟩

theorem effects_sound_shift : EffectsSound default idleHardware shiftInsn :=
  effects_sound default idleHardware shiftInsn (formed_of_regs (by decide) (by decide))

/-- PUSHQ uses the stack, INC sets flags, a shift by nothing leaves the Z flag as it was, and the low
    half of a sum can be zero. -/
theorem not_effects_exact :
    (¬ ∀ (env : Env) (hw : Hardware) (insn : TargetInsn), insn.Formed → ∀ s r,
      (insn.exec env hw s).regs r ≠ s.regs r → r ∈ (insnDefsRegs insn []).1) ∧
    (¬ ∀ (env : Env) (hw : Hardware) (insn : TargetInsn), insn.Formed → ∀ s f,
      (insn.exec env hw s).flags f ≠ s.flags f → insnDefsCc insn = true) ∧
    (¬ ∀ (env : Env) (hw : Hardware) (insn : TargetInsn), insn.Formed → ∀ s,
      (insn.exec env hw s).mem ≠ s.mem → insnDefsMem insn = true) ∧
    (¬ ∀ (env : Env) (hw : Hardware) (insn cmp : TargetInsn), insn.Formed → ∀ s r,
      opSize insn.op.insnOp 1 ≤ opSize cmp.op.insnOp 1 → insnDefsZ insn = some r →
        insnTestZ cmp = some r → (insn.exec env hw s).flags .zf =
          decide (low (opSize cmp.op.insnOp 1) ((insn.exec env hw s).regs r) = 0)) ∧
    ¬ ∀ (env : Env) (hw : Hardware) (insn cmp : TargetInsn), insn.Formed → ∀ s r,
      insn.stays env s = false → insnDefsZ insn = some r →
        insnTestZ cmp = some r → (insn.exec env hw s).flags .zf =
          decide (low (opSize cmp.op.insnOp 1) ((insn.exec env hw s).regs r) = 0) := by
  refine ⟨fun h => ?_, fun h => ?_, fun h => ?_, fun h => ?_, fun h => ?_⟩
  · have hrsp := h default idleHardware pushInsn (formed_of_regs (by decide) (by decide)) idleCpu rsp
      (by decide)
    revert hrsp
    decide
  · have hcc := h default idleHardware incInsn (formed_of_regs (by decide) (by decide))
      { idleCpu with flags := fun _ => true } .zf (by decide)
    revert hcc
    decide
  · have hmem := h default idleHardware pushInsn (formed_of_regs (by decide) (by decide))
      { idleCpu with regs := fun _ => 1 } fun heq => absurd (congrFun heq (-7)) (by decide)
    revert hmem
    decide
  · have hz := h default idleHardware shiftInsn testInsn (formed_of_regs (by decide) (by decide))
      idleCpu rax (by decide) (by decide) (by decide)
    revert hz
    decide
  · have hz := h default idleHardware addInsn testInsn (formed_of_regs (by decide) (by decide))
      { idleCpu with regs := fun _ => 0x80000000 } rax (by decide) (by decide) (by decide)
    revert hz
    decide

end Ncc.Amd64
