import Ncc.Run

/-! Kill and read sets (kill.c).

    The kill set of a block is the registers it DEFs, its read set is the registers its insns USE.
    The control operand of a switch block is in neither. -/

namespace Ncc

/-- `struct kill` of a block. -/
structure Kill where
  kill : Regs
  read : Regs

/-- `analyze0`. -/
def killAnalyze (x : Block) : Kill where
  kill := x.insns.foldl (fun regs insn => regsUnion regs (insnDefsRegs insn)) []
  read := x.insns.foldl (fun regs insn => regsUnion regs (insnUsesRegs insn)) []

/-- The registers killed in any of the blocks (`kill_gather`). -/
def killGather (f : Func) (blks : List BlockId) : Regs :=
  blks.foldl (fun regs b => regsUnion regs (killAnalyze (f.block b)).kill) []

/-- The registers read in any of the blocks (`kill_gather`). -/
def readGather (f : Func) (blks : List BlockId) : Regs :=
  blks.foldl (fun regs b => regsUnion regs (killAnalyze (f.block b)).read) []

theorem mem_foldl_union {α : Type*} (g : α → Regs) {r : PseudoReg} : ∀ (l : List α) (regs : Regs),
    r ∈ l.foldl (fun regs x => regsUnion regs (g x)) regs ↔ r ∈ regs ∨ ∃ x ∈ l, r ∈ g x
  | [], regs => by simp
  | x :: l, regs => by
      rw [List.foldl_cons, mem_foldl_union g l, mem_regsUnion, or_assoc]
      simp

@[simp] theorem mem_kill {x : Block} {r : PseudoReg} :
    r ∈ (killAnalyze x).kill ↔ ∃ i ∈ x.insns, r ∈ insnDefsRegs i := by
  simp [killAnalyze, mem_foldl_union]

@[simp] theorem mem_read {x : Block} {r : PseudoReg} :
    r ∈ (killAnalyze x).read ↔ ∃ i ∈ x.insns, r ∈ insnUsesRegs i := by
  simp [killAnalyze, mem_foldl_union]

@[simp] theorem mem_killGather {f : Func} {blks : List BlockId} {r : PseudoReg} :
    r ∈ killGather f blks ↔ ∃ b ∈ blks, ∃ i ∈ (f.block b).insns, r ∈ insnDefsRegs i := by
  simp [killGather, mem_foldl_union]

@[simp] theorem mem_readGather {f : Func} {blks : List BlockId} {r : PseudoReg} :
    r ∈ readGather f blks ↔ ∃ b ∈ blks, ∃ i ∈ (f.block b).insns, r ∈ insnUsesRegs i := by
  simp [readGather, mem_foldl_union]

/-- A block leaves the registers it does not kill alone. -/
theorem execs_regs_of_not_kill {env : Env} {r : PseudoReg} : ∀ {l : List Insn} {s : State},
    (∀ i ∈ l, r ∉ insnDefsRegs i) → (execs env l s).regs r = s.regs r
  | [], _, _ => rfl
  | i :: l, s, h => by
      rw [execs_cons, execs_regs_of_not_kill fun j hj => h j (List.mem_cons_of_mem _ hj)]
      exact exec_regs_of_notMem env (h i (List.mem_cons_self ..))

end Ncc
