import Ncc.Dead
import Ncc.Slvn
import Ncc.Lib.Swap

/-! Delay scheduling (sched.c).

    `analyze0` records, for every insn of a block, the earlier ones it depends on. `delay0` then
    pushes I_ADD and I_SUB past the accesses that follow, one exchange at a time, and never looks at
    the registers again. That is sound because every exchange leaves the recorded dependencies those
    of the new order: `analyze0` keeps every order that is reached. -/

namespace Ncc

open Exchange

/-- `regs_overlap`: walk both sets at once; they are in ascending order. -/
def regsOverlap : Regs → Regs → Bool
  | x :: xs, y :: ys =>
    if x = y then true
    else if x < y then regsOverlap xs (y :: ys)
    else regsOverlap (x :: xs) ys
  | _, _ => false
  termination_by s t => s.length + t.length

/-- `insn_uses_regs` with INSN_DEFSUSES_CC and INSN_DEFSUSES_MEM. -/
def insnUsesAll (insn : Insn) : Regs :=
  let regs := insnUsesRegs insn
  let regs := if insnUsesCc insn ≠ ∅ then regsAdd regs regCc else regs
  if insnUsesMem insn then regsAdd regs regMem else regs

/-- `insn_defs_regs` with INSN_DEFSUSES_CC and INSN_DEFSUSES_MEM. -/
def insnDefsAll (insn : Insn) : Regs :=
  let regs := insnDefsRegs insn
  let regs := if insnDefsCc insn then regsAdd regs regCc else regs
  if insnDefsMem insn then regsAdd regs regMem else regs

/-- Must `prev`, which precedes `insn`, remain before it? -/
def dependsOn (insn prev : Insn) : Bool :=
  regsOverlap (insnUsesAll insn) (insnDefsAll prev) ||
    regsOverlap (insnDefsAll insn) (insnUsesAll prev) ||
    regsOverlap (insnDefsAll insn) (insnDefsAll prev) ||
    (insn.isVolatile && prev.isVolatile)

/-- An insn in its block: `ptr` is its address and `deps` its `struct sched`. -/
structure SchedInsn where
  ptr : Nat
  insn : Insn
  deps : Finset Nat
  deriving DecidableEq

/-- The deps of an insn; `prevs` are those before it, the nearest first. -/
def depsOn (insn : Insn) (prevs : List SchedInsn) : Finset Nat :=
  prevs.foldl (fun deps prev =>
    if dependsOn insn prev.insn then insert prev.ptr deps else deps) ∅

/-- The loop of `analyze0`. -/
def analyzeFrom (prevs : List SchedInsn) : List SchedInsn → List SchedInsn
  | [] => []
  | x :: insns =>
    { x with deps := depsOn x.insn prevs } :: analyzeFrom (x :: prevs) insns

/-- Recompute the dependencies in a block. -/
def analyze0 (insns : List SchedInsn) : List SchedInsn := analyzeFrom [] insns

/-- I_ADD or I_SUB. -/
def InsnOp.delays : InsnOp → Bool
  | .add | .sub => true
  | _ => false

/-- I_LOAD, I_STORE or I_CAST. -/
def InsnOp.hastens : InsnOp → Bool
  | .load | .store | .cast => true
  | _ => false

/-- May `next`, right after `x`, be swapped with it? -/
def delayable (x next : SchedInsn) : Bool :=
  x.insn.op.delays && next.insn.op.hastens && decide (x.ptr ∉ next.deps)

theorem delayable_asymm (x y : SchedInsn) (h : delayable x y = true) : delayable y x = false := by
  obtain ⟨⟨hx, _⟩, _⟩ : (x.insn.op.delays = true ∧ y.insn.op.hastens = true) ∧ x.ptr ∉ y.deps := by
    simpa [delayable] using h
  have hop : x.insn.op.hastens = false := by
    revert hx
    cases x.insn.op <;> simp [InsnOp.delays, InsnOp.hastens]
  rw [delayable, hop, Bool.and_false, Bool.false_and]

/-- `delay0`: look for a pair to swap from the head of the block, until there is none. -/
def delay0 (insns : List SchedInsn) : List SchedInsn := settle delayable delayable_asymm insns

/-- The insns of a block, each at an address of its own, before anything is known about them. -/
def schedInsns (insns : List Insn) : List SchedInsn :=
  insns.zipIdx.map fun x => ⟨x.2, x.1, ∅⟩

/-- `sched_analyze`: what it leaves in a block. -/
def schedAnalyze (f : Func) (b : BlockId) : List SchedInsn :=
  analyze0 (schedInsns (f.block b).insns)

/-- `sched_delay`. -/
def schedDelay (f : Func) : Func :=
  f.blocks.foldl (fun g b => g.setInsns b ((delay0 (schedAnalyze f b)).map SchedInsn.insn)) f

/-! ### Dependencies -/

theorem regsOverlap_iff {s t : Regs} (hs : s.Pairwise (· < ·)) (ht : t.Pairwise (· < ·)) :
    regsOverlap s t = true ↔ ∃ r, r ∈ s ∧ r ∈ t := by
  induction s, t using regsOverlap.induct with
  | case1 x xs ys => simp [regsOverlap]
  | case2 x xs y ys hne hlt ih =>
    rw [regsOverlap, if_neg hne, if_pos hlt, ih (List.pairwise_cons.mp hs).2 ht]
    refine exists_congr fun r => ⟨fun h => ⟨List.mem_cons_of_mem _ h.1, h.2⟩, fun h => ?_⟩
    rcases List.mem_cons.mp h.1 with rfl | hr
    · rcases List.mem_cons.mp h.2 with rfl | hr
      · exact absurd rfl hne
      · exact absurd (BitVec.lt_trans hlt ((List.pairwise_cons.mp ht).1 r hr)) (BitVec.lt_irrefl r)
    · exact ⟨hr, h.2⟩
  | case3 x xs y ys hne hlt ih =>
    have hgt : y < x := BitVec.lt_of_le_ne (BitVec.not_lt.mp hlt) (Ne.symm hne)
    rw [regsOverlap, if_neg hne, if_neg hlt, ih hs (List.pairwise_cons.mp ht).2]
    refine exists_congr fun r => ⟨fun h => ⟨h.1, List.mem_cons_of_mem _ h.2⟩, fun h => ?_⟩
    rcases List.mem_cons.mp h.2 with rfl | hr
    · rcases List.mem_cons.mp h.1 with rfl | hr
      · exact absurd rfl hne
      · exact absurd (BitVec.lt_trans hgt ((List.pairwise_cons.mp hs).1 r hr)) (BitVec.lt_irrefl r)
    · exact ⟨h.1, hr⟩
  | case4 s t hst =>
    rw [regsOverlap]
    · rcases s with _ | ⟨x, xs⟩
      · simp
      · rcases t with _ | ⟨y, ys⟩
        · simp
        · exact absurd rfl (hst x xs y ys rfl)
    · exact hst

theorem sorted_addIf {s : Regs} (p : Prop) [Decidable p] (r : PseudoReg)
    (hs : s.Pairwise (· < ·)) : (if p then regsAdd s r else s).Pairwise (· < ·) := by
  split
  · exact sorted_regsAdd hs
  · exact hs

theorem sorted_insnUsesAll (insn : Insn) : (insnUsesAll insn).Pairwise (· < ·) :=
  sorted_addIf _ _ (sorted_addIf _ _ (sorted_insnUsesRegs insn))

theorem sorted_insnDefsAll (insn : Insn) : (insnDefsAll insn).Pairwise (· < ·) :=
  sorted_addIf _ _ (sorted_addIf _ _ (sorted_insnDefsRegs insn))

theorem mem_insnUsesAll {insn : Insn} {r : PseudoReg} : r ∈ insnUsesAll insn ↔
    (insnUsesMem insn = true ∧ r = regMem) ∨ (insnUsesCc insn ≠ ∅ ∧ r = regCc) ∨
      r ∈ insnUsesRegs insn := by
  unfold insnUsesAll
  by_cases hm : insnUsesMem insn = true <;> by_cases hc : insnUsesCc insn = ∅ <;> simp [hm, hc]

theorem mem_insnDefsAll {insn : Insn} {r : PseudoReg} : r ∈ insnDefsAll insn ↔
    (insnDefsMem insn = true ∧ r = regMem) ∨ (insnDefsCc insn = true ∧ r = regCc) ∨
      r ∈ insnDefsRegs insn := by
  unfold insnDefsAll
  by_cases hm : insnDefsMem insn = true <;> by_cases hc : insnDefsCc insn = true <;> simp [hm, hc]

/-- Neither insn DEFs what the other mentions, and one of them is not volatile. -/
structure Independent (insn prev : Insn) : Prop where
  uses : ∀ r ∈ insnUsesAll insn, r ∉ insnDefsAll prev
  defs : ∀ r ∈ insnDefsAll insn, r ∉ insnUsesAll prev ∧ r ∉ insnDefsAll prev
  volatile : insn.isVolatile = false ∨ prev.isVolatile = false

theorem dependsOn_eq_false {insn prev : Insn} :
    dependsOn insn prev = false ↔ Independent insn prev := by
  have hov : ∀ {s t : Regs}, s.Pairwise (· < ·) → t.Pairwise (· < ·) →
      (regsOverlap s t = false ↔ ∀ r ∈ s, r ∉ t) := by
    intro s t hs ht
    rw [← Bool.not_eq_true, regsOverlap_iff hs ht]
    simp
  simp only [dependsOn, Bool.or_eq_false_iff, Bool.and_eq_false_iff,
    hov (sorted_insnUsesAll _) (sorted_insnDefsAll _),
    hov (sorted_insnDefsAll _) (sorted_insnUsesAll _),
    hov (sorted_insnDefsAll _) (sorted_insnDefsAll _)]
  exact ⟨fun h => ⟨h.1.1.1, fun r hr => ⟨h.1.1.2 r hr, h.1.2 r hr⟩, h.2⟩,
    fun h => ⟨⟨⟨h.uses, fun r hr => (h.defs r hr).1⟩, fun r hr => (h.defs r hr).2⟩, h.volatile⟩⟩

theorem Independent.symm {insn prev : Insn} (h : Independent insn prev) :
    Independent prev insn where
  uses r hr hd := (h.defs r hd).1 hr
  defs r hr := ⟨fun hu => h.uses r hu hr, fun hd => (h.defs r hd).2 hr⟩
  volatile := h.volatile.symm

/-- The dependencies of an insn, whatever the order of the insns before it. -/
theorem mem_depsOn {insn : Insn} {prevs : List SchedInsn} {p : Nat} :
    p ∈ depsOn insn prevs ↔ ∃ prev ∈ prevs, dependsOn insn prev.insn = true ∧ prev.ptr = p := by
  have hfold : ∀ (l : List SchedInsn) (deps : Finset Nat), p ∈ l.foldl (fun deps prev =>
      if dependsOn insn prev.insn then insert prev.ptr deps else deps) deps ↔
        p ∈ deps ∨ ∃ prev ∈ l, dependsOn insn prev.insn = true ∧ prev.ptr = p := by
    intro l
    induction l with
    | nil => simp
    | cons x l ih =>
      intro deps
      rw [List.foldl_cons, ih]
      by_cases hd : dependsOn insn x.insn = true
      · simp only [hd, if_true, Finset.mem_insert, List.exists_mem_cons_iff, true_and, eq_comm]
        tauto
      · simp [hd]
  rw [depsOn, hfold]
  simp

theorem depsOn_perm {insn : Insn} {l l' : List SchedInsn} (h : l.Perm l') :
    depsOn insn l = depsOn insn l' :=
  Finset.ext fun p => by simp only [mem_depsOn, h.mem_iff]

theorem depsOn_cons_of_independent {insn : Insn} {x : SchedInsn} (prevs : List SchedInsn)
    (h : Independent insn x.insn) : depsOn insn (x :: prevs) = depsOn insn prevs :=
  Finset.ext fun p => by simp [mem_depsOn, dependsOn_eq_false.mpr h]

theorem analyzeFrom_perm {prevs prevs' : List SchedInsn} (h : prevs.Perm prevs')
    (l : List SchedInsn) : analyzeFrom prevs l = analyzeFrom prevs' l := by
  induction l generalizing prevs prevs' with
  | nil => rfl
  | cons x l ih => rw [analyzeFrom, analyzeFrom, depsOn_perm h, ih (h.cons x)]

/-- The address and the text of an insn, without its deps. -/
def SchedInsn.key (x : SchedInsn) : Nat × Insn := (x.ptr, x.insn)

theorem depsOn_congr {insn : Insn} {prevs prevs' : List SchedInsn}
    (h : prevs.map SchedInsn.key = prevs'.map SchedInsn.key) :
    depsOn insn prevs = depsOn insn prevs' := by
  have hkey : ∀ l : List SchedInsn, depsOn insn l = (l.map SchedInsn.key).foldl (fun deps k =>
      if dependsOn insn k.2 then insert k.1 deps else deps) ∅ := fun l => by
    rw [List.foldl_map]
    rfl
  rw [hkey, hkey, h]

/-- The analysis does not look at the deps that are there before it. -/
theorem analyzeFrom_analyzeFrom {prevs prevs' : List SchedInsn}
    (h : prevs.map SchedInsn.key = prevs'.map SchedInsn.key) (l : List SchedInsn) :
    analyzeFrom prevs (analyzeFrom prevs' l) = analyzeFrom prevs' l := by
  induction l generalizing prevs prevs' with
  | nil => rfl
  | cons x l ih =>
    rw [analyzeFrom, analyzeFrom, depsOn_congr h]
    exact congrArg _ (ih (by rw [List.map_cons, List.map_cons, h]; rfl))

theorem map_insn_analyzeFrom (prevs l : List SchedInsn) :
    (analyzeFrom prevs l).map SchedInsn.insn = l.map SchedInsn.insn := by
  induction l generalizing prevs with
  | nil => rfl
  | cons x l ih => rw [analyzeFrom, List.map_cons, List.map_cons, ih]

theorem map_insn_schedAnalyze (f : Func) (b : BlockId) :
    (schedAnalyze f b).map SchedInsn.insn = (f.block b).insns := by
  rw [schedAnalyze, analyze0, map_insn_analyzeFrom, schedInsns, List.map_map]
  exact List.zipIdx_map_fst 0 _

/-! ### Swaps -/

/-- A pair that may be swapped, and does not depend on each other. -/
def delayableSafe (x next : SchedInsn) : Bool :=
  x.insn.op.delays && next.insn.op.hastens && !dependsOn next.insn x.insn

/-- A swap of an analysed block is one of independent insns, and the block stays analysed. -/
theorem analyzed_swap {prevs l l' : List SchedInsn} (hl : analyzeFrom prevs l = l)
    (h : Swap delayable l l') : analyzeFrom prevs l' = l' ∧ Swap delayableSafe l l' := by
  induction h generalizing prevs with
  | @head x y l hxy =>
    obtain ⟨hop, hptr⟩ : (x.insn.op.delays && y.insn.op.hastens) = true ∧ x.ptr ∉ y.deps := by
      simpa [delayable] using hxy
    simp only [analyzeFrom, List.cons.injEq] at hl
    obtain ⟨hx, hy, hl⟩ := hl
    have hdep : dependsOn y.insn x.insn = false := by
      rw [← Bool.not_eq_true]
      intro hd
      rw [← hy] at hptr
      exact hptr (mem_depsOn.mpr ⟨x, List.mem_cons_self .., hd, rfl⟩)
    have hind := dependsOn_eq_false.mp hdep
    rw [depsOn_cons_of_independent prevs hind] at hy
    refine ⟨?_, .head l (by rw [delayableSafe, hop, hdep]; rfl)⟩
    rw [analyzeFrom, analyzeFrom, hy, depsOn_cons_of_independent prevs hind.symm, hx,
      analyzeFrom_perm (List.Perm.swap y x prevs), hl]
  | @cons x l l' h ih =>
    simp only [analyzeFrom, List.cons.injEq] at hl
    obtain ⟨hsame, hsafe⟩ := ih hl.2
    exact ⟨by rw [analyzeFrom, hl.1, hsame], .cons x hsafe⟩

/-- Every order that swaps lead to is reached by swaps of independent insns, and what `analyze0`
    found in the first order is what it would find in this one. -/
theorem analyzed_swaps {l l' : List SchedInsn} (hl : analyze0 l = l)
    (h : Relation.ReflTransGen (Swap delayable) l l') :
    analyze0 l' = l' ∧ Relation.ReflTransGen (Swap delayableSafe) l l' := by
  induction h with
  | refl => exact ⟨hl, .refl⟩
  | tail _ hswap ih =>
    obtain ⟨hsame, hsafe⟩ := analyzed_swap ih.1 hswap
    exact ⟨hsame, ih.2.tail hsafe⟩

/-! ### Commuting insns -/

section
variable (env : Env)

/-- The value that an insn which only writes its dst computes. -/
def Insn.result (i : Insn) (regs : PseudoReg → Word) (mem : Mem) : Word :=
  exprValue env i.op (tsOpt i.dst) (tsOpt i.src1) (readOpt env regs i.src1)
    (readOpt env regs i.src2) mem

variable {env}

theorem exec_result {i : Insn} (hop : i.op.delays = true ∨ i.op.hastens = true)
    (hst : i.op ≠ .store) (s : State) :
    exec env i s = s.write i.dst (i.result env s.regs s.mem) := by
  obtain ⟨op, dst, src1, src2, vol, iasm⟩ := i
  cases op <;> first | exact absurd rfl hst | rfl | simp [InsnOp.delays, InsnOp.hastens] at hop

theorem result_congr {i : Insn} {regs regs' : PseudoReg → Word} (mem : Mem)
    (h : ∀ r ∈ insnUsesRegs i, regs' r = regs r) :
    i.result env regs' mem = i.result env regs mem := by
  have h₁ : readOpt env regs' i.src1 = readOpt env regs i.src1 :=
    readOpt_congr env fun r hr => h r (Dead.mem_insnUsesRegs.mpr (.inr (.inl hr)))
  have h₂ : readOpt env regs' i.src2 = readOpt env regs i.src2 :=
    readOpt_congr env fun r hr => h r (Dead.mem_insnUsesRegs.mpr (.inr (.inr (.inl hr))))
  rw [Insn.result, Insn.result, h₁, h₂]

/-- The access an insn makes is determined by the registers it USEs. -/
theorem access_congr {i : Insn} {s s' : State} (h : ∀ r ∈ insnUsesRegs i, s'.regs r = s.regs r) :
    access env s' i = access env s i := by
  have h₁ : readOpt env s'.regs i.src1 = readOpt env s.regs i.src1 :=
    readOpt_congr env fun r hr => h r (Dead.mem_insnUsesRegs.mpr (.inr (.inl hr)))
  have h₂ : readOpt env s'.regs i.src2 = readOpt env s.regs i.src2 :=
    readOpt_congr env fun r hr => h r (Dead.mem_insnUsesRegs.mpr (.inr (.inr (.inl hr))))
  rw [access, access, usedWords, usedWords, h₁, h₂]
  congr 1
  · split
    · next hu =>
      rw [readOpt_congr env fun r hr => h r (Dead.mem_insnUsesRegs.mpr (.inl ⟨hu, hr⟩))]
    · rfl
  · split
    · next hop =>
      refine List.map_congr_left fun e he => ?_
      rw [h e.2 (Dead.mem_insnUsesRegs.mpr (.inr (.inr (.inr ⟨hop, i.iasm.inputs_uses e he⟩))))]
    · rfl

/-- Writes to different registers commute. -/
theorem write_comm (s : State) {o p : Option Operand} (h : ∀ r ∈ operandRegs o, r ∉ operandRegs p)
    (v w : Word) : (s.write o v).write p w = (s.write p w).write o v := by
  rcases o with _ | ⟨ts, _ | q, n⟩
  · rfl
  · rfl
  · rcases p with _ | ⟨ts', _ | q', n'⟩
    · rfl
    · rfl
    · have hne : q ≠ q' :=
        fun he => h q (List.mem_singleton_self q) (he ▸ List.mem_singleton_self q)
      simp only [State.write, Function.update_comm hne]

end

section
variable {env : Env} {x y : Insn}

/-- What the deps of the later insn say about the registers of both. -/
theorem Independent.regs (h : Independent y x) :
    (∀ r ∈ insnUsesRegs y, r ∉ insnDefsRegs x) ∧ (∀ r ∈ insnUsesRegs x, r ∉ insnDefsRegs y) ∧
      ∀ r ∈ insnDefsRegs x, r ∉ insnDefsRegs y := by
  have huses : ∀ {i : Insn} {r}, r ∈ insnUsesRegs i → r ∈ insnUsesAll i :=
    fun hr => mem_insnUsesAll.mpr (.inr (.inr hr))
  have hdefs : ∀ {i : Insn} {r}, r ∈ insnDefsRegs i → r ∈ insnDefsAll i :=
    fun hr => mem_insnDefsAll.mpr (.inr (.inr hr))
  exact ⟨fun r hu hd => h.uses r (huses hu) (hdefs hd),
    fun r hu hd => (h.defs r (hdefs hd)).1 (huses hu),
    fun r hx hy => (h.defs r (hdefs hy)).2 (hdefs hx)⟩

/-- An addition and an access that are independent may be executed in either order. -/
theorem exec_comm (hx : x.op.delays = true) (hy : y.op.hastens = true) (h : Independent y x)
    (s : State) : exec env y (exec env x s) = exec env x (exec env y s) := by
  obtain ⟨hyx, hxy, hdefs⟩ := h.regs
  have hxst : x.op ≠ .store := by
    rintro hst
    rw [hst] at hx
    cases hx
  have hxld : x.op ≠ .load := by
    rintro hld
    rw [hld] at hx
    cases hx
  have hxmem : ∀ regs mem mem', x.result env regs mem' = x.result env regs mem :=
    fun _ _ _ => Slvn.exprValue_mem hxld ..
  have hxuse : insnDefsRegs x = operandRegs x.dst := by
    revert hx
    cases hop : x.op <;> simp [InsnOp.delays, insnDefsRegs, hop, InsnOp.useDst]
  have hregs : ∀ r ∈ insnUsesRegs y, (exec env x s).regs r = s.regs r :=
    fun r hr => exec_regs_of_notMem env (hyx r hr)
  rw [exec_result (.inl hx) hxst] at hregs ⊢
  by_cases hyst : y.op = .store
  · have hval : readOpt env (s.write x.dst (x.result env s.regs s.mem)).regs y.src1 =
        readOpt env s.regs y.src1 :=
      readOpt_congr env fun r hr => hregs r (Dead.mem_insnUsesRegs.mpr (.inr (.inl hr)))
    have haddr : readOpt env (s.write x.dst (x.result env s.regs s.mem)).regs y.dst =
        readOpt env s.regs y.dst :=
      readOpt_congr env fun r hr =>
        hregs r (Dead.mem_insnUsesRegs.mpr (.inl ⟨by rw [hyst]; rfl, hr⟩))
    have hres := hxmem s.regs s.mem (storeWord s.mem (readOpt env s.regs y.dst)
      (tsOpt y.src1).sizeof (readOpt env s.regs y.src1))
    rw [exec_store env hyst, exec_store env hyst, hval, haddr, exec_result (.inl hx) hxst, hres]
    rcases x.dst with _ | ⟨ts, _ | q, n⟩ <;> simp [State.write]
  · have hyuse : insnDefsRegs y = operandRegs y.dst := by
      revert hy hyst
      cases hop : y.op <;> simp [InsnOp.hastens, insnDefsRegs, hop, InsnOp.useDst]
    have hdst : ∀ r ∈ operandRegs x.dst, r ∉ operandRegs y.dst := by rwa [hxuse, hyuse] at hdefs
    have hregs' : ∀ r ∈ insnUsesRegs x, (exec env y s).regs r = s.regs r :=
      fun r hr => exec_regs_of_notMem env (hxy r hr)
    rw [exec_result (.inr hy) hyst] at hregs'
    rw [exec_result (.inr hy) hyst, exec_result (.inr hy) hyst, exec_result (.inl hx) hxst,
      result_congr _ hregs, write_mem, write_mem, result_congr _ hregs', hxmem s.regs s.mem]
    exact write_comm s hdst ..

end

/-! ### What a block does -/

section
variable (env : Env)

/-- Execute one insn, and note the access it makes if it is volatile. -/
def observe (st : State × List Access) (i : Insn) : State × List Access :=
  (exec env i st.1, st.2 ++ if i.isVolatile then [access env st.1 i] else [])

theorem foldl_observe (l : List Insn) (s : State) (tr : List Access) :
    l.foldl (observe env) (s, tr) = (execs env l s, tr ++ accesses env Insn.isVolatile l s) := by
  induction l generalizing s tr with
  | nil => rw [List.foldl_nil, execs_nil, accesses, List.append_nil]
  | cons i l ih => rw [List.foldl_cons, observe, ih, execs_cons, accesses, List.append_assoc]

variable {env}

/-- Independent insns commute: at most one of them is volatile, and it makes the same access. -/
theorem observe_comm {x y : Insn} (hx : x.op.delays = true) (hy : y.op.hastens = true)
    (h : Independent y x) (st : State × List Access) :
    observe env (observe env st x) y = observe env (observe env st y) x := by
  obtain ⟨hyx, hxy, _⟩ := h.regs
  have hay : access env (exec env x st.1) y = access env st.1 y :=
    access_congr fun r hr => exec_regs_of_notMem env (hyx r hr)
  have hax : access env (exec env y st.1) x = access env st.1 x :=
    access_congr fun r hr => exec_regs_of_notMem env (hxy r hr)
  simp only [observe, exec_comm hx hy h, hay, hax]
  rcases h.volatile with hv | hv <;> simp [hv]

end

/-- Swaps of independent insns keep what a block does. -/
theorem observe_swap (env : Env) {l l' : List SchedInsn} (h : Swap delayableSafe l l')
    (st : State × List Access) : (l'.map SchedInsn.insn).foldl (observe env) st =
      (l.map SchedInsn.insn).foldl (observe env) st := by
  rw [List.foldl_map, List.foldl_map]
  refine h.foldl (fun x y hxy st => ?_) st
  obtain ⟨⟨hx, hy⟩, hdep⟩ : (x.insn.op.delays = true ∧ y.insn.op.hastens = true) ∧
      dependsOn y.insn x.insn = false := by simpa [delayableSafe] using hxy
  exact observe_comm hx hy (dependsOn_eq_false.mp hdep) st

/-- Replacing the insns of some blocks leaves the rest of them, and the others, alone. -/
theorem block_foldl_setInsns (insns : BlockId → List Insn) (l : List BlockId) (f : Func)
    (b : BlockId) : (l.foldl (fun g b => g.setInsns b (insns b)) f).block b =
      if b ∈ l then { f.block b with insns := insns b } else f.block b := by
  induction l generalizing f with
  | nil => rfl
  | cons c l ih =>
    rw [List.foldl_cons, ih, Func.setInsns_block]
    by_cases hc : b = c
    · subst hc
      simp
    · simp [hc]

/-- Delay scheduling ends, with nothing left to swap, and only swaps insns that are independent: the
    analysis of the first order is that of every order on the way, and an insn stays behind those it
    depends on. The block leaves the same state and makes the same volatile accesses. -/
theorem schedDelay_preserves (env : Env) (f : Func) (b : BlockId) (s : State) :
    WellFounded (Function.swap (Swap delayable)) ∧
    (schedDelay f).block b = (if b ∈ f.blocks then
      { f.block b with insns := (delay0 (schedAnalyze f b)).map SchedInsn.insn } else f.block b) ∧
    Relation.ReflTransGen (Swap delayable) (schedAnalyze f b) (delay0 (schedAnalyze f b)) ∧
    (∀ l, ¬Swap delayable (delay0 (schedAnalyze f b)) l) ∧
    (∀ l, Relation.ReflTransGen (Swap delayable) (schedAnalyze f b) l → analyze0 l = l) ∧
    (∀ x y, [x, y].Sublist (schedAnalyze f b) → dependsOn y.insn x.insn = true →
      [x, y].Sublist (delay0 (schedAnalyze f b))) ∧
    execs env ((schedDelay f).block b).insns s = execs env (f.block b).insns s ∧
    accesses env Insn.isVolatile ((schedDelay f).block b).insns s =
      accesses env Insn.isVolatile (f.block b).insns s := by
  have hblock : (schedDelay f).block b = (if b ∈ f.blocks then
      { f.block b with insns := (delay0 (schedAnalyze f b)).map SchedInsn.insn } else f.block b) :=
    block_foldl_setInsns (fun b => (delay0 (schedAnalyze f b)).map SchedInsn.insn) f.blocks f b
  have hswaps := settle_swaps delayable_asymm (schedAnalyze f b)
  have hanalyzed : analyze0 (schedAnalyze f b) = schedAnalyze f b := analyzeFrom_analyzeFrom rfl _
  have hsafe := (analyzed_swaps hanalyzed hswaps).2
  have hobs : ((schedDelay f).block b).insns.foldl (observe env) (s, []) =
      (f.block b).insns.foldl (observe env) (s, []) := by
    rw [hblock]
    split
    · have hfold : ∀ l, Relation.ReflTransGen (Swap delayableSafe) (schedAnalyze f b) l →
          (l.map SchedInsn.insn).foldl (observe env) (s, []) =
            ((schedAnalyze f b).map SchedInsn.insn).foldl (observe env) (s, []) := by
        intro l h
        induction h with
        | refl => rfl
        | tail _ hswap ih => rw [observe_swap env hswap, ih]
      rw [← map_insn_schedAnalyze f b]
      exact hfold _ hsafe
    · rfl
  rw [foldl_observe, foldl_observe] at hobs
  refine ⟨swap_wellFounded delayable_asymm, hblock, hswaps,
    fun l => not_swap_of_swapFirst (swapFirst_settle delayable_asymm _),
    fun l h => (analyzed_swaps hanalyzed h).1, fun x y hsub hdep => ?_,
    (Prod.mk.inj hobs).1, (Prod.mk.inj hobs).2⟩
  exact swaps_sublist hsafe (by rw [delayableSafe, hdep, Bool.not_true, Bool.and_false]) hsub

end Ncc
