import Ncc.Kill

/-! Constant propagation (prop.c).

    A table records for each register whether nothing is known about it, it is a constant or it is
    not one. `local` follows a block from a table; `prop0` iterates over the blocks until the tables
    at their ends are stable. A USE of a register that is a constant is replaced by the constant,
    with the type the constant was recorded with: the type at which the USE reads the register is
    lost. `prop_sound` says what the runs must avoid. -/

namespace Ncc.ConstProp

/-- `struct conp`: CONP_STATE_DUNNO, CONP_STATE_CON or CONP_STATE_NAC. -/
inductive Conp where
  | dunno
  | con (value : Operand)
  | nac
  deriving DecidableEq

/-- A `conps[]` table. A register that is DEFd nowhere has no entry and is left `dunno`. -/
abbrev Conps := PseudoReg → Conp

/-- The initial table. -/
def conpsNew : Conps := fun _ => .dunno

/-- `conps_value`. -/
def conpsValue (t : Conps) (r : PseudoReg) : Option Operand :=
  match t r with
  | .con v => some v
  | _ => none

/-- Set all of the registers to CONP_STATE_NAC (`conps_kill`, `conps_poison`). -/
def conpsKill (t : Conps) (regs : Regs) : Conps := fun r => if r ∈ regs then .nac else t r

/-- The meet of one entry in `conps_merge`. -/
def conpMerge : Conp → Conp → Conp
  | .nac, _ => .nac
  | old, .dunno => old
  | _, .nac => .nac
  | .con v, .con w => if operandIsSame (some v) (some w) then .con v else .nac
  | .dunno, .con w => .con w

/-- What a predecessor with the table `out` contributes; `cond` is the register that is equal to a
    constant when control comes from there. -/
def contributed (out : Conps) (cond : Option (PseudoReg × Operand)) : Conps := fun r =>
  match cond with
  | some (reg, v) => if r = reg then .con v else out r
  | none => out r

/-- `conps_merge` with the table of a predecessor; `defs` are the registers of the map. -/
def conpsMerge (defs : Regs) (t out : Conps) (cond : Option (PseudoReg × Operand)) : Conps :=
  fun r => if r ∈ defs then conpMerge (t r) (contributed out cond r) else t r

/-- `conps_merge_gen`. -/
def conpsMergeGen (t gen : Conps) : Conps := fun r =>
  match gen r with
  | .con v => .con v
  | _ => t r

/-- Two entries are equivalent. -/
def conpSame : Conp → Conp → Bool
  | .dunno, .dunno => true
  | .nac, .nac => true
  | .con v, .con w => operandIsSame (some v) (some w)
  | _, _ => false

/-- `conps_same`. -/
def conpsSame (defs : Regs) (t u : Conps) : Bool := defs.all fun r => conpSame (t r) (u r)

/-! ### Local propagation -/

/-- Replace the USEs of registers that are constants. -/
def substitute (t : Conps) (insn : Insn) : Insn :=
  (insnUsesRegs insn).foldl (fun insn r =>
    match conpsValue t r with
    | some v => insnSubstituteCon insn r v
    | none => insn) insn

/-- One turn of the loop in `local`. -/
def localInsn (t : Conps) (insn : Insn) : Conps × Insn :=
  match insnCon insn with
  | some (dst, value) => (Function.update t dst (.con value), insn)
  | none => (conpsKill t (insnDefsRegs (substitute t insn)), substitute t insn)

/-- `local`: the table at the end of the block, and its insns. -/
def localInsns (t : Conps) : List Insn → Conps × List Insn
  | [] => (t, [])
  | insn :: insns =>
    let rest := localInsns (localInsn t insn).1 insns
    (rest.1, (localInsn t insn).2 :: rest.2)

/-- Run `local` on every block (`gen0`, `rewrite0`). -/
def localBlocks (f : Func) (start : BlockId → Conps) : Func :=
  f.blocks.foldl (fun g b => g.setInsns b (localInsns (start b) (f.block b).insns).2) f

/-! ### The iterative analysis -/

/-- `conditional`: when control only goes from `pred` to `b` after comparing a register equal to a
    constant, the register and the constant. -/
def conditional (f : Func) (b pred : BlockId) : Option (PseudoReg × Operand) :=
  match blockCcSuccessor (f.block pred) .z, (f.block pred).insns.getLast? with
  | some succ, some last =>
    if succ.b ≠ b || last.op ≠ .cmp then none
    else
      let (src, dst) :=
        if operandCon last.src2 then (last.src2, last.src1) else (last.src1, last.src2)
      match src, dst with
      | some ⟨ts, .con c sym, n⟩, some ⟨_, .reg r, _⟩ => some (r, ⟨ts, .con c sym, n⟩)
      | _, _ => none
  | _, _ => none

/-- The tables the iteration works on. -/
structure PropState where
  inn : BlockId → Conps
  out : BlockId → Conps

section
variable (f : Func) (defs : Regs) (kill : BlockId → Regs) (gen : BlockId → Conps)

/-- The IN table of a block, from the OUT tables of its predecessors. -/
def mergePreds (out : BlockId → Conps) (b : BlockId) : Conps :=
  (f.block b).predecessors.foldl (fun t p => conpsMerge defs t (out p) (conditional f b p)) conpsNew

/-- The OUT table of a block, from its IN table. -/
def transfer (inn : Conps) (b : BlockId) : Conps :=
  conpsMergeGen (conpsKill inn (kill b)) (gen b)

/-- `prop0`; the flag is BLOCKS_ITER_REITER. -/
def prop0 (st : PropState) (b : BlockId) : PropState × Bool :=
  if b = f.entry then (st, false)
  else
    let inn := mergePreds f defs st.out b
    let tmp := transfer kill gen inn b
    let st := { st with inn := Function.update st.inn b inn }
    if conpsSame defs tmp (st.out b) then (st, false)
    else ({ st with out := Function.update st.out b tmp }, true)

/-- One iteration over the blocks. -/
def propPass (st : PropState) : List BlockId → PropState × Bool
  | [] => (st, false)
  | b :: blocks =>
    let x := prop0 f defs kill gen st b
    let rest := propPass x.1 blocks
    (rest.1, x.2 || rest.2)

/-- `blocks_iter(prop0)`, with fuel for the number of iterations. -/
def propIter : Nat → PropState → Option PropState
  | 0, _ => none
  | n + 1, st =>
    let x := propPass f defs kill gen st f.blocks
    if x.2 then propIter n x.1 else some x.1

end

/-- The registers DEFd in the function. -/
def allDefs (f : Func) : Regs := killGather f f.blocks

/-- The initial tables. -/
def propInit (f : Func) : PropState where
  inn := fun _ => conpsNew
  out := fun b => if b = f.entry then conpsKill conpsNew (allDefs f) else conpsNew

/-- The exit tables of `gen0`. -/
def genTable (f : Func) (b : BlockId) : Conps := (localInsns conpsNew (f.block b).insns).1

/-- The function after `gen0`. -/
def gen (f : Func) : Func := localBlocks f fun _ => conpsNew

/-- The kill sets, which `prop` has computed before `gen0`. -/
def killSets (f : Func) (b : BlockId) : Regs := (killAnalyze (f.block b)).kill

/-- The tables after the iteration. -/
def analyze (n : Nat) (f : Func) : Option PropState :=
  propIter (gen f) (allDefs f) (killSets f) (genTable f) n (propInit f)

/-- The function after `rewrite0`. -/
def rewrite (f : Func) (st : PropState) : Func := localBlocks (gen f) st.inn

/-! ### What the tables promise -/

section
variable (env : Env)

/-- The word a constant denotes. -/
def conWord (v : Operand) : Word := v.read env fun _ => 0

/-- A register that is recorded as a constant holds it. -/
def Valid (t : Conps) (s : State) : Prop :=
  ∀ r v, t r = .con v → operandCon (some v) ∧ s.regs r = conWord env v

/-- The operands an insn USEs. -/
def usedOperands (insn : Insn) : List (Option Operand) :=
  if insn.op.useDst then [insn.dst, insn.src1, insn.src2] else [insn.src1, insn.src2]

/-- The insns denote the same: their effect is the same, and so is what each of the operands they
    USE reads. -/
def SameMeaning (s : State) (i i' : Insn) : Prop :=
  SameEffect env s i i' ∧
    (usedOperands i').map (readOpt env s.regs) = (usedOperands i).map (readOpt env s.regs)

/-- What `local` promises of a block executed from a state: at every point the table is right, and
    the insn it leaves behind denotes the same. -/
def Sound : Conps → List Insn → State → Prop
  | t, [], s => Valid env t s
  | t, i :: l, s =>
    Valid env t s ∧ SameMeaning env s i (localInsn t i).2 ∧ Sound (localInsn t i).1 l (exec env i s)

/-! ### What the steps must avoid -/

/-- Does an insn treat a src1 of the type `ts'` as it treats one of the type `ts`? -/
def agree (insn : Insn) (ts ts' : TypeBits) : Bool :=
  match insn.op with
  | .store | .test => ts'.sizeof == ts.sizeof
  | .cmp => ts'.sizeof == ts.sizeof && ts'.floating == ts.floating
  | .cast => ts' == ts || !((tsOpt insn.dst).floating || ts.floating || ts'.floating)
  | .arg | .varg | .blkarg => ts' == ts
  | _ => true

/-- A step that does not go wrong: the dst of a constant move can hold the whole constant; the
    constant that replaces an operand has a value of the type of that operand; and the insn treats
    it as it treats a constant of that type. -/
structure Harmless (t : Conps) (i : Insn) : Prop where
  moved : ∀ d v, insnCon i = some (d, v) → fit (tsOpt i.dst) (conWord env v) = conWord env v
  used : ∀ ts r n v, some ⟨ts, .reg r, n⟩ ∈ usedOperands i → t r = .con v →
    fit ts (conWord env v) = conWord env v
  typed : ∀ ts r n v, i.src1 = some ⟨ts, .reg r, n⟩ → t r = .con v → agree i ts v.ts

/-- Along a block, from the table it starts with, all steps are harmless. -/
def AllHarmless : Conps → List Insn → Prop
  | _, [] => True
  | t, i :: l => Harmless env t i ∧ AllHarmless (localInsn t i).1 l

end

/-! ### Local propagation is sound -/

section
variable {env : Env} {t : Conps} {s : State} {i : Insn}

theorem conWord_eq {v : Operand} (h : operandCon (some v)) (regs : PseudoReg → Word) :
    v.read env regs = conWord env v := by
  rcases v with ⟨ts, c | r, n⟩
  · rfl
  · exact absurd h (by simp [operandCon])

/-- The operand is what it was, or the constant its register was replaced by. -/
def Replaced (t : Conps) (o o' : Option Operand) : Prop :=
  o' = o ∨ ∃ ts r n v, o = some ⟨ts, .reg r, n⟩ ∧ t r = .con v ∧ o' = some v

/-- The insns differ in operands that were replaced at most. -/
structure Substituted (t : Conps) (i i' : Insn) : Prop where
  op : i'.op = i.op
  iasm : i'.iasm = i.iasm
  dst : if i.op.useDst then Replaced t i.dst i'.dst else i'.dst = i.dst
  src1 : Replaced t i.src1 i'.src1
  src2 : Replaced t i.src2 i'.src2

theorem Replaced.substitute (hcon : ∀ r v, t r = .con v → operandCon (some v)) {r : PseudoReg}
    {v : Operand} (hv : t r = .con v) {o o' : Option Operand} (h : Replaced t o o') :
    Replaced t o (operandSubstituteCon o' r v) := by
  rcases h with rfl | ⟨ts, q, n, w, rfl, hw, rfl⟩
  · rcases o' with _ | ⟨ts, _ | q, n⟩
    · exact .inl rfl
    · exact .inl (by simp [operandSubstituteCon])
    · by_cases hq : q = r
      · subst hq; exact .inr ⟨ts, q, n, v, rfl, hv, by simp [operandSubstituteCon]⟩
      · exact .inl (by simp [operandSubstituteCon, hq])
  · have hne : w.val ≠ .reg r := by
      intro hr
      have hc := hcon q w hw
      rcases w with ⟨wts, _ | _, wn⟩
      · exact absurd hr (by simp)
      · exact absurd hc (by simp [operandCon])
    exact .inr ⟨ts, q, n, w, rfl, hw, by simp [operandSubstituteCon, hne]⟩

theorem Substituted.substitute (hcon : ∀ r v, t r = .con v → operandCon (some v)) {r : PseudoReg}
    {v : Operand} (hv : t r = .con v) {i' : Insn} (h : Substituted t i i') :
    Substituted t i (insnSubstituteCon i' r v) := by
  obtain ⟨hop, hasm, hdst, h₁, h₂⟩ := h
  refine ⟨hop, hasm, ?_, h₁.substitute hcon hv, h₂.substitute hcon hv⟩
  simp only [insnSubstituteCon, hop]
  split
  · rename_i hu; rw [if_pos hu] at hdst; exact hdst.substitute hcon hv
  · rename_i hu; rw [if_neg hu] at hdst; exact hdst

theorem substituted_substitute (hcon : ∀ r v, t r = .con v → operandCon (some v)) (i : Insn) :
    Substituted t i (substitute t i) := by
  have hfold : ∀ (regs : Regs) (i' : Insn), Substituted t i i' →
      Substituted t i (regs.foldl (fun insn r =>
        match conpsValue t r with
        | some v => insnSubstituteCon insn r v
        | none => insn) i') := by
    intro regs
    induction regs with
    | nil => exact fun _ h => h
    | cons r regs ih =>
      intro i' h
      rw [List.foldl_cons]
      refine ih _ ?_
      rw [conpsValue]
      cases hr : t r with
      | dunno => exact h
      | nac => exact h
      | con v => exact h.substitute hcon hr
  refine hfold _ i ⟨rfl, rfl, ?_, .inl rfl, .inl rfl⟩
  split
  · exact .inl rfl
  · rfl

theorem Substituted.insnDefsRegs {i' : Insn} (h : Substituted t i i') :
    insnDefsRegs i' = insnDefsRegs i := by
  obtain ⟨hop, hasm, hdst, _, _⟩ := h
  simp only [Ncc.insnDefsRegs, hop, hasm]
  cases hu : i.op.useDst with
  | true => rfl
  | false => rw [hu, if_neg Bool.false_ne_true] at hdst; rw [hdst]

/-- A replaced operand reads the same, when the constant is a value of its type. -/
theorem Replaced.read (hv : Valid env t s) {o o' : Option Operand} (h : Replaced t o o')
    (hfit : ∀ ts r n v, o = some ⟨ts, .reg r, n⟩ → t r = .con v →
      fit ts (conWord env v) = conWord env v) :
    readOpt env s.regs o' = readOpt env s.regs o := by
  rcases h with rfl | ⟨ts, r, n, v, rfl, hr, rfl⟩
  · rfl
  · obtain ⟨hc, hs⟩ := hv r v hr
    calc readOpt env s.regs (some v) = conWord env v := conWord_eq hc _
      _ = fit ts (conWord env v) := (hfit ts r n v rfl hr).symm
      _ = readOpt env s.regs (some ⟨ts, .reg r, n⟩) := by rw [← hs]; rfl

theorem fit_eq_zero (ts : TypeBits) (w : Word) :
    fit ts w = 0 ↔ w.setWidth (8 * ts.sizeof) = 0 := by
  constructor
  · intro h
    have hw : (fit ts w).setWidth (8 * ts.sizeof) = w.setWidth (8 * ts.sizeof) := by
      cases ts <;> simp only [fit, conNormalize, TypeBits.sizeof] <;>
        first
          | exact setWidth_setWidth_setWidth (by decide) w
          | exact setWidth_signExtend_setWidth (by decide) w
    rw [← hw, h]; exact BitVec.setWidth_zero ..
  · intro h
    rw [← fit_setWidth, h]
    cases ts <;> rfl

theorem testCodes_congr {ts ts' : TypeBits} (h : ts'.sizeof = ts.sizeof) (a b : Word) :
    testCodes env ts' a b = testCodes env ts a b := by
  have hz : fit ts' (a &&& b) = 0 ↔ fit ts (a &&& b) = 0 := by
    rw [fit_eq_zero, fit_eq_zero, h]
  simp only [testCodes, ne_eq, hz]

theorem cmpCodes_congr {ts ts' : TypeBits} (h : ts'.sizeof = ts.sizeof)
    (hf : ts'.floating = ts.floating) (a b : Word) :
    cmpCodes env ts' a b = cmpCodes env ts a b := by
  rw [cmpCodes, cmpCodes, hf, h]
  cases hfl : ts.floating with
  | false => rfl
  | true =>
    -- float and double differ in size
    have hts : ts' = ts := by
      cases ts <;> cases ts' <;> simp_all [TypeBits.floating, TypeBits.sizeof]
    rw [hts]

/-- An insn depends on src1 by its value and by as much of its type as `agree` looks at. -/
theorem exec_congr {i' : Insn} (hop : i'.op = i.op) (hasm : i'.iasm = i.iasm)
    (hdst : i.op.useDst = false → i'.dst = i.dst)
    (hread : readOpt env s.regs i'.dst = readOpt env s.regs i.dst)
    (h₁ : readOpt env s.regs i'.src1 = readOpt env s.regs i.src1)
    (h₂ : readOpt env s.regs i'.src2 = readOpt env s.regs i.src2)
    (hts : agree i (tsOpt i.src1) (tsOpt i'.src1)) : exec env i' s = exec env i s := by
  obtain ⟨op, dst, src1, src2, vol, iasm⟩ := i
  obtain ⟨op', dst', src1', src2', vol', iasm'⟩ := i'
  obtain rfl : op' = op := hop
  obtain rfl : iasm' = iasm := hasm
  have hkeep : op'.useDst = false → dst' = dst := hdst
  cases op' with
  | nop | number | asm => rfl
  | blkcopy | blkzero => simp only [exec, hread, h₁, h₂]
  | store =>
    have hsize : (tsOpt src1').sizeof = (tsOpt src1).sizeof := by simpa [agree] using hts
    simp only [exec, hread, h₁, hsize]
  | cmp =>
    obtain ⟨hsize, hf⟩ : (tsOpt src1').sizeof = (tsOpt src1).sizeof ∧
      (tsOpt src1').floating = (tsOpt src1).floating := by simpa [agree] using hts
    simp only [exec, h₁, h₂, cmpCodes_congr hsize hf]
  | test =>
    have hsize : (tsOpt src1').sizeof = (tsOpt src1).sizeof := by simpa [agree] using hts
    simp only [exec, h₁, h₂, testCodes_congr hsize]
  | arg | varg | blkarg =>
    have heq : tsOpt src1' = tsOpt src1 := by simpa [agree] using hts
    simp only [exec, h₁, h₂, heq]
  | cast =>
    obtain rfl := hkeep rfl
    have hcast : tsOpt src1' = tsOpt src1 ∨ ((tsOpt dst').floating = false ∧
      (tsOpt src1).floating = false) ∧ (tsOpt src1').floating = false := by
      simpa [agree, or_assoc] using hts
    rcases hcast with heq | ⟨⟨hd, hf⟩, hf'⟩
    · simp only [exec, exprValue, h₁, heq]
    · simp [exec, exprValue, h₁, hd, hf, hf']
  | _ =>
    obtain rfl := hkeep rfl
    simp only [exec, exprValue, h₁, h₂]

theorem readOpt_used {i' : Insn} (h : Substituted t i i') (hv : Valid env t s)
    (hh : Harmless env t i) : readOpt env s.regs i'.src1 = readOpt env s.regs i.src1 ∧
      readOpt env s.regs i'.src2 = readOpt env s.regs i.src2 ∧
      readOpt env s.regs i'.dst = readOpt env s.regs i.dst := by
  have hmem₁ : i.src1 ∈ usedOperands i := by rw [usedOperands]; split <;> simp
  have hmem₂ : i.src2 ∈ usedOperands i := by rw [usedOperands]; split <;> simp
  refine ⟨h.src1.read hv fun ts r n v ho => hh.used ts r n v (ho ▸ hmem₁),
    h.src2.read hv fun ts r n v ho => hh.used ts r n v (ho ▸ hmem₂), ?_⟩
  have hdst := h.dst
  cases hu : i.op.useDst with
  | false => rw [hu, if_neg Bool.false_ne_true] at hdst; rw [hdst]
  | true =>
    rw [hu, if_pos rfl] at hdst
    have hmem : i.dst ∈ usedOperands i := by rw [usedOperands, hu]; simp
    exact hdst.read hv fun ts r n v ho => hh.used ts r n v (ho ▸ hmem)

theorem Substituted.sameMeaning {i' : Insn} (h : Substituted t i i') (hv : Valid env t s)
    (hh : Harmless env t i) : SameMeaning env s i i' := by
  obtain ⟨h₁, h₂, hdst⟩ := readOpt_used h hv hh
  have hkeep : i.op.useDst = false → i'.dst = i.dst := by
    intro hu
    have := h.dst
    rwa [hu, if_neg Bool.false_ne_true] at this
  have hts : agree i (tsOpt i.src1) (tsOpt i'.src1) := by
    rcases h.src1 with heq | ⟨ts, r, n, v, ho, hr, hv'⟩
    · rw [heq]; unfold agree; split <;> simp
    · rw [ho, hv']; exact hh.typed ts r n v ho hr
  refine ⟨exec_congr h.op h.iasm hkeep hdst h₁ h₂ hts, ?_⟩
  simp only [usedOperands, h.op]
  split <;> simp [h₁, h₂, hdst]

theorem Valid.kill (hv : Valid env t s) {regs : Regs} {s' : State}
    (h : ∀ r, r ∉ regs → s'.regs r = s.regs r) : Valid env (conpsKill t regs) s' := by
  intro r v hr
  rw [conpsKill] at hr
  by_cases hk : r ∈ regs
  · rw [if_pos hk] at hr; exact absurd hr (by simp)
  · rw [if_neg hk] at hr
    rw [h r hk]
    exact hv r v hr

theorem insnCon_eq {d : PseudoReg} {v : Operand} (h : insnCon i = some (d, v)) :
    i.op = .move ∧ i.src1 = some v ∧ operandCon (some v) ∧ ∃ ts n, i.dst = some ⟨ts, .reg d, n⟩ := by
  obtain ⟨op, dst, src1, src2, vol, iasm⟩ := i
  unfold insnCon at h
  split at h
  · rename_i hop hdst hsrc
    split at h
    · rename_i hc
      obtain ⟨rfl, rfl⟩ := Prod.mk.inj (Option.some.inj h)
      exact ⟨hop, hsrc, hc, _, _, hdst⟩
    · exact absurd h (by simp)
  · exact absurd h (by simp)

/-- A constant move. -/
theorem Valid.move (hv : Valid env t s) {d : PseudoReg} {v : Operand}
    (hi : insnCon i = some (d, v)) (hh : Harmless env t i) :
    Valid env (Function.update t d (.con v)) (exec env i s) := by
  obtain ⟨hop, hsrc, hc, ts, n, hdst⟩ := insnCon_eq hi
  have hexec : (exec env i s).regs = Function.update s.regs d (conWord env v) := by
    have hfit := hh.moved d v hi
    rw [hdst] at hfit
    simp only [exec, hop, hsrc, hdst, exprValue, State.write, readOpt, conWord_eq hc]
    rw [show fit ts (conWord env v) = conWord env v from hfit]
  intro r w hr
  rw [hexec]
  by_cases hd : r = d
  · subst hd
    rw [Function.update_self] at hr ⊢
    obtain rfl := Conp.con.inj hr
    exact ⟨hc, rfl⟩
  · rw [Function.update_of_ne hd] at hr ⊢
    exact hv r w hr

theorem localInsn_sound (hv : Valid env t s) (hh : Harmless env t i) :
    SameMeaning env s i (localInsn t i).2 ∧ Valid env (localInsn t i).1 (exec env i s) := by
  cases hi : insnCon i with
  | some x =>
    rw [localInsn, hi]
    exact ⟨⟨rfl, rfl⟩, hv.move hi hh⟩
  | none =>
    have hsub := substituted_substitute (fun r v hr => (hv r v hr).1) i
    rw [localInsn, hi]
    refine ⟨hsub.sameMeaning hv hh, hv.kill fun r hr => exec_regs_of_notMem env ?_⟩
    rwa [hsub.insnDefsRegs] at hr

/-- A block whose steps are harmless. -/
theorem localInsns_sound : ∀ {l : List Insn} {t : Conps} {s : State}, Valid env t s →
    AllHarmless env t l → Sound env t l s
  | [], _, _, hv, _ => hv
  | _ :: _, _, _, hv, ⟨hi, hl⟩ =>
    ⟨hv, (localInsn_sound hv hi).1, localInsns_sound (localInsn_sound hv hi).2 hl⟩

/-- At the end of a block the table is right, and the block left behind had the same effect. -/
theorem Sound.exit : ∀ {l : List Insn} {t : Conps} {s : State}, Sound env t l s →
    Valid env (localInsns t l).1 (execs env l s) ∧
      execs env (localInsns t l).2 s = execs env l s
  | [], _, _, h => ⟨h, rfl⟩
  | i :: l, t, s, ⟨_, hi, hl⟩ => by
      obtain ⟨hvalid, hexecs⟩ := hl.exit
      refine ⟨hvalid, ?_⟩
      have heff : exec env (localInsn t i).2 s = exec env i s := hi.1
      rw [localInsns, execs_cons, heff, hexecs, execs_cons]

end

/-! ### Rewriting the blocks -/

theorem localBlocks_graph (f : Func) (start : BlockId → Conps) :
    SameGraph f (localBlocks f start) ∧ (localBlocks f start).blocks = f.blocks := by
  unfold localBlocks
  suffices h : ∀ (l : List BlockId) (g : Func), SameGraph f g ∧ g.blocks = f.blocks →
      SameGraph f (l.foldl (fun g b => g.setInsns b (localInsns (start b) (f.block b).insns).2) g) ∧
        (l.foldl (fun g b => g.setInsns b (localInsns (start b) (f.block b).insns).2) g).blocks =
          f.blocks from
    h f.blocks f ⟨SameGraph.refl f, rfl⟩
  intro l
  induction l with
  | nil => exact fun _ h => h
  | cons b l ih => exact fun g h => ih _ ⟨h.1.trans (SameGraph.setInsns ..), h.2⟩

theorem localBlocks_insns (f : Func) (start : BlockId → Conps) {b : BlockId} (hb : b ∈ f.blocks) :
    ((localBlocks f start).block b).insns = (localInsns (start b) (f.block b).insns).2 := by
  unfold localBlocks
  have hfold : ∀ (l : List BlockId) (g : Func), b ∈ l ∨
      (g.block b).insns = (localInsns (start b) (f.block b).insns).2 →
        ((l.foldl (fun g b => g.setInsns b (localInsns (start b) (f.block b).insns).2) g).block
          b).insns = (localInsns (start b) (f.block b).insns).2 := by
    intro l
    induction l with
    | nil => exact fun _ h => h.resolve_left List.not_mem_nil
    | cons c l ih =>
      intro g h
      rw [List.foldl_cons]
      refine ih _ ?_
      rw [Func.insns_setInsns]
      by_cases hc : b = c
      · subst hc; exact .inr (if_pos rfl)
      · rw [if_neg hc]
        exact h.imp_left fun hm => (List.mem_cons.mp hm).resolve_left hc
  exact hfold _ f (.inl hb)

/-! ### The iteration -/

section
variable {f : Func} {defs : Regs} {kill : BlockId → Regs} {gen : BlockId → Conps}

/-- The tables of the entry block, which the iteration leaves alone. -/
def EntryTables (f : Func) (st st' : PropState) : Prop :=
  st'.inn f.entry = st.inn f.entry ∧ st'.out f.entry = st.out f.entry

/-- The tables of a block are stable. -/
def Stable (f : Func) (defs : Regs) (kill : BlockId → Regs) (gen : BlockId → Conps) (st : PropState)
    (b : BlockId) : Prop :=
  b ≠ f.entry → st.inn b = mergePreds f defs st.out b ∧
    conpsSame defs (transfer kill gen (st.inn b) b) (st.out b)

theorem prop0_of_ne {b : BlockId} (hb : b ≠ f.entry) (st : PropState) :
    prop0 f defs kill gen st b =
      if conpsSame defs (transfer kill gen (mergePreds f defs st.out b) b) (st.out b) then
        (⟨Function.update st.inn b (mergePreds f defs st.out b), st.out⟩, false)
      else
        (⟨Function.update st.inn b (mergePreds f defs st.out b),
          Function.update st.out b (transfer kill gen (mergePreds f defs st.out b) b)⟩, true) :=
  if_neg hb

theorem prop0_entry (st : PropState) (b : BlockId) :
    EntryTables f st (prop0 f defs kill gen st b).1 := by
  by_cases hb : b = f.entry
  · rw [prop0, if_pos hb]; exact ⟨rfl, rfl⟩
  · rw [prop0_of_ne hb]
    split
    · exact ⟨Function.update_of_ne (Ne.symm hb) .., rfl⟩
    · exact ⟨Function.update_of_ne (Ne.symm hb) .., Function.update_of_ne (Ne.symm hb) ..⟩

/-- A block whose OUT table did not change is stable. -/
theorem prop0_stable {st : PropState} {b : BlockId}
    (h : (prop0 f defs kill gen st b).2 = false) :
    (prop0 f defs kill gen st b).1.out = st.out ∧
      Stable f defs kill gen (prop0 f defs kill gen st b).1 b ∧
      ∀ c, c ≠ b → (prop0 f defs kill gen st b).1.inn c = st.inn c := by
  by_cases hb : b = f.entry
  · rw [prop0, if_pos hb]
    exact ⟨rfl, fun hne => absurd hb hne, fun _ _ => rfl⟩
  · rw [prop0_of_ne hb] at h ⊢
    split at h
    · rename_i hsame
      rw [if_pos hsame]
      refine ⟨rfl, fun _ => ?_, fun c hc => Function.update_of_ne hc ..⟩
      simp only [Function.update_self]
      exact ⟨trivial, hsame⟩
    · exact absurd h (by simp)

theorem propPass_entry : ∀ (l : List BlockId) (st : PropState),
    EntryTables f st (propPass f defs kill gen st l).1
  | [], _ => ⟨rfl, rfl⟩
  | b :: l, st => by
      have hb : EntryTables f st (prop0 f defs kill gen st b).1 := prop0_entry st b
      have hl := propPass_entry l (prop0 f defs kill gen st b).1
      exact ⟨hl.1.trans hb.1, hl.2.trans hb.2⟩

theorem propPass_stable : ∀ (l : List BlockId) (st : PropState),
    (propPass f defs kill gen st l).2 = false →
      (propPass f defs kill gen st l).1.out = st.out ∧
      (∀ b ∈ l, Stable f defs kill gen (propPass f defs kill gen st l).1 b) ∧
      ∀ b, b ∉ l → (propPass f defs kill gen st l).1.inn b = st.inn b
  | [], _, _ => ⟨rfl, by simp, fun _ _ => rfl⟩
  | b :: l, st, h => by
      obtain ⟨hb, hl⟩ : (prop0 f defs kill gen st b).2 = false ∧
          (propPass f defs kill gen (prop0 f defs kill gen st b).1 l).2 = false := by
        simpa [propPass] using h
      obtain ⟨hout, hst, hinn⟩ := prop0_stable hb
      obtain ⟨hout', hst', hinn'⟩ := propPass_stable l _ hl
      rw [propPass]
      refine ⟨hout'.trans hout, fun c hc => ?_, fun c hc => ?_⟩
      · by_cases hcl : c ∈ l
        · exact hst' c hcl
        · obtain rfl := (List.mem_cons.mp hc).resolve_right hcl
          intro hne
          rw [hinn' c hcl, hout']
          exact hst hne
      · obtain ⟨hcb, hcl⟩ := not_or.mp (mt List.mem_cons.mpr hc)
        rw [hinn' c hcl, hinn c hcb]

/-- When the iteration ends every block is stable. -/
theorem propIter_stable : ∀ {n : Nat} {st₀ st : PropState},
    propIter f defs kill gen n st₀ = some st →
      EntryTables f st₀ st ∧ ∀ b ∈ f.blocks, Stable f defs kill gen st b
  | 0, _, _, h => absurd h (by simp [propIter])
  | n + 1, st₀, st, h => by
      rw [propIter] at h
      have hentry : EntryTables f st₀ (propPass f defs kill gen st₀ f.blocks).1 :=
        propPass_entry f.blocks st₀
      cases hflag : (propPass f defs kill gen st₀ f.blocks).2 with
      | true =>
        simp only [hflag, if_true] at h
        obtain ⟨⟨hi, ho⟩, hst⟩ := propIter_stable h
        exact ⟨⟨hi.trans hentry.1, ho.trans hentry.2⟩, hst⟩
      | false =>
        simp only [hflag, Bool.false_eq_true, if_false] at h
        obtain rfl := Option.some.inj h
        exact ⟨hentry, (propPass_stable f.blocks st₀ hflag).2.1⟩

end

/-! ### Merging -/

/-- The constant `w` is merged into `v`. -/
def Absorbs (v w : Operand) : Prop := w = v ∨ operandIsSame (some v) (some w)

/-- Every table a constant was merged from agrees with it, and something known stays known. -/
theorem conpMerge_con {a b : Conp} {v : Operand} (h : conpMerge a b = .con v) :
    (a = .con v ∧ (b = .dunno ∨ ∃ w, b = .con w ∧ Absorbs v w)) ∨ (a = .dunno ∧ b = .con v) := by
  cases a with
  | nac => exact absurd h (by simp [conpMerge])
  | dunno =>
    cases b with
    | dunno => exact absurd h (by simp [conpMerge])
    | nac => exact absurd h (by simp [conpMerge])
    | con w => exact .inr ⟨rfl, h⟩
  | con u =>
    cases b with
    | dunno => exact .inl ⟨h, .inl rfl⟩
    | nac => exact absurd h (by simp [conpMerge])
    | con w =>
      simp only [conpMerge] at h
      split at h
      · rename_i hsame
        obtain rfl := Conp.con.inj h
        exact .inl ⟨rfl, .inr ⟨w, rfl, .inr hsame⟩⟩
      · exact absurd h (by simp)

theorem conpMerge_known {a b : Conp} (h : a ≠ .dunno ∨ b ≠ .dunno) : conpMerge a b ≠ .dunno := by
  cases a with
  | nac => simp [conpMerge]
  | dunno =>
    cases b with
    | dunno => simp at h
    | nac => simp [conpMerge]
    | con w => simp [conpMerge]
  | con u =>
    cases b with
    | dunno => simp [conpMerge]
    | nac => simp [conpMerge]
    | con w => simp only [conpMerge]; split <;> simp

section
variable {f : Func} {defs : Regs} {out : BlockId → Conps} {b p : BlockId} {r : PseudoReg}

/-- What a constant of the merged table says of the table of each predecessor. -/
theorem mergePreds_con {v : Operand} (h : mergePreds f defs out b r = .con v)
    (hp : p ∈ (f.block b).predecessors) :
    r ∈ defs ∧ (contributed (out p) (conditional f b p) r = .dunno ∨
      ∃ w, contributed (out p) (conditional f b p) r = .con w ∧ Absorbs v w) := by
  have hfold : ∀ (l : List BlockId) (t : Conps),
      l.foldl (fun t p => conpsMerge defs t (out p) (conditional f b p)) t r = .con v → r ∈ defs →
        (t r = .dunno ∨ t r = .con v) ∧ ∀ p ∈ l,
          contributed (out p) (conditional f b p) r = .dunno ∨
            ∃ w, contributed (out p) (conditional f b p) r = .con w ∧ Absorbs v w := by
    intro l
    induction l with
    | nil => exact fun t h _ => ⟨.inr h, by simp⟩
    | cons q l ih =>
      intro t h hr
      obtain ⟨ht, hl⟩ := ih _ h hr
      simp only [conpsMerge, if_pos hr] at ht
      rcases ht with ht | ht
      · have hnot : ¬ (t r ≠ .dunno ∨ contributed (out q) (conditional f b q) r ≠ .dunno) :=
          fun hne => conpMerge_known hne ht
        obtain ⟨ht₀, hq⟩ := not_or.mp hnot
        refine ⟨.inl (not_not.mp ht₀), fun p hp => ?_⟩
        rcases List.mem_cons.mp hp with rfl | hp
        · exact .inl (not_not.mp hq)
        · exact hl p hp
      · rcases conpMerge_con ht with ⟨ht₀, hq⟩ | ⟨ht₀, hq⟩
        · refine ⟨.inr ht₀, fun p hp => ?_⟩
          rcases List.mem_cons.mp hp with rfl | hp
          · exact hq
          · exact hl p hp
        · refine ⟨.inl ht₀, fun p hp => ?_⟩
          rcases List.mem_cons.mp hp with rfl | hp
          · exact .inr ⟨v, hq, .inl rfl⟩
          · exact hl p hp
  have hdefs : r ∈ defs := by
    by_contra hr
    have hkeep : ∀ (l : List BlockId) (t : Conps),
        l.foldl (fun t p => conpsMerge defs t (out p) (conditional f b p)) t r = t r := by
      intro l
      induction l with
      | nil => exact fun _ => rfl
      | cons q l ih => exact fun t => (ih _).trans (if_neg hr)
    rw [mergePreds, hkeep] at h
    exact absurd h (by simp [conpsNew])
  exact ⟨hdefs, (hfold _ _ h hdefs).2 p hp⟩

/-- What a predecessor knows is known after the merge. -/
theorem mergePreds_known (hr : r ∈ defs) (hp : p ∈ (f.block b).predecessors)
    (h : contributed (out p) (conditional f b p) r ≠ .dunno) :
    mergePreds f defs out b r ≠ .dunno := by
  have hfold : ∀ (l : List BlockId) (t : Conps), (t r ≠ .dunno ∨ p ∈ l) →
      l.foldl (fun t p => conpsMerge defs t (out p) (conditional f b p)) t r ≠ .dunno := by
    intro l
    induction l with
    | nil => exact fun t ht => ht.resolve_right List.not_mem_nil
    | cons q l ih =>
      intro t ht
      refine ih _ ?_
      simp only [conpsMerge, if_pos hr]
      rcases ht with ht | ht
      · exact .inl (conpMerge_known (.inl ht))
      · rcases List.mem_cons.mp ht with rfl | ht
        · exact .inl (conpMerge_known (.inr h))
        · exact .inr ht
  exact hfold _ _ (.inr hp)

end

/-! ### Propagation is sound -/

section
variable (env : Env)

/-- Where a comparison tells that a register is equal to a constant, and control goes on in the
    state `s`: control takes the Z edge; register and constant are compared at one type; and the
    register holds an integer of that type, or the very bits of a floating constant. -/
structure Decided (x : Block) (s : State) (r : PseudoReg) (v : Operand) : Prop where
  taken : .z ∈ s.ccs
  types : ∀ i, x.insns.getLast? = some i → tsOpt i.src1 = tsOpt i.src2
  whole : if v.ts.floating then s.regs r = conWord env v else fit v.ts (s.regs r) = s.regs r

/-- Constants that are taken for the same are not zeros of different sign. -/
def OneZero (v w : Operand) : Prop :=
  operandIsSame (some v) (some w) → v.ts.floating → v.val = w.val

/-- Control goes harmlessly from `b` to `c`, in the state `s`. -/
structure HarmlessEdge (f : Func) (st : PropState) (b c : BlockId) (s : State) : Prop where
  decided : ∀ r v, conditional (gen f) c b = some (r, v) → Decided env ((gen f).block b) s r v
  settled : ∀ r v w, transfer (killSets f) (genTable f) (st.inn b) b r = .con v →
    st.out b r = .con w → OneZero v w
  merged : ∀ r v w, st.inn c r = .con v →
    contributed (st.out b) (conditional (gen f) c b) r = .con w → OneZero v w

/-- All steps of a run are harmless, before `gen0` and before `rewrite0`, and so are the edges it
    takes. -/
structure HarmlessRun (f : Func) (st : PropState) (s₀ : State) : Prop where
  gen0 : ∀ path b s, Reach env f s₀ path b s → AllHarmless env conpsNew (f.block b).insns
  rewrite0 : ∀ path b s, Reach env f s₀ path b s →
    AllHarmless env (st.inn b) ((gen f).block b).insns
  edges : ∀ path b s c, Reach env f s₀ path b s → Goes env f b s c →
    HarmlessEdge env f st b c (execs env (f.block b).insns s)

end

section
variable {env : Env} {f : Func} {st : PropState} {s : State} {b c : BlockId} {r : PseudoReg}
variable {v w : Operand}

theorem operandCon_of_same (h : operandIsSame (some v) (some w)) (hw : operandCon (some w)) :
    operandCon (some v) := by
  obtain ⟨vts, vval, vn⟩ := v
  obtain ⟨wts, wval, wn⟩ := w
  cases wval with
  | reg r => exact absurd hw (by simp [operandCon])
  | con k sym =>
    cases vval with
    | con => rfl
    | reg q => exact absurd h (by simp [operandIsSame])

/-- Constants that are the same denote the same, but for the sign of a zero. -/
theorem conWord_of_same (h : operandIsSame (some v) (some w)) (hz : OneZero v w) :
    conWord env v = conWord env w := by
  have hval := hz h
  obtain ⟨vts, vval, vn⟩ := v
  obtain ⟨wts, wval, wn⟩ := w
  have hts : vts = wts := by
    by_contra hne
    simp [operandIsSame, hne] at h
  subst hts
  cases hfl : vts.floating with
  | true => obtain rfl : vval = wval := hval hfl; rfl
  | false =>
    cases vval <;> cases wval <;> simp_all [operandIsSame, conWord, Operand.read]

theorem conWord_of_absorbs (h : Absorbs v w) (hz : OneZero v w) : conWord env v = conWord env w := by
  rcases h with rfl | h
  · rfl
  · exact conWord_of_same h hz

theorem conditional_spec {g : Func} (h : conditional g c b = some (r, v)) :
    ∃ i ts n, (g.block b).insns.getLast? = some i ∧ i.op = .cmp ∧ operandCon (some v) ∧
      ((i.src1 = some ⟨ts, .reg r, n⟩ ∧ i.src2 = some v) ∨
        (i.src1 = some v ∧ i.src2 = some ⟨ts, .reg r, n⟩)) := by
  unfold conditional at h
  split at h
  · rename_i succ i _ hlast
    split at h
    · exact absurd h (by simp)
    · rename_i hno
      have hop : i.op = .cmp := by
        by_contra hne
        exact hno (by simp [hne])
      simp only at h
      split at h
      · rename_i vts k sym vn ts q n hsrc hdst
        obtain ⟨rfl, rfl⟩ := Prod.mk.inj (Option.some.inj h)
        by_cases hc : operandCon i.src2
        · rw [if_pos hc] at hsrc hdst
          exact ⟨i, ts, n, hlast, hop, rfl, .inl ⟨hdst, hsrc⟩⟩
        · rw [if_neg hc] at hsrc hdst
          exact ⟨i, ts, n, hlast, hop, rfl, .inr ⟨hsrc, hdst⟩⟩
      · exact absurd h (by simp)
  · exact absurd h (by simp)

/-- Integers of one type that compare equal are equal. -/
theorem eq_of_cmp {ts : TypeBits} (hts : ts.floating = false) {a b : Word} (ha : fit ts a = a)
    (hb : fit ts b = b) (h : .z ∈ cmpCodes env ts a b) : a = b := by
  have hlow : a.setWidth (8 * ts.sizeof) = b.setWidth (8 * ts.sizeof) := by
    rw [cmpCodes, hts, if_neg Bool.false_ne_true] at h
    exact beq_iff_eq.mp (Finset.mem_filter.mp h).2
  rw [← ha, ← hb, ← fit_setWidth ts a, hlow, fit_setWidth]

/-- Past a comparison that decides it, the register is the constant. -/
theorem Decided.eq {x : Block} {i : Insn} {ts : TypeBits} {n : ValueNumber} (s₀ : State)
    (hd : Decided env x (execs env x.insns s₀) r v)
    (hlast : x.insns.getLast? = some i) (hop : i.op = .cmp) (hc : operandCon (some v))
    (hi : (i.src1 = some ⟨ts, .reg r, n⟩ ∧ i.src2 = some v) ∨
      (i.src1 = some v ∧ i.src2 = some ⟨ts, .reg r, n⟩)) :
    (execs env x.insns s₀).regs r = conWord env v := by
  obtain ⟨htaken, htypes, hwhole⟩ := hd
  cases hfl : v.ts.floating with
  | true => rwa [hfl, if_pos rfl] at hwhole
  | false =>
    rw [hfl, if_neg Bool.false_ne_true] at hwhole
    obtain ⟨l, hl⟩ := List.getLast?_eq_some_iff.mp hlast
    have hexec : execs env x.insns s₀ = { execs env l s₀ with
        ccs := cmpCodes env (tsOpt i.src1) (readOpt env (execs env l s₀).regs i.src1)
          (readOpt env (execs env l s₀).regs i.src2) } := by
      rw [hl, execs_append, execs_cons, execs_nil]
      simp only [exec, hop]
    rw [hexec] at htaken hwhole ⊢
    have hv : fit v.ts (conWord env v) = conWord env v := fit_readOpt env _ (some v)
    have hreg : readOpt env (execs env l s₀).regs (some ⟨v.ts, .reg r, n⟩) =
        (execs env l s₀).regs r := hwhole
    have hcon : readOpt env (execs env l s₀).regs (some v) = conWord env v := conWord_eq hc _
    have htypes := htypes i hlast
    rcases hi with ⟨h₁, h₂⟩ | ⟨h₁, h₂⟩
    · rw [h₁, h₂] at htaken htypes
      obtain rfl : ts = v.ts := htypes
      rw [hreg, hcon] at htaken
      exact eq_of_cmp hfl hwhole hv htaken
    · rw [h₁, h₂] at htaken htypes
      obtain rfl : v.ts = ts := htypes
      rw [hreg, hcon] at htaken
      exact (eq_of_cmp hfl hv hwhole htaken).symm

/-- The table knows about every register of the map. -/
def Known (defs : Regs) (t : Conps) : Prop := ∀ r ∈ defs, t r ≠ .dunno

theorem conpSame_known {a b : Conp} (h : conpSame a b) (ha : a ≠ .dunno) : b ≠ .dunno := by
  cases a <;> cases b <;> simp_all [conpSame]

theorem conpSame_con {a : Conp} (h : conpSame a (.con w)) :
    ∃ v, a = .con v ∧ operandIsSame (some v) (some w) := by
  cases a with
  | con v => exact ⟨v, rfl, h⟩
  | dunno | nac => exact absurd h (by simp [conpSame])

theorem transfer_known {kill : BlockId → Regs} {gen : BlockId → Conps} {defs : Regs} {inn : Conps}
    (h : Known defs inn) (b : BlockId) : Known defs (transfer kill gen inn b) := by
  intro r hr
  have hinn := h r hr
  simp only [transfer, conpsMergeGen, conpsKill]
  split
  · simp
  · split
    · simp
    · exact hinn

theorem transfer_valid {t : Conps} {s s' : State} (hv : Valid env t s)
    (hgen : Valid env (genTable f b) s')
    (hkeep : ∀ r, r ∉ killSets f b → s'.regs r = s.regs r) :
    Valid env (transfer (killSets f) (genTable f) t b) s' := by
  intro r v hr
  simp only [transfer, conpsMergeGen] at hr
  split at hr
  · rename_i w hw
    obtain rfl := Conp.con.inj hr
    exact hgen r w hw
  · exact hv.kill hkeep r v hr

/-- What holds where control arrives at a block. -/
structure Arrived (env : Env) (f : Func) (st : PropState) (b : BlockId) (s : State) : Prop where
  mem : b ∈ f.blocks
  valid : Valid env (st.inn b) s
  known : b ≠ f.entry → Known (allDefs f) (st.inn b)

variable {n : Nat}

theorem gen_entry (f : Func) : (gen f).entry = f.entry := (localBlocks_graph f _).1.entry

theorem analyze_spec (h : analyze n f = some st) : st.inn f.entry = conpsNew ∧
    st.out f.entry = conpsKill conpsNew (allDefs f) ∧ ∀ b ∈ f.blocks,
      Stable (gen f) (allDefs f) (killSets f) (genTable f) st b := by
  obtain ⟨⟨hi, ho⟩, hst⟩ := propIter_stable h
  rw [gen_entry] at hi ho
  refine ⟨hi, ?_, fun b hb => hst b ?_⟩
  · rw [ho]; exact if_pos rfl
  · rw [gen, (localBlocks_graph f _).2]; exact hb

/-- What the OUT table of a block says when the block has been executed. -/
theorem out_sound (h : analyze n f = some st) (ha : Arrived env f st b s)
    (hgen : AllHarmless env conpsNew (f.block b).insns) (hr : r ∈ allDefs f)
    (hz : ∀ v w, transfer (killSets f) (genTable f) (st.inn b) b r = .con v →
      st.out b r = .con w → OneZero v w) :
    st.out b r ≠ .dunno ∧ ∀ w, st.out b r = .con w →
      operandCon (some w) ∧ (execs env (f.block b).insns s).regs r = conWord env w := by
  obtain ⟨_, hentry, hst⟩ := analyze_spec h
  by_cases hb : b = f.entry
  · subst hb
    have hnac : st.out f.entry r = .nac := by rw [hentry, conpsKill, if_pos hr]
    rw [hnac]
    exact ⟨by simp, fun w hw => absurd hw (by simp)⟩
  · obtain ⟨_, hsame⟩ := hst b ha.mem (by rw [gen_entry]; exact hb)
    have hsame := List.all_eq_true.mp hsame r hr
    have hempty : Valid env conpsNew s := fun r v hr => absurd hr (by simp [conpsNew])
    have hvalid := transfer_valid ha.valid (localInsns_sound hempty hgen).exit.1 fun q hq =>
      execs_regs_of_not_kill fun i hi hd => hq (mem_kill.mpr ⟨i, hi, hd⟩)
    refine ⟨conpSame_known hsame (transfer_known (ha.known hb) b r hr), fun w hw => ?_⟩
    rw [hw] at hsame
    obtain ⟨v, hv, hvw⟩ := conpSame_con hsame
    obtain ⟨hc, hregs⟩ := hvalid r v hv
    refine ⟨?_, hregs.trans (conWord_of_same hvw (hz v w hv hw))⟩
    obtain ⟨wts, _ | q, wn⟩ := w
    · rfl
    · obtain ⟨vts, _ | _, vn⟩ := v
      · exact absurd hvw (by simp [operandIsSame])
      · exact absurd hc (by simp [operandCon])

/-- One step of a run, from block to block. -/
theorem Arrived.step (h : analyze n f = some st) (hf : f.Closed) (ha : Arrived env f st b s)
    (hgo : Goes env f b s c) (hgen : AllHarmless env conpsNew (f.block b).insns)
    (he : HarmlessEdge env f st b c (execs env (f.block b).insns s)) :
    Arrived env f st c (execs env (f.block b).insns s) := by
  obtain ⟨hentry, _, hst⟩ := analyze_spec h
  have hedge : c ∈ f.succs b := branch_mem hgo
  have hc : c ∈ f.blocks := hf.2 b ha.mem c hedge
  by_cases hce : c = f.entry
  · subst hce
    exact ⟨hc, fun r v hr => absurd hr (by rw [hentry]; simp [conpsNew]), fun hne => absurd rfl hne⟩
  · obtain ⟨hinn, _⟩ := hst c hc (by rw [gen_entry]; exact hce)
    have hpred : b ∈ ((gen f).block c).predecessors := by
      rw [gen, (localBlocks_graph f _).1.predecessors]; exact Func.mem_preds.mpr hedge
    have hempty : Valid env conpsNew s := fun r v hr => absurd hr (by simp [conpsNew])
    have hexecs : execs env ((gen f).block b).insns s = execs env (f.block b).insns s := by
      rw [gen, localBlocks_insns f _ ha.mem]
      exact (localInsns_sound hempty hgen).exit.2
    -- what the predecessor contributes is known, and right
    have hcontr : ∀ r ∈ allDefs f, contributed (st.out b) (conditional (gen f) c b) r ≠ .dunno ∧
        ∀ w, contributed (st.out b) (conditional (gen f) c b) r = .con w →
          operandCon (some w) ∧ (execs env (f.block b).insns s).regs r = conWord env w := by
      intro r hr
      have hout := out_sound h ha hgen hr (he.settled r)
      cases hcond : conditional (gen f) c b with
      | none => exact hout
      | some x =>
        obtain ⟨reg, v⟩ := x
        simp only [contributed]
        by_cases hreg : r = reg
        · subst hreg
          rw [if_pos rfl]
          refine ⟨by simp, fun w hw => ?_⟩
          obtain rfl := Conp.con.inj hw
          obtain ⟨i, ts, k, hlast, hop, hcon, hi⟩ := conditional_spec hcond
          have hd := he.decided r v hcond
          rw [← hexecs] at hd ⊢
          exact ⟨hcon, hd.eq s hlast hop hcon hi⟩
        · rw [if_neg hreg]; exact hout
    refine ⟨hc, fun r v hr => ?_, fun _ r hr => ?_⟩
    · obtain ⟨hdefs, hw⟩ := mergePreds_con (hinn ▸ hr) hpred
      rcases hw with hd | ⟨w, hw, habs⟩
      · exact absurd hd (hcontr r hdefs).1
      · obtain ⟨hcon, hregs⟩ := (hcontr r hdefs).2 w hw
        refine ⟨?_, hregs.trans (conWord_of_absorbs habs (he.merged r v w hr hw)).symm⟩
        rcases habs with rfl | hsame
        · exact hcon
        · exact operandCon_of_same hsame hcon
    · rw [hinn]
      exact mergePreds_known hr hpred (hcontr r hr).1

theorem Arrived.reach {s₀ : State} (h : analyze n f = some st) (hf : f.Closed)
    (hrun : HarmlessRun env f st s₀) {path : List BlockId} (hr : Reach env f s₀ path b s) :
    Arrived env f st b s := by
  induction hr with
  | entry =>
    refine ⟨hf.1, fun r v hr => ?_, fun hne => absurd rfl hne⟩
    rw [(analyze_spec h).1] at hr
    exact absurd hr (by simp [conpsNew])
  | step hr hgo ih =>
    exact ih.step h hf hgo (hrun.gen0 _ _ _ hr) (hrun.edges _ _ _ _ hr hgo)

end

/-- In the runs whose steps are harmless, the tables are right and the operands that `local` replaces
    denote the same, in `gen0` and in `rewrite0`; and the function runs as before. -/
theorem prop_sound (env : Env) (f : Func) (n : Nat) (st : PropState) (s₀ : State) (hf : f.Closed)
    (hst : analyze n f = some st) (h : HarmlessRun env f st s₀) (path : List BlockId) (b : BlockId)
    (s : State) :
    (Reach env (rewrite f st) s₀ path b s ↔ Reach env f s₀ path b s) ∧
      (Reach env f s₀ path b s → Sound env conpsNew (f.block b).insns s ∧
        Sound env (st.inn b) ((gen f).block b).insns s) := by
  have hsound : ∀ path b s, Reach env f s₀ path b s → b ∈ f.blocks ∧
      Sound env conpsNew (f.block b).insns s ∧ Sound env (st.inn b) ((gen f).block b).insns s := by
    intro path b s hr
    have ha := Arrived.reach hst hf h hr
    have hempty : Valid env conpsNew s := fun r v hr => absurd hr (by simp [conpsNew])
    exact ⟨ha.mem, localInsns_sound hempty (h.gen0 _ _ _ hr),
      localInsns_sound ha.valid (h.rewrite0 _ _ _ hr)⟩
  refine ⟨?_, fun hr => (hsound path b s hr).2⟩
  have hgraph : SameGraph f (rewrite f st) :=
    (localBlocks_graph f _).1.trans (localBlocks_graph (gen f) _).1
  refine hgraph.reach_iff fun path b s hr => ?_
  obtain ⟨hb, hgen, hrew⟩ := hsound path b s hr
  have hb' : b ∈ (gen f).blocks := by rw [gen, (localBlocks_graph f _).2]; exact hb
  calc execs env ((rewrite f st).block b).insns s
      = execs env ((gen f).block b).insns s := by
        rw [rewrite, localBlocks_insns _ _ hb']; exact hrew.exit.2
    _ = execs env (f.block b).insns s := by
        rw [gen, localBlocks_insns _ _ hb]; exact hgen.exit.2

/-- `x = 300; c = x; j = c` with a narrow `c`: the table records 300 for `c`, which holds 44. -/
def narrowBlock : List Insn :=
  [insnNew .move (operandReg .int 1) (operandI .int 300 none),
    insnNew .move (operandReg .schar 2) (operandReg .schar 1),
    insnNew .cast (operandReg .int 3) (operandReg .schar 2)]

theorem prop_narrow : ¬ ∀ (env : Env) (f : Func) (n : Nat) (st : PropState) (s₀ : State)
    (path : List BlockId) (b : BlockId) (s : State), f.Closed → analyze n f = some st →
      Reach env f s₀ path b s → Sound env conpsNew (f.block b).insns s ∧
        Sound env (st.inn b) ((gen f).block b).insns s := by
  intro h
  obtain ⟨st, hst⟩ : ∃ st, analyze 1 (straight narrowBlock) = some st :=
    Option.isSome_iff_exists.mp (by decide)
  obtain ⟨_, hs⟩ := h default _ 1 st default [] 0 default (closed_straight _) hst Reach.entry
  have hinn : st.inn 0 = conpsNew := (analyze_spec hst).1
  rw [hinn] at hs
  -- the last insn has become a cast of 300
  have heff := hs.2.2.2.2.2.1.1
  have hj := congrFun (congrArg State.regs heff) 3
  revert hj
  decide

/-- `x = 5; y = x`. -/
def constBlock : List Insn :=
  [insnNew .move (operandReg .int 1) (operandI .int 5 none),
    insnNew .move (operandReg .int 2) (operandReg .int 1)]

theorem prop_sound_const : ∃ st, analyze 1 (straight constBlock) = some st ∧
    (Reach default (rewrite (straight constBlock) st) default [] 0 default ↔
      Reach default (straight constBlock) default [] 0 default) ∧
    (Reach default (straight constBlock) default [] 0 default →
      Sound default conpsNew ((straight constBlock).block 0).insns default ∧
        Sound default (st.inn 0) ((gen (straight constBlock)).block 0).insns default) := by
  have hno : ∀ b c, c ∉ ((straight constBlock).block b).succs := by
    intro b c hc
    rw [succs_straight] at hc
    exact absurd hc List.not_mem_nil
  obtain ⟨st, hst⟩ : ∃ st, analyze 1 (straight constBlock) = some st :=
    Option.isSome_iff_exists.mp (by decide)
  have hinn : st.inn 0 = conpsNew := (analyze_spec hst).1
  have hreach : ∀ path b s, Reach default (straight constBlock) default path b s → b = 0 := by
    intro path b s hr
    cases hr with
    | entry => rfl
    | step _ hgo => exact absurd (branch_mem hgo) (hno _ _)
  have hmove : ∀ (t : Conps) (d : PseudoReg), Harmless default t
      (insnNew .move (operandReg .int d) (operandI .int 5 none)) := by
    intro t d
    refine ⟨fun d v hv => ?_, fun ts r n v ho => ?_, fun ts r n v ho => ?_⟩
    · obtain ⟨rfl, rfl⟩ := Prod.mk.inj (Option.some.inj hv)
      exact fit_readOpt default _ (operandI .int 5 none)
    · simp [usedOperands, insnNew, InsnOp.useDst, operandI] at ho
    · simp [insnNew, operandI] at ho
  have hcopy : Harmless default (Function.update conpsNew 1 (.con (operandI .int 5 none)))
      (insnNew .move (operandReg .int 2) (operandReg .int 1)) := by
    refine ⟨fun d v hv => absurd hv (by simp [insnCon, insnNew, operandReg, operandCon]),
      fun ts r n v ho hc => ?_, fun ts r n v _ _ => rfl⟩
    obtain ⟨rfl, rfl, rfl⟩ : ts = .int ∧ r = 1 ∧ n = 0 := by
      simpa [usedOperands, insnNew, InsnOp.useDst, operandReg] using ho
    rw [Function.update_self] at hc
    obtain rfl := Conp.con.inj hc
    decide
  refine ⟨st, hst, prop_sound default _ 1 st default (closed_straight _)
    hst ⟨fun path b s hr => ?_, fun path b s hr => ?_, fun _ b _ c _ hgo => ?_⟩ [] 0 default⟩
  · obtain rfl := hreach path b s hr
    exact ⟨hmove _ 1, hcopy, trivial⟩
  · obtain rfl := hreach path b s hr
    rw [hinn]
    exact ⟨hmove _ 1, hmove _ 2, trivial⟩
  · exact absurd (branch_mem hgo) (hno b c)

end Ncc.ConstProp
