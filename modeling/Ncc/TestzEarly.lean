import Ncc.Trace

/-! Redundant tests against zero in target-independent code (`testz_early`, testz.c).

    `early0` remembers which registers hold the result of a SETcc. When one of them is compared with
    zero, the SET_Z or SET_NZ after the comparison is rewritten and swapped with it, and the scan
    starts over. All of the scans together are one pass over the block (`earlyPass`). The result is
    the same block unless a SET_Z writes the very register under test and the codes of the comparison,
    which now tests the new value, are used again. -/

namespace Ncc.Testz

/-- `setccs`: the registers that hold the result of a SETcc, and its code. -/
abbrev Setccs := PseudoReg → Option ConditionCode

/-- No register. -/
def setccsNew : Setccs := fun _ => none

/-- Forget the registers that the insn DEFs. -/
def setccsUnset (t : Setccs) (insn : Insn) : Setccs :=
  fun r => if r ∈ insnDefsRegs insn then none else t r

/-- The dst of a SETcc holds its result. -/
def setccsInsert (t : Setccs) (insn : Insn) : Setccs :=
  match insn.op, insn.dst with
  | .set cc, some ⟨_, .reg r, _⟩ => Function.update t r (some cc)
  | _, _ => t

/-- A copy is a synonym. -/
def setccsCopy (t : Setccs) (insn : Insn) : Setccs :=
  match insnCopy insn with
  | some (dst, src) => if (t src).isSome then Function.update t dst (t src) else t
  | none => t

/-- What `early0` does to `setccs` before it looks at the test. -/
def setccsNote (t : Setccs) (insn : Insn) : Setccs :=
  setccsCopy (setccsInsert (setccsUnset t insn) insn) insn

/-- `setccs` after an insn that is left as it is. -/
def setccsNext (t : Setccs) (insn : Insn) : Setccs :=
  if insn.op.safeCc then setccsNote t insn else setccsNew

/-- The code of the register that the insn tests against zero. -/
def setccsTested (t : Setccs) (insn : Insn) : Option ConditionCode :=
  (insnTestZ insn).bind (setccsNote t insn)

/-- What `next` becomes when the register under test holds the result of a SETcc. -/
def rewriteSet (cc : ConditionCode) (next : Insn) : Option Insn :=
  match next.op with
  | .set .z => some { next with op := .set cc.invert }
  | .set .nz => some { next with op := .set cc }
  | _ => none

/-- `block_rewrite_zs`: the successors, and whether one was rewritten. -/
def blockRewriteZs (nonzero : ConditionCode) : List Cessor → List Cessor × Bool
  | [] => ([], false)
  | succ :: succs =>
    match succ.cc with
    | .z => ({ succ with cc := nonzero.invert } :: (blockRewriteZs nonzero succs).1, true)
    | .nz => ({ succ with cc := nonzero } :: (blockRewriteZs nonzero succs).1, true)
    | _ => (succ :: succs, false)

/-- What a scan of `early0` does to a block, and whether it starts over. -/
structure Rewritten where
  insns : List Insn
  succs : List Cessor
  restart : Bool
  deriving DecidableEq

/-- With an insn in front. -/
def Rewritten.cons (insn : Insn) (x : Rewritten) : Rewritten := { x with insns := insn :: x.insns }

/-- INSNS_FOREACH in `early0`, up to the first change. -/
def earlyScan (succs : List Cessor) : Setccs → List Insn → Option Rewritten
  | _, [] => none
  | t, insn :: insns =>
    match setccsTested t insn with
    | none => (earlyScan succs (setccsNext t insn) insns).map (Rewritten.cons insn)
    | some cc =>
      match insns with
      | [] =>
        if (blockRewriteZs cc succs).2 then some ⟨[], (blockRewriteZs cc succs).1, false⟩ else none
      | next :: rest =>
        match rewriteSet cc next with
        | some next' => some ⟨next' :: insn :: rest, succs, true⟩
        | none => (earlyScan succs (setccsNext t insn) insns).map (Rewritten.cons insn)

/-- `early0`, with fuel for the scans. -/
def early0 : Nat → List Insn → List Cessor → Option (List Insn × List Cessor)
  | 0, _, _ => none
  | n + 1, insns, succs =>
    match earlyScan succs setccsNew insns with
    | none => some (insns, succs)
    | some x => if x.restart then early0 n x.insns x.succs else some (x.insns, x.succs)

/-! ### One pass -/

/-- All scans of `early0` in one. -/
def earlyPass (succs : List Cessor) (t : Setccs) : List Insn → List Insn × List Cessor
  | [] => ([], succs)
  | [insn] =>
    match setccsTested t insn with
    | some cc =>
      if (blockRewriteZs cc succs).2 then ([], (blockRewriteZs cc succs).1) else ([insn], succs)
    | none => ([insn], succs)
  | insn :: next :: rest =>
    match (setccsTested t insn).bind (rewriteSet · next) with
    | some next' =>
      let x := earlyPass succs (setccsNext t next') (insn :: rest)
      (next' :: x.1, x.2)
    | none =>
      let x := earlyPass succs (setccsNext t insn) (next :: rest)
      (insn :: x.1, x.2)
termination_by l => l.length

section
variable {succs : List Cessor} {t : Setccs} {insn next next' : Insn} {rest : List Insn}
  {cc : ConditionCode}

theorem insnTestZ_op {r : PseudoReg} (h : insnTestZ insn = some r) : insn.op = .cmp := by
  unfold insnTestZ insnTestCon at h
  split at h
  · split at h
    · assumption
    · exact nomatch h
  · exact nomatch h

theorem setccsTested_eq_some (h : setccsTested t insn = some cc) :
    ∃ r, insnTestZ insn = some r ∧ insn.op = .cmp ∧ t r = some cc := by
  obtain ⟨r, hr, hcc⟩ := Option.bind_eq_some_iff.mp h
  have hop := insnTestZ_op hr
  refine ⟨r, hr, hop, ?_⟩
  have hcopy : insnCopy insn = none := by simp only [insnCopy, hop]
  simp only [setccsNote, setccsCopy, setccsInsert, setccsUnset, hcopy, hop] at hcc
  split at hcc
  · exact nomatch hcc
  · exact hcc

theorem setccsNext_of_tested (h : setccsTested t insn = some cc) :
    setccsNext t insn = setccsNew := by
  obtain ⟨r, _, hop, _⟩ := setccsTested_eq_some h
  simp only [setccsNext, hop, InsnOp.safeCc, Bool.false_eq_true, if_false]

theorem setccsTested_of_op (h : insn.op ≠ .cmp) : setccsTested t insn = none := by
  cases ht : setccsTested t insn with
  | none => rfl
  | some cc =>
    obtain ⟨_, _, hop, _⟩ := setccsTested_eq_some ht
    exact absurd hop h

theorem setccsTested_new : setccsTested setccsNew insn = none := by
  cases ht : setccsTested setccsNew insn with
  | none => rfl
  | some cc =>
    obtain ⟨_, _, _, hcc⟩ := setccsTested_eq_some ht
    exact nomatch hcc

theorem rewriteSet_op (h : rewriteSet cc next = some next') :
    ∃ c, next.op = .set c ∧ (c = .z ∨ c = .nz) ∧
      next' = { next with op := .set (if c = .z then cc.invert else cc) } := by
  unfold rewriteSet at h
  split at h
  · rename_i hop
    exact ⟨.z, hop, .inl rfl, (Option.some.inj h).symm⟩
  · rename_i hop
    exact ⟨.nz, hop, .inr rfl, (Option.some.inj h).symm⟩
  · exact nomatch h

theorem rewriteSet_eq_none {c : ConditionCode} (h : rewriteSet c next = none) :
    rewriteSet cc next = none := by
  unfold rewriteSet at h ⊢
  split at h
  · exact nomatch h
  · exact nomatch h
  · rfl

theorem rewriteSet_of_tested {c : ConditionCode} (h : setccsTested t insn = some cc) :
    rewriteSet c insn = none := by
  obtain ⟨_, _, hop, _⟩ := setccsTested_eq_some h
  simp only [rewriteSet, hop]

/-- The insns that `early0` went past without a change leave the table `t`; `tested` says that the
    last of them is a test, which must not be followed by an insn that is swapped with it. -/
def Past (pre : List Insn) (t : Setccs) (tested : Bool) : Prop :=
  (tested = true → t = setccsNew) ∧ ∀ (succs : List Cessor) (insn : Insn) (rest : List Insn),
    (tested = true → ∀ cc, rewriteSet cc insn = none) →
      earlyScan succs setccsNew (pre ++ insn :: rest) =
        (earlyScan succs t (insn :: rest)).map fun x => { x with insns := pre ++ x.insns }

theorem past_nil : Past [] setccsNew false := by
  refine ⟨fun _ => rfl, fun succs insn rest _ => ?_⟩
  rw [List.nil_append]
  cases earlyScan succs setccsNew (insn :: rest) <;> rfl

/-- One more insn without a change. -/
theorem Past.snoc {pre : List Insn} {tested : Bool} (h : Past pre t tested) (insn : Insn)
    (hi : tested = true → ∀ cc, rewriteSet cc insn = none) :
    Past (pre ++ [insn]) (setccsNext t insn) (setccsTested t insn).isSome := by
  refine ⟨fun hs => ?_, fun succs next rest hnext => ?_⟩
  · obtain ⟨cc, hcc⟩ := Option.isSome_iff_exists.mp hs
    exact setccsNext_of_tested hcc
  · rw [List.append_assoc, List.singleton_append, h.2 succs insn (next :: rest) hi]
    have hscan : earlyScan succs t (insn :: next :: rest) =
        (earlyScan succs (setccsNext t insn) (next :: rest)).map (Rewritten.cons insn) := by
      rw [earlyScan]
      cases ht : setccsTested t insn with
      | none => rfl
      | some cc => simp only [hnext (by rw [ht]; rfl)]
    rw [hscan, Option.map_map]
    congr 1
    funext x
    simp only [Function.comp_apply, Rewritten.cons, List.append_assoc, List.singleton_append]

/-- From where it is, `early0` goes on like `earlyPass`. -/
theorem Past.early0 (succs : List Cessor) {tested : Bool} :
    ∀ (rest : List Insn) (insn : Insn) {t : Setccs} {pre : List Insn}, Past pre t tested →
      (tested = true → ∀ cc, rewriteSet cc insn = none) → ∃ N, ∀ n ≥ N,
        early0 n (pre ++ insn :: rest) succs =
          some (pre ++ (earlyPass succs t (insn :: rest)).1, (earlyPass succs t (insn :: rest)).2)
  | [], insn, t, pre, hpast, hopen => by
      refine ⟨1, fun n hn => ?_⟩
      obtain ⟨n, rfl⟩ : ∃ m, n = m + 1 := Nat.exists_eq_succ_of_ne_zero (by omega)
      rw [Testz.early0, hpast.2 succs insn [] hopen, earlyScan, earlyPass]
      cases ht : setccsTested t insn with
      | none => rfl
      | some cc =>
        cases hz : (blockRewriteZs cc succs).2 with
        | true => simp only [hz, if_true, Option.map_some, Bool.false_eq_true, if_false]
        | false => simp only [hz, Bool.false_eq_true, if_false, Option.map_none]
  | next :: rest, insn, t, pre, hpast, hopen => by
      cases hr : (setccsTested t insn).bind (rewriteSet · next) with
      | some next' =>
        obtain ⟨cc, hcc, hnext⟩ := Option.bind_eq_some_iff.mp hr
        have hnot : tested ≠ true := by
          intro htested
          obtain ⟨r, _, _, hrcc⟩ := setccsTested_eq_some hcc
          rw [hpast.1 htested] at hrcc
          exact nomatch hrcc
        have hpast' := hpast.snoc next' fun h => absurd h hnot
        obtain ⟨N, hN⟩ := hpast'.early0 succs rest insn fun _ _ => rewriteSet_of_tested hcc
        refine ⟨N + 1, fun n hn => ?_⟩
        obtain ⟨n, rfl⟩ : ∃ m, n = m + 1 := Nat.exists_eq_succ_of_ne_zero (by omega)
        have hscan : earlyScan succs t (insn :: next :: rest) =
            some ⟨next' :: insn :: rest, succs, true⟩ := by
          simp only [earlyScan, hcc, hnext]
        have h := hN n (by omega)
        rw [List.append_assoc, List.singleton_append] at h
        rw [Testz.early0, hpast.2 succs insn (next :: rest) hopen, hscan, earlyPass, hr]
        simp only [Option.map_some, if_true, h, List.append_assoc, List.singleton_append]
      | none =>
        have hpast' := hpast.snoc insn hopen
        obtain ⟨N, hN⟩ := hpast'.early0 succs rest next fun hs c => by
          obtain ⟨cc, hcc⟩ := Option.isSome_iff_exists.mp hs
          rw [hcc] at hr
          exact rewriteSet_eq_none hr
        refine ⟨N, fun n hn => ?_⟩
        have h := hN n hn
        rw [List.append_assoc, List.singleton_append] at h
        rw [earlyPass, hr, h]
        simp only [List.append_assoc, List.singleton_append]

/-- The scans end, and together they are one pass. -/
theorem early0_pass (insns : List Insn) (succs : List Cessor) :
    ∃ N, ∀ n ≥ N, early0 n insns succs = some (earlyPass succs setccsNew insns) := by
  cases insns with
  | nil =>
    refine ⟨1, fun n hn => ?_⟩
    obtain ⟨n, rfl⟩ : ∃ m, n = m + 1 := Nat.exists_eq_succ_of_ne_zero (by omega)
    rw [earlyPass]; rfl
  | cons insn rest =>
    refine past_nil.early0 succs rest insn fun h => ?_
    cases h

end

/-! ### What a pass must keep -/

/-- The codes of a comparison with zero that tell one from zero. -/
def tells (insn : Insn) : CcSet :=
  if operandCon insn.src2 then {.z, .nz, .g, .le, .a, .be} else {.z, .nz, .ge, .l, .ae, .b}

/-- Do the insns, or the branch after them, use one of the codes before they are set anew? -/
def consumed (ccs : CcSet) (succs : List Cessor) : List Insn → Bool
  | [] => succs.any fun succ => decide (succ.cc ∈ ccs)
  | insn :: insns =>
    decide ((insnUsesCc insn ∩ ccs).Nonempty) || (!insnDefsCc insn && consumed ccs succs insns)

/-- `next` is a SET_Z that writes the register that `insn` tests. -/
def clobbers (insn next : Insn) : Bool :=
  decide (next.op = .set .z) && (insnTestZ insn).any fun r => decide (r ∈ operandRegs next.dst)

/-- No SET_Z that writes the register under test is swapped with the test while a code that tells
    one from zero is used later. -/
def harmless (succs : List Cessor) (t : Setccs) : List Insn → Bool
  | insn :: next :: rest =>
    match (setccsTested t insn).bind (rewriteSet · next) with
    | some next' =>
      (!clobbers insn next || !consumed (tells insn) succs rest) &&
        harmless succs (setccsNext t next') (insn :: rest)
    | none => harmless succs (setccsNext t insn) (next :: rest)
  | _ => true
termination_by l => l.length

/-- Whether the code that the insn tests holds, if it is a SETcc. -/
def outcome (insn : Insn) (s : State) : List Bool :=
  match insn.op with
  | .set cc => [decide (cc ∈ s.ccs)]
  | _ => []

/-- For every SETcc in order, whether its code holds when it is executed. -/
def outcomes (env : Env) : List Insn → State → List Bool
  | [], _ => []
  | insn :: insns, s => outcome insn s ++ outcomes env insns (exec env insn s)

/-- For every successor in order, whether its code holds at the end of the block. -/
def decisions (succs : List Cessor) (ccs : CcSet) : List (Bool × BlockId × Word × Word) :=
  succs.map fun c => (decide (c.cc = .always) || decide (c.cc ∈ ccs), c.b, c.min, c.max)

/-- The SETcc insns of the blocks see the same outcomes, the branches decide the same, and registers
    and memory are the same at the end. -/
structure SameBlock (env : Env) (x x' : List Insn × List Cessor) (s s' : State) : Prop where
  outcomes : outcomes env x'.1 s' = outcomes env x.1 s
  regs : (execs env x'.1 s').regs = (execs env x.1 s).regs
  visible : (execs env x'.1 s').visible = (execs env x.1 s).visible
  decisions : decisions x'.2 (execs env x'.1 s').ccs = decisions x.2 (execs env x.1 s).ccs

/-- The codes are those of some state of the flags. -/
structure Flags (ccs : CcSet) : Prop where
  conditional : ∀ cc ∈ ccs, cc.conditional = true
  invert : ∀ cc, cc.conditional = true → (cc.invert ∈ ccs ↔ cc ∉ ccs)

/-- What the machine leaves in the flags is a state of the flags. -/
structure FlagsEnv (env : Env) : Prop where
  fCmp : ∀ ts a b, Flags (env.fCmp ts a b)
  testCcs : ∀ w, Flags (env.testCcs w)
  call : ∀ a args mem, Flags (env.call a args mem).ccs
  asm : ∀ text input mem, Flags (env.asm text input mem).ccs

/-- Registers are either floating or not: a SETcc writes one that is not, copies stay on one side,
    and so do comparisons. -/
structure Typed (floating : PseudoReg → Bool) (insn : Insn) : Prop where
  dst : ∀ ts r n, insn.dst = some ⟨ts, .reg r, n⟩ → ts.floating = floating r
  src1 : ∀ ts r n, insn.src1 = some ⟨ts, .reg r, n⟩ → ts.floating = floating r
  src2 : ∀ ts r n, insn.src2 = some ⟨ts, .reg r, n⟩ → ts.floating = floating r
  set : ∀ cc, insn.op = .set cc → (tsOpt insn.dst).floating = false
  move : insn.op = .move → (tsOpt insn.dst).floating = (tsOpt insn.src1).floating
  cmp : insn.op = .cmp → (tsOpt insn.src1).floating = (tsOpt insn.src2).floating

/-- A conditional branch has two successors, with a code and its inverse. -/
def Paired (succs : List Cessor) : Prop :=
  ∀ c cs, succs = c :: cs → c.cc.conditional = true → ∃ d, cs = [d] ∧ d.cc = c.cc.invert

/-! ### Codes -/

section
variable {env : Env} {s : State} {insn next next' : Insn} {t : Setccs} {cc : ConditionCode}

theorem cmpHolds_invert {n : Nat} (x y : BitVec n) (h : cc.conditional = true) :
    cmpHolds x y cc.invert = !cmpHolds x y cc := by
  cases cc <;> first | exact absurd h (by decide) | simp [cmpHolds, ConditionCode.invert, bne]

theorem flags_cmpCodes (henv : FlagsEnv env) (ts : TypeBits) (a b : Word) :
    Flags (cmpCodes env ts a b) := by
  unfold cmpCodes
  split
  · exact henv.fCmp ts a b
  · refine ⟨fun cc hcc => ?_, fun cc hcc => ?_⟩
    · have h := (Finset.mem_filter.mp hcc).2
      cases cc <;> first | rfl | exact absurd h (by simp [cmpHolds])
    · simp [cmpHolds_invert _ _ hcc]

theorem flags_testCodes (henv : FlagsEnv env) (ts : TypeBits) (a b : Word) :
    Flags (testCodes env ts a b) := by
  have h := henv.testCcs (a &&& b)
  unfold testCodes
  refine ⟨fun cc hcc => ?_, fun cc hcc => ?_⟩
  · have hin := (Finset.mem_filter.mp hcc).2
    cases cc <;> first | rfl | exact h.conditional _ (by simpa using hin)
  · have hinv := h.invert cc hcc
    cases cc with
    | z | nz => simp [ConditionCode.invert]
    | always | never | switch | default => exact absurd hcc (by decide)
    | _ => simpa [ConditionCode.invert] using hinv

/-- The codes are always those of some state of the flags. -/
theorem flags_exec (henv : FlagsEnv env) (h : Flags s.ccs) : Flags (exec env insn s).ccs := by
  cases hd : insnDefsCc insn with
  | false => rw [exec_ccs_of_not_defsCc env hd]; exact h
  | true =>
    obtain ⟨op, dst, src1, src2, vol, iasm⟩ := insn
    cases op <;> simp only [insnDefsCc, InsnOp.defCc, reduceCtorEq, if_false, if_true,
      Bool.false_eq_true] at hd
    case call => simp only [exec, write_ccs]; exact henv.call ..
    case cmp => exact flags_cmpCodes henv ..
    case test => exact flags_testCodes henv ..
    case asm => simp only [exec, execAsm, hd, if_true]; exact henv.asm ..

/-- The word of a truth value. -/
def flagWord (b : Bool) : Word := if b then 1 else 0

theorem fit_flagWord (ts : TypeBits) (b : Bool) : fit ts (flagWord b) = flagWord b := by
  cases b <;> cases ts <;> decide

/-- The codes of a comparison of a truth value with zero, or of zero with it. -/
def zCodes (right b : Bool) : CcSet :=
  match right, b with
  | _, false => {.z, .le, .ge, .be, .ae}
  | true, true => {.nz, .g, .ge, .a, .ae}
  | false, true => {.nz, .l, .le, .b, .be}

theorem mem_zCodes_tells {b : Bool} (h : cc ∈ tells insn) :
    cc ∈ zCodes (operandCon insn.src2) (!b) ↔ cc ∉ zCodes (operandCon insn.src2) b := by
  unfold tells at h
  revert h
  cases operandCon insn.src2 <;> cases b <;> revert cc <;> decide

theorem mem_zCodes_of_notMem {b : Bool} (h : cc ∉ tells insn) :
    cc ∈ zCodes (operandCon insn.src2) (!b) ↔ cc ∈ zCodes (operandCon insn.src2) b := by
  unfold tells at h
  revert h
  cases operandCon insn.src2 <;> cases b <;> revert cc <;> decide

theorem z_mem_zCodes {right b : Bool} : .z ∈ zCodes right b ↔ b = false := by
  cases right <;> cases b <;> decide

theorem nz_mem_zCodes {right b : Bool} : .nz ∈ zCodes right b ↔ b = true := by
  cases right <;> cases b <;> decide

theorem cmpCodes_right {ts : TypeBits} (h : ts.floating = false) (b : Bool) :
    cmpCodes env ts (flagWord b) 0 = zCodes true b := by
  rw [cmpCodes, if_neg (by rw [h]; exact Bool.false_ne_true)]
  cases ts with
  | float | double => exact nomatch h
  | _ => cases b <;> decide

theorem cmpCodes_left {ts : TypeBits} (h : ts.floating = false) (b : Bool) :
    cmpCodes env ts 0 (flagWord b) = zCodes false b := by
  rw [cmpCodes, if_neg (by rw [h]; exact Bool.false_ne_true)]
  cases ts with
  | float | double => exact nomatch h
  | _ => cases b <;> decide

theorem zs_subset_tells : .z ∈ tells insn ∧ .nz ∈ tells insn := by
  unfold tells
  split <;> decide

end

/-! ### What the table says -/

/-- The registers in the table hold the truth values of their codes. -/
def Known (floating : PseudoReg → Bool) (t : Setccs) (s : State) : Prop :=
  ∀ r cc, t r = some cc →
    cc.conditional = true ∧ floating r = false ∧ s.regs r = flagWord (decide (cc ∈ s.ccs))

section
variable {env : Env} {floating : PseudoReg → Bool} {t : Setccs} {s : State}
  {insn next next' : Insn} {cc : ConditionCode}

theorem known_new : Known floating setccsNew s := fun _ _ h => nomatch h

theorem exec_ccs_of_safeCc (h : insn.op.safeCc = true) : (exec env insn s).ccs = s.ccs := by
  refine exec_ccs_of_not_defsCc env ?_
  obtain ⟨op, dst, src1, src2, vol, iasm⟩ := insn
  cases op <;> simp_all [insnDefsCc, InsnOp.safeCc, InsnOp.defCc]

theorem write_reg (ts : TypeBits) (r : PseudoReg) (n : ValueNumber) (b : Bool) :
    (s.write (some ⟨ts, .reg r, n⟩) (flagWord b)).regs r = flagWord b := by
  rw [State.write, fit_flagWord]
  exact Function.update_self ..

theorem exec_set (h : insn.op = .set cc) :
    exec env insn s = s.write insn.dst (flagWord (decide (cc ∈ s.ccs))) := by
  simp only [exec, h, flagWord, decide_eq_true_eq]

theorem insnCopy_eq_some {d r : PseudoReg} (h : insnCopy insn = some (d, r)) :
    insn.op = .move ∧ (∃ ts n, insn.dst = some ⟨ts, .reg d, n⟩) ∧
      ∃ ts n, insn.src1 = some ⟨ts, .reg r, n⟩ := by
  unfold insnCopy at h
  split at h
  · rename_i hop hdst hsrc
    obtain ⟨rfl, rfl⟩ := Prod.mk.inj (Option.some.inj h)
    exact ⟨hop, ⟨_, _, hdst⟩, _, _, hsrc⟩
  · exact nomatch h

theorem known_unset (h : Known floating t s) (hccs : (exec env insn s).ccs = s.ccs) :
    Known floating (setccsUnset t insn) (exec env insn s) := by
  intro r cc hr
  unfold setccsUnset at hr
  split at hr
  · exact nomatch hr
  · rename_i hd
    rw [exec_regs_of_notMem env hd, hccs]
    exact h r cc hr

theorem known_insert (hform : insn.Formed) (htyped : Typed floating insn)
    (h : Known floating t (exec env insn s)) (hccs : (exec env insn s).ccs = s.ccs) :
    Known floating (setccsInsert t insn) (exec env insn s) := by
  unfold setccsInsert
  split
  · rename_i cc ts r n hop hdst
    intro q cc' hq
    by_cases hqr : q = r
    · subst hqr
      rw [Function.update_self] at hq
      obtain rfl := Option.some.inj hq
      refine ⟨hform.cc _ hop, ?_, ?_⟩
      · have hset := htyped.set _ hop
        rw [hdst] at hset
        rw [← htyped.dst ts q n hdst]
        exact hset
      · rw [hccs, exec_set hop, hdst]
        exact write_reg ..
    · rw [Function.update_of_ne hqr] at hq
      exact h q cc' hq
  · exact h

theorem known_copy (htyped : Typed floating insn) (h : Known floating t (exec env insn s))
    (hold : ∀ r cc, insn.op = .move → t r = some cc →
      floating r = false ∧ s.regs r = flagWord (decide (cc ∈ s.ccs)))
    (hccs : (exec env insn s).ccs = s.ccs) :
    Known floating (setccsCopy t insn) (exec env insn s) := by
  unfold setccsCopy
  split
  · rename_i d r hcopy
    split
    · obtain ⟨hop, ⟨ts, n, hdst⟩, ts', n', hsrc⟩ := insnCopy_eq_some hcopy
      intro q cc hq
      by_cases hqd : q = d
      · subst hqd
        rw [Function.update_self] at hq
        obtain ⟨hfl, hreg⟩ := hold r cc hop hq
        refine ⟨(h r cc hq).1, ?_, ?_⟩
        · have hmove := htyped.move hop
          rw [hdst, hsrc] at hmove
          rw [← htyped.dst ts q n hdst]
          exact hmove.trans ((htyped.src1 ts' r n' hsrc).trans hfl)
        · have hread : readOpt env s.regs insn.src1 = flagWord (decide (cc ∈ s.ccs)) := by
            rw [hsrc]
            simp only [readOpt, Operand.read, hreg, fit_flagWord]
          rw [hccs]
          simp only [exec, hop, exprValue, hread, hdst]
          exact write_reg ..
      · rw [Function.update_of_ne hqd] at hq
        exact h q cc hq
    · exact h
  · exact h

theorem known_note (hform : insn.Formed) (htyped : Typed floating insn) (h : Known floating t s)
    (hccs : (exec env insn s).ccs = s.ccs) :
    Known floating (setccsNote t insn) (exec env insn s) := by
  refine known_copy htyped (known_insert hform htyped (known_unset h hccs) hccs)
    (fun r cc hop hr => ?_) hccs
  simp only [setccsInsert, hop, setccsUnset] at hr
  split at hr
  · exact nomatch hr
  · exact (h r cc hr).2

theorem known_next (hform : insn.Formed) (htyped : Typed floating insn) (h : Known floating t s) :
    Known floating (setccsNext t insn) (exec env insn s) := by
  unfold setccsNext
  split
  · rename_i hs
    exact known_note hform htyped h (exec_ccs_of_safeCc hs)
  · exact known_new

/-- The operands of a test against zero. -/
theorem insnTestZ_eq_some {r : PseudoReg} (h : insnTestZ insn = some r) : insn.op = .cmp ∧
    ((operandCon insn.src2 = true ∧ operandIsZero insn.src2 = true ∧
        ∃ ts n, insn.src1 = some ⟨ts, .reg r, n⟩) ∨
      (operandCon insn.src2 = false ∧ operandIsZero insn.src1 = true ∧
        ∃ ts n, insn.src2 = some ⟨ts, .reg r, n⟩)) := by
  have hop := insnTestZ_op h
  refine ⟨hop, ?_⟩
  unfold insnTestZ at h
  split at h
  · rename_i hz
    unfold insnTestCon at h
    rw [hop] at h
    rcases hs₁ : insn.src1 with _ | ⟨ts₁, ⟨c₁, y₁⟩ | r₁, n₁⟩ <;>
      rcases hs₂ : insn.src2 with _ | ⟨ts₂, ⟨c₂, y₂⟩ | r₂, n₂⟩ <;>
      rw [hs₁, hs₂] at h hz
    all_goals simp_all [operandPureCon, Operand.reg?, operandCon, operandIsZero]
  · cases h

/-- Testing a truth value against zero. -/
theorem exec_test {r : PseudoReg} {b : Bool} (htyped : Typed floating insn)
    (hr : insnTestZ insn = some r) (hfl : floating r = false) (hreg : s.regs r = flagWord b) :
    exec env insn s = { s with ccs := zCodes (operandCon insn.src2) b } := by
  obtain ⟨hop, h⟩ := insnTestZ_eq_some hr
  have hcmp := htyped.cmp hop
  have hread : ∀ ts n, readOpt env s.regs (some ⟨ts, .reg r, n⟩) = flagWord b := fun ts n => by
    simp only [readOpt, Operand.read, hreg, fit_flagWord]
  have hcodes : cmpCodes env (tsOpt insn.src1) (readOpt env s.regs insn.src1)
      (readOpt env s.regs insn.src2) = zCodes (operandCon insn.src2) b := by
    rcases h with ⟨hcon, hz, ts, n, hsrc⟩ | ⟨hcon, hz, ts, n, hsrc⟩
    · have hts : (tsOpt insn.src1).floating = false := by
        rw [hsrc]; exact (htyped.src1 ts r n hsrc).trans hfl
      rw [read_zero hz (hcmp.symm.trans hts), hcon, ← cmpCodes_right hts, hsrc, hread]
    · have hts : (tsOpt insn.src1).floating = false := by
        rw [hcmp, hsrc]; exact (htyped.src2 ts r n hsrc).trans hfl
      rw [read_zero hz hts, hcon, ← cmpCodes_left hts, hsrc, hread]
  simp only [exec, hop, hcodes]

end

/-! ### Blocks that do the same -/

namespace SameBlock
variable {env : Env} {x x' x'' : List Insn × List Cessor} {s s' s'' : State}

theorem refl (env : Env) (x : List Insn × List Cessor) (s : State) : SameBlock env x x s s :=
  ⟨rfl, rfl, rfl, rfl⟩

theorem symm (h : SameBlock env x x' s s') : SameBlock env x' x s' s :=
  ⟨h.1.symm, h.2.symm, h.3.symm, h.4.symm⟩

theorem trans (h : SameBlock env x x' s s') (h' : SameBlock env x' x'' s' s'') :
    SameBlock env x x'' s s'' :=
  ⟨h'.1.trans h.1, h'.2.trans h.2, h'.3.trans h.3, h'.4.trans h.4⟩

variable {insn insn' : Insn} {l l' : List Insn} {succs succs' : List Cessor}

/-- Both are the same insn, or both are SETcc. -/
def Alike (insn insn' : Insn) : Prop :=
  insn'.op = insn.op ∨ ∃ c c', insn.op = .set c ∧ insn'.op = .set c'

theorem length_outcome (h : Alike insn insn') :
    (outcome insn' s').length = (outcome insn s).length := by
  unfold outcome
  rcases h with h | ⟨c, c', h, h'⟩
  · rw [h]; split <;> rfl
  · rw [h, h']; rfl

/-- Insns that see the same, in front of the rest of the blocks. -/
theorem cons_iff (h : Alike insn insn') :
    SameBlock env (insn :: l, succs) (insn' :: l', succs') s s' ↔
      outcome insn' s' = outcome insn s ∧
        SameBlock env (l, succs) (l', succs') (exec env insn s) (exec env insn' s') := by
  constructor
  · rintro ⟨h₁, h₂, h₃, h₄⟩
    obtain ⟨ho, hr⟩ := List.append_inj h₁ (length_outcome h)
    exact ⟨ho, hr, h₂, h₃, h₄⟩
  · rintro ⟨ho, h₁, h₂, h₃, h₄⟩
    refine ⟨?_, h₂, h₃, h₄⟩
    show outcome insn' s' ++ _ = outcome insn s ++ _
    rw [ho]
    exact congrArg _ h₁

theorem cons_same_iff : SameBlock env (insn :: l, succs) (insn :: l', succs') s s ↔
    SameBlock env (l, succs) (l', succs') (exec env insn s) (exec env insn s) := by
  rw [cons_iff (.inl rfl), and_iff_right rfl]

end SameBlock

/-- The same decisions choose the same successor. -/
theorem find_of_decisions {ccs ccs' : CcSet} (u : Word) : ∀ {succs succs' : List Cessor},
    decisions succs' ccs' = decisions succs ccs →
      (succs'.find? fun c => decide (c.cc = .always) || decide (c.cc ∈ ccs')).map Cessor.b =
          (succs.find? fun c => decide (c.cc = .always) || decide (c.cc ∈ ccs)).map Cessor.b ∧
        (succs'.find? fun c => decide (c.min ≤ u) && decide (u ≤ c.max)).map Cessor.b =
          (succs.find? fun c => decide (c.min ≤ u) && decide (u ≤ c.max)).map Cessor.b
  | [], [], _ => ⟨rfl, rfl⟩
  | [], _ :: _, h => nomatch h
  | _ :: _, [], h => nomatch h
  | c :: succs, c' :: succs', h => by
      obtain ⟨hc, hrest⟩ := List.cons.inj h
      obtain ⟨h₁, hb, hmin, hmax⟩ : (decide (c'.cc = .always) || decide (c'.cc ∈ ccs')) =
          (decide (c.cc = .always) || decide (c.cc ∈ ccs)) ∧ c'.b = c.b ∧ c'.min = c.min ∧
            c'.max = c.max := by simpa using hc
      obtain ⟨ih₁, ih₂⟩ := find_of_decisions u hrest
      simp only [List.find?_cons, h₁, hmin, hmax]
      constructor
      · split
        · rw [Option.map_some, Option.map_some, hb]
        · exact ih₁
      · split
        · rw [Option.map_some, Option.map_some, hb]
        · exact ih₂

/-- Blocks that do the same branch to the same block. -/
theorem SameBlock.branch {env : Env} {x x' : Block} {s : State} (hctl : x'.control = x.control)
    (h : SameBlock env (x.insns, x.successors) (x'.insns, x'.successors) s s) :
    branch env x' (execs env x'.insns s) = branch env x (execs env x.insns s) := by
  have hd : Testz.decisions x'.successors _ = Testz.decisions x.successors _ := h.decisions
  have hregs : (execs env x'.insns s).regs = (execs env x.insns s).regs := h.regs
  unfold Ncc.branch
  rw [hctl]
  cases x.control with
  | none => exact (find_of_decisions 0 hd).1
  | some o =>
    simp only [hregs]
    generalize o.read env (execs env x.insns s).regs = u
    unfold blockSwitchLookup
    cases hs : x.successors with
    | nil =>
      rw [hs] at hd
      rw [List.map_eq_nil_iff.mp hd]
    | cons c cs =>
      cases hs' : x'.successors with
      | nil => rw [hs, hs'] at hd; exact nomatch hd
      | cons c' cs' =>
        rw [hs, hs'] at hd
        obtain ⟨hc, hrest⟩ := List.cons.inj hd
        have hb : c'.b = c.b := (Prod.mk.inj (Prod.mk.inj hc).2).1
        have hfind := (find_of_decisions u hrest).2
        simp only
        cases h₁ : cs.find? (fun c => decide (c.min ≤ u) && decide (u ≤ c.max)) <;>
          cases h₂ : cs'.find? (fun c => decide (c.min ≤ u) && decide (u ≤ c.max)) <;>
          rw [h₁, h₂] at hfind
        · simp only [hb]
        · exact nomatch hfind
        · exact nomatch hfind
        · exact hfind

section
variable {env : Env} {floating : PseudoReg → Bool} {t : Setccs} {s : State}
  {insn next next' : Insn} {cc : ConditionCode} {succs : List Cessor} {l rest : List Insn}

theorem write_withCcs (dst : Option Operand) (v : Word) (ccs : CcSet) :
    ({ s with ccs := ccs } : State).write dst v = { s.write dst v with ccs := ccs } := by
  unfold State.write
  split <;> rfl

/-- The codes matter to an insn that tests one of them only. -/
theorem exec_withCcs {ccs : CcSet} (h : ∀ cc ∈ insnUsesCc insn, cc ∈ ccs ↔ cc ∈ s.ccs) :
    exec env insn { s with ccs := ccs } =
      { exec env insn s with ccs := if insnDefsCc insn then (exec env insn s).ccs else ccs } := by
  obtain ⟨op, dst, src1, src2, vol, iasm⟩ := insn
  cases op with
  | set cc =>
    have hcc : cc ∈ ccs ↔ cc ∈ s.ccs := h cc (by simp [insnUsesCc])
    simp only [exec, write_withCcs, insnDefsCc, InsnOp.defCc, hcc, reduceCtorEq, if_false,
      Bool.false_eq_true]
  | asm =>
    simp only [exec, execAsm, insnDefsCc, if_true]
    cases iasm.defsCc <;> rfl
  | call =>
    simp only [exec, insnDefsCc, InsnOp.defCc, reduceCtorEq, if_false, if_true]
  | _ =>
    simp only [exec, write_withCcs, insnDefsCc, InsnOp.defCc, reduceCtorEq, if_false, if_true,
      Bool.false_eq_true]

theorem insnUsesCc_eq_some (h : cc ∈ insnUsesCc insn) : insn.op = .set cc := by
  unfold insnUsesCc at h
  split at h
  · rename_i hop
    rw [hop, Finset.mem_singleton.mp h]
  · exact absurd h (Finset.notMem_empty _)

theorem outcome_withCcs {ccs : CcSet} (h : ∀ cc ∈ insnUsesCc insn, cc ∈ ccs ↔ cc ∈ s.ccs) :
    outcome insn { s with ccs := ccs } = outcome insn s := by
  unfold outcome
  split
  · rename_i cc hop
    rw [decide_eq_decide.mpr (h cc (by simp [insnUsesCc, hop]))]
  · rfl

/-- Codes that are not used make no difference. -/
theorem sameBlock_of_not_consumed {D : CcSet} : ∀ {l : List Insn} {s : State} {ccs : CcSet},
    consumed D succs l = false → (∀ cc ∉ D, cc ∈ ccs ↔ cc ∈ s.ccs) →
      SameBlock env (l, succs) (l, succs) s { s with ccs := ccs }
  | [], s, ccs, hc, hccs => by
      refine ⟨rfl, rfl, rfl, List.map_congr_left fun c hcs => ?_⟩
      have hcD : c.cc ∉ D := by
        have := List.any_eq_false.mp hc c hcs
        simpa using this
      have hdec : decide (c.cc ∈ ccs) = decide (c.cc ∈ s.ccs) := decide_eq_decide.mpr (hccs _ hcD)
      exact congrArg (fun x => (decide (c.cc = .always) || x, c.b, c.min, c.max)) hdec
  | insn :: l, s, ccs, hc, hccs => by
      obtain ⟨huse, hrest⟩ : insnUsesCc insn ∩ D = ∅ ∧
          (insnDefsCc insn = false → consumed D succs l = false) := by
        simpa [consumed, Finset.not_nonempty_iff_eq_empty] using hc
      have hsame : ∀ cc ∈ insnUsesCc insn, cc ∈ ccs ↔ cc ∈ s.ccs := by
        intro cc hcc
        refine hccs cc fun hD => ?_
        have hmem := Finset.mem_inter.mpr ⟨hcc, hD⟩
        rw [huse] at hmem
        exact absurd hmem (Finset.notMem_empty _)
      rw [SameBlock.cons_iff (.inl rfl), exec_withCcs hsame]
      refine ⟨outcome_withCcs hsame, ?_⟩
      cases hd : insnDefsCc insn with
      | true => exact .refl ..
      | false =>
        refine sameBlock_of_not_consumed (hrest hd) fun cc hcc => ?_
        rw [exec_ccs_of_not_defsCc env hd, if_neg Bool.false_ne_true]
        exact hccs cc hcc

theorem earlyPass_cons (h : setccsTested t insn = none) : earlyPass succs t (insn :: l) =
    (insn :: (earlyPass succs (setccsNext t insn) l).1,
      (earlyPass succs (setccsNext t insn) l).2) := by
  cases l with
  | nil => simp only [earlyPass, h]
  | cons next rest => rw [earlyPass, h]; rfl

/-- Codes that are used do. -/
theorem not_sameBlock_of_consumed {D : CcSet} (hD : .always ∉ D) :
    ∀ {l : List Insn} {s : State} {ccs : CcSet} {t : Setccs}, consumed D succs l = true →
      (∀ cc ∈ D, cc ∈ ccs ↔ cc ∉ s.ccs) → (∀ cc ∉ D, cc ∈ ccs ↔ cc ∈ s.ccs) →
        ¬ SameBlock env (l, succs) (earlyPass succs t l) s { s with ccs := ccs }
  | [], s, ccs, t, hc, hflip, hccs => by
      intro h
      obtain ⟨c, hcs, hcD⟩ := List.any_eq_true.mp hc
      have hcD : c.cc ∈ D := of_decide_eq_true hcD
      rw [earlyPass] at h
      have hd := List.map_inj_left.mp h.decisions c hcs
      have hne : c.cc ≠ .always := fun he => hD (he ▸ hcD)
      simp only [execs_nil, hne, decide_false, Bool.false_or, Prod.mk.injEq, and_true] at hd
      have hiff := decide_eq_decide.mp hd
      rw [hflip c.cc hcD] at hiff
      exact iff_not_self hiff.symm
  | insn :: l, s, ccs, t, hc, hflip, hccs => by
      intro h
      have hc' : (insnUsesCc insn ∩ D).Nonempty ∨
          insnDefsCc insn = false ∧ consumed D succs l = true := by
        simpa [consumed] using hc
      by_cases huse : (insnUsesCc insn ∩ D).Nonempty
      · obtain ⟨cc, hcc⟩ := huse
        obtain ⟨huse, hccD⟩ := Finset.mem_inter.mp hcc
        have hop := insnUsesCc_eq_some huse
        rw [earlyPass_cons (setccsTested_of_op (by rw [hop]; exact InsnOp.noConfusion)),
          SameBlock.cons_iff (.inl rfl)] at h
        have ho := h.1
        simp only [outcome, hop, List.cons.injEq, and_true, decide_eq_decide] at ho
        rw [hflip cc hccD] at ho
        exact iff_not_self ho.symm
      · obtain ⟨hd, hrest⟩ := hc'.resolve_left huse
        have hsame : ∀ cc ∈ insnUsesCc insn, cc ∈ ccs ↔ cc ∈ s.ccs := fun cc hcc =>
          hccs cc fun hD => huse ⟨cc, Finset.mem_inter.mpr ⟨hcc, hD⟩⟩
        have hop : insn.op ≠ .cmp := by
          intro hop
          simp [insnDefsCc, hop, InsnOp.defCc] at hd
        rw [earlyPass_cons (setccsTested_of_op hop), SameBlock.cons_iff (.inl rfl),
          exec_withCcs hsame, hd, if_neg Bool.false_ne_true] at h
        have hccs' : (exec env insn s).ccs = s.ccs := exec_ccs_of_not_defsCc env hd
        refine not_sameBlock_of_consumed hD hrest ?_ ?_ h.2
        · rw [hccs']; exact hflip
        · rw [hccs']; exact hccs

end

/-! ### One swap -/

section
variable {env : Env} {floating : PseudoReg → Bool} {t : Setccs} {s : State}
  {insn next next' : Insn} {cc : ConditionCode} {succs : List Cessor} {rest : List Insn}

/-- A tested register is in the table. -/
theorem setccsTested_of_mem {r : PseudoReg} (hform : insn.Formed) (hr : insnTestZ insn = some r) :
    setccsTested t insn = t r := by
  have hop := insnTestZ_op hr
  have hdst : insn.dst = none := hform.dst (by rw [hop]; rfl)
  have hcopy : insnCopy insn = none := by simp only [insnCopy, hop]
  rw [setccsTested, hr, Option.bind_some]
  simp [setccsNote, setccsCopy, setccsInsert, setccsUnset, hcopy, hop, insnDefsRegs, hdst,
    operandRegs, InsnOp.useDst]

/-- The rewritten insn sees before the test what the insn saw after it. -/
theorem rewriteSet_holds (right : Bool) {b : Bool} {ccs : CcSet} (hb : b = decide (cc ∈ ccs))
    (hccs : Flags ccs) (hcond : cc.conditional = true) (h : rewriteSet cc next = some next') :
    ∃ c c', next.op = .set c ∧ next'.op = .set c' ∧ next'.dst = next.dst ∧
      (c' ∈ ccs ↔ c ∈ zCodes right b) ∧
      (c' ∈ ccs ↔ if next.op = .set .z then b = false else b = true) := by
  obtain ⟨c, hop, hc, rfl⟩ := rewriteSet_op h
  have hbt : b = true ↔ cc ∈ ccs := by rw [hb, decide_eq_true_eq]
  have hbf : b = false ↔ cc ∉ ccs := by rw [hb, decide_eq_false_iff_not]
  rcases hc with rfl | rfl
  · refine ⟨.z, cc.invert, hop, by simp, rfl, ?_, ?_⟩
    · rw [z_mem_zCodes, hbf, hccs.invert cc hcond]
    · rw [if_pos hop, hbf, hccs.invert cc hcond]
  · refine ⟨.nz, cc, hop, by simp, rfl, ?_, ?_⟩
    · rw [nz_mem_zCodes, hbt]
    · rw [if_neg (by rw [hop]; decide), hbt]

/-- What the two insns leave behind, swapped or not; `b` is the truth value under test. -/
structure Swapped (env : Env) (s : State) (insn next next' : Insn) (b : Bool) : Prop where
  alike : SameBlock.Alike next next'
  sees : outcome next' s = outcome next (exec env insn s)
  result : exec env next (exec env insn s) =
    { exec env next' s with ccs := zCodes (operandCon insn.src2) b }
  test : exec env insn (exec env next' s) = { exec env next' s with
    ccs := zCodes (operandCon insn.src2) (if clobbers insn next then !b else b) }

theorem eq_of_mem_operandRegs {o : Option Operand} {r : PseudoReg} (h : r ∈ operandRegs o) :
    ∃ ts n, o = some ⟨ts, .reg r, n⟩ := by
  rcases o with _ | ⟨ts, _ | q, n⟩
  · exact absurd h List.not_mem_nil
  · exact absurd h List.not_mem_nil
  · obtain rfl := List.mem_singleton.mp h
    exact ⟨ts, n, rfl⟩

theorem clobbers_eq {r : PseudoReg} (hr : insnTestZ insn = some r) : clobbers insn next =
    (decide (next.op = .set .z) && decide (r ∈ operandRegs next.dst)) := by
  rw [clobbers, hr]; rfl

theorem swapped (htyped : Typed floating insn) (hflags : Flags s.ccs) (hknown : Known floating t s)
    (hcc : setccsTested t insn = some cc) (hnext : rewriteSet cc next = some next') :
    Swapped env s insn next next' (decide (cc ∈ s.ccs)) := by
  obtain ⟨r, hr, hop, htr⟩ := setccsTested_eq_some hcc
  obtain ⟨hcond, hfl, hreg⟩ := hknown r cc htr
  have htest : exec env insn s = { s with ccs := zCodes (operandCon insn.src2) _ } :=
    exec_test htyped hr hfl hreg
  generalize hb : decide (cc ∈ s.ccs) = b at *
  obtain ⟨c, c', hc, hc', hdst, hiff, hval⟩ :=
    rewriteSet_holds (operandCon insn.src2) hb.symm hflags hcond hnext
  have hexec : exec env next' s = s.write next.dst (flagWord (decide (c' ∈ s.ccs))) := by
    rw [exec_set hc', hdst]
  refine ⟨.inr ⟨c, c', hc, hc'⟩, ?_, ?_, ?_⟩
  · simp only [outcome, hc, hc', htest]
    rw [decide_eq_decide.mpr hiff]
  · rw [htest, exec_set hc, write_withCcs, hexec]
    simp only
    rw [decide_eq_decide.mpr hiff]
  · refine exec_test htyped hr hfl ?_
    rw [hexec, clobbers_eq hr]
    by_cases hmem : r ∈ operandRegs next.dst
    · obtain ⟨ts, n, hd⟩ := eq_of_mem_operandRegs hmem
      rw [hd, write_reg]
      congr 1
      rw [← hd, decide_eq_true hmem, Bool.and_true]
      by_cases hz : next.op = .set .z
      · rw [if_pos hz] at hval
        rw [if_pos (decide_eq_true hz), decide_eq_decide.mpr hval]
        cases b <;> rfl
      · rw [if_neg hz] at hval
        rw [if_neg (by rw [decide_eq_false hz]; exact Bool.false_ne_true),
          decide_eq_decide.mpr hval]
        cases b <;> rfl
    · rw [write_regs_of_notMem hmem, decide_eq_false hmem, Bool.and_false,
        if_neg Bool.false_ne_true, hreg]

theorem formed_rewriteSet (hcond : cc.conditional = true)
    (h : rewriteSet cc next = some next') : next'.Formed := by
  obtain ⟨c, hop, hc, rfl⟩ := rewriteSet_op h
  refine ⟨by simp, fun hd => (nomatch hd), fun c' hc' => ?_⟩
  obtain rfl := InsnOp.set.inj hc'
  split
  · rw [ConditionCode.conditional_invert]; exact hcond
  · exact hcond

theorem typed_rewriteSet (htyped : Typed floating next) (h : rewriteSet cc next = some next') :
    Typed floating next' := by
  obtain ⟨c, hop, hc, rfl⟩ := rewriteSet_op h
  exact ⟨htyped.dst, htyped.src1, htyped.src2, fun c' _ => htyped.set c hop,
    fun hm => (nomatch hm), fun hm => (nomatch hm)⟩

theorem safeCc_rewriteSet (h : rewriteSet cc next = some next') : next'.op.safeCc = true := by
  obtain ⟨c, _, _, rfl⟩ := rewriteSet_op h
  rfl

/-- The register a rewritten SET_Z writes holds the opposite. -/
theorem setccsNext_rewriteSet {r : PseudoReg} (hz : next.op = .set .z)
    (hmem : r ∈ operandRegs next.dst) (h : rewriteSet cc next = some next') :
    setccsNext t next' r = some cc.invert := by
  obtain ⟨ts, n, hd⟩ := eq_of_mem_operandRegs hmem
  rw [setccsNext, if_pos (safeCc_rewriteSet h)]
  simp only [rewriteSet, hz] at h
  obtain rfl := Option.some.inj h
  simp only [setccsNote, setccsCopy, insnCopy, setccsInsert, hd, Function.update_self]

/-- A comparison has no outcome. -/
theorem SameBlock.of_cmp_cons {x x' : List Insn × List Cessor} {s' : State} (hop : insn.op = .cmp)
    (h : SameBlock env (insn :: x.1, x.2) x' s s') : SameBlock env x x' (exec env insn s) s' := by
  refine ⟨?_, h.regs, h.visible, h.decisions⟩
  have ho : Testz.outcomes env x'.1 s' = Testz.outcomes env (insn :: x.1) s := h.outcomes
  rw [Testz.outcomes, outcome, hop] at ho
  exact ho

/-- After `block_rewrite_zs` the branch decides by the old codes what it decided by the test. -/
theorem decisions_rewriteZs {right : Bool} {ccs : CcSet} (hccs : Flags ccs)
    (hcond : cc.conditional = true) (hpaired : Paired succs)
    (h : (blockRewriteZs cc succs).2 = true) :
    decisions (blockRewriteZs cc succs).1 ccs =
      decisions succs (zCodes right (decide (cc ∈ ccs))) := by
  have hz : decide (cc.invert ∈ ccs) = decide (.z ∈ zCodes right (decide (cc ∈ ccs))) := by
    rw [decide_eq_decide, z_mem_zCodes, decide_eq_false_iff_not, hccs.invert cc hcond]
  have hnz : decide (cc ∈ ccs) = decide (.nz ∈ zCodes right (decide (cc ∈ ccs))) := by
    rw [decide_eq_decide, nz_mem_zCodes, decide_eq_true_eq]
  have hne : cc ≠ .always ∧ cc.invert ≠ .always := by
    cases cc <;> first | exact absurd hcond (by decide) | decide
  rcases succs with _ | ⟨⟨cz, b, lo, hi⟩, cs⟩
  · exact nomatch h
  · have hc : cz = .z ∨ cz = .nz := by
      cases cz <;> first | exact .inl rfl | exact .inr rfl | exact nomatch h
    rcases hc with rfl | rfl
    · obtain ⟨⟨dc, db, dlo, dhi⟩, rfl, hd⟩ := hpaired _ cs rfl rfl
      obtain rfl : dc = .nz := hd
      simp [decisions, blockRewriteZs, hne.1, hne.2, ← hz, ← hnz]
    · obtain ⟨⟨dc, db, dlo, dhi⟩, rfl, hd⟩ := hpaired _ cs rfl rfl
      obtain rfl : dc = .z := hd
      simp [decisions, blockRewriteZs, hne.1, hne.2, ← hz, ← hnz]

theorem always_notMem_tells : .always ∉ tells insn := by
  unfold tells
  split <;> decide

theorem mem_tells_of_rewriteSet {c : ConditionCode} (hop : next.op = .set c)
    (h : rewriteSet cc next = some next') : c ∈ tells insn := by
  obtain ⟨c', hop', hc, _⟩ := rewriteSet_op h
  obtain rfl := InsnOp.set.inj (hop.symm.trans hop')
  rcases hc with rfl | rfl
  · exact zs_subset_tells.1
  · exact zs_subset_tells.2

/-- When the register under test was overwritten with the opposite, whoever uses the codes of the
    test again can tell. -/
theorem not_sameBlock_of_flip {b : Bool} (htyped : Typed floating insn) (hflags : Flags s.ccs)
    (hknown : Known floating t s) (hpaired : Paired succs) (hcc : setccsTested t insn = some cc)
    (hb : decide (cc ∈ s.ccs) = !b) (hc : consumed (tells insn) succs rest = true) :
    ¬ SameBlock env (rest, succs) (earlyPass succs t (insn :: rest))
      { s with ccs := zCodes (operandCon insn.src2) b } s := by
  obtain ⟨r, hr, hop, htr⟩ := setccsTested_eq_some hcc
  obtain ⟨hcond, hfl, hreg⟩ := hknown r cc htr
  have htest : exec env insn s = { s with ccs := zCodes (operandCon insn.src2) (!b) } := by
    rw [← hb]; exact exec_test htyped hr hfl hreg
  have hflip : ∀ t' : Setccs, ¬ SameBlock env (rest, succs) (earlyPass succs t' rest)
      { s with ccs := zCodes (operandCon insn.src2) b } (exec env insn s) := by
    intro t'
    rw [htest]
    exact not_sameBlock_of_consumed always_notMem_tells hc (fun _ => mem_zCodes_tells)
      (fun _ => mem_zCodes_of_notMem)
  have hcons : ∀ {x : List Insn × List Cessor}, SameBlock env (rest, succs) (insn :: x.1, x.2)
      { s with ccs := zCodes (operandCon insn.src2) b } s →
        SameBlock env (rest, succs) x { s with ccs := zCodes (operandCon insn.src2) b }
          (exec env insn s) := fun h => (SameBlock.of_cmp_cons hop h.symm).symm
  intro h
  cases rest with
  | nil =>
    rw [earlyPass, hcc] at h
    cases hz : (blockRewriteZs cc succs).2 with
    | true =>
      simp only [hz, if_true] at h
      refine hflip setccsNew ⟨by rw [earlyPass]; rfl, ?_, ?_, ?_⟩
      · rw [htest, earlyPass]; exact h.regs
      · rw [htest, earlyPass]; exact h.visible
      · rw [htest, earlyPass, ← hb]
        refine Eq.trans ?_ h.decisions
        exact (decisions_rewriteZs hflags hcond hpaired hz).symm
    | false =>
      simp only [hz, Bool.false_eq_true, if_false] at h
      refine hflip setccsNew ?_
      rw [earlyPass]
      exact hcons h
  | cons next rest =>
    rw [earlyPass] at h
    cases hn : (setccsTested t insn).bind (rewriteSet · next) with
    | some next' =>
      rw [hn] at h
      rw [hcc, Option.bind_some] at hn
      have hsw : Swapped env s insn next next' (decide (cc ∈ s.ccs)) :=
        swapped htyped hflags hknown hcc hn
      have ho := ((SameBlock.cons_iff hsw.alike).mp h).1
      rw [hsw.sees, htest] at ho
      obtain ⟨c, hopc, _⟩ := rewriteSet_op hn
      have hmem : c ∈ tells insn := mem_tells_of_rewriteSet hopc hn
      simp only [outcome, hopc, List.cons.injEq, and_true, decide_eq_decide] at ho
      rw [mem_zCodes_tells hmem] at ho
      exact iff_not_self ho.symm
    | none =>
      rw [hn] at h
      exact hflip _ (hcons h)

/-- Either the codes of the test are not used again, or the register under test is as before. -/
theorem sameBlock_swap {b : Bool} (h : Swapped env s insn next next' b) (hop : insn.op = .cmp)
    (hok : (!clobbers insn next || !consumed (tells insn) succs rest) = true) :
    SameBlock env (insn :: next :: rest, succs) (next' :: insn :: rest, succs) s s := by
  have hrest : SameBlock env (rest, succs) (rest, succs) (exec env next (exec env insn s))
      (exec env insn (exec env next' s)) := by
    rw [h.result, h.test]
    cases hcl : clobbers insn next with
    | false => exact .refl ..
    | true =>
      rw [hcl] at hok
      exact sameBlock_of_not_consumed (Bool.not_eq_true' _ |>.mp hok) fun cc => mem_zCodes_of_notMem
  refine ⟨?_, hrest.regs, hrest.visible, hrest.decisions⟩
  have hnil : ∀ s : State, outcome insn s = [] := fun s => by rw [outcome, hop]
  simp only [outcomes, hnil, List.nil_append, h.sees]
  exact congrArg _ hrest.outcomes

/-- The pass keeps the block exactly if it is harmless. -/
theorem earlyPass_iff (henv : FlagsEnv env) (hpaired : Paired succs) :
    ∀ {l : List Insn} {t : Setccs} {s : State}, (∀ i ∈ l, i.Formed) → (∀ i ∈ l, Typed floating i) →
      Known floating t s → Flags s.ccs →
        (SameBlock env (l, succs) (earlyPass succs t l) s s ↔ harmless succs t l = true)
  | [], t, s, _, _, _, _ => by
      rw [earlyPass, harmless]
      · exact iff_of_true (.refl ..) rfl
      · intro _ _ _ h
        cases h
  | [insn], t, s, hform, htyped, hknown, hflags => by
      have hharm : harmless succs t [insn] = true := by
        rw [harmless]
        intro _ _ _ h
        cases h
      refine iff_of_true ?_ hharm
      rw [earlyPass]
      cases hcc : setccsTested t insn with
      | none => exact .refl ..
      | some cc =>
        cases hz : (blockRewriteZs cc succs).2 with
        | false => simp only [hz, Bool.false_eq_true, if_false]; exact .refl ..
        | true =>
          simp only [hz, if_true]
          obtain ⟨r, hr, hop, htr⟩ := setccsTested_eq_some hcc
          obtain ⟨hcond, hfl, hreg⟩ := hknown r cc htr
          have htest : exec env insn s = { s with ccs := zCodes (operandCon insn.src2) _ } :=
            exec_test (htyped insn (List.mem_cons_self ..)) hr hfl hreg
          refine ⟨?_, ?_, ?_, ?_⟩
          · simp only [outcomes, outcome, hop, List.nil_append]
          · simp only [execs_cons, execs_nil, htest]
          · simp only [execs_cons, execs_nil, htest, State.visible]
          · simp only [execs_cons, execs_nil, htest]
            exact decisions_rewriteZs hflags hcond hpaired hz
  | insn :: next :: rest, t, s, hform, htyped, hknown, hflags => by
      have htyped₁ := htyped insn (List.mem_cons_self ..)
      have hform₁ := hform insn (List.mem_cons_self ..)
      rw [earlyPass, harmless]
      cases hn : (setccsTested t insn).bind (rewriteSet · next) with
      | none =>
        rw [SameBlock.cons_same_iff]
        exact earlyPass_iff henv hpaired (fun i hi => hform i (List.mem_cons_of_mem _ hi))
          (fun i hi => htyped i (List.mem_cons_of_mem _ hi)) (known_next hform₁ htyped₁ hknown)
          (flags_exec henv hflags)
      | some next' =>
        obtain ⟨cc, hcc, hnext⟩ := Option.bind_eq_some_iff.mp hn
        obtain ⟨r, hr, hop, htr⟩ := setccsTested_eq_some hcc
        obtain ⟨hcond, hfl, hreg⟩ := hknown r cc htr
        have hmem : next ∈ insn :: next :: rest := List.mem_cons_of_mem _ (List.mem_cons_self ..)
        have hform' : next'.Formed := formed_rewriteSet hcond hnext
        have htyped' : Typed floating next' := typed_rewriteSet (htyped next hmem) hnext
        have hsw : Swapped env s insn next next' (decide (cc ∈ s.ccs)) :=
          swapped htyped₁ hflags hknown hcc hnext
        have hsub : ∀ i ∈ insn :: rest, i ∈ insn :: next :: rest := fun i hi =>
          (List.mem_cons.mp hi).elim (fun h => h ▸ List.mem_cons_self ..) fun h =>
            List.mem_cons_of_mem _ (List.mem_cons_of_mem _ h)
        have hknown' : Known floating (setccsNext t next') (exec env next' s) :=
          known_next hform' htyped' hknown
        have hflags' : Flags (exec env next' s).ccs := flags_exec henv hflags
        have ih := earlyPass_iff henv hpaired (fun i hi => hform i (hsub i hi))
          (fun i hi => htyped i (hsub i hi)) hknown' hflags'
        rw [Bool.and_eq_true, ← ih]
        cases hok : (!clobbers insn next || !consumed (tells insn) succs rest) with
        | true =>
          have hswap : SameBlock env (insn :: next :: rest, succs) (next' :: insn :: rest, succs) s s :=
            sameBlock_swap hsw hop hok
          rw [and_iff_right rfl]
          constructor
          · exact fun h => SameBlock.cons_same_iff.mp (hswap.symm.trans h)
          · exact fun h => hswap.trans (SameBlock.cons_same_iff.mpr h)
        | false =>
          refine iff_of_false (fun h => ?_) fun h => absurd h.1 Bool.false_ne_true
          obtain ⟨hcl, hc⟩ : clobbers insn next = true ∧ consumed (tells insn) succs rest = true := by
            simpa using hok
          obtain ⟨hz, hmem'⟩ : next.op = .set .z ∧ r ∈ operandRegs next.dst := by
            simpa [clobbers_eq hr] using hcl
          have htested : setccsTested (setccsNext t next') insn = some cc.invert := by
            rw [setccsTested_of_mem hform₁ hr]
            exact setccsNext_rewriteSet hz hmem' hnext
          have hflip : decide (cc.invert ∈ (exec env next' s).ccs) = !decide (cc ∈ s.ccs) := by
            rw [exec_ccs_of_safeCc (safeCc_rewriteSet hnext), ← decide_not, decide_eq_decide]
            exact hflags.invert cc hcond
          have hrest := (SameBlock.cons_iff hsw.alike).mp (SameBlock.of_cmp_cons hop h)
          rw [hsw.result] at hrest
          exact not_sameBlock_of_flip htyped₁ hflags' hknown' hpaired htested hflip hc hrest.2
termination_by l => l.length

end

/-- The scans of `early0` end. The block they leave does the same from every state exactly if no
    SET_Z that overwrites the register under test is swapped while the test is still used. -/
theorem early0_iff (env : Env) (henv : FlagsEnv env) (floating : PseudoReg → Bool) (x : Block)
    (hform : ∀ i ∈ x.insns, i.Formed) (htyped : ∀ i ∈ x.insns, Typed floating i)
    (hpaired : Paired x.successors) :
    ∃ N y, (∀ n ≥ N, early0 n x.insns x.successors = some y) ∧ ∀ s : State, Flags s.ccs →
      ((SameBlock env (x.insns, x.successors) y s s ∧
          branch env { x with insns := y.1, successors := y.2 } (execs env y.1 s) =
            branch env x (execs env x.insns s)) ↔
        harmless x.successors setccsNew x.insns = true) := by
  obtain ⟨N, hN⟩ := early0_pass x.insns x.successors
  refine ⟨N, _, hN, fun s hs => ?_⟩
  rw [← earlyPass_iff henv hpaired hform htyped known_new hs]
  refine ⟨And.left, fun h => ⟨h, ?_⟩⟩
  exact SameBlock.branch rfl h

/-- A machine whose flags say "zero" after everything that is not an integral comparison. -/
def zeroEnv : Env :=
  { (default : Env) with
    fCmp := fun _ _ _ => zCodes true false
    testCcs := fun _ => zCodes true false
    call := fun _ _ mem => ⟨0, zCodes true false, mem⟩
    asm := fun _ _ mem => ⟨fun _ => 0, zCodes true false, mem⟩ }

theorem flags_zCodes (right b : Bool) : Flags (zCodes right b) := by
  refine ⟨fun cc h => ?_, fun cc h => ?_⟩
  · revert cc
    cases right <;> cases b <;> decide
  · revert cc
    cases right <;> cases b <;> decide

theorem flagsEnv_zeroEnv : FlagsEnv zeroEnv :=
  ⟨fun _ _ _ => flags_zCodes true false, fun _ => flags_zCodes true false,
    fun _ _ _ => flags_zCodes true false, fun _ _ _ => flags_zCodes true false⟩

theorem typed_of_integral {insn : Insn} (hd : (tsOpt insn.dst).floating = false)
    (h₁ : (tsOpt insn.src1).floating = false) (h₂ : (tsOpt insn.src2).floating = false) :
    Typed (fun _ => false) insn := by
  refine ⟨fun ts r n h => ?_, fun ts r n h => ?_, fun ts r n h => ?_, fun _ _ => hd,
    fun _ => hd.trans h₁.symm, fun _ => h₁.trans h₂.symm⟩
  · rw [h] at hd; exact hd
  · rw [h] at h₁; exact h₁
  · rw [h] at h₂; exact h₂

/-- `x = a > b; r = !x; z = !x`, where the codes of the comparison of `x` with zero are used twice. -/
def notBlock (r : PseudoReg) : Block where
  insns := [insnNew (.set .g) (operandReg .int 1),
    insnNew .cmp none (operandReg .int 1) (operandI .int 0 none),
    insnNew (.set .z) (operandReg .int r),
    insnNew (.set .z) (operandReg .int 3)]

theorem formed_set {c : ConditionCode} (h : c.conditional = true) (d : Option Operand) :
    (insnNew (.set c) d).Formed := by
  refine ⟨by simp [insnNew], fun hd => (nomatch hd), fun c' hc => ?_⟩
  obtain rfl := InsnOp.set.inj hc
  exact h

theorem formed_cmp (a b : Option Operand) : (insnNew .cmp none a b).Formed :=
  ⟨by simp [insnNew], fun _ => rfl, fun _ h => InsnOp.noConfusion h⟩

theorem formed_notBlock (r : PseudoReg) : ∀ i ∈ (notBlock r).insns, i.Formed := by
  intro i hi
  simp only [notBlock, List.mem_cons, List.not_mem_nil, or_false] at hi
  rcases hi with rfl | rfl | rfl | rfl
  · exact formed_set rfl _
  · exact formed_cmp ..
  · exact formed_set rfl _
  · exact formed_set rfl _

theorem typed_notBlock (r : PseudoReg) :
    ∀ i ∈ (notBlock r).insns, Typed (fun _ => false) i := by
  intro i hi
  simp only [notBlock, List.mem_cons, List.not_mem_nil, or_false] at hi
  rcases hi with rfl | rfl | rfl | rfl <;> exact typed_of_integral rfl rfl rfl

theorem early0_iff_not : ∃ N y,
    (∀ n ≥ N, early0 n (notBlock 2).insns (notBlock 2).successors = some y) ∧ ∀ s : State,
      Flags s.ccs → ((SameBlock zeroEnv ((notBlock 2).insns, (notBlock 2).successors) y s s ∧
          branch zeroEnv { notBlock 2 with insns := y.1, successors := y.2 }
            (execs zeroEnv y.1 s) = branch zeroEnv (notBlock 2) (execs zeroEnv (notBlock 2).insns s)) ↔
        harmless (notBlock 2).successors setccsNew (notBlock 2).insns = true) :=
  early0_iff zeroEnv flagsEnv_zeroEnv (fun _ => false) (notBlock 2) (formed_notBlock 2)
    (typed_notBlock 2) fun _ _ h => nomatch h

theorem early0_flips : ¬ ∀ (env : Env) (floating : PseudoReg → Bool) (x : Block) (s : State) (n : Nat)
    (y : List Insn × List Cessor), FlagsEnv env → (∀ i ∈ x.insns, i.Formed) →
      (∀ i ∈ x.insns, Typed floating i) → Paired x.successors → Flags s.ccs →
        early0 n x.insns x.successors = some y →
          SameBlock env (x.insns, x.successors) y s s := by
  intro h
  obtain ⟨y, hy⟩ : ∃ y, early0 9 (notBlock 1).insns (notBlock 1).successors = some y :=
    Option.isSome_iff_exists.mp (by decide)
  have hsame := h zeroEnv (fun _ => false) (notBlock 1) { (default : State) with ccs := zCodes true true }
    9 y flagsEnv_zeroEnv (formed_notBlock 1) (typed_notBlock 1) (fun _ _ h => nomatch h)
    (flags_zCodes true true) hy
  -- `z` sees the opposite
  have hz := hsame.outcomes
  have hy' : y = ((early0 9 (notBlock 1).insns (notBlock 1).successors).getD ([], [])) := by
    rw [hy]; rfl
  rw [hy'] at hz
  revert hz
  decide

end Ncc.Testz
