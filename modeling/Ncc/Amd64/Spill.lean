import Ncc.Amd64.Insn

/-! Spill registers (graph.c: `spill`, `rewrite0`; amd64/reg.c).

    Each class has two registers for spills. An insn whose pseudo-registers are spilled takes one
    after the other, and `spill` follows a null pointer when both are taken. A call defines all
    four. -/

namespace Ncc.Amd64

/-! ### Rewriting an insn -/

/-- `amd64_ispills`. -/
def ispills : List PseudoReg := [r10, r11]

/-- `amd64_fspills`. -/
def fspills : List PseudoReg := [xmm 6, xmm 7]

/-- `amd64_reg_spills`, in an empty set. -/
def regSpills (r : PseudoReg) : Regs :=
  (if amd64IsIreg r then ispills else fspills).foldl regsAdd []

/-- An insn, and the registers loaded before it and stored after it (`gen_spill_in` and
    `gen_spill_out`), each with the one that is spilled. -/
structure Rewritten where
  spillIn : List (PseudoReg × PseudoReg)
  insn : TargetInsn
  spillOut : List (PseudoReg × PseudoReg)

/-- `spill`, unless `regs_r` is null. -/
def spill (n : PseudoReg) (st : Rewritten) : Option Rewritten :=
  let uses := (insnUsesRegs st.insn []).1
  let defs := (insnDefsRegs st.insn []).1
  match regsDiff (regsDiff (regSpills n) uses) defs with
  | [] => none
  | spillReg :: _ => some
    { spillIn := if n ∈ uses then st.spillIn ++ [(spillReg, n)] else st.spillIn
      insn := insnSubstituteReg st.insn n spillReg
      spillOut := if n ∈ defs then (spillReg, n) :: st.spillOut else st.spillOut }

/-- The loop of `rewrite0` over the registers of an insn, given the colors of the nodes. -/
def rewriteRegs (color : PseudoReg → PseudoReg) : Regs → Rewritten → Option Rewritten
  | [], st => some st
  | r :: rs, st =>
    if isPhysical r then rewriteRegs color rs st
    else if color r = regNone then (spill r st).bind (rewriteRegs color rs)
    else rewriteRegs color rs { st with insn := insnSubstituteReg st.insn r (color r) }

/-- The registers that an insn uses and defines. -/
def regsOf (insn : TargetInsn) : Regs := (insnDefsRegs insn (insnUsesRegs insn []).1).1

/-- What `rewrite0` makes of an insn. -/
def rewrite0 (color : PseudoReg → PseudoReg) (insn : TargetInsn) : Option Rewritten :=
  rewriteRegs color (regsOf insn) ⟨[], insn, []⟩

/-! ### What is free -/

/-- Index registers are integer registers. -/
def TargetInsn.Indexes (insn : TargetInsn) : Prop := ∀ o ∈ insn.amd64, amd64IsIreg o.idx = true

/-- Pseudo-registers have colors of their class, or none when they are spilled. -/
def Colors (color : PseudoReg → PseudoReg) : Prop :=
  ∀ r, isPhysical r = false → color r = regNone ∨ color r ∈ amd64.colors r

/-- The registers of an insn that are spilled. -/
def spilled (color : PseudoReg → PseudoReg) (rs : Regs) : List PseudoReg :=
  rs.filter fun r => !isPhysical r && decide (color r = regNone)

/-- A call has no spilled registers, and another insn has no more spilled integer registers than there
    are spill registers that it does not mention: both, as the code generator never names them. -/
def SpillsFit (color : PseudoReg → PseudoReg) (insn : TargetInsn) : Prop :=
  (insn.op.isCall = true → spilled color (regsOf insn) = []) ∧
    ((spilled color (regsOf insn)).filter amd64IsIreg).length ≤
      (ispills.filter fun r => r ∉ regsOf insn).length

/-! ### Finding a spill register -/

section
variable {color : PseudoReg → PseudoReg} {r : PseudoReg} {rs : Regs}

theorem spilled_cons_pos (hr : isPhysical r = false) (hcolor : color r = regNone) :
    spilled color (r :: rs) = r :: spilled color rs :=
  List.filter_cons_of_pos (by simp [hr, hcolor])

theorem spilled_cons_neg (h : isPhysical r = true ∨ color r ≠ regNone) :
    spilled color (r :: rs) = spilled color rs :=
  List.filter_cons_of_neg (by rcases h with h | h <;> simp [h])

end

section
variable {color : PseudoReg → PseudoReg} {insn : TargetInsn} {st : Rewritten} {n q r aft : PseudoReg}

theorem mem_regsOf : q ∈ regsOf insn ↔ insn.Mentions q := by
  rw [regsOf, insnDefsRegs, insnUsesRegs, ← regsUnion, ← regsUnion, mem_regsUnion, mem_regsUnion]
  simp [TargetInsn.Mentions, or_comm]

theorem sorted_regsOf (insn : TargetInsn) : (regsOf insn).Pairwise (· < ·) := by
  rw [regsOf, insnDefsRegs, insnUsesRegs, ← regsUnion, ← regsUnion]
  exact sorted_regsUnion _ (sorted_regsUnion _ List.Pairwise.nil)

theorem nodup_regsOf (insn : TargetInsn) : (regsOf insn).Nodup :=
  (sorted_regsOf insn).imp fun h => BitVec.ne_of_lt h

theorem regSpills_eq (r : PseudoReg) : regSpills r = if amd64IsIreg r then ispills else fspills := by
  unfold regSpills
  split <;> decide

/-- A spill register is of the class. -/
theorem isIreg_of_mem_regSpills (h : q ∈ regSpills r) : amd64IsIreg q = amd64IsIreg r := by
  rw [regSpills_eq] at h
  cases hr : amd64IsIreg r with
  | true =>
    rw [hr] at h
    exact List.all_eq_true.mp (by decide) q h
  | false =>
    rw [hr] at h
    have hall : fspills.all (fun q => !amd64IsIreg q) = true := by decide
    simpa using List.all_eq_true.mp hall q h

theorem ne_regNone_of_physical_spill (h : q ∈ regSpills r) : q ≠ regNone ∧ isPhysical q = true := by
  have hall : (ispills ++ fspills).all (fun q => q != regNone && isPhysical q) = true := by decide
  have hmem : q ∈ ispills ++ fspills := by
    rw [regSpills_eq] at h
    split at h
    · exact List.mem_append_left _ h
    · exact List.mem_append_right _ h
  simpa using List.all_eq_true.mp hall q hmem

/-- A color is of the class, and no spill register of integers. -/
theorem color_spec (h : q ∈ amd64.colors r) :
    amd64IsIreg q = amd64IsIreg r ∧ q ≠ regNone ∧ q ∉ ispills := by
  have hints : ([2, 3, 4, 0, 1, 7, 8, 11, 12, 13, 14, 15] : List PseudoReg).all
      (fun q => amd64IsIreg q && q != regNone && !ispills.contains q) = true := by decide
  have hfloats : ((List.range 14).map fun i => BitVec.ofNat 32 i ||| 0x00100000).all
      (fun q : PseudoReg => !amd64IsIreg q && q != regNone && !ispills.contains q) = true := by decide
  have hmem : q ∈ if amd64IsIreg r then [2, 3, 4, 0, 1, 7, 8, 11, 12, 13, 14, 15]
      else (List.range 14).map fun i => BitVec.ofNat 32 i ||| 0x00100000 := by
    have hunion : q ∈ regsUnion [] (amd64.icolors r) := h
    exact (mem_regsUnion.mp hunion).resolve_left List.not_mem_nil
  cases hr : amd64IsIreg r with
  | true =>
    rw [hr] at hmem
    simpa [and_assoc] using List.all_eq_true.mp hints q hmem
  | false =>
    rw [hr] at hmem
    simpa [and_assoc] using List.all_eq_true.mp hfloats q hmem

theorem regsDiff_sublist (src dst : Regs) : (regsDiff dst src).Sublist dst := by
  induction src generalizing dst with
  | nil => exact List.Sublist.refl dst
  | cons q src ih => exact (ih (dst.erase q)).trans List.erase_sublist

/-- `spill` takes a register that the insn does not mention, if there is one. -/
theorem spill_cases (n : PseudoReg) (st : Rewritten) :
    spill n st = none ∧ (∀ s ∈ regSpills n, st.insn.Mentions s) ∨
      ∃ s ∈ regSpills n, ¬ st.insn.Mentions s ∧
        ∃ st', spill n st = some st' ∧ st'.insn = insnSubstituteReg st.insn n s := by
  have hnd : (regSpills n).Nodup := by
    rw [regSpills_eq]
    split <;> decide
  have hnd' := hnd.sublist (regsDiff_sublist (insnUsesRegs st.insn []).1 (regSpills n))
  have hmem : ∀ s, s ∈ regsDiff (regsDiff (regSpills n) (insnUsesRegs st.insn []).1)
      (insnDefsRegs st.insn []).1 ↔ s ∈ regSpills n ∧ ¬ st.insn.Mentions s := by
    intro s
    rw [mem_regsDiff hnd', mem_regsDiff hnd, insnUsesRegs, insnDefsRegs, ← regsUnion, ← regsUnion,
      mem_regsUnion, mem_regsUnion, TargetInsn.Mentions]
    simp only [List.not_mem_nil, false_or]
    tauto
  unfold spill
  dsimp only
  cases hdiff : regsDiff (regsDiff (regSpills n) (insnUsesRegs st.insn []).1)
      (insnDefsRegs st.insn []).1 with
  | nil =>
    refine Or.inl ⟨rfl, fun s hs => ?_⟩
    by_contra hno
    have hin := (hmem s).mpr ⟨hs, hno⟩
    rw [hdiff] at hin
    exact absurd hin List.not_mem_nil
  | cons s l =>
    obtain ⟨hs, hno⟩ := (hmem s).mp (hdiff ▸ List.mem_cons_self)
    exact Or.inr ⟨s, hs, hno, _, rfl, rfl⟩

/-! ### Calls -/

theorem mentions_of_call (hcall : insn.op.isCall = true) (h : q ∈ regSpills n) : insn.Mentions q := by
  have hall : (ispills ++ fspills).all
      (fun q => (itrash ++ (List.range nrFtrash).map xmm).contains q) = true := by decide
  have hmem : q ∈ ispills ++ fspills := by
    rw [regSpills_eq] at h
    split at h
    · exact List.mem_append_left _ h
    · exact List.mem_append_right _ h
  have hdefs : insn.op.defs = itrash ++ (List.range nrFtrash).map xmm := by
    cases hop : insn.op <;> rw [hop] at hcall <;> first | rfl | exact absurd hcall (by decide)
  refine Or.inl (List.mem_append_right _ ?_)
  rw [hdefs]
  simpa using List.all_eq_true.mp hall q hmem

theorem rewriteRegs_call {rs : Regs} (hcall : st.insn.op.isCall = true) :
    (rewriteRegs color rs st).isSome = true ↔ spilled color rs = [] := by
  induction rs generalizing st with
  | nil => simp [rewriteRegs, spilled]
  | cons r rs ih =>
    rw [rewriteRegs]
    split_ifs with hphys hcolor
    · rw [ih hcall, spilled_cons_neg (Or.inl hphys)]
    · rcases spill_cases r st with ⟨hnone, -⟩ | ⟨s, hs, hno, -⟩
      · rw [hnone, spilled_cons_pos (Bool.eq_false_iff.mpr hphys) hcolor]
        simp
      · exact absurd (mentions_of_call hcall hs) hno
    · rw [spilled_cons_neg (Or.inr hcolor)]
      exact ih hcall

/-! ### Other insns -/

/-- The spill registers for integers that an insn does not mention. -/
def free (insn : TargetInsn) : Nat := (ispills.filter fun r => r ∉ regsOf insn).length

/-- The only floating-point register that is implied is the result of a function. -/
theorem implied_of_float (hcall : insn.op.isCall = false) (hq : amd64IsIreg q = false)
    (hzero : q ≠ xmm 0) : q ∉ insn.op.defs ∧ q ∉ insn.op.uses := by
  have hints : ∀ {l : List PseudoReg}, l.all amd64IsIreg = true → q ∉ l := by
    intro l hl h
    rw [List.all_eq_true.mp hl q h] at hq
    exact absurd hq (by decide)
  constructor
  · unfold Opcode.defs
    split
    · exact absurd hcall (by simp_all [Opcode.isCall])
    all_goals exact hints (by decide)
  · unfold Opcode.uses
    split
    · exact absurd hcall (by simp_all [Opcode.isCall])
    all_goals first | exact hints (by decide) | simpa using hzero

/-- An operand has one floating-point register, so there are two in an insn. -/
theorem free_fspill (hcall : insn.op.isCall = false) (hidx : insn.Indexes)
    (hn : amd64IsIreg n = false) (hphys : isPhysical n = false) (hmen : insn.Mentions n) :
    ∃ s ∈ regSpills n, ¬ insn.Mentions s := by
  -- an operand that mentions a floating-point register has it as its base
  have hplace : ∀ q, amd64IsIreg q = false → q ≠ xmm 0 → insn.Mentions q →
      ∃ k < 2, ∃ o, insn.amd64[k]? = some o ∧ o.reg = q := by
    intro q hq hzero hmen
    have himplied : q ∉ insn.op.defs ∧ q ∉ insn.op.uses := implied_of_float hcall hq hzero
    have hdef : ∀ k, q ∈ defsRegs0 insn k → ∃ o, insn.amd64[k]? = some o ∧ o.reg = q := by
      intro k h
      unfold defsRegs0 at h
      cases ho : insn.amd64[k]? with
      | none => simp [ho] at h
      | some o =>
        simp only [ho] at h
        split_ifs at h
        · exact ⟨o, rfl, (List.mem_singleton.mp h).symm⟩
        · exact absurd h List.not_mem_nil
    have huse : ∀ k, q ∈ usesRegs0 insn k → ∃ o, insn.amd64[k]? = some o ∧ o.reg = q := by
      intro k h
      unfold usesRegs0 at h
      cases ho : insn.amd64[k]? with
      | none => simp [ho] at h
      | some o =>
        simp only [ho] at h
        split_ifs at h
        · have hmem : q = o.reg ∨ q = o.idx := by simpa using (List.mem_filter.mp h).1
          rcases hmem with hmem | hmem
          · exact ⟨o, rfl, hmem.symm⟩
          · rw [hmem, hidx o (List.mem_of_getElem? ho)] at hq
            exact absurd hq (by decide)
        · exact absurd h List.not_mem_nil
    rcases hmen with hmen | hmen
    · rcases List.mem_append.mp hmen with hmen | hmen
      · rcases List.mem_append.mp hmen with hmen | hmen
        · exact ⟨0, by decide, hdef 0 hmen⟩
        · exact ⟨1, by decide, hdef 1 hmen⟩
      · exact absurd hmen himplied.1
    · rcases List.mem_append.mp hmen with hmen | hmen
      · rcases List.mem_append.mp hmen with hmen | hmen
        · exact ⟨0, by decide, huse 0 hmen⟩
        · exact ⟨1, by decide, huse 1 hmen⟩
      · exact absurd hmen himplied.2
  by_contra hall
  push Not at hall
  rw [regSpills_eq, hn] at hall
  obtain ⟨k, hk, o, ho, hreg⟩ := hplace n hn (fun h => by simp [h, isPhysical_xmm] at hphys) hmen
  obtain ⟨k₁, hk₁, o₁, ho₁, hreg₁⟩ := hplace (xmm 6) (by decide) (by decide) (hall _ (by decide))
  obtain ⟨k₂, hk₂, o₂, ho₂, hreg₂⟩ := hplace (xmm 7) (by decide) (by decide) (hall _ (by decide))
  have hne : ∀ i < 8, n ≠ xmm i := fun i hi h => by simp [h, isPhysical_xmm hi] at hphys
  have hsame : ∀ {k k' : Nat} {o o' : Operand}, insn.amd64[k]? = some o → insn.amd64[k']? = some o' →
      k = k' → o.reg = o'.reg := by
    rintro k k' o o' h h' rfl
    rw [h] at h'
    exact congrArg Operand.reg (Option.some.inj h')
  have hfirst : k ≠ k₁ := fun h => hne 6 (by decide) (hreg ▸ hreg₁ ▸ hsame ho ho₁ h)
  have hsecond : k ≠ k₂ := fun h => hne 7 (by decide) (hreg ▸ hreg₂ ▸ hsame ho ho₂ h)
  have hthird : k₁ ≠ k₂ := fun h =>
    absurd (hreg₁ ▸ hreg₂ ▸ hsame ho₁ ho₂ h : xmm 6 = xmm 7) (by decide)
  omega

/-- Any other register takes no spill register for integers. -/
theorem free_substitute (hn : isPhysical n = false) (haft : aft ≠ regNone) (h : aft ∉ ispills) :
    free (insnSubstituteReg insn n aft) = free insn := by
  have hphys : ispills.all isPhysical = true := by decide
  rw [free, free]
  congr 1
  refine List.filter_congr fun q hq => ?_
  have hne : q ≠ n := fun hqn => by
    rw [← hqn, List.all_eq_true.mp hphys q hq] at hn
    exact absurd hn (by decide)
  have hne' : q ≠ aft := fun hqa => h (hqa ▸ hq)
  refine decide_eq_decide.mpr (not_congr ?_)
  rw [mem_regsOf, mem_regsOf, mentions_substitute hn haft]
  simp [hne, hne']

/-- A spill register is taken. -/
theorem free_spill (hn : isPhysical n = false) (hmen : insn.Mentions n) (hs : q ∈ ispills)
    (hno : ¬ insn.Mentions q) : free (insnSubstituteReg insn n q) + 1 = free insn := by
  have hq : q ≠ regNone ∧ isPhysical q = true := ne_regNone_of_physical_spill (r := 0) hs
  have hmem : ∀ x, isPhysical x = true →
      (x ∈ regsOf (insnSubstituteReg insn n q) ↔ x = q ∨ x ∈ regsOf insn) := by
    intro x hx
    have hne : x ≠ n := fun h => by
      rw [h, hn] at hx
      exact absurd hx (by decide)
    rw [mem_regsOf, mentions_substitute hn hq.1, mem_regsOf]
    simp [hmen, hne]
  have h10 := hmem r10 (by decide)
  have h11 := hmem r11 (by decide)
  rw [← mem_regsOf] at hno
  simp only [ispills, List.mem_cons, List.not_mem_nil, or_false] at hs
  rcases hs with rfl | rfl
  · simp [free, ispills, List.filter_cons, h10, h11, hno, show r11 ≠ r10 by decide]
  · simp [free, ispills, List.filter_cons, h10, h11, hno, show r10 ≠ r11 by decide]
    split <;> rfl

theorem indexes_substitute (hidx : insn.Indexes) (hclass : amd64IsIreg aft = amd64IsIreg n) :
    (insnSubstituteReg insn n aft).Indexes := by
  intro o ho
  obtain ⟨k, hk, rfl⟩ := List.mem_mapIdx.mp ho
  have hold := hidx _ (List.getElem_mem hk)
  have hnew : amd64IsIreg (substituted n aft insn.amd64[k].idx) = true := by
    unfold substituted
    split_ifs with h
    · rw [hclass, ← h, hold]
    · exact hold
  by_cases h : opDefs insn.op.insnOp k = true ∧ insn.amd64[k].cls ≠ .mem ∨
      opUses insn.op.insnOp k = true ∨ insn.amd64[k].cls = .mem
  · rw [substitute0_eq h]
    exact hnew
  · push Not at h
    have hsame : substitute0 insn.op.insnOp n aft k insn.amd64[k] = insn.amd64[k] := by
      have hdef : ¬ (opDefs insn.op.insnOp k = true ∧ insn.amd64[k].cls ≠ .mem) :=
        fun hd => h.2.2 (h.1 hd.1)
      have huse : ¬ (opUses insn.op.insnOp k = true ∨ insn.amd64[k].cls = .mem) :=
        fun hu => hu.elim h.2.1 h.2.2
      simp only [substitute0, if_neg hdef, if_neg huse]
    rw [hsame]
    exact hold

/-- The rest of the registers are still mentioned. -/
theorem mentions_rest {rs : Regs} (hn : isPhysical n = false) (haft : aft ≠ regNone)
    (hnd : n ∉ rs) (hmen : ∀ q ∈ n :: rs, insn.Mentions q) :
    ∀ q ∈ rs, (insnSubstituteReg insn n aft).Mentions q := by
  intro q hq
  have hne : q ≠ n := fun h => hnd (h ▸ hq)
  exact (mentions_substitute hn haft).mpr (Or.inr ⟨hne, hmen q (List.mem_cons_of_mem _ hq)⟩)

/-- Each spilled integer register takes one of those that are free. -/
theorem rewriteRegs_isSome {rs : Regs} (hcolors : Colors color) (hcall : st.insn.op.isCall = false)
    (hidx : st.insn.Indexes) (hnd : rs.Nodup) (hmen : ∀ r ∈ rs, st.insn.Mentions r) :
    (rewriteRegs color rs st).isSome = true ↔
      ((spilled color rs).filter amd64IsIreg).length ≤ free st.insn := by
  induction rs generalizing st with
  | nil => simp [rewriteRegs, spilled]
  | cons r rs ih =>
    have hnd' := List.nodup_cons.mp hnd
    rw [rewriteRegs]
    split_ifs with hphys hcolor
    · rw [spilled_cons_neg (Or.inl hphys)]
      exact ih hcall hidx hnd'.2 fun q hq => hmen q (List.mem_cons_of_mem _ hq)
    · -- spilled
      have hphys := Bool.eq_false_iff.mpr hphys
      have hr := hmen r List.mem_cons_self
      rw [spilled_cons_pos hphys hcolor]
      have hnext : ∀ {s st'}, s ∈ regSpills r → st'.insn = insnSubstituteReg st.insn r s →
          ((rewriteRegs color rs st').isSome = true ↔
            ((spilled color rs).filter amd64IsIreg).length ≤ free st'.insn) := by
        intro s st' hs hst'
        have hnone := (ne_regNone_of_physical_spill hs).1
        refine ih ?_ ?_ hnd'.2 ?_
        · rw [hst']
          exact hcall
        · rw [hst']
          exact indexes_substitute hidx (isIreg_of_mem_regSpills hs)
        · rw [hst']
          exact mentions_rest hphys hnone hnd'.1 hmen
      cases hclass : amd64IsIreg r with
      | true =>
        have hspills : regSpills r = ispills := by rw [regSpills_eq, hclass, if_pos rfl]
        rw [List.filter_cons_of_pos hclass, List.length_cons]
        rcases spill_cases r st with ⟨hnone, hall⟩ | ⟨s, hs, hno, st', hsome, hst'⟩
        · have hfree : free st.insn = 0 := by
            rw [free, List.length_eq_zero_iff, List.filter_eq_nil_iff]
            intro q hq
            simpa [mem_regsOf] using hall q (hspills ▸ hq)
          rw [hnone, hfree]
          simp
        · rw [hsome, Option.bind_some, hnext hs hst', hst']
          have hfree := free_spill hphys hr (hspills ▸ hs) hno
          omega
      | false =>
        rw [List.filter_cons_of_neg (by simp [hclass])]
        obtain ⟨s₀, hs₀, hno₀⟩ := free_fspill hcall hidx hclass hphys hr
        rcases spill_cases r st with ⟨-, hall⟩ | ⟨s, hs, -, st', hsome, hst'⟩
        · exact absurd (hall s₀ hs₀) hno₀
        · have hnone := (ne_regNone_of_physical_spill hs).1
          have hfloat : s ∉ ispills := by
            intro hin
            have hall : ispills.all amd64IsIreg = true := by decide
            have hint := List.all_eq_true.mp hall s hin
            rw [isIreg_of_mem_regSpills hs, hclass] at hint
            exact absurd hint (by decide)
          rw [hsome, Option.bind_some, hnext hs hst', hst', free_substitute hphys hnone hfloat]
    · -- colored
      have hphys := Bool.eq_false_iff.mpr hphys
      obtain ⟨hclass, hnone, hfree⟩ := color_spec ((hcolors r hphys).resolve_left hcolor)
      rw [spilled_cons_neg (Or.inr hcolor), ← free_substitute hphys hnone hfree]
      exact ih hcall (indexes_substitute hidx hclass) hnd'.2 (mentions_rest hphys hnone hnd'.1 hmen)

end

/-! ### Spilling -/

/-- What is expected of spilling: whatever pseudo-registers of an insn are spilled, `spill` finds a
    register for each. -/
def SpillAvailable : Prop :=
  ∀ (color : PseudoReg → PseudoReg) (insn : TargetInsn), Colors color → insn.Indexes →
    (rewrite0 color insn).isSome = true

/-- `spill` finds a register every time exactly if the insn is no call with a spilled register, and has
    no more spilled integer registers than there are spill registers left for them. -/
theorem rewrite0_isSome_iff {color : PseudoReg → PseudoReg} {insn : TargetInsn}
    (hcolors : Colors color) (hidx : insn.Indexes) :
    (rewrite0 color insn).isSome = true ↔ SpillsFit color insn := by
  cases hcall : insn.op.isCall with
  | true =>
    rw [rewrite0, rewriteRegs_call hcall, SpillsFit, hcall]
    refine ⟨fun h => ⟨fun _ => h, by simp [h]⟩, fun h => h.1 rfl⟩
  | false =>
    rw [rewrite0, rewriteRegs_isSome hcolors hcall hidx (nodup_regsOf insn)
      fun r hr => mem_regsOf.mp hr, SpillsFit, hcall]
    simp [free]

/-- `movq %i16q,(%i17q,%i18q,8)`: p[i] = x. -/
def storeElement : TargetInsn :=
  ⟨.movq,
    [operandReg .long 16 0, { operandNew .mem .long 1 with reg := 17, idx := 18, scale := 8 }], rfl⟩

/-- `call *%i16q`. -/
def callPointer : TargetInsn := ⟨.call 0 0, [operandReg .ulong 16 0], rfl⟩

theorem indexes_storeElement : storeElement.Indexes := by
  unfold TargetInsn.Indexes storeElement
  simp only [List.forall_mem_cons]
  exact ⟨by decide, by decide, by simp⟩

theorem rewrite0_storeElement :
    (rewrite0 (fun r => if r = 16 then rax else regNone) storeElement).isSome = true := by
  refine (rewrite0_isSome_iff ?_ indexes_storeElement).mpr ⟨by decide, by decide⟩
  intro r _
  by_cases h : r = 16
  · subst h
    exact Or.inr (by decide)
  · exact Or.inl (if_neg h)

/-- There is no third register for the index, and none at all for a pointer that is called. -/
theorem not_spillAvailable :
    ¬ SpillAvailable ∧ (rewrite0 (fun _ => regNone) storeElement).isSome = false ∧
      (rewrite0 (fun _ => regNone) callPointer).isSome = false := by
  have hstore : (rewrite0 (fun _ => regNone) storeElement).isSome = false := by decide
  refine ⟨fun h => ?_, hstore, by decide⟩
  rw [h _ _ (fun _ _ => Or.inl rfl) indexes_storeElement] at hstore
  exact absurd hstore (by decide)

end Ncc.Amd64
