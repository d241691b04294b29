import Ncc.Exec

/-! Operands of AMD64 insns, and their combination into addressing modes (amd64/insn.h,
    amd64/insn.c).

    Whatever its class, an operand that is no memory reference stands for the sum of what it
    mentions: `address` is that sum. `operandsCombine` adds two operands into one, except that of
    two scaled registers it loses one (`operandsCombine_spec`). -/

namespace Ncc.Amd64

/-- AMD64_REG_RBP. -/
def rbp : PseudoReg := 5

/-- AMD64_REG_IS_PSEUDO, negated: the physical registers. -/
def isPhysical (r : PseudoReg) : Bool := (r &&& 0xFFFFF) < 16

/-- AMD64_O_*. -/
inductive OperandClass where
  | reg | con | mem | eff
  deriving DecidableEq, Repr

/-- `struct amd64_operand`. -/
structure Operand where
  cls : OperandClass
  ts : TypeBits
  reg : PseudoReg
  idx : PseudoReg
  scale : Nat
  sym : Option Symbol
  i : Word
  age : Nat
  deriving DecidableEq

/-- `amd64_operand_new`, with the class. -/
def operandNew (cls : OperandClass) (ts : TypeBits) (age : Nat) : Operand :=
  { cls := cls, ts := ts, reg := regNone, idx := regNone, scale := 1, sym := none, i := 0,
    age := age }

/-- `amd64_operand_reg`. -/
def operandReg (ts : TypeBits) (reg : PseudoReg) (age : Nat) : Operand :=
  { operandNew .reg ts age with reg := reg }

/-- `amd64_operand_con`. -/
def operandCon (ts : TypeBits) (i : Word) (sym : Option Symbol) (age : Nat) : Operand :=
  { operandNew .con ts age with i := i, sym := sym }

/-- `amd64_operand_import`. A floating constant is in memory, under the symbol that
    `init_constant_symbol` makes. -/
def operandImport (constant : TypeBits → Word → Symbol) (src : Ncc.Operand) (age : Nat) :
    Operand :=
  match src.val with
  | .reg r => operandReg src.ts r age
  | .con c sym =>
    if src.ts.integral then operandCon src.ts c sym age
    else { operandNew .mem src.ts age with sym := some (constant src.ts c) }

/-- `amd64_operand_based`. The offset is an int. -/
def operandBased (reg : PseudoReg) (offset : BitVec 32) (age : Nat) : Operand :=
  { operandNew .eff .ulong age with reg := reg, i := offset.signExtend 64 }

/-- `amd64_operand_scaled`. -/
def operandScaled (ts : TypeBits) (reg : PseudoReg) (scale : Nat) (age : Nat) : Operand :=
  { operandNew .eff ts age with idx := reg, scale := scale }

/-- T_LONGS. -/
def isLongs : TypeBits → Bool
  | .long | .ulong => true
  | _ => false

/-- AMD64_HUGE_CON. -/
def hugeCon (i : Word) : Bool := i.slt (-0x80000000) || (0x7FFFFFFF : Word).slt i

/-- `amd64_operand_huge`. -/
def operandHuge (o : Operand) : Bool := isLongs o.ts && o.cls = .con && hugeCon o.i

/-- `amd64_operand_degree`. -/
def operandDegree (o : Operand) : Nat :=
  (if o.reg = regNone then 0 else 1) + (if o.idx = regNone then 0 else 1) +
    (if o.sym.isSome ∨ o.i ≠ 0 then 1 else 0) + (if o.scale = 1 then 0 else 1)

/-- A single, unscaled register is always the base register. -/
def normalizeBase (o : Operand) : Operand :=
  if o.idx ≠ regNone ∧ o.scale = 1 ∧ o.reg = regNone then
    { o with reg := o.idx, idx := regNone }
  else o

/-- The class that the parts of an operand make. -/
def normalizeClass (o : Operand) : OperandClass :=
  if o.cls = .mem then .mem
  else if o.reg ≠ regNone ∧ o.idx = regNone ∧ o.i = 0 ∧ o.sym = none then .reg
  else if o.reg = regNone ∧ o.idx = regNone then .con
  else .eff

/-- `amd64_operand_normalize`. -/
def operandNormalize (o : Operand) : Operand :=
  let o := normalizeBase o
  { o with cls := normalizeClass o }

/-- COMBINE0: the registers of an operand. -/
def operandRegCount (o : Operand) : Nat :=
  (if o.reg = regNone then 0 else 1) + (if o.idx = regNone then 0 else 1)

/-- COMBINE0: the scales of an operand. -/
def operandScaleCount (o : Operand) : Nat := if o.scale = 1 then 0 else 1

/-- The registers of a combination. -/
def combineRegs (o₁ o₂ : Operand) : Operand :=
  if o₁.reg ≠ regNone ∧ o₂.reg ≠ regNone then { o₁ with idx := o₂.reg }
  else
    { o₁ with
      reg := if o₁.reg = regNone then o₂.reg else o₁.reg
      idx := if o₁.idx = regNone then o₂.idx else o₁.idx
      scale := if o₁.scale = 1 then o₂.scale else o₁.scale }

/-- What two operands are combined into. -/
def combination (o₁ o₂ : Operand) : Operand :=
  operandNormalize
    { combineRegs o₁ o₂ with
      sym := if o₁.sym = none then o₂.sym else o₁.sym
      i := o₁.i + o₂.i
      age := min o₁.age o₂.age }

/-- `amd64_operands_combine`. -/
def operandsCombine (o₁ o₂ : Operand) : Option Operand :=
  if o₁.cls = .mem ∨ o₂.cls = .mem then none
  else if o₁.sym.isSome ∧ o₂.sym.isSome then none
  else if 2 < operandRegCount o₁ + operandRegCount o₂ ∨
      2 < operandScaleCount o₁ + operandScaleCount o₂ then none
  else if operandHuge o₁ ∨ operandHuge o₂ then none
  else if hugeCon (o₁.i + o₂.i) then none
  else some (combination o₁ o₂)

/-! ### What an operand stands for -/

section
variable (env : Env) (regs : PseudoReg → Word)

/-- A register of an operand, which may be absent. -/
def regWord (r : PseudoReg) : Word := if r = regNone then 0 else regs r

/-- `(reg, idx * scale) + (sym) + (i)`. -/
def Operand.address (o : Operand) : Word :=
  regWord regs o.reg + regWord regs o.idx * BitVec.ofNat 64 o.scale + symWord env o.sym + o.i

end

/-- Does the operand mention the register (`amd64_operand_regs`)? -/
def Operand.mentions (o : Operand) (r : PseudoReg) : Bool :=
  (o.reg ≠ regNone && o.reg = r) || (o.idx ≠ regNone && o.idx = r)

/-- The operand has a scaled index and no base register. -/
def Operand.scaled (o : Operand) : Bool := o.reg = regNone && o.idx ≠ regNone && o.scale ≠ 1

/-- Operands as they are made: only an index is scaled, and an index alone always is. -/
structure Operand.Plain (o : Operand) : Prop where
  unscaled : o.idx = regNone → o.scale = 1
  indexed : o.reg = regNone → o.idx ≠ regNone → o.scale ≠ 1

theorem Operand.Plain.isScaled {o : Operand} (h : o.Plain) (hr : o.reg = regNone)
    (hi : o.idx ≠ regNone) : o.scaled = true := by
  simp [Operand.scaled, hr, hi, h.indexed hr hi]

section
variable {env : Env} {regs regs' : PseudoReg → Word} {o o₁ o₂ c : Operand} {r : PseudoReg}

@[simp] theorem regWord_none : regWord regs regNone = 0 := if_pos rfl

theorem regWord_congr (h : r ≠ regNone → regs r = regs' r) : regWord regs r = regWord regs' r := by
  unfold regWord
  split
  · rfl
  · next hr => exact h hr

/-- An operand changes with the registers it mentions only. -/
theorem address_congr (h : ∀ r, o.mentions r = true → regs r = regs' r) :
    o.address env regs = o.address env regs' := by
  have hreg : regWord regs o.reg = regWord regs' o.reg :=
    regWord_congr fun hr => h _ (by simp [Operand.mentions, hr])
  have hidx : regWord regs o.idx = regWord regs' o.idx :=
    regWord_congr fun hr => h _ (by simp [Operand.mentions, hr])
  rw [Operand.address, Operand.address, hreg, hidx]

theorem plain_of_unindexed (hi : o.idx = regNone) (hs : o.scale = 1) : o.Plain :=
  ⟨fun _ => hs, fun _ h => absurd hi h⟩

@[simp] theorem address_operandReg {ts : TypeBits} {age : Nat} :
    (operandReg ts r age).address env regs = regWord regs r := by
  simp [Operand.address, operandReg, operandNew, symWord]

@[simp] theorem address_operandCon {ts : TypeBits} {i : Word} {sym : Option Symbol} {age : Nat} :
    (operandCon ts i sym age).address env regs = symWord env sym + i := by
  simp [Operand.address, operandCon, operandNew]

theorem address_normalizeBase (o : Operand) :
    (normalizeBase o).address env regs = o.address env regs := by
  unfold normalizeBase
  split
  · next h =>
    obtain ⟨-, hs, hr⟩ := h
    simp [Operand.address, hs, hr]
  · rfl

theorem address_operandNormalize (o : Operand) :
    (operandNormalize o).address env regs = o.address env regs :=
  address_normalizeBase o

theorem mentions_normalizeBase (o : Operand) (r : PseudoReg) :
    (normalizeBase o).mentions r = o.mentions r := by
  unfold normalizeBase
  split
  · next h =>
    obtain ⟨hi, -, hr⟩ := h
    simp [Operand.mentions, hi, hr]
  · rfl

theorem mentions_operandNormalize (o : Operand) (r : PseudoReg) :
    (operandNormalize o).mentions r = o.mentions r :=
  mentions_normalizeBase o r

theorem plain_operandNormalize (h : o.idx = regNone → o.scale = 1) :
    (operandNormalize o).Plain := by
  have hbase : (normalizeBase o).Plain := by
    unfold normalizeBase
    split
    · next hn => exact plain_of_unindexed rfl hn.2.1
    · next hn => exact ⟨h, fun hr hi hs => hn ⟨hi, hs, hr⟩⟩
  exact ⟨hbase.unscaled, hbase.indexed⟩

theorem symWord_add (h : ¬ (o₁.sym.isSome ∧ o₂.sym.isSome)) :
    symWord env (if o₁.sym = none then o₂.sym else o₁.sym) =
      symWord env o₁.sym + symWord env o₂.sym := by
  rcases h₁ : o₁.sym with _ | s₁
  · simp [symWord]
  · rcases h₂ : o₂.sym with _ | s₂
    · simp [symWord]
    · exact absurd (by simp [h₁, h₂]) h

/-- Two indexed operands that combine have no base registers. -/
theorem reg_of_indexed (hcount : operandRegCount o₁ + operandRegCount o₂ ≤ 2)
    (hi₁ : o₁.idx ≠ regNone) (hi₂ : o₂.idx ≠ regNone) : o₁.reg = regNone ∧ o₂.reg = regNone := by
  constructor <;> by_contra hne <;>
    simp only [operandRegCount, hi₁, hi₂, hne, if_false] at hcount <;> omega

/-- The registers of a combination, unless both operands have an index. -/
theorem combineRegs_sum (h₁ : o₁.idx = regNone → o₁.scale = 1)
    (h₂ : o₂.idx = regNone → o₂.scale = 1)
    (hcount : operandRegCount o₁ + operandRegCount o₂ ≤ 2)
    (hi : o₁.idx = regNone ∨ o₂.idx = regNone) :
    regWord regs (combineRegs o₁ o₂).reg +
        regWord regs (combineRegs o₁ o₂).idx * BitVec.ofNat 64 (combineRegs o₁ o₂).scale =
      (regWord regs o₁.reg + regWord regs o₁.idx * BitVec.ofNat 64 o₁.scale) +
        (regWord regs o₂.reg + regWord regs o₂.idx * BitVec.ofNat 64 o₂.scale) := by
  by_cases hr : o₁.reg ≠ regNone ∧ o₂.reg ≠ regNone
  · -- two base registers leave no room for an index
    obtain ⟨hr₁, hr₂⟩ := hr
    have hnone : o₁.idx = regNone ∧ o₂.idx = regNone := by
      constructor <;> by_contra hne <;>
        simp only [operandRegCount, hr₁, hr₂, hne, if_false] at hcount <;> omega
    simp [combineRegs, hr₁, hr₂, hnone.1, hnone.2, h₁ hnone.1, h₂ hnone.2]
  · have hbase : regWord regs (combineRegs o₁ o₂).reg =
        regWord regs o₁.reg + regWord regs o₂.reg := by
      by_cases hr₁ : o₁.reg = regNone
      · simp [combineRegs, hr₁]
      · have hr₂ : o₂.reg = regNone := by_contra fun hr₂ => hr ⟨hr₁, hr₂⟩
        simp [combineRegs, hr₁, hr₂]
    have hidx : regWord regs (combineRegs o₁ o₂).idx *
          BitVec.ofNat 64 (combineRegs o₁ o₂).scale =
        regWord regs o₁.idx * BitVec.ofNat 64 o₁.scale +
          regWord regs o₂.idx * BitVec.ofNat 64 o₂.scale := by
      rw [combineRegs, if_neg hr]
      by_cases hi₁ : o₁.idx = regNone
      · simp [hi₁, h₁ hi₁]
      · have hi₂ := hi.resolve_left hi₁
        by_cases hs₁ : o₁.scale = 1 <;> simp [hi₁, hi₂, h₂ hi₂, hs₁]
    rw [hbase, hidx]
    ac_rfl

/-- The registers of a combination, unless both operands are scaled. -/
theorem combineRegs_words (h₁ : o₁.Plain) (h₂ : o₂.Plain)
    (hcount : operandRegCount o₁ + operandRegCount o₂ ≤ 2)
    (hs : ¬ (o₁.scaled = true ∧ o₂.scaled = true)) :
    regWord regs (combineRegs o₁ o₂).reg +
        regWord regs (combineRegs o₁ o₂).idx * BitVec.ofNat 64 (combineRegs o₁ o₂).scale =
      (regWord regs o₁.reg + regWord regs o₁.idx * BitVec.ofNat 64 o₁.scale) +
        (regWord regs o₂.reg + regWord regs o₂.idx * BitVec.ofNat 64 o₂.scale) := by
  refine combineRegs_sum h₁.unscaled h₂.unscaled hcount ?_
  by_contra hi
  obtain ⟨hi₁, hi₂⟩ := not_or.mp hi
  obtain ⟨hr₁, hr₂⟩ := reg_of_indexed hcount hi₁ hi₂
  exact hs ⟨h₁.isScaled hr₁ hi₁, h₂.isScaled hr₂ hi₂⟩

/-- Combinations, and what else is kept as a register's address. -/
structure Operand.Combined (o : Operand) : Prop extends o.Plain where
  notMem : o.cls ≠ .mem
  small : hugeCon o.i = false

theorem normalizeBase_cls (o : Operand) : (normalizeBase o).cls = o.cls := by
  unfold normalizeBase
  split <;> rfl

theorem normalizeBase_i (o : Operand) : (normalizeBase o).i = o.i := by
  unfold normalizeBase
  split <;> rfl

theorem normalizeClass_ne_mem (h : o.cls ≠ .mem) : normalizeClass o ≠ .mem := by
  unfold normalizeClass
  rw [if_neg h]
  split
  · simp
  · split <;> simp

/-- What `operandsCombine` asks for, and the combination. -/
theorem operandsCombine_some (h : operandsCombine o₁ o₂ = some c) :
    ¬ (o₁.sym.isSome ∧ o₂.sym.isSome) ∧ operandRegCount o₁ + operandRegCount o₂ ≤ 2 ∧
      o₁.cls ≠ .mem ∧ hugeCon (o₁.i + o₂.i) = false ∧
      c = combination o₁ o₂ := by
  unfold operandsCombine at h
  split at h
  · cases h
  · next hmem =>
    split at h
    · cases h
    · next hsym =>
      split at h
      · cases h
      · next hcount =>
        split at h
        · cases h
        · split at h
          · cases h
          · next hhuge =>
            cases h
            exact ⟨hsym, by omega, fun hm => hmem (.inl hm), by simpa using hhuge, rfl⟩

theorem combineRegs_unscaled (h₁ : o₁.idx = regNone → o₁.scale = 1)
    (h₂ : o₂.idx = regNone → o₂.scale = 1) :
    (combineRegs o₁ o₂).idx = regNone → (combineRegs o₁ o₂).scale = 1 := by
  unfold combineRegs
  split
  · next h => exact fun hi => absurd hi h.2
  · dsimp only
    intro hi
    by_cases hi₁ : o₁.idx = regNone
    · rw [if_pos hi₁] at hi
      rw [if_pos (h₁ hi₁), h₂ hi]
    · rw [if_neg hi₁] at hi
      exact absurd hi hi₁

theorem combineRegs_mentions (o : Operand) (hreg : o.reg = (combineRegs o₁ o₂).reg)
    (hidx : o.idx = (combineRegs o₁ o₂).idx) (h : o.mentions r = true) :
    o₁.mentions r = true ∨ o₂.mentions r = true := by
  have hr : (combineRegs o₁ o₂).reg = o₁.reg ∨ (combineRegs o₁ o₂).reg = o₂.reg := by
    unfold combineRegs
    grind
  have hi : (combineRegs o₁ o₂).idx = o₁.idx ∨ (combineRegs o₁ o₂).idx = o₂.idx ∨
      (combineRegs o₁ o₂).idx = o₂.reg := by
    unfold combineRegs
    grind
  simp only [Operand.mentions, hreg, hidx, Bool.or_eq_true, Bool.and_eq_true, decide_eq_true_eq,
    ne_eq] at h ⊢
  rcases h with h | h
  · rcases hr with hr | hr <;> rw [hr] at h <;> tauto
  · rcases hi with hi | hi | hi <;> rw [hi] at h <;> tauto

theorem combineRegs_cls : (combineRegs o₁ o₂).cls = o₁.cls := by
  unfold combineRegs
  split <;> rfl

/-- A combination of operands that are not both scaled stands for their sum. -/
theorem operandsCombine_spec (h₁ : o₁.Plain) (h₂ : o₂.Plain)
    (h : operandsCombine o₁ o₂ = some c) :
    c.Combined ∧ (∀ r, c.mentions r = true → o₁.mentions r = true ∨ o₂.mentions r = true) ∧
      (¬ (o₁.scaled = true ∧ o₂.scaled = true) → ∀ env regs,
        c.address env regs = o₁.address env regs + o₂.address env regs) := by
  obtain ⟨hsym, hcount, hmem, hhuge, rfl⟩ := operandsCombine_some h
  refine ⟨⟨plain_operandNormalize (combineRegs_unscaled h₁.unscaled h₂.unscaled), ?_, ?_⟩, fun r hr => ?_,
    fun hs env regs => ?_⟩
  · refine normalizeClass_ne_mem ?_
    rw [normalizeBase_cls]
    exact combineRegs_cls.trans_ne hmem
  · show hugeCon (normalizeBase _).i = false
    rw [normalizeBase_i]
    exact hhuge
  · rw [combination, mentions_operandNormalize] at hr
    exact combineRegs_mentions _ rfl rfl hr
  · rw [combination, address_operandNormalize]
    show regWord regs (combineRegs o₁ o₂).reg +
        regWord regs (combineRegs o₁ o₂).idx * BitVec.ofNat 64 (combineRegs o₁ o₂).scale +
      symWord env (if o₁.sym = none then o₂.sym else o₁.sym) + (o₁.i + o₂.i) = _
    rw [combineRegs_words h₁ h₂ hcount hs, symWord_add hsym, Operand.address, Operand.address]
    ac_rfl

/-- A register alone. -/
structure Operand.IsReg (o : Operand) : Prop where
  cls : o.cls = .reg
  reg : o.reg ≠ regNone
  idx : o.idx = regNone
  scale : o.scale = 1
  sym : o.sym = none
  i : o.i = 0

/-- Does the operand have a constant part? -/
def Operand.constant (o : Operand) : Nat := if o.sym.isSome ∨ o.i ≠ 0 then 1 else 0

theorem scaled_iff : o.scaled = true ↔ o.reg = regNone ∧ o.idx ≠ regNone ∧ o.scale ≠ 1 := by
  simp [Operand.scaled, and_assoc]

theorem operandDegree_normalize (h : o.scaled = true ∨ o.reg ≠ regNone) :
    operandDegree (operandNormalize o) = operandDegree o := by
  have hn : ¬ (o.idx ≠ regNone ∧ o.scale = 1 ∧ o.reg = regNone) := by
    rintro ⟨-, hsc, hr⟩
    rcases h with h | h
    · exact (scaled_iff.mp h).2.2 hsc
    · exact h hr
  have hbase : normalizeBase o = o := if_neg hn
  show operandDegree { normalizeBase o with cls := _ } = _
  rw [hbase]
  rfl

theorem degree_combination (h₁ : o₁.scaled = true) (h₂ : o₂.IsReg) :
    operandDegree (combination o₁ o₂) = 3 + o₁.constant ∧
      operandDegree (combination o₂ o₁) = 3 + o₁.constant := by
  obtain ⟨hr, hi, hsc⟩ := scaled_iff.mp h₁
  constructor
  · rw [combination, operandDegree_normalize (.inr (by simp [combineRegs, hr, h₂.reg]))]
    cases hsym : o₁.sym <;>
      simp [operandDegree, combineRegs, Operand.constant, hr, hi, hsc, h₂.reg, h₂.sym, h₂.i,
        hsym]
    all_goals omega
  · rw [combination, operandDegree_normalize (.inr (by simp [combineRegs, hr, h₂.reg]))]
    cases hsym : o₁.sym <;>
      simp [operandDegree, combineRegs, Operand.constant, hr, hi, hsc, h₂.reg, h₂.sym, h₂.i,
        h₂.idx, h₂.scale, hsym]
    all_goals omega

/-- A scaled operand and a register always combine. -/
theorem combine_scaled_reg (h₁ : o₁.Combined) (hs : o₁.scaled = true) (h₂ : o₂.IsReg) :
    operandsCombine o₁ o₂ = some (combination o₁ o₂) ∧
      operandsCombine o₂ o₁ = some (combination o₂ o₁) := by
  obtain ⟨hr, hi, hsc⟩ := scaled_iff.mp hs
  have hhuge₁ : operandHuge o₁ = false := by simp [operandHuge, h₁.small]
  have hhuge₂ : operandHuge o₂ = false := by simp [operandHuge, h₂.cls]
  constructor
  · rw [operandsCombine, if_neg (by simp [h₁.notMem, h₂.cls]), if_neg (by simp [h₂.sym]),
      if_neg (by simp [operandRegCount, operandScaleCount, hr, hi, hsc, h₂.reg, h₂.idx, h₂.scale]),
      if_neg (by simp [hhuge₁, hhuge₂]), if_neg (by simp [h₂.i, h₁.small])]
  · rw [operandsCombine, if_neg (by simp [h₁.notMem, h₂.cls]), if_neg (by simp [h₂.sym]),
      if_neg (by simp [operandRegCount, operandScaleCount, hr, hi, hsc, h₂.reg, h₂.idx, h₂.scale]),
      if_neg (by simp [hhuge₁, hhuge₂]), if_neg (by simp [h₂.i, h₁.small])]

/-- What is left of two scaled operands has fewer parts. -/
theorem degree_scaled_scaled (h₁ : o₁.scaled = true) (h₂ : o₂.scaled = true) :
    operandDegree (combination o₁ o₂) ≤ 2 + max o₁.constant o₂.constant := by
  obtain ⟨hr₁, hi₁, hsc₁⟩ := scaled_iff.mp h₁
  obtain ⟨hr₂, hi₂, hsc₂⟩ := scaled_iff.mp h₂
  rw [combination,
    operandDegree_normalize (.inl (by simp [combineRegs, Operand.scaled, hr₁, hr₂, hi₁, hsc₁]))]
  have hk : (if (if o₁.sym = none then o₂.sym else o₁.sym).isSome ∨ o₁.i + o₂.i ≠ 0 then 1 else 0) ≤
      max o₁.constant o₂.constant := by
    unfold Operand.constant
    by_cases hz₁ : o₁.i = 0
    · cases hs₁ : o₁.sym <;> cases hs₂ : o₂.sym <;> simp [hz₁]
    · have hone : (if o₁.sym.isSome ∨ o₁.i ≠ 0 then 1 else 0) = 1 := if_pos (.inr hz₁)
      have hle : ∀ p [Decidable p], (if p then 1 else 0) ≤ 1 := fun p _ => by split <;> decide
      rw [hone]
      exact le_trans (hle _) (le_max_left _ _)
  simp only [operandDegree, combineRegs, hr₁, hr₂, hi₁, hsc₁, ne_eq, not_true_eq_false, false_and,
    if_false, if_true] at hk ⊢
  omega

end

/-! ### Which combinations are sums -/

section
variable (env : Env) (regs : PseudoReg → Word)

/-- What an operand that is no memory reference is read as: its class says which parts count. -/
def Operand.value (o : Operand) : Word :=
  match o.cls with
  | .reg => regWord regs o.reg
  | .con => symWord env o.sym + o.i
  | .eff | .mem => o.address env regs

end

/-- The operands that are no memory reference, as the constructors, `operandsCombine` and
    `operandNormalize` make them: the class has room for every part, and only an index is scaled,
    by what the machine can scale by. -/
structure Operand.Formed (o : Operand) : Prop where
  notMem : o.cls ≠ .mem
  reg : o.cls = .reg → o.reg ≠ regNone ∧ o.idx = regNone ∧ o.sym = none ∧ o.i = 0
  con : o.cls = .con → o.reg = regNone ∧ o.idx = regNone
  scale : o.scale = 1 ∨ o.scale = 2 ∨ o.scale = 4 ∨ o.scale = 8
  unscaled : o.idx = regNone → o.scale = 1

/-- Are `o₁` and `o₂` two index registers, with nothing else that keeps them from combining? -/
def bothIndexed (o₁ o₂ : Operand) : Prop :=
  o₁.idx ≠ regNone ∧ o₂.idx ≠ regNone ∧ o₁.reg = regNone ∧ o₂.reg = regNone ∧
    ¬ (o₁.sym.isSome ∧ o₂.sym.isSome) ∧ hugeCon (o₁.i + o₂.i) = false

/-- `operandsCombine` adds: what it makes of two operands is one operand again, read as their sum,
    also after it is normalized once more. -/
def CombinesToSum (o₁ o₂ : Operand) : Prop :=
  ∀ c, operandsCombine o₁ o₂ = some c → c.Formed ∧ ∀ env regs,
    c.value env regs = o₁.value env regs + o₂.value env regs ∧
      (operandNormalize c).value env regs = c.value env regs

section
variable {env : Env} {regs : PseudoReg → Word} {o o₁ o₂ c : Operand}

/-- An operand is read as the sum of its parts. -/
theorem Operand.Formed.value (h : o.Formed) : o.value env regs = o.address env regs := by
  unfold Operand.value
  cases hc : o.cls with
  | reg =>
    obtain ⟨-, hi, hs, hz⟩ := h.reg hc
    simp [Operand.address, hi, hs, hz, symWord]
  | con =>
    obtain ⟨hr, hi⟩ := h.con hc
    simp [Operand.address, hr, hi]
  | mem => rfl
  | eff => rfl

/-- Normalizing gives an operand the class that its parts need. -/
theorem formed_operandNormalize (hmem : o.cls ≠ .mem)
    (hscale : o.scale = 1 ∨ o.scale = 2 ∨ o.scale = 4 ∨ o.scale = 8)
    (hidx : o.idx = regNone → o.scale = 1) : (operandNormalize o).Formed := by
  have hcls : (normalizeBase o).cls ≠ .mem := by rwa [normalizeBase_cls]
  have hsc : (normalizeBase o).scale = o.scale := by
    unfold normalizeBase
    split <;> rfl
  refine ⟨normalizeClass_ne_mem hcls, fun hc => ?_, fun hc => ?_, ?_,
    (plain_operandNormalize hidx).unscaled⟩
  · have hc' : normalizeClass (normalizeBase o) = .reg := hc
    unfold normalizeClass at hc'
    rw [if_neg hcls] at hc'
    split at hc'
    · next hp => exact ⟨hp.1, hp.2.1, hp.2.2.2, hp.2.2.1⟩
    · split at hc' <;> cases hc'
  · have hc' : normalizeClass (normalizeBase o) = .con := hc
    unfold normalizeClass at hc'
    rw [if_neg hcls] at hc'
    split at hc'
    · cases hc'
    · split at hc'
      · next hp => exact hp
      · cases hc'
  · rwa [show (operandNormalize o).scale = o.scale from hsc]

/-- Normalizing keeps what an operand is read as. -/
theorem value_operandNormalize (h : o.Formed) :
    (operandNormalize o).value env regs = o.value env regs := by
  rw [(formed_operandNormalize h.notMem h.scale h.unscaled).value, address_operandNormalize,
    h.value]

/-- A combination is formed again, so it has one symbol, one base and one index at most. -/
theorem formed_combination (h₁ : o₁.Formed) (h₂ : o₂.Formed) : (combination o₁ o₂).Formed := by
  refine formed_operandNormalize (combineRegs_cls.trans_ne h₁.notMem) ?_ ?_
  · show (combineRegs o₁ o₂).scale = 1 ∨ _
    unfold combineRegs
    split
    · exact h₁.scale
    · dsimp only
      split
      · exact h₂.scale
      · exact h₁.scale
  · exact combineRegs_unscaled h₁.unscaled h₂.unscaled

/-- The address of a combination: its registers, and the constants of both operands. -/
theorem address_combination (hsym : ¬ (o₁.sym.isSome ∧ o₂.sym.isSome)) :
    (combination o₁ o₂).address env regs =
      regWord regs (combineRegs o₁ o₂).reg +
          regWord regs (combineRegs o₁ o₂).idx * BitVec.ofNat 64 (combineRegs o₁ o₂).scale +
        (symWord env o₁.sym + symWord env o₂.sym) + (o₁.i + o₂.i) := by
  rw [combination, address_operandNormalize, ← symWord_add hsym]
  rfl

/-- Of two index registers the combination keeps the first, so some registers tell it from the
    sum. -/
theorem bothIndexed_differs (env : Env) (h₁ : o₁.Formed) (h₂ : o₂.Formed) (h : bothIndexed o₁ o₂) :
    ∃ regs, (combination o₁ o₂).address env regs ≠
      o₁.address env regs + o₂.address env regs := by
  obtain ⟨hi₁, hi₂, hr₁, hr₂, hsym, -⟩ := h
  refine ⟨fun r => if r = o₂.idx then 1 else 0, fun heq => ?_⟩
  have hdrop : ∀ x y : Word, ∀ k₁ k₂ s₁ s₂ : Word,
      x + (k₁ + k₂) + (s₁ + s₂) = (y + k₁ + s₁) + (k₂ + s₂) → x = y := fun x y k₁ k₂ s₁ s₂ h => by
    linear_combination h
  have hlost : (if o₁.idx = o₂.idx then 1 else 0 : Word) *
        BitVec.ofNat 64 (if o₁.scale = 1 then o₂.scale else o₁.scale) =
      (if o₁.idx = o₂.idx then 1 else 0 : Word) * BitVec.ofNat 64 o₁.scale +
        BitVec.ofNat 64 o₂.scale := by
    rw [address_combination hsym, Operand.address, Operand.address] at heq
    refine hdrop _ _ (symWord env o₁.sym) (symWord env o₂.sym) o₁.i o₂.i ?_
    simpa [combineRegs, hr₁, hr₂, hi₁, hi₂, regWord, add_assoc, add_left_comm] using heq
  by_cases hsame : o₁.idx = o₂.idx
  · rw [if_pos hsame] at hlost
    rcases h₁.scale with hs₁ | hs₁ | hs₁ | hs₁ <;> rcases h₂.scale with hs₂ | hs₂ | hs₂ | hs₂ <;>
      simp [hs₁, hs₂] at hlost
  · rw [if_neg hsame] at hlost
    rcases h₂.scale with hs₂ | hs₂ | hs₂ | hs₂ <;> simp [hs₂] at hlost

/-- Two index registers are always combined. -/
theorem operandsCombine_bothIndexed (h₁ : o₁.Formed) (h₂ : o₂.Formed) (h : bothIndexed o₁ o₂) :
    operandsCombine o₁ o₂ = some (combination o₁ o₂) := by
  obtain ⟨hi₁, hi₂, hr₁, hr₂, hsym, hcon⟩ := h
  have hcls₁ : o₁.cls ≠ .con := fun hc => hi₁ (h₁.con hc).2
  have hcls₂ : o₂.cls ≠ .con := fun hc => hi₂ (h₂.con hc).2
  have hscales : operandScaleCount o₁ + operandScaleCount o₂ ≤ 2 := by
    unfold operandScaleCount
    split <;> split <;> omega
  have hregs : operandRegCount o₁ + operandRegCount o₂ = 2 := by
    simp [operandRegCount, hi₁, hi₂, hr₁, hr₂]
  rw [operandsCombine, if_neg (by simp [h₁.notMem, h₂.notMem]), if_neg hsym, if_neg (by omega),
    if_neg (by simp [operandHuge, hcls₁, hcls₂]), if_neg (by simp [hcon])]

/-- Exactly when an operand has an index and the other has none, or something else keeps them
    apart, what `operandsCombine` makes of the two is their sum. -/
theorem operandsCombine_sum_iff (h₁ : o₁.Formed) (h₂ : o₂.Formed) :
    CombinesToSum o₁ o₂ ↔ ¬ bothIndexed o₁ o₂ := by
  constructor
  · intro h hboth
    obtain ⟨regs, hne⟩ := bothIndexed_differs default h₁ h₂ hboth
    have hsum := ((h _ (operandsCombine_bothIndexed h₁ h₂ hboth)).2 default regs).1
    rw [(formed_combination h₁ h₂).value, h₁.value, h₂.value] at hsum
    exact hne hsum
  · intro h c hc
    obtain ⟨hsym, hcount, -, hcon, rfl⟩ := operandsCombine_some hc
    have hi : o₁.idx = regNone ∨ o₂.idx = regNone := by
      by_contra hi
      obtain ⟨hi₁, hi₂⟩ := not_or.mp hi
      obtain ⟨hr₁, hr₂⟩ := reg_of_indexed hcount hi₁ hi₂
      exact h ⟨hi₁, hi₂, hr₁, hr₂, hsym, hcon⟩
    refine ⟨formed_combination h₁ h₂, fun env regs =>
      ⟨?_, value_operandNormalize (formed_combination h₁ h₂)⟩⟩
    rw [(formed_combination h₁ h₂).value, h₁.value, h₂.value, address_combination hsym,
      combineRegs_sum h₁.unscaled h₂.unscaled hcount hi, Operand.address, Operand.address]
    ac_rfl

/-- `p + i * 4 + 8`. -/
theorem operandsCombine_sum_element :
    (operandsCombine (operandScaled .ulong 17 4 0) (operandBased 16 8 1)).isSome ∧
      CombinesToSum (operandScaled .ulong 17 4 0) (operandBased 16 8 1) :=
  ⟨by decide, (operandsCombine_sum_iff ⟨by decide, by decide, by decide, by decide, by decide⟩
    ⟨by decide, by decide, by decide, by decide, by decide⟩).mpr fun h => h.2.1 rfl⟩

/-- `(a << 1) + (b << 2)`: the combination is `a << 1`. -/
theorem not_operandsCombine_sum :
    ¬ ∀ o₁ o₂ : Operand, o₁.Formed → o₂.Formed → CombinesToSum o₁ o₂ := by
  intro h
  have hsum := (h (operandScaled .ulong 16 2 0) (operandScaled .ulong 17 4 0)
    ⟨by decide, by decide, by decide, by decide, by decide⟩
    ⟨by decide, by decide, by decide, by decide, by decide⟩ (operandScaled .ulong 16 2 0) rfl).2
    default fun _ => 1
  exact absurd hsum.1 (by decide)

end

end Ncc.Amd64
