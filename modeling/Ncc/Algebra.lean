import Ncc.Fold

/-! Algebraic simplifications and strength reductions of the IR (algebra.c).

    `algebra0` looks for identities, `algebra1` for products, quotients and remainders that a shift
    or a mask computes as well; the first runs over the whole function before the second. A division
    is taken not to trap: its divisor is not zero. -/

namespace Ncc

/-! ### The passes -/

/-- The words of `operand_one`. -/
def oneWord (ts : TypeBits) : Word := if ts.floating then 0x3FF0000000000000 else 1

/-- `operand_is_one`. -/
def operandIsOne : Option Operand → Bool
  | some ⟨ts, .con c none, _⟩ => if ts.floating then fEq c (oneWord ts) else c == 1
  | _ => false

/-- Where the `switch` of `algebra0` goes: `self`, `zero`, `one`, or on to the next insn. -/
inductive Identity where
  | keep | self | zero | one
  deriving DecidableEq

/-- The `switch` of `algebra0`. -/
def algebra0Case (insn : Insn) : Identity :=
  match insn.op with
  | .add | .sub | .or | .xor | .shr | .shl => if operandIsZero insn.src2 then .self else .keep
  | .and => if operandIsZero insn.src2 then .zero else .keep
  | .mul =>
    if operandIsZero insn.src2 then .zero else if operandIsOne insn.src2 then .self else .keep
  | .mod =>
    if operandIsOne insn.src2 || operandIsSame insn.src1 insn.src2 then .zero else .keep
  | .div =>
    if operandIsSame insn.src1 insn.src2 then .one
    else if operandIsOne insn.src2 then .self else .keep
  | _ => .keep

/-- One turn of the loop of `algebra0`. -/
def algebra0Insn (insn : Insn) : Insn :=
  let insn := insnNormalize insn
  match algebra0Case insn with
  | .keep => insn
  | .self => insnNew .move insn.dst insn.src1
  | .zero => insnMoveCon insn 0 none
  | .one => insnMoveCon insn (oneWord (tsOpt insn.dst)) none

/-- `log_2`: `u` runs through the bits of an unsigned long from the lowest one up. -/
def log2 : Option Operand → Option Nat
  | some ⟨ts, .con c none, _⟩ =>
    if ts.integral then
      (List.range 64).find? fun shift => (1#64 <<< shift) &&& c == c
    else none
  | _ => none

/-- OPERAND_INTEGRAL. -/
def operandIntegral : Option Operand → Bool
  | some o => o.ts.integral
  | none => false

/-- OPERAND_UNSIGNED. -/
def operandUnsigned : Option Operand → Bool
  | some o => o.ts.integral && !o.ts.signed
  | none => false

/-- The `switch` of `algebra1`: the op and the constant that replace the op and `src2`. -/
def algebra1Case (insn : Insn) : Option (InsnOp × Word) :=
  if !operandIntegral insn.src1 || !operandIntegral insn.src2 then none
  else
    match insn.op with
    | .add => if operandIsSame insn.src1 insn.src2 then some (.shl, 1) else none
    | .mul => (log2 insn.src2).map fun k => (.shl, BitVec.ofNat 64 k)
    | .mod =>
      if operandUnsigned insn.src2 then
        (log2 insn.src2).map fun k => (.and, ~~~((-1#64) <<< k))
      else none
    | .div =>
      if operandUnsigned insn.src2 then
        (log2 insn.src2).map fun k => (.shr, BitVec.ofNat 64 k)
      else none
    | _ => none

/-- One turn of the loop of `algebra1`. -/
def algebra1Insn (insn : Insn) : Insn :=
  match algebra1Case insn with
  | some (op, con) => insnNew op insn.dst insn.src1 (some (operandI (tsOpt insn.dst) con none))
  | none => insn

/-- `algebra`, on the insns of a block. -/
def algebraInsns (insns : List Insn) : List Insn := (insns.map algebra0Insn).map algebra1Insn

/-! ### Operands -/

section
variable {env : Env} {regs : PseudoReg → Word} {o o₁ o₂ : Option Operand} {c : Word} {k : Nat}

theorem read_normalized {ts : TypeBits} {n : ValueNumber} (h : ts.integral = true)
    (hc : conNormalize ts c = c) : readOpt env regs (some ⟨ts, .con c none, n⟩) = c := by
  refine (read_con h hc fun x hx => ?_).trans (BitVec.zero_add c)
  cases hx

theorem read_operandI {ts : TypeBits} (h : ts.integral = true) (c : Word) :
    readOpt env regs (some (operandI ts c none)) = conNormalize ts c := by
  have hread : readOpt env regs (some (operandI ts c none)) = conNormalize ts (0 + c) := by
    cases ts <;> first | rfl | exact nomatch h
  rw [hread]
  exact congrArg _ (BitVec.zero_add c)

theorem conNormalize_le (ts : TypeBits) (h : c.toNat ≤ 127) : conNormalize ts c = c := by
  have hall : ∀ c : Fin 128, conNormalize ts (BitVec.ofNat 64 c.1) = BitVec.ofNat 64 c.1 := by
    cases ts <;> decide
  simpa using hall ⟨c.toNat, by omega⟩

/-- The constant of an operand that is one. -/
theorem con_of_isOne (h : operandIsOne o = true) (hts : (tsOpt o).integral = true) :
    ∃ ts n, o = some ⟨ts, .con 1 none, n⟩ := by
  rcases o with _ | ⟨ts, ⟨c, _ | x⟩ | r, n⟩
  · cases h
  · have hnf : ts.floating = false := TypeBits.not_floating hts
    exact ⟨ts, n, by simpa [operandIsOne, hnf] using h⟩
  · cases h
  · cases h

theorem read_isOne (h : operandIsOne o = true) (hts : (tsOpt o).integral = true) :
    readOpt env regs o = 1 := by
  obtain ⟨ts, n, rfl⟩ := con_of_isOne h hts
  exact read_normalized hts (conNormalize_le ts (by decide))

/-- Operands that are the same denote the same. -/
theorem read_isSame (h : operandIsSame o₁ o₂ = true) (hts : (tsOpt o₁).integral = true) :
    readOpt env regs o₁ = readOpt env regs o₂ := by
  rcases o₁ with _ | ⟨ts₁, v₁, n₁⟩ <;> rcases o₂ with _ | ⟨ts₂, v₂, n₂⟩
  · rfl
  · cases h
  · cases h
  · have hnf : ts₁.floating = false := TypeBits.not_floating hts
    obtain rfl : ts₁ = ts₂ := by
      by_contra hne
      simp [operandIsSame, hne] at h
    have hval : v₁ = v₂ := by
      cases v₁ <;> cases v₂ <;> simp_all [operandIsSame]
    rw [hval]
    rfl

/-! ### log_2 -/

theorem and_one_shiftLeft (c : Word) (k : Nat) :
    (1#64 <<< k) &&& c = if c.getLsbD k then 1#64 <<< k else 0 := by
  apply BitVec.eq_of_getLsbD_eq
  intro i hi
  by_cases hc : c.getLsbD k = true
  · rw [if_pos hc, BitVec.getLsbD_and]
    by_cases hik : i = k
    · rw [hik, hc, Bool.and_true]
    · simp [BitVec.getLsbD_shiftLeft, BitVec.getLsbD_one]
      omega
  · rw [if_neg hc, BitVec.getLsbD_and]
    by_cases hik : i = k
    · simp [hik, hc]
    · simp [BitVec.getLsbD_shiftLeft, BitVec.getLsbD_one]
      omega

theorem shiftLeft_ne_zero (hk : k < 64) : 1#64 <<< k ≠ 0 := by
  intro h
  have hbit : (1#64 <<< k).getLsbD k = true := by simp [hk]
  rw [h] at hbit
  simp at hbit

/-- The bit that the loop of `log_2` stops at has nothing of the constant beside it. -/
theorem covers_iff (c : Word) (k : Nat) : (1#64 <<< k) &&& c = c ↔ c = 0 ∨ c = 1#64 <<< k := by
  rw [and_one_shiftLeft]
  constructor
  · intro h
    split at h
    · exact .inr h.symm
    · exact .inl h.symm
  · rintro (rfl | rfl)
    · simp
    · by_cases hk : k < 64
      · simp [hk]
      · simp [BitVec.shiftLeft_eq_zero (Nat.le_of_not_lt hk)]

theorem log2_pow {ts : TypeBits} {n : ValueNumber} (h : ts.integral = true) (hk : k < 64) :
    log2 (some ⟨ts, .con (1#64 <<< k) none, n⟩) = some k := by
  rw [log2, if_pos h, List.find?_range_eq_some]
  refine ⟨by simp, List.mem_range.mpr hk, fun j hj => ?_⟩
  rw [Bool.not_eq_true', beq_eq_false_iff_ne, ne_eq, covers_iff, not_or]
  refine ⟨shiftLeft_ne_zero hk, fun he => ?_⟩
  have hbit := congrArg (fun w : Word => w.getLsbD j) he
  simp [hj, show j < 64 by omega] at hbit

/-- A power of two, or zero, of which `log_2` says 0. -/
theorem of_log2 (h : log2 o = some k) : ∃ ts c n, o = some ⟨ts, .con c none, n⟩ ∧
    ts.integral = true ∧ k < 64 ∧ (c = 0 ∧ k = 0 ∨ c = 1#64 <<< k) := by
  rcases o with _ | ⟨ts, ⟨c, _ | x⟩ | r, n⟩
  · cases h
  · rw [log2] at h
    split at h
    · next hts =>
      obtain ⟨hk, hmem, hfirst⟩ := List.find?_range_eq_some.mp h
      refine ⟨ts, c, n, rfl, hts, List.mem_range.mp hmem, ?_⟩
      rcases (covers_iff c k).mp (eq_of_beq hk) with rfl | hc
      · refine .inl ⟨rfl, Nat.eq_zero_of_not_pos fun hpos => ?_⟩
        simpa using hfirst 0 hpos
      · exact .inr hc
    · cases h
  · cases h
  · cases h

/-- `log_2` is exact on every constant but zero. -/
theorem log2_exact_iff {o : Operand} (h : o.ts.integral = true) :
    (∀ k, log2 (some o) = some k ↔ k < 64 ∧ o.val = .con (1#64 <<< k) none) ↔
      operandIsZero (some o) = false := by
  obtain ⟨ts, v, n⟩ := o
  constructor
  · intro hexact
    rw [Bool.eq_false_iff]
    intro hz
    rcases v with ⟨c, _ | x⟩ | r
    · have hc : c = 0 := by simpa [operandIsZero, TypeBits.not_floating h] using hz
      have hlog : log2 (some ⟨ts, .con c none, n⟩) = some 0 := by
        rw [hc, log2, if_pos h]
        decide
      have hval := ((hexact 0).mp hlog).2
      rw [hc] at hval
      exact absurd (OperandVal.con.inj hval).1 (by decide)
    · cases hz
    · cases hz
  · intro hz k
    constructor
    · intro hk
      obtain ⟨ts', c, n', he, -, hlt, hc⟩ := of_log2 hk
      obtain ⟨rfl, rfl, rfl⟩ : ts = ts' ∧ v = .con c none ∧ n = n' := by simpa using he
      refine ⟨hlt, ?_⟩
      rcases hc with ⟨rfl, -⟩ | rfl
      · simp [operandIsZero, TypeBits.not_floating h] at hz
      · rfl
    · rintro ⟨hlt, hv⟩
      obtain rfl : v = .con (1#64 <<< k) none := hv
      exact log2_pow h hlt

end

/-! ### Identities -/

/-- An insn over integral operands whose constants are normalized; the divisor of a quotient or a
    remainder has the type of the result. -/
structure Arithmetic (insn : Insn) : Prop where
  binary : insn.op.binary = true
  dst : (tsOpt insn.dst).integral = true
  src1 : (tsOpt insn.src1).integral = true
  src2 : (tsOpt insn.src2).integral = true
  normalized : ∀ ts c sym n, some (Operand.mk ts (.con c sym) n) = insn.src1 ∨
    some (Operand.mk ts (.con c sym) n) = insn.src2 → conNormalize ts c = c
  divisor : insn.op = .div ∨ insn.op = .mod → tsOpt insn.src2 = tsOpt insn.dst

/-- The insn does not divide by zero. -/
def Divides (env : Env) (insn : Insn) (s : State) : Prop :=
  insn.op = .div ∨ insn.op = .mod → readOpt env s.regs insn.src2 ≠ 0

/-- What the word of an insn is, by its first operand. -/
def Identity.Holds : Identity → Word → Word → Prop
  | .keep, _, _ => True
  | .self, a, v => v = a
  | .zero, _, v => v = 0
  | .one, _, v => v = 1

section
variable {env : Env} {insn : Insn} {s : State}

theorem Arithmetic.normalize (h : Arithmetic insn) : Arithmetic (insnNormalize insn) := by
  obtain he | ⟨hs, he⟩ := insnNormalize_cases insn
  · rwa [he]
  · rw [he]
    refine ⟨h.binary, h.dst, h.src2, h.src1, fun ts c sym n ho => h.normalized ts c sym n ho.symm,
      fun hop => ?_⟩
    have hop : insn.op = .div ∨ insn.op = .mod := hop
    obtain hop | hop := hop <;> rw [hop] at hs <;> cases hs

/-- A quotient is not normalized: its operands stay where they are. -/
theorem Divides.normalize (h : Divides env insn s) : Divides env (insnNormalize insn) s := by
  obtain he | ⟨hs, he⟩ := insnNormalize_cases insn
  · rwa [he]
  · intro hop
    rw [op_insnNormalize] at hop
    obtain hop | hop := hop <;> rw [hop] at hs <;> cases hs

/-- What `algebra0` finds is so. -/
theorem algebra0Case_holds (h : Arithmetic insn) (hd : Divides env insn s) :
    (algebra0Case insn).Holds (readOpt env s.regs insn.src1)
      (aluBinary insn.op (tsOpt insn.dst) (readOpt env s.regs insn.src1)
        (readOpt env s.regs insn.src2)) := by
  have hzero : operandIsZero insn.src2 = true → readOpt env s.regs insn.src2 = 0 := fun hz =>
    read_zero hz (TypeBits.not_floating h.src2) s.regs
  have hone : operandIsOne insn.src2 = true → readOpt env s.regs insn.src2 = 1 := fun ho =>
    read_isOne ho h.src2
  have hsame : operandIsSame insn.src1 insn.src2 = true →
      readOpt env s.regs insn.src1 = readOpt env s.regs insn.src2 := fun hs => read_isSame hs h.src1
  have hnz : insn.op = .div ∨ insn.op = .mod → readOpt env s.regs insn.src2 ≠ 0 := hd
  generalize readOpt env s.regs insn.src1 = a at *
  generalize readOpt env s.regs insn.src2 = b at *
  rw [algebra0Case]
  cases hop : insn.op with
  | add | sub | or | xor | shr | shl =>
    dsimp only
    split
    · next hz =>
      rw [hzero hz]
      simp [Identity.Holds, aluBinary]
    · trivial
  | and =>
    dsimp only
    split
    · next hz =>
      rw [hzero hz]
      exact BitVec.and_zero
    · trivial
  | mul =>
    dsimp only
    split
    · next hz =>
      rw [hzero hz]
      exact BitVec.mul_zero
    · split
      · next ho =>
        rw [hone ho]
        exact BitVec.mul_one a
      · trivial
  | mod =>
    dsimp only
    split
    · next hm =>
      show (if (tsOpt insn.dst).signed then a.srem b else a % b) = 0
      rw [Bool.or_eq_true] at hm
      rcases hm with ho | hs
      · rw [hone ho]
        split
        · exact BitVec.srem_one
        · exact BitVec.umod_one
      · rw [hsame hs]
        split
        · exact BitVec.srem_self
        · exact BitVec.umod_self
    · trivial
  | div =>
    have hb : (b == 0#64) = false := beq_eq_false_iff_ne.mpr (hnz (.inl hop))
    dsimp only
    split
    · next hs =>
      show (if (tsOpt insn.dst).signed then a.sdiv b else a / b) = 1
      rw [hsame hs, BitVec.sdiv_self, BitVec.udiv_self, hb]
      exact ite_self _
    · split
      · next ho =>
        show (if (tsOpt insn.dst).signed then a.sdiv b else a / b) = a
        rw [hone ho]
        split
        · exact BitVec.sdiv_one
        · exact BitVec.udiv_one
      · trivial
  | _ => trivial

/-- `algebra0` changes no insn's meaning. -/
theorem exec_algebra0 (h : Arithmetic insn) (hd : Divides env insn s) :
    exec env (algebra0Insn insn) s = exec env insn s := by
  have hn := h.normalize
  have hholds := algebra0Case_holds hn hd.normalize
  rw [← exec_insnNormalize h.dst, algebra0Insn]
  generalize insnNormalize insn = insn at hn hholds ⊢
  have hexec := @exec_binary env insn s hn.binary hn.dst
  cases hc : algebra0Case insn with
  | keep => rfl
  | self =>
    rw [hc] at hholds
    rw [hexec, show aluBinary _ _ _ _ = _ from hholds]
    rfl
  | zero =>
    rw [hc] at hholds
    rw [hexec, show aluBinary _ _ _ _ = _ from hholds]
    exact exec_moveCon hn.dst 0 none
  | one =>
    rw [hc] at hholds
    rw [hexec, show aluBinary _ _ _ _ = _ from hholds, oneWord, TypeBits.not_floating hn.dst]
    exact exec_moveCon hn.dst 1 none

/-! ### Strength reductions -/

/-- The bits below a power of two that fits a type fit it too. -/
theorem conNormalize_mask {ts : TypeBits} {k : Nat} (hk : k < 64)
    (hc : conNormalize ts (1#64 <<< k) = 1#64 <<< k) :
    conNormalize ts (~~~((-1#64) <<< k)) = ~~~((-1#64) <<< k) := by
  have hall : ∀ k : Fin 64, conNormalize ts (1#64 <<< k.1) = 1#64 <<< k.1 →
      conNormalize ts (~~~((-1#64) <<< k.1)) = ~~~((-1#64) <<< k.1) := by
    cases ts <;> decide
  exact hall ⟨k, hk⟩ hc

/-- A remainder by a power of two. -/
theorem umod_pow (a : Word) {k : Nat} (hk : k < 64) :
    a % 1#64 <<< k = a &&& ~~~((-1#64) <<< k) := by
  have hall : ∀ k : Fin 64, (1#64 <<< k.1).toNat = 2 ^ k.1 ∧
      (~~~((-1#64) <<< k.1)).toNat = 2 ^ k.1 - 1 := by decide
  obtain ⟨hpow, hmask⟩ := hall ⟨k, hk⟩
  apply BitVec.eq_of_toNat_eq
  rw [BitVec.toNat_umod, BitVec.toNat_and, hpow, hmask, Nat.and_two_pow_sub_one_eq_mod]

/-- What `algebra1` computes instead is the same. -/
theorem algebra1Case_reduces {op : InsnOp} {con : Word} (h : Arithmetic insn)
    (hd : Divides env insn s) (hz : insn.op = .mul → operandIsZero insn.src2 = false)
    (hc : algebra1Case insn = some (op, con)) :
    op.binary = true ∧ aluBinary insn.op (tsOpt insn.dst) (readOpt env s.regs insn.src1)
        (readOpt env s.regs insn.src2) =
      aluBinary op (tsOpt insn.dst) (readOpt env s.regs insn.src1)
        (conNormalize (tsOpt insn.dst) con) := by
  -- what `log_2` says of the second operand is right
  have hpow : ∀ k, log2 insn.src2 = some k → operandIsZero insn.src2 = false →
      k < 64 ∧ readOpt env s.regs insn.src2 = 1#64 <<< k ∧
        conNormalize (tsOpt insn.src2) (1#64 <<< k) = 1#64 <<< k := by
    intro k hk hnz
    obtain ⟨ts, c, n, he, hts, hlt, hzero | rfl⟩ := of_log2 hk
    · rw [he, hzero.1] at hnz
      simp [operandIsZero, TypeBits.not_floating hts] at hnz
    · have hnorm := h.normalized ts _ none n (.inr he.symm)
      rw [he]
      exact ⟨hlt, read_normalized hts hnorm, hnorm⟩
  have hcount : ∀ k, k < 64 → conNormalize (tsOpt insn.dst) (BitVec.ofNat 64 k) =
      BitVec.ofNat 64 k ∧ (BitVec.ofNat 64 k).toNat % 64 = k := by
    intro k hk
    have hnat : (BitVec.ofNat 64 k).toNat = k := by
      rw [BitVec.toNat_ofNat]
      omega
    exact ⟨conNormalize_le _ (by omega), by omega⟩
  have hnz : insn.op = .div ∨ insn.op = .mod → operandIsZero insn.src2 = false := by
    intro hop
    rw [Bool.eq_false_iff]
    exact fun hz => hd hop (read_zero hz (TypeBits.not_floating h.src2) s.regs)
  have hunsigned : operandUnsigned insn.src2 = true → insn.op = .div ∨ insn.op = .mod →
      (tsOpt insn.dst).signed = false := by
    intro hu hop
    rw [← h.divisor hop]
    rcases ho : insn.src2 with _ | o
    · rw [ho] at hu
      cases hu
    · rw [ho] at hu
      exact (Bool.not_eq_true' _).mp (Bool.and_eq_true_iff.mp hu).2
  rw [algebra1Case] at hc
  split at hc
  · cases hc
  · cases hop : insn.op with
    | add =>
      rw [hop] at hc
      dsimp only at hc
      split at hc
      · next hsame =>
        obtain ⟨rfl, rfl⟩ : .shl = op ∧ 1 = con := by simpa using hc
        rw [read_isSame hsame h.src1, conNormalize_le _ (by decide)]
        refine ⟨rfl, ?_⟩
        generalize readOpt env s.regs insn.src2 = b
        show b + b = b <<< ((1 : Word).toNat % 64)
        rw [show (1 : Word).toNat % 64 = 1 from rfl, BitVec.shiftLeft_eq_mul_twoPow]
        exact BitVec.mul_two.symm
      · cases hc
    | mul =>
      rw [hop] at hc
      obtain ⟨k, hk, he⟩ := Option.map_eq_some_iff.mp hc
      obtain ⟨rfl, rfl⟩ : .shl = op ∧ BitVec.ofNat 64 k = con := by simpa using he
      obtain ⟨hlt, hread, -⟩ := hpow k hk (hz hop)
      obtain ⟨hnorm, hmod⟩ := hcount k hlt
      rw [hread, hnorm, ← BitVec.twoPow_eq]
      refine ⟨rfl, ?_⟩
      show _ * _ = _ <<< _
      rw [hmod]
      exact BitVec.mul_twoPow_eq_shiftLeft _ k
    | mod =>
      rw [hop] at hc
      dsimp only at hc
      split at hc
      · next hu =>
        obtain ⟨k, hk, he⟩ := Option.map_eq_some_iff.mp hc
        obtain ⟨rfl, rfl⟩ : .and = op ∧ ~~~((-1#64) <<< k) = con := by simpa using he
        obtain ⟨hlt, hread, hnorm⟩ := hpow k hk (hnz (.inr hop))
        have hs := hunsigned hu (.inr hop)
        rw [h.divisor (.inr hop)] at hnorm
        rw [hread, conNormalize_mask hlt hnorm]
        refine ⟨rfl, ?_⟩
        show (if (tsOpt insn.dst).signed then _ else _) = _ &&& _
        rw [hs]
        exact umod_pow _ hlt
      · cases hc
    | div =>
      rw [hop] at hc
      dsimp only at hc
      split at hc
      · next hu =>
        obtain ⟨k, hk, he⟩ := Option.map_eq_some_iff.mp hc
        obtain ⟨rfl, rfl⟩ : .shr = op ∧ BitVec.ofNat 64 k = con := by simpa using he
        obtain ⟨hlt, hread, -⟩ := hpow k hk (hnz (.inl hop))
        obtain ⟨hnorm, hmod⟩ := hcount k hlt
        have hs := hunsigned hu (.inl hop)
        rw [hread, hnorm, ← BitVec.twoPow_eq]
        refine ⟨rfl, ?_⟩
        show (if (tsOpt insn.dst).signed then _ else _) =
          if (tsOpt insn.dst).signed then _ else _ >>> _
        rw [hs, hmod]
        exact BitVec.udiv_twoPow_eq_of_lt hlt
      · cases hc
    | _ => 
      rw [hop] at hc
      cases hc

theorem exec_algebra1 (h : Arithmetic insn) (hd : Divides env insn s)
    (hz : insn.op = .mul → operandIsZero insn.src2 = false) :
    exec env (algebra1Insn insn) s = exec env insn s := by
  rw [algebra1Insn]
  rcases hc : algebra1Case insn with _ | ⟨op, con⟩
  · rfl
  · obtain ⟨hbinary, hvalue⟩ := algebra1Case_reduces h hd hz hc
    have hread := @read_operandI env s.regs _ h.dst con
    rw [exec_binary h.binary h.dst, hvalue, ← hread]
    exact @exec_binary _ (insnNew op insn.dst insn.src1 _) _ hbinary h.dst

theorem algebra1Insn_of_not_binary (h : insn.op.binary = false) : algebra1Insn insn = insn := by
  have hc : algebra1Case insn = none := by
    rw [algebra1Case]
    cases hop : insn.op <;> rw [hop] at h <;> first | exact ite_self _ | cases h
  rw [algebra1Insn, hc]

theorem algebra0Insn_of_not_binary (h : insn.op.binary = false) : algebra0Insn insn = insn := by
  have hn : insnNormalize insn = insn := by
    obtain he | ⟨hs, -⟩ := insnNormalize_cases insn
    · exact he
    · have hb : insn.op.binary = true := by
        cases hop : insn.op <;> rw [hop] at hs <;> first | rfl | cases hs
      rw [h] at hb
      cases hb
  have hc : algebra0Case insn = .keep := by
    rw [algebra0Case]
    cases hop : insn.op <;> rw [hop] at h <;> first | rfl | cases h
  rw [algebra0Insn, hn, hc]

/-- `algebra0` leaves no product by zero, and no new trap, to `algebra1`. -/
theorem algebra0_leaves (h : Arithmetic insn) (hd : Divides env insn s) :
    algebra1Insn (algebra0Insn insn) = algebra0Insn insn ∨
      Arithmetic (algebra0Insn insn) ∧ Divides env (algebra0Insn insn) s ∧
        ((algebra0Insn insn).op = .mul → operandIsZero (algebra0Insn insn).src2 = false) := by
  have hn := h.normalize
  have hdn := hd.normalize
  rw [algebra0Insn]
  generalize insnNormalize insn = insn at hn hdn ⊢
  cases hc : algebra0Case insn with
  | keep =>
    refine .inr ⟨hn, hdn, fun hop => ?_⟩
    rw [Bool.eq_false_iff]
    intro hz
    rw [algebra0Case, hop] at hc
    dsimp only at hc
    rw [if_pos hz] at hc
    cases hc
  | self | zero | one => exact .inl (algebra1Insn_of_not_binary rfl)

/-- `algebra` changes no insn's meaning. -/
theorem exec_algebra (h : Arithmetic insn) (hd : Divides env insn s) :
    exec env (algebra1Insn (algebra0Insn insn)) s = exec env insn s := by
  rw [← exec_algebra0 h hd]
  rcases algebra0_leaves h hd with he | ⟨ha, hda, hz⟩
  · rw [he]
  · exact exec_algebra1 ha hda hz

/-- No insn of a block divides by zero when the block runs. -/
def DividesAll (env : Env) : List Insn → State → Prop
  | [], _ => True
  | insn :: insns, s => Divides env insn s ∧ DividesAll env insns (exec env insn s)

/-- A block does what it did, from any state in which it does not divide by zero. -/
theorem execs_algebra {insns : List Insn}
    (h : ∀ insn ∈ insns, insn.op.binary = true → Arithmetic insn) (hd : DividesAll env insns s) :
    execs env (algebraInsns insns) s = execs env insns s := by
  induction insns generalizing s with
  | nil => rfl
  | cons insn insns ih =>
    obtain ⟨hdiv, hrest⟩ := hd
    have hexec : exec env (algebra1Insn (algebra0Insn insn)) s = exec env insn s := by
      cases hb : insn.op.binary with
      | true => exact exec_algebra (h insn List.mem_cons_self hb) hdiv
      | false => rw [algebra0Insn_of_not_binary hb, algebra1Insn_of_not_binary hb]
    show execs env (algebraInsns insns) (exec env (algebra1Insn (algebra0Insn insn)) s) = _
    rw [hexec]
    exact ih (fun insn hi => h insn (List.mem_cons_of_mem _ hi)) hrest

end

/-- Identities and strength reductions compute what the insn computed. `log_2` tells powers of two
    from other constants, except that it takes zero for one. -/
theorem algebra_exact_iff (insn : Insn) (h : Arithmetic insn) (o : Operand)
    (ho : o.ts.integral = true) :
    ((∀ env s, Divides env insn s → exec env (algebra0Insn insn) s = exec env insn s ∧
        exec env (algebra1Insn (algebra0Insn insn)) s = exec env insn s) ∧
      ∀ k, log2 (some o) = some k ↔ k < 64 ∧ o.val = .con (1#64 <<< k) none) ↔
      operandIsZero (some o) = false := by
  rw [log2_exact_iff ho]
  exact and_iff_right fun env s hd => ⟨exec_algebra0 h hd, exec_algebra h hd⟩

/-- A remainder by 2^31, unsigned. -/
theorem algebra_exact_mod :
    ((∀ env s, Divides env (insnNew .mod (some (operandReg .uint 64)) (some (operandReg .uint 65))
          (some (operandI .uint 0x80000000 none))) s →
        exec env (algebra0Insn (insnNew .mod (some (operandReg .uint 64))
            (some (operandReg .uint 65)) (some (operandI .uint 0x80000000 none)))) s =
          exec env (insnNew .mod (some (operandReg .uint 64)) (some (operandReg .uint 65))
            (some (operandI .uint 0x80000000 none))) s ∧
        exec env (algebra1Insn (algebra0Insn (insnNew .mod (some (operandReg .uint 64))
            (some (operandReg .uint 65)) (some (operandI .uint 0x80000000 none))))) s =
          exec env (insnNew .mod (some (operandReg .uint 64)) (some (operandReg .uint 65))
            (some (operandI .uint 0x80000000 none))) s) ∧
      ∀ k, log2 (some (operandI .uint 0x80000000 none)) = some k ↔
        k < 64 ∧ (operandI .uint 0x80000000 none).val = .con (1#64 <<< k) none) ↔
      operandIsZero (some (operandI .uint 0x80000000 none)) = false := by
  refine algebra_exact_iff _ ⟨rfl, rfl, rfl, rfl, fun ts c sym n ho => ?_, fun _ => rfl⟩ _ rfl
  have ho : some (Operand.mk ts (.con c sym) n) = some (operandReg .uint 65) ∨
    some (Operand.mk ts (.con c sym) n) = some (operandI .uint 0x80000000 none) := ho
  rcases ho with ho | ho
  · cases ho
  · cases ho
    rfl

/-- Zero is no power of two. -/
theorem log2_zero : ¬ ∀ k, log2 (some (operandI .int 0 none)) = some k ↔
    k < 64 ∧ (operandI .int 0 none).val = .con (1#64 <<< k) none := by
  rw [log2_exact_iff rfl]
  decide

end Ncc
