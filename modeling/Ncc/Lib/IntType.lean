import Mathlib

/-! Integer arithmetic of C.

    A type is a width and a signedness. Its values are integers; every integer is brought into the
    type by `wrap`, which keeps the low bits. An operator either has a value, or, where the language
    defines none, has none: a zero divisor, a shift by the width or more, a signed overflow. The
    main result is that two's complement arithmetic on the bit patterns computes each value that the
    language defines. -/

namespace Ncc

/-- An integer type. -/
structure IntType where
  width : Nat
  unsigned : Bool
  deriving DecidableEq, Repr

/-- The arithmetic operators. -/
inductive IntOp where
  | add | sub | mul | div | mod | and | or | xor | shl | shr
  deriving DecidableEq, Repr

namespace IntType
variable (t : IntType)

/-- The value of a bit pattern. -/
def value (b : BitVec t.width) : Int := if t.unsigned then b.toNat else b.toInt

/-- The low bits of an integer. -/
def pattern (n : Int) : BitVec t.width := BitVec.ofInt t.width n

/-- Conversion to the type. -/
def wrap (n : Int) : Int := t.value (t.pattern n)

/-- The result of an operation whose exact value is `n`: a signed type has to represent it. -/
def result (n : Int) : Option Int := if t.unsigned ∨ t.wrap n = n then some (t.wrap n) else none

/-- An operator of C at the type of its (left) operand. Right shift of a negative value is
    arithmetic. -/
def apply (op : IntOp) (x y : Int) : Option Int :=
  match op with
  | .add => t.result (x + y)
  | .sub => t.result (x - y)
  | .mul => t.result (x * y)
  | .div => if y = 0 then none else t.result (x.tdiv y)
  | .mod => if y = 0 then none else (t.result (x.tdiv y)).map fun _ => x.tmod y
  | .and => some (t.value (t.pattern x &&& t.pattern y))
  | .or => some (t.value (t.pattern x ||| t.pattern y))
  | .xor => some (t.value (t.pattern x ^^^ t.pattern y))
  | .shl => if 0 ≤ y ∧ y < t.width then some (t.value (t.pattern x <<< y.toNat)) else none
  | .shr => if 0 ≤ y ∧ y < t.width then some (x >>> y.toNat) else none

/-- Negation. -/
def negate (x : Int) : Option Int := t.result (-x)

/-- The bitwise complement. -/
def complement (x : Int) : Int := t.value (~~~t.pattern x)

/-- The operator on bit patterns. A machine takes a shift count modulo the width. -/
def machine (op : IntOp) (a b : BitVec t.width) : BitVec t.width :=
  match op with
  | .add => a + b
  | .sub => a - b
  | .mul => a * b
  | .div => if t.unsigned then a.udiv b else a.sdiv b
  | .mod => if t.unsigned then a.umod b else a.srem b
  | .and => a &&& b
  | .or => a ||| b
  | .xor => a ^^^ b
  | .shl => a <<< (b.toNat % t.width)
  | .shr =>
    if t.unsigned then a >>> (b.toNat % t.width) else a.sshiftRight (b.toNat % t.width)

@[simp] theorem pattern_value (b : BitVec t.width) : t.pattern (t.value b) = b := by
  rw [pattern, value]
  split
  · rw [BitVec.ofInt_natCast, BitVec.ofNat_toNat, BitVec.setWidth_eq]
  · exact BitVec.ofInt_toInt

@[simp] theorem wrap_value (b : BitVec t.width) : t.wrap (t.value b) = t.value b := by
  rw [wrap, pattern_value]

@[simp] theorem wrap_wrap (n : Int) : t.wrap (t.wrap n) = t.wrap n := wrap_value t _

theorem value_inj {a b : BitVec t.width} : t.value a = t.value b ↔ a = b :=
  ⟨fun h => by rw [← t.pattern_value a, h, pattern_value], fun h => congrArg _ h⟩

/-- What an operation gives is its exact value, brought into the type. -/
theorem result_eq {n m : Int} (h : t.result n = some m) : m = t.value (t.pattern n) := by
  rw [result] at h
  split at h
  · exact (Option.some.inj h).symm
  · cases h

@[simp] theorem result_unsigned {t : IntType} (h : t.unsigned = true) (n : Int) :
    t.result n = some (t.wrap n) := if_pos (.inl h)

variable {t}

theorem pattern_tdiv (a b : BitVec t.width) :
    t.pattern ((t.value a).tdiv (t.value b)) = t.machine .div a b := by
  rw [pattern, value, value, machine]
  split
  · rw [← Int.ofNat_tdiv, BitVec.ofInt_natCast]
    apply BitVec.eq_of_toNat_eq
    rw [BitVec.toNat_ofNat, BitVec.udiv_eq, BitVec.toNat_udiv]
    exact Nat.mod_eq_of_lt (lt_of_le_of_lt (Nat.div_le_self _ _) a.isLt)
  · apply BitVec.eq_of_toInt_eq
    rw [BitVec.toInt_ofInt, BitVec.toInt_sdiv]

theorem value_mod (a b : BitVec t.width) :
    t.value (t.machine .mod a b) = (t.value a).tmod (t.value b) := by
  simp only [value, machine]
  split
  · rw [← Int.ofNat_tmod, BitVec.umod_eq, BitVec.toNat_umod]
  · exact BitVec.toInt_srem a b

theorem value_neg {a : BitVec t.width} {n : Int} (h : t.negate (t.value a) = some n) :
    t.value (-a) = n := by
  rw [t.result_eq h, pattern, BitVec.ofInt_neg]
  exact congrArg (fun b => t.value (-b)) (t.pattern_value a).symm

/-- A count in range is its own pattern. -/
theorem count_eq {b : BitVec t.width} (h : 0 ≤ t.value b ∧ t.value b < t.width) :
    b.toNat % t.width = (t.value b).toNat := by
  have hb : t.value b = b.toNat := by
    obtain ⟨h0, h1⟩ := h
    rw [value] at h0 ⊢
    split
    · rfl
    · rw [if_neg ‹_›] at h0
      have := b.isLt
      rw [BitVec.toInt] at h0 ⊢
      split
      · rfl
      · rw [if_neg ‹_›] at h0
        omega
  rw [hb] at h ⊢
  rw [Int.toNat_natCast]
  exact Nat.mod_eq_of_lt (by omega)

/-- Two's complement arithmetic computes every value that C defines. -/
theorem value_machine {op : IntOp} {a b : BitVec t.width} {n : Int}
    (h : t.apply op (t.value a) (t.value b) = some n) : t.value (t.machine op a b) = n := by
  cases op with
  | add =>
    rw [t.result_eq h, pattern, BitVec.ofInt_add]
    exact congrArg t.value (congrArg₂ (· + ·) (t.pattern_value a) (t.pattern_value b)).symm
  | sub =>
    rw [t.result_eq h, pattern, Int.sub_eq_add_neg, BitVec.ofInt_add, BitVec.ofInt_neg,
      ← BitVec.sub_eq_add_neg]
    exact congrArg t.value (congrArg₂ (· - ·) (t.pattern_value a) (t.pattern_value b)).symm
  | mul =>
    rw [t.result_eq h, pattern, BitVec.ofInt_mul]
    exact congrArg t.value (congrArg₂ (· * ·) (t.pattern_value a) (t.pattern_value b)).symm
  | div =>
    rw [apply] at h
    split at h
    · cases h
    · rw [t.result_eq h, pattern_tdiv]
  | mod =>
    rw [apply] at h
    split at h
    · cases h
    · obtain ⟨q, -, rfl⟩ := Option.map_eq_some_iff.mp h
      exact value_mod a b
  | and | or | xor =>
    simp only [apply, pattern_value, Option.some.injEq] at h
    exact h
  | shl =>
    rw [apply] at h
    split at h
    · rename_i hy
      rw [← Option.some.inj h, machine, count_eq hy, pattern_value]
    · cases h
  | shr =>
    rw [apply] at h
    split at h
    · rename_i hy
      rw [← Option.some.inj h, machine, count_eq hy, value]
      simp only [value]
      cases t.unsigned with
      | true => simp [BitVec.toNat_ushiftRight]
      | false => exact BitVec.toInt_sshiftRight
    · cases h

/-- A shift count in range is representable. -/
theorem wrap_count {y : Int} (h : 0 ≤ y ∧ y < t.width) : t.wrap y = y := by
  obtain ⟨k, rfl⟩ := Int.eq_ofNat_of_zero_le h.1
  have hk : k < t.width := by exact_mod_cast h.2
  have hpow : k < 2 ^ (t.width - 1) := lt_of_le_of_lt (by omega) Nat.lt_two_pow_self
  have hpow' : k < 2 ^ t.width := lt_trans hk Nat.lt_two_pow_self
  rw [wrap, value, pattern, BitVec.ofInt_natCast]
  split
  · rw [BitVec.toNat_ofNat, Nat.mod_eq_of_lt hpow']
  · have hdouble : 2 * 2 ^ (t.width - 1) = 2 ^ t.width := by
      rw [← Nat.pow_succ']
      congr 1
      omega
    rw [BitVec.toInt_eq_toNat_of_lt, BitVec.toNat_ofNat, Nat.mod_eq_of_lt hpow']
    rw [BitVec.toNat_ofNat, Nat.mod_eq_of_lt hpow']
    omega

/-! ### A wider type -/

section
variable {t u : IntType}

/-- The pattern of the same value in a wider type of the same signedness. -/
def extend (t u : IntType) (b : BitVec t.width) : BitVec u.width :=
  if t.unsigned then b.setWidth u.width else b.signExtend u.width

theorem value_extend (hs : u.unsigned = t.unsigned) (hw : t.width ≤ u.width) (b : BitVec t.width) :
    u.value (extend t u b) = t.value b := by
  rw [value, value, extend, hs]
  split
  · rw [BitVec.toNat_setWidth_of_le hw]
  · exact BitVec.toInt_signExtend_of_le hw

/-- A narrower type keeps the low bits of a value. -/
theorem pattern_value_of_le (hw : t.width ≤ u.width) (b : BitVec u.width) :
    t.pattern (u.value b) = b.setWidth t.width := by
  apply BitVec.eq_of_toInt_eq
  rw [pattern, BitVec.toInt_ofInt, BitVec.toInt_setWidth, value]
  split
  · rfl
  · rw [BitVec.toInt_eq_toNat_bmod]
    exact Int.bmod_bmod_of_dvd (Nat.pow_dvd_pow 2 hw)

theorem setWidth_pattern (hw : t.width ≤ u.width) (n : Int) :
    (u.pattern n).setWidth t.width = t.pattern n := by
  have h := pattern_value_of_le (t := t) (u := ⟨u.width, false⟩) hw (u.pattern n)
  rw [← h]
  apply BitVec.eq_of_toInt_eq
  simp only [pattern, value, Bool.false_eq_true, if_false, BitVec.toInt_ofInt]
  exact Int.bmod_bmod_of_dvd (Nat.pow_dvd_pow 2 hw)

theorem wrap_value_of_le (hw : t.width ≤ u.width) (b : BitVec u.width) :
    t.wrap (u.value b) = t.value (b.setWidth t.width) := by
  rw [wrap, pattern_value_of_le hw]

theorem wrap_wrap_of_le (hw : t.width ≤ u.width) (n : Int) : t.wrap (u.wrap n) = t.wrap n := by
  rw [wrap, wrap, pattern_value_of_le hw, setWidth_pattern hw]
  rfl

/-- What a type represents, a wider type of the same signedness represents. -/
theorem wrap_of_wrap (hs : u.unsigned = t.unsigned) (hw : t.width ≤ u.width) {n : Int}
    (h : t.wrap n = n) : u.wrap n = n := by
  have hn : u.value (extend t u (t.pattern n)) = n := by
    rw [value_extend hs hw]
    exact h
  rw [← hn]
  exact wrap_value u _

theorem result_widen (hs : u.unsigned = t.unsigned) (hw : t.width ≤ u.width) {m n : Int}
    (h : t.result m = some n) : ∃ k, u.result m = some k ∧ t.wrap k = n := by
  rw [result] at h
  split at h
  · rename_i hm
    cases h
    refine ⟨u.wrap m, if_pos ?_, wrap_wrap_of_le hw m⟩
    rw [hs]
    exact hm.imp_right (wrap_of_wrap hs hw)
  · cases h

/-- What is defined in a type may be computed in a wider type of the same signedness: the result is
    brought into the type afterwards. -/
theorem apply_widen (hs : u.unsigned = t.unsigned) (hw : t.width ≤ u.width) {op : IntOp}
    {a b : BitVec t.width} {n : Int} (h : t.apply op (t.value a) (t.value b) = some n) :
    ∃ k, u.apply op (t.value a) (t.value b) = some k ∧ t.wrap k = n := by
  have hfit : t.wrap n = n := by
    rw [← value_machine h, wrap_value]
  have hset : ∀ c : BitVec t.width, (u.pattern (t.value c)).setWidth t.width = c := by
    intro c
    rw [setWidth_pattern hw, pattern_value]
  cases op with
  | add => exact result_widen hs hw h
  | sub => exact result_widen hs hw h
  | mul => exact result_widen hs hw h
  | div =>
    rw [apply] at h ⊢
    split at h
    · cases h
    · rw [if_neg ‹_›]
      exact result_widen hs hw h
  | mod =>
    rw [apply] at h ⊢
    split at h
    · cases h
    · rw [if_neg ‹_›]
      obtain ⟨q, hq, rfl⟩ := Option.map_eq_some_iff.mp h
      obtain ⟨k, hk, -⟩ := result_widen hs hw hq
      exact ⟨_, by rw [hk]; rfl, hfit⟩
  | and =>
    refine ⟨_, rfl, ?_⟩
    rw [wrap_value_of_le hw, BitVec.setWidth_and, hset, hset, ← value_machine h]
    rfl
  | or =>
    refine ⟨_, rfl, ?_⟩
    rw [wrap_value_of_le hw, BitVec.setWidth_or, hset, hset, ← value_machine h]
    rfl
  | xor =>
    refine ⟨_, rfl, ?_⟩
    rw [wrap_value_of_le hw, BitVec.setWidth_xor, hset, hset, ← value_machine h]
    rfl
  | shl =>
    rw [apply] at h ⊢
    split at h
    · rename_i hc
      refine ⟨_, if_pos ⟨hc.1, by omega⟩, ?_⟩
      rw [wrap_value_of_le hw, BitVec.setWidth_shiftLeft_of_le hw, hset, ← Option.some.inj h,
        pattern_value]
    · cases h
  | shr =>
    rw [apply] at h ⊢
    split at h
    · rename_i hc
      refine ⟨_, if_pos ⟨hc.1, by omega⟩, ?_⟩
      rw [Option.some.inj h, hfit]
    · cases h

end

end IntType

end Ncc
