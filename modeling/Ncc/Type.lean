import Mathlib

/-! Scalar types, constants and condition codes of the IR (type.h, con.c, codes.h).

    Only scalar types remain in the IR, so an operand carries type bits and not a full type. A
    constant is the 64-bit word of `union con`: its `i`, `u` and `f` members are readings of the
    same bits. Condition codes are the states that can be deduced from the CPU flags. -/

namespace Ncc

/-- The machine types an operand can have, after `operand_new` has decayed pointers (to unsigned
    long) and long doubles (to double). Plain `char` is unsigned. -/
inductive TypeBits where
  | char | schar | uchar | short | ushort | int | uint | long | ulong | float | double
  deriving DecidableEq, Repr, Inhabited

/-- T_FLOATING. -/
def TypeBits.floating : TypeBits → Bool
  | .float | .double => true
  | _ => false

/-- T_INTEGRAL. -/
def TypeBits.integral (ts : TypeBits) : Bool := !ts.floating

/-- T_SIGNED. -/
def TypeBits.signed : TypeBits → Bool
  | .schar | .short | .int | .long => true
  | _ => false

/-- Size in bytes (`type_bits_sizeof`). -/
def TypeBits.sizeof : TypeBits → Nat
  | .char | .schar | .uchar => 1
  | .short | .ushort => 2
  | .int | .uint | .float => 4
  | .long | .ulong | .double => 8

/-- `union con`. -/
abbrev Word := BitVec 64

/-- Truncate to the significant bits of the type and zero- or sign-extend (con.c). -/
def conNormalize : TypeBits → Word → Word
  | .char, w | .uchar, w => (w.setWidth 8).setWidth 64
  | .schar, w => (w.setWidth 8).signExtend 64
  | .short, w => (w.setWidth 16).signExtend 64
  | .ushort, w => (w.setWidth 16).setWidth 64
  | .int, w => (w.setWidth 32).signExtend 64
  | .uint, w => (w.setWidth 32).setWidth 64
  | .long, w | .ulong, w | .float, w | .double, w => w

/-- The word a register of the given type holds: like `conNormalize`, and a float occupies the low
    four bytes of its register. -/
def fit : TypeBits → Word → Word
  | .float, w => (w.setWidth 32).setWidth 64
  | ts, w => conNormalize ts w

theorem setWidth_signExtend_setWidth {n : Nat} (h : n ≤ 64) (w : Word) :
    ((w.setWidth n).signExtend 64).setWidth n = w.setWidth n := by
  ext i hi
  simp only [BitVec.getElem_setWidth, BitVec.getLsbD_signExtend]
  have : i < 64 := by omega
  simp [this, hi]

theorem setWidth_setWidth_setWidth {n : Nat} (h : n ≤ 64) (w : Word) :
    ((w.setWidth n).setWidth 64).setWidth n = w.setWidth n := by
  ext i hi
  simp only [BitVec.getElem_setWidth, BitVec.getLsbD_setWidth]
  have : i < 64 := by omega
  simp [this, hi]

theorem fit_of_integral {ts : TypeBits} (h : ts.integral = true) (w : Word) :
    fit ts w = conNormalize ts w := by
  cases ts <;> first | rfl | exact absurd h (by decide)

@[simp] theorem fit_fit (ts : TypeBits) (w : Word) : fit ts (fit ts w) = fit ts w := by
  cases ts <;> simp only [fit, conNormalize] <;>
    first
      | rw [setWidth_setWidth_setWidth (by decide)]
      | rw [setWidth_signExtend_setWidth (by decide)]

theorem ult_signExtend {n : Nat} (h0 : 0 < n) (h : n ≤ 64) (x y : BitVec n) :
    x.signExtend 64 < y.signExtend 64 ↔ x < y := by
  simp only [BitVec.lt_def, BitVec.toNat_signExtend, BitVec.toNat_setWidth, BitVec.msb_eq_decide]
  have hx := x.isLt
  have hy := y.isLt
  have hn : 2 ^ n ≤ 2 ^ 64 := Nat.pow_le_pow_right (by omega) h
  have hhalf : 2 * 2 ^ (n - 1) = 2 ^ n := by
    rw [← Nat.pow_succ']; congr 1; omega
  rw [Nat.mod_eq_of_lt (by omega), Nat.mod_eq_of_lt (by omega)]
  by_cases hxm : 2 ^ (n - 1) ≤ x.toNat <;> by_cases hym : 2 ^ (n - 1) ≤ y.toNat <;>
    simp only [hxm, hym, decide_true, decide_false, if_true, Bool.false_eq_true, if_false] <;> omega

theorem ult_setWidth {n : Nat} (h : n ≤ 64) (x y : BitVec n) :
    x.setWidth 64 < y.setWidth 64 ↔ x < y := by
  have hx := x.isLt
  have hy := y.isLt
  have hn : 2 ^ n ≤ 2 ^ 64 := Nat.pow_le_pow_right (by omega) h
  simp only [BitVec.lt_def, BitVec.toNat_setWidth]
  rw [Nat.mod_eq_of_lt (by omega), Nat.mod_eq_of_lt (by omega)]

/-- On words that are normalized to an integral type, comparison at the width of the type is
    comparison of the words. -/
theorem ult_normalized {ts : TypeBits} (hts : ts.integral = true) {a b : Word}
    (ha : conNormalize ts a = a) (hb : conNormalize ts b = b) :
    a.setWidth (8 * ts.sizeof) < b.setWidth (8 * ts.sizeof) ↔ a < b := by
  cases ts with
  | float | double => exact absurd hts (by decide)
  | long | ulong => exact Iff.of_eq (congrArg₂ (· < ·) (BitVec.setWidth_eq a) (BitVec.setWidth_eq b))
  | char | uchar | ushort | uint =>
    rw [conNormalize] at ha hb
    conv_rhs => rw [← ha, ← hb]
    exact (ult_setWidth (by decide) _ _).symm
  | schar | short | int =>
    rw [conNormalize] at ha hb
    conv_rhs => rw [← ha, ← hb]
    exact (ult_signExtend (by decide) (by decide) _ _).symm
/-- The bits of a double that encode a NaN. -/
def isNan (w : Word) : Bool := 0x7FF0000000000000#64 < (w &&& 0x7FFFFFFFFFFFFFFF#64)

/-- `==` on the doubles whose bits are `a` and `b`: both zeros are equal, a NaN equals nothing. -/
def fEq (a b : Word) : Bool :=
  !isNan a && !isNan b && (a == b || (a <<< 1 == 0#64 && b <<< 1 == 0#64))

/-- CC_*. -/
inductive ConditionCode where
  | z | nz | g | le | ge | l | a | be | ae | b | always | never | switch | default
  deriving DecidableEq, Repr

instance : Fintype ConditionCode where
  elems := {.z, .nz, .g, .le, .ge, .l, .a, .be, .ae, .b, .always, .never, .switch, .default}
  complete := by intro cc; cases cc <;> decide

/-- CC_CONDITIONAL: the codes that depend on the state of the CPU. -/
def ConditionCode.conditional : ConditionCode → Bool
  | .always | .never | .switch | .default => false
  | _ => true

/-- CC_INVERT. -/
def ConditionCode.invert : ConditionCode → ConditionCode
  | .z => .nz | .nz => .z | .g => .le | .le => .g | .ge => .l | .l => .ge
  | .a => .be | .be => .a | .ae => .b | .b => .ae
  | .always => .never | .never => .always | .switch => .default | .default => .switch

@[simp] theorem ConditionCode.invert_invert (cc : ConditionCode) : cc.invert.invert = cc := by
  cases cc <;> rfl

@[simp] theorem ConditionCode.conditional_invert (cc : ConditionCode) :
    cc.invert.conditional = cc.conditional := by
  cases cc <;> rfl

/-- A set of condition codes. -/
abbrev CcSet := Finset ConditionCode

end Ncc
