import Mathlib

/-! Large bitsets (bitset.c).

    A bitset is a fixed number of 32-bit words. Nothing keeps the bits beyond the number it was made
    for at zero: they are set and compared along with the others. `mem_bits` and the lemmas below it
    read a bitset as the finite set of the numbers of its bits. -/

namespace Ncc

/-- `struct bitset`, of `nr_words` words. -/
abbrev Bitset (w : ℕ) := Vector (BitVec 32) w

/-- The `nr_words` of a bitset that holds `n` bits. -/
def bitsetWords (n : ℕ) : ℕ := (n + 31) / 32

variable {w : ℕ}

/-- `bitset_zero_all`. -/
def bitsetZeroAll (s : Bitset w) : Bitset w := s.map fun _ => 0

/-- `bitset_one_all`. -/
def bitsetOneAll (s : Bitset w) : Bitset w := s.map fun _ => BitVec.allOnes 32

/-- `bitset_init`. -/
def bitsetInit (n : ℕ) : Bitset (bitsetWords n) := Vector.replicate _ 0

/-- The word that has bit `n` in it, changed. -/
def bitsetModify (s : Bitset w) (n : ℕ) (g : BitVec 32 → BitVec 32) : Bitset w :=
  Vector.ofFn fun i => if i.val = n / 32 then g s[i] else s[i]

/-- `bitset_set`. -/
def bitsetSet (s : Bitset w) (n : ℕ) : Bitset w :=
  bitsetModify s n fun word => word ||| 1#32 <<< (n % 32)

/-- `bitset_reset`. -/
def bitsetReset (s : Bitset w) (n : ℕ) : Bitset w :=
  bitsetModify s n fun word => word &&& ~~~(1#32 <<< (n % 32))

/-- `bitset_get`. -/
def bitsetGet (s : Bitset w) (n : ℕ) : Bool :=
  decide (s[n / 32]?.getD 0 &&& 1#32 <<< (n % 32) ≠ 0)

/-- `bitset_and`. -/
def bitsetAnd (dst src : Bitset w) : Bitset w := dst.zipWith (· &&& ·) src

/-- `bitset_or`. -/
def bitsetOr (dst src : Bitset w) : Bitset w := dst.zipWith (· ||| ·) src

/-- `bitset_same`. -/
def bitsetSame (s t : Bitset w) : Bool := decide (s = t)

/-- The numbers of the bits that are set. -/
def bits (s : Bitset w) : Finset ℕ := (Finset.range (32 * w)).filter fun n => bitsetGet s n

/-! ### Bits, word by word -/

/-- A bit of a word. -/
theorem and_bit_ne_zero (x : BitVec 32) {j : ℕ} (hj : j < 32) :
    (x &&& 1#32 <<< j ≠ 0) ↔ x.getLsbD j = true := by
  constructor
  · intro h
    by_contra hx
    refine h (BitVec.eq_of_getLsbD_eq fun i hi => ?_)
    by_cases hij : i = j
    · subst hij; simp [hx]
    · have : ¬ (i - j = 0 ∧ j ≤ i) := by omega
      simp only [BitVec.getLsbD_and, BitVec.getLsbD_shiftLeft, BitVec.getLsbD_one]
      grind
  · intro h h0
    have hbit : (x &&& 1#32 <<< j).getLsbD j = false := by rw [h0]; exact BitVec.getLsbD_zero
    rw [BitVec.getLsbD_and, h, BitVec.getLsbD_shiftLeft, BitVec.getLsbD_one] at hbit
    simp [hj] at hbit

theorem bitsetGet_eq (s : Bitset w) (n : ℕ) :
    bitsetGet s n = (s[n / 32]?.getD 0).getLsbD (n % 32) := by
  rw [bitsetGet, Bool.eq_iff_iff, decide_eq_true_eq, and_bit_ne_zero _ (Nat.mod_lt n (by omega))]

/-- A bit in range is a bit of one of the words. -/
theorem bitsetGet_of_lt (s : Bitset w) {n : ℕ} (hn : n / 32 < w) :
    bitsetGet s n = s[n / 32].getLsbD (n % 32) := by
  rw [bitsetGet_eq, Vector.getElem?_eq_getElem hn, Option.getD_some]

theorem mem_bits {s : Bitset w} {n : ℕ} : n ∈ bits s ↔ bitsetGet s n = true := by
  rw [bits, Finset.mem_filter, Finset.mem_range, and_iff_right_iff_imp]
  intro h
  by_contra hn
  rw [bitsetGet_eq, Vector.getElem?_eq_none (by omega)] at h
  simp at h

theorem bits_lt {s : Bitset w} {n : ℕ} (h : n ∈ bits s) : n / 32 < w := by
  have := Finset.mem_range.mp (Finset.mem_filter.mp h).1
  omega

/-- The bits determine the bitset. -/
theorem bits_inj {s t : Bitset w} (h : bits s = bits t) : s = t := by
  refine Vector.ext fun i hi => BitVec.eq_of_getLsbD_eq fun j hj => ?_
  have hdiv : (32 * i + j) / 32 = i := by omega
  have hmod : (32 * i + j) % 32 = j := by omega
  have hn := Finset.ext_iff.mp h (32 * i + j)
  rw [mem_bits, mem_bits, ← Bool.eq_iff_iff, bitsetGet_of_lt s (by omega),
    bitsetGet_of_lt t (by omega)] at hn
  simpa only [hdiv, hmod] using hn

/-! ### What the operations do to the set of bits -/

theorem mem_bits_and {s t : Bitset w} {n : ℕ} :
    n ∈ bits (bitsetAnd s t) ↔ n ∈ bits s ∧ n ∈ bits t := by
  by_cases hn : n / 32 < w
  · simp [mem_bits, bitsetGet_of_lt _ hn, bitsetAnd]
  · exact ⟨fun h => absurd (bits_lt h) hn, fun h => absurd (bits_lt h.1) hn⟩

theorem mem_bits_or {s t : Bitset w} {n : ℕ} :
    n ∈ bits (bitsetOr s t) ↔ n ∈ bits s ∨ n ∈ bits t := by
  by_cases hn : n / 32 < w
  · simp [mem_bits, bitsetGet_of_lt _ hn, bitsetOr]
  · exact ⟨fun h => absurd (bits_lt h) hn, fun h => absurd (h.elim bits_lt bits_lt) hn⟩

theorem mem_bits_zeroAll {s : Bitset w} {n : ℕ} : n ∉ bits (bitsetZeroAll s) := by
  intro h
  have hn := bits_lt h
  simp [mem_bits, bitsetGet_of_lt _ hn, bitsetZeroAll] at h

theorem mem_bits_init {m n : ℕ} : n ∉ bits (bitsetInit m) := by
  intro h
  have hn := bits_lt h
  simp [mem_bits, bitsetGet_of_lt _ hn, bitsetInit] at h

theorem mem_bits_oneAll {s : Bitset w} {n : ℕ} : n ∈ bits (bitsetOneAll s) ↔ n / 32 < w := by
  refine ⟨bits_lt, fun hn => ?_⟩
  rw [mem_bits, bitsetGet_of_lt _ hn, bitsetOneAll, Vector.getElem_map, BitVec.getLsbD_allOnes]
  exact decide_eq_true (Nat.mod_lt n (by omega))

/-- Changing one word through `g` changes the bits of that word. -/
theorem mem_bits_modify {s : Bitset w} {m n : ℕ} {g : BitVec 32 → BitVec 32} (hn : n / 32 < w) :
    n ∈ bits (bitsetModify s m g) ↔
      (if n / 32 = m / 32 then (g s[n / 32]).getLsbD (n % 32) else s[n / 32].getLsbD (n % 32)) := by
  rw [mem_bits, bitsetGet_of_lt _ hn, bitsetModify, Vector.getElem_ofFn]
  split <;> rfl

theorem mem_bits_set {s : Bitset w} {m n : ℕ} :
    n ∈ bits (bitsetSet s m) ↔ n ∈ bits s ∨ (n = m ∧ n / 32 < w) := by
  by_cases hn : n / 32 < w
  · rw [bitsetSet, mem_bits_modify hn, mem_bits, bitsetGet_of_lt s hn]
    have hlt : n % 32 < 32 := Nat.mod_lt n (by omega)
    by_cases hw : n / 32 = m / 32
    · have heq : n % 32 = m % 32 ↔ n = m := by omega
      simp only [if_pos hw, BitVec.getLsbD_or, Bool.or_eq_true, BitVec.getLsbD_shiftLeft,
        BitVec.getLsbD_one, hn, and_true, ← heq]
      grind
    · have hne : n ≠ m := fun he => hw (by rw [he])
      simp [if_neg hw, hne]
  · exact ⟨fun h => absurd (bits_lt h) hn, fun h => absurd (h.elim bits_lt (·.2)) hn⟩

theorem mem_bits_reset {s : Bitset w} {m n : ℕ} :
    n ∈ bits (bitsetReset s m) ↔ n ∈ bits s ∧ n ≠ m := by
  by_cases hn : n / 32 < w
  · rw [bitsetReset, mem_bits_modify hn, mem_bits, bitsetGet_of_lt s hn]
    have hlt : n % 32 < 32 := Nat.mod_lt n (by omega)
    by_cases hw : n / 32 = m / 32
    · have heq : n % 32 = m % 32 ↔ n = m := by omega
      simp only [if_pos hw, BitVec.getLsbD_and, Bool.and_eq_true, BitVec.getLsbD_not,
        BitVec.getLsbD_shiftLeft, BitVec.getLsbD_one, ne_eq, ← heq]
      grind
    · have hne : n ≠ m := fun he => hw (by rw [he])
      simp [if_neg hw, hne]
  · exact ⟨fun h => absurd (bits_lt h) hn, fun h => absurd (bits_lt h.1) hn⟩

end Ncc
