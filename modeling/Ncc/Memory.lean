import Ncc.Exec

/-! Blocks of bytes in memory.

    A store changes the bytes it covers and no others, so that what lies apart from it is read as
    before. `Copied` is the same for a copy of any length, byte by byte: two copies side by side make
    one (`Copied.append`), as long as the source and the destination are apart, or the same. -/

namespace Ncc

/-! ### Words -/

theorem loadWord_congr {m m' : Mem} {a : Word} : ∀ {n : Nat},
    (∀ k < n, m' (a + BitVec.ofNat 64 k) = m (a + BitVec.ofNat 64 k)) →
    loadWord m' a n = loadWord m a n := by
  intro n
  unfold loadWord
  induction n with
  | zero => exact fun _ => rfl
  | succ n ih =>
    intro h
    rw [ofBytes, ofBytes, ih fun k hk => h k (Nat.lt_succ_of_lt hk), h n (Nat.lt_succ_self n)]

/-- A store leaves what it does not overlap. -/
theorem loadWord_storeWord_apart {m : Mem} {a x w : Word} {n j : Nat}
    (ha : a.toNat + n ≤ 2 ^ 64) (hx : x.toNat + j ≤ 2 ^ 64)
    (h : a.toNat + n ≤ x.toNat ∨ x.toNat + j ≤ a.toNat) :
    loadWord (storeWord m a n w) x j = loadWord m x j := by
  refine loadWord_congr fun k hk => if_neg ?_
  have hk' : (BitVec.ofNat 64 k).toNat = k := by
    rw [BitVec.toNat_ofNat]
    exact Nat.mod_eq_of_lt (by omega)
  rw [BitVec.toNat_sub, BitVec.toNat_add, hk']
  omega

/-- A word of 4 bytes is read back as it was written. -/
theorem loadWord_storeWord_int (m : Mem) (a : Word) {w : Word} (hw : w.toNat < 2 ^ 32) :
    loadWord (storeWord m a 4 w) a 4 = w := by
  rw [loadWord_storeWord m a w (by decide)]
  apply BitVec.eq_of_toNat_eq
  rw [BitVec.toNat_setWidth, BitVec.toNat_setWidth]
  omega

theorem loadWord_storeWord_long (m : Mem) (a w : Word) : loadWord (storeWord m a 8 w) a 8 = w := by
  rw [loadWord_storeWord m a w (by decide)]
  simp

theorem toNat_add_of_le {a : Word} {n : Nat} (h : a.toNat + n < 2 ^ 64) :
    (a + BitVec.ofNat 64 n).toNat = a.toNat + n := by
  rw [BitVec.toNat_add, BitVec.toNat_ofNat]
  omega

/-! ### Copies -/

/-- No byte of the one block is in the other. -/
def Disjoint (a b : Word) (n : Nat) : Prop :=
  ∀ i < n, ∀ j < n, a + BitVec.ofNat 64 i ≠ b + BitVec.ofNat 64 j

/-- The one block can be copied to the other piece by piece. -/
def Movable (a b : Word) (n : Nat) : Prop := a = b ∨ Disjoint a b n

/-- The `n` bytes at `src` were copied to `dst`, and no other byte changed. -/
structure Copied (m m' : Mem) (dst src : Word) (n : Nat) : Prop where
  bytes : ∀ k < n, m' (dst + BitVec.ofNat 64 k) = m (src + BitVec.ofNat 64 k)
  others : ∀ x, (∀ k < n, x ≠ dst + BitVec.ofNat 64 k) → m' x = m x

/-- The `n` bytes at `a` were cleared, and no other byte changed. -/
structure Zeroed (m m' : Mem) (a : Word) (n : Nat) : Prop where
  bytes : ∀ k < n, m' (a + BitVec.ofNat 64 k) = 0
  others : ∀ x, (∀ k < n, x ≠ a + BitVec.ofNat 64 k) → m' x = m x

section
variable {m m' m'' : Mem} {dst src a : Word} {n k : Nat}

theorem add_ofNat_add (a : Word) (k n : Nat) :
    a + BitVec.ofNat 64 (k + n) = a + BitVec.ofNat 64 k + BitVec.ofNat 64 n := by
  rw [BitVec.ofNat_add, BitVec.add_assoc]

/-- The bytes of a block are at different addresses. -/
theorem add_ofNat_ne (a : Word) {i j : Nat} (hij : i ≠ j) (hi : i < 2 ^ 64) (hj : j < 2 ^ 64) :
    a + BitVec.ofNat 64 i ≠ a + BitVec.ofNat 64 j := by
  intro h
  have h' := congrArg BitVec.toNat (add_left_cancel h)
  rw [BitVec.toNat_ofNat, BitVec.toNat_ofNat, Nat.mod_eq_of_lt hi, Nat.mod_eq_of_lt hj] at h'
  exact hij h'

theorem Disjoint.left (h : Disjoint src dst (k + n)) : Disjoint src dst k :=
  fun i hi j hj => h i (by omega) j (by omega)

theorem Disjoint.right (h : Disjoint src dst (k + n)) :
    Disjoint (src + BitVec.ofNat 64 k) (dst + BitVec.ofNat 64 k) n := by
  intro i hi j hj
  rw [← add_ofNat_add, ← add_ofNat_add]
  exact h (k + i) (by omega) (k + j) (by omega)

theorem Movable.left (h : Movable src dst (k + n)) : Movable src dst k := h.imp_right Disjoint.left

theorem Movable.right (h : Movable src dst (k + n)) :
    Movable (src + BitVec.ofNat 64 k) (dst + BitVec.ofNat 64 k) n :=
  h.imp (congrArg (· + BitVec.ofNat 64 k)) Disjoint.right

/-- The first part of a block is read as before when it has been copied: a later byte of the source
    was not changed. -/
theorem Movable.later (h : Movable src dst (k + n)) (hn : k + n ≤ 2 ^ 64) {j : Nat} (hj : j < n) :
    ∀ i < k, src + BitVec.ofNat 64 (k + j) ≠ dst + BitVec.ofNat 64 i := by
  intro i hi
  rcases h with rfl | h
  · exact add_ofNat_ne src (by omega) (by omega) (by omega)
  · exact h (k + j) (by omega) i (by omega)

/-- Blocks one of which ends before the other begins. -/
theorem disjoint_of_le (hsrc : src.toNat + n ≤ 2 ^ 64) (hdst : dst.toNat + n ≤ 2 ^ 64)
    (h : src.toNat + n ≤ dst.toNat ∨ dst.toNat + n ≤ src.toNat) : Disjoint src dst n := by
  intro i hi j hj heq
  have h' := congrArg BitVec.toNat heq
  rw [toNat_add_of_le (by omega), toNat_add_of_le (by omega)] at h'
  omega

/-- What a copy leaves of a block that is apart from its destination. -/
theorem Copied.apart (h : Copied m m' dst src n) (hn : dst.toNat + n ≤ 2 ^ 64)
    {x : Word} (hx : x.toNat < dst.toNat ∨ dst.toNat + n ≤ x.toNat) : m' x = m x := by
  refine h.others x fun k hk heq => ?_
  rw [heq, toNat_add_of_le (by omega)] at hx
  omega

/-- Two copies side by side. -/
theorem Copied.append (h : Copied m m' dst src k)
    (h' : Copied m' m'' (dst + BitVec.ofNat 64 k) (src + BitVec.ofNat 64 k) n)
    (hd : Movable src dst (k + n)) (hn : k + n ≤ 2 ^ 64) : Copied m m'' dst src (k + n) := by
  refine ⟨fun i hi => ?_, fun x hx => ?_⟩
  · rcases Nat.lt_or_ge i k with hik | hik
    · -- the second copy leaves what the first one copied
      rw [h'.others _ fun j hj => ?_, h.bytes i hik]
      rw [← add_ofNat_add]
      exact add_ofNat_ne dst (by omega) (by omega) (by omega)
    · obtain ⟨j, rfl⟩ := Nat.exists_eq_add_of_le hik
      rw [add_ofNat_add, h'.bytes j (by omega), ← add_ofNat_add]
      -- the first copy left the source of the second one
      exact h.others _ (hd.later hn (by omega))
  · rw [h'.others x fun j hj => ?_, h.others x fun j hj => hx j (by omega)]
    rw [← add_ofNat_add]
    exact hx (k + j) (by omega)

theorem Copied.zero : Copied m m dst src 0 := ⟨fun _ h => absurd h (by omega), fun _ _ => rfl⟩

theorem wordByte_loadWord (m : Mem) (a : Word) (hn : n ≤ 8) (hk : k < n) :
    wordByte (loadWord m a n) k = m (a + BitVec.ofNat 64 k) := by
  apply BitVec.eq_of_getLsbD_eq
  intro j hj
  have hdiv : (8 * k + j) / 8 = k := by omega
  have hmod : (8 * k + j) % 8 = j := by omega
  rw [wordByte, BitVec.getLsbD_setWidth, BitVec.getLsbD_ushiftRight, loadWord,
    getLsbD_ofBytes _ _ n hn, hdiv, hmod]
  simp [hj, show 8 * k + j < 8 * n by omega]

/-- A store of a word writes its bytes. -/
theorem storeWord_apply (m : Mem) (a w : Word) (hk : k < n) (hn : n ≤ 8) :
    storeWord m a n w (a + BitVec.ofNat 64 k) = wordByte w k := by
  have hk' : (a + BitVec.ofNat 64 k - a).toNat = k := by
    rw [add_sub_cancel_left, BitVec.toNat_ofNat]
    exact Nat.mod_eq_of_lt (by omega)
  rw [storeWord, hk', if_pos hk]

theorem storeWord_others (m : Mem) (a w : Word) {x : Word}
    (hx : ∀ k < n, x ≠ a + BitVec.ofNat 64 k) : storeWord m a n w x = m x := by
  refine if_neg fun h => hx (x - a).toNat h ?_
  rw [BitVec.ofNat_toNat, BitVec.setWidth_eq]
  ring

/-- A word whose low bytes are those of a block is stored as a copy of the block. -/
theorem copied_storeWord {w : Word} (hn : n ≤ 8)
    (hw : ∀ k < n, wordByte w k = m (src + BitVec.ofNat 64 k)) :
    Copied m (storeWord m dst n w) dst src n :=
  ⟨fun k hk => by rw [storeWord_apply m dst w hk hn, hw k hk],
    fun _ hx => storeWord_others m dst w hx⟩

/-! ### Clearing -/

theorem Zeroed.zero : Zeroed m m a 0 := ⟨fun _ h => absurd h (by omega), fun _ _ => rfl⟩

theorem zeroed_storeWord (m : Mem) (a : Word) (hn : n ≤ 8) : Zeroed m (storeWord m a n 0) a n :=
  ⟨fun k hk => by rw [storeWord_apply m a 0 hk hn]; simp [wordByte],
    fun _ hx => storeWord_others m a 0 hx⟩

/-- What lies behind is cleared, too. -/
theorem Zeroed.append (h : Zeroed m m' a k) (h' : Zeroed m' m'' (a + BitVec.ofNat 64 k) n)
    (hn : k + n ≤ 2 ^ 64) : Zeroed m m'' a (k + n) := by
  refine ⟨fun j hj => ?_, fun x hx => ?_⟩
  · by_cases hjk : j < k
    · rw [h'.others _ fun i hi => ?_, h.bytes j hjk]
      rw [← add_ofNat_add]
      exact add_ofNat_ne a (by omega) (by omega) (by omega)
    · obtain ⟨i, rfl⟩ := Nat.exists_eq_add_of_le (Nat.le_of_not_lt hjk)
      rw [add_ofNat_add]
      exact h'.bytes i (by omega)
  · rw [h'.others x fun j hj => ?_, h.others x fun j hj => hx j (by omega)]
    rw [← add_ofNat_add]
    exact hx (k + j) (by omega)

end

end Ncc
