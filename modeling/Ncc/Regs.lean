import Ncc.Type
import Ncc.Lib.Assoc

/-! Pseudo-registers, register sets and register maps (cc1.h, regs.c, regmaps.c). -/

namespace Ncc

/-- `typedef unsigned pseudo_reg`. -/
abbrev PseudoReg := BitVec 32

instance : LawfulBEq PseudoReg := inferInstance

/-- Stands for the condition codes in a register set. -/
def regCc : PseudoReg := 0x80000000

/-- No register. -/
def regNone : PseudoReg := 0x80000001

/-- Stands for memory in a register set. -/
def regMem : PseudoReg := 0x80000002

/-- PSEUDO_REG_BASE: the register without the index of its web. -/
def pseudoRegBase (r : PseudoReg) : PseudoReg := r &&& ~~~0x7FE00000

/-- A register set: a list in ascending order. -/
abbrev Regs := List PseudoReg

/-- REGS_ADD: walk past the smaller elements and insert unless already there. -/
def regsAdd : Regs → PseudoReg → Regs
  | [], r => [r]
  | x :: xs, r => if x < r then x :: regsAdd xs r else if x = r then x :: xs else r :: x :: xs

@[simp] theorem mem_regsAdd {r q : PseudoReg} : ∀ {s : Regs}, q ∈ regsAdd s r ↔ q = r ∨ q ∈ s
  | [] => by simp [regsAdd]
  | x :: xs => by
      unfold regsAdd
      split_ifs with hlt heq
      · rw [List.mem_cons, mem_regsAdd, List.mem_cons]; tauto
      · subst heq; simp
      · rw [List.mem_cons]

theorem sorted_regsAdd {r : PseudoReg} : ∀ {s : Regs}, s.Pairwise (· < ·) →
    (regsAdd s r).Pairwise (· < ·)
  | [], _ => by simp [regsAdd]
  | x :: xs, h => by
      obtain ⟨hx, hxs⟩ := List.pairwise_cons.mp h
      unfold regsAdd
      split_ifs with hlt heq
      · refine List.pairwise_cons.mpr ⟨fun q hq => ?_, sorted_regsAdd hxs⟩
        rcases mem_regsAdd.mp hq with rfl | hq
        · exact hlt
        · exact hx q hq
      · exact h
      · have hrx : r < x := BitVec.lt_of_le_ne (BitVec.not_lt.mp hlt) (Ne.symm heq)
        refine List.pairwise_cons.mpr ⟨fun q hq => ?_, h⟩
        rcases List.mem_cons.mp hq with rfl | hq
        · exact hrx
        · exact BitVec.lt_trans hrx (hx q hq)

/-- Add every register of `src` to `dst`. -/
def regsUnion (dst src : Regs) : Regs := src.foldl regsAdd dst

@[simp] theorem mem_regsUnion {q : PseudoReg} : ∀ {src dst : Regs},
    q ∈ regsUnion dst src ↔ q ∈ dst ∨ q ∈ src
  | [], dst => by simp [regsUnion]
  | r :: rs, dst => by
      rw [regsUnion, List.foldl_cons, ← regsUnion, mem_regsUnion, mem_regsAdd, List.mem_cons]; tauto

theorem sorted_regsUnion : ∀ (src : Regs) {dst : Regs}, dst.Pairwise (· < ·) →
    (regsUnion dst src).Pairwise (· < ·)
  | [], _, h => h
  | r :: rs, dst, h => by
      rw [regsUnion, List.foldl_cons, ← regsUnion]
      exact sorted_regsUnion rs (sorted_regsAdd h)

/-- If `bef` appears in the set, change it to `aft`. -/
def regsSubstitute (s : Regs) (bef aft : PseudoReg) : Regs :=
  if bef ∈ s then regsAdd (s.filter (· ≠ bef)) aft else s

theorem mem_regsSubstitute {s : Regs} {bef aft q : PseudoReg} :
    q ∈ regsSubstitute s bef aft ↔ (q = aft ∧ bef ∈ s) ∨ (q ∈ s ∧ q ≠ bef) := by
  unfold regsSubstitute
  split
  · rename_i h; simp [h]
  · rename_i h
    constructor
    · intro hq; exact Or.inr ⟨hq, fun he => h (he ▸ hq)⟩
    · rintro (⟨_, hf⟩ | ⟨hq, _⟩)
      · exact absurd hf h
      · exact hq

/-- `struct regmaps`. -/
abbrev Regmaps := Assoc PseudoReg PseudoReg

/-- Insert or overwrite the entry of `key`. -/
def regmapsUpdate (m : Regmaps) (key value : PseudoReg) : Regmaps := m.update key value

/-- Replace the values `bef` by `aft`; the keys are not touched. -/
def regmapsSubstitute (m : Regmaps) (bef aft : PseudoReg) : Regmaps :=
  m.mapValues (fun v => if v = bef then aft else v)

/-! ### Web indices -/

/-- PSEUDO_REG_SET_IDX; an index that needs more than ten bits changes the base. -/
def pseudoRegSetIdx (r : PseudoReg) (idx : Nat) : PseudoReg :=
  pseudoRegBase r ||| BitVec.ofNat 32 idx <<< 21

/-- PSEUDO_REGS_SAME_BASE. -/
def sameBase (r q : PseudoReg) : Bool := pseudoRegBase r == pseudoRegBase q

theorem sameBase_iff {r q : PseudoReg} : sameBase r q = true ↔ pseudoRegBase r = pseudoRegBase q :=
  beq_iff_eq

/-- The bits of a base: those outside the index. -/
theorem getLsbD_base (r : PseudoReg) {i : Nat} (hi : i < 32) :
    (pseudoRegBase r).getLsbD i = (r.getLsbD i && !decide (21 ≤ i ∧ i < 31)) := by
  have hmask : ∀ i < 32, (~~~0x7FE00000#32).getLsbD i = !decide (21 ≤ i ∧ i < 31) := by decide
  rw [pseudoRegBase, BitVec.getLsbD_and]
  congr 1
  exact hmask i hi

theorem getLsbD_setIdx (r : PseudoReg) (idx : Nat) {i : Nat} (hi : i < 32) :
    (pseudoRegSetIdx r idx).getLsbD i =
      ((pseudoRegBase r).getLsbD i || (decide (21 ≤ i) && idx.testBit (i - 21))) := by
  rw [pseudoRegSetIdx, BitVec.getLsbD_or, BitVec.getLsbD_shiftLeft, BitVec.getLsbD_ofNat]
  congr 1
  by_cases h : 21 ≤ i
  · simp [hi, h, show i - 21 < 32 by omega, show ¬ i < 21 by omega]
  · simp [h, show i < 21 by omega]

@[simp] theorem base_base (r : PseudoReg) : pseudoRegBase (pseudoRegBase r) = pseudoRegBase r := by
  apply BitVec.eq_of_getLsbD_eq
  intro i hi
  rw [getLsbD_base _ hi, getLsbD_base _ hi, Bool.and_assoc, Bool.and_self]

/-- An index of ten bits leaves the base alone. -/
theorem base_setIdx (r : PseudoReg) {idx : Nat} (h : idx < 1024) :
    pseudoRegBase (pseudoRegSetIdx r idx) = pseudoRegBase r := by
  apply BitVec.eq_of_getLsbD_eq
  intro i hi
  rw [getLsbD_base _ hi, getLsbD_setIdx _ _ hi, getLsbD_base _ hi]
  by_cases hm : 21 ≤ i ∧ i < 31
  · simp [hm]
  · simp only [hm, decide_false, Bool.not_false, Bool.and_true]
    by_cases h₁ : 21 ≤ i
    · have hbit : idx.testBit (i - 21) = false :=
        Nat.testBit_lt_two_pow (h.trans_le ((by decide : 1024 ≤ 2 ^ 10).trans
          (Nat.pow_le_pow_right (by omega) (by omega))))
      simp [hbit]
    · simp [h₁]

/-- Registers with different indices are different. -/
theorem setIdx_inj {r q : PseudoReg} {i j : Nat} (hi : i < 1024) (hj : j < 1024)
    (h : pseudoRegSetIdx r i = pseudoRegSetIdx q j) : i = j := by
  apply Nat.eq_of_testBit_eq
  intro k
  by_cases hk : k < 10
  · have hbit := congrArg (fun x => BitVec.getLsbD x (k + 21)) h
    simp only [getLsbD_setIdx _ _ (by omega : k + 21 < 32),
      getLsbD_base _ (by omega : k + 21 < 32)] at hbit
    simpa [show k + 21 < 31 by omega, show 21 ≤ k + 21 by omega] using hbit
  · have hlt : 1024 ≤ 2 ^ k :=
      (by decide : 1024 ≤ 2 ^ 10).trans (Nat.pow_le_pow_right (by omega) (by omega))
    rw [Nat.testBit_lt_two_pow (hi.trans_le hlt), Nat.testBit_lt_two_pow (hj.trans_le hlt)]

@[simp] theorem setIdx_zero (r : PseudoReg) : pseudoRegSetIdx r 0 = pseudoRegBase r := by
  simp [pseudoRegSetIdx]

/-- `regs_eliminate_base`. -/
def regsEliminateBase (s : Regs) (b : PseudoReg) : Regs := s.filter fun r => !sameBase r b

/-- `regs_eliminate_bases`. -/
def regsEliminateBases (s bases : Regs) : Regs := bases.foldl regsEliminateBase s

/-- `regs_replace_base`. -/
def regsReplaceBase (s : Regs) (r : PseudoReg) : Regs := regsAdd (regsEliminateBase s r) r

/-- `regs_select_base`. -/
def regsSelectBase (dst src : Regs) (b : PseudoReg) : Regs :=
  regsUnion dst (src.filter fun r => sameBase r b)

/-- `regs_select_bases`. -/
def regsSelectBases (dst src bases : Regs) : Regs :=
  bases.foldl (fun dst b => regsSelectBase dst src b) dst

/-- `regs_intersect_bases`. -/
def regsIntersectBases (dst src : Regs) : Regs := regsSelectBases [] dst src

/-- `regs_strip`. -/
def regsStrip (s : Regs) : Regs := s.foldl (fun t r => regsAdd t (pseudoRegBase r)) []

/-- `regmaps_strip`. -/
def regmapsStrip (m : Regmaps) : Regmaps := m.mapValues pseudoRegBase

section
variable {s src bases : Regs} {r b : PseudoReg}

theorem mem_regsEliminateBase : r ∈ regsEliminateBase s b ↔
    r ∈ s ∧ pseudoRegBase r ≠ pseudoRegBase b := by
  simp [regsEliminateBase, sameBase]

theorem mem_regsEliminateBases : ∀ {bases s : Regs}, r ∈ regsEliminateBases s bases ↔
    r ∈ s ∧ ∀ b ∈ bases, pseudoRegBase r ≠ pseudoRegBase b
  | [], s => by simp [regsEliminateBases]
  | b :: bases, s => by
      rw [regsEliminateBases, List.foldl_cons, ← regsEliminateBases, mem_regsEliminateBases,
        mem_regsEliminateBase, List.forall_mem_cons, and_assoc]

theorem mem_regsReplaceBase : r ∈ regsReplaceBase s b ↔
    r = b ∨ (r ∈ s ∧ pseudoRegBase r ≠ pseudoRegBase b) := by
  rw [regsReplaceBase, mem_regsAdd, mem_regsEliminateBase]

theorem mem_regsSelectBase : r ∈ regsSelectBase s src b ↔
    r ∈ s ∨ (r ∈ src ∧ pseudoRegBase r = pseudoRegBase b) := by
  simp [regsSelectBase, sameBase]

theorem mem_regsSelectBases : ∀ {bases s : Regs}, r ∈ regsSelectBases s src bases ↔
    r ∈ s ∨ (r ∈ src ∧ ∃ b ∈ bases, pseudoRegBase r = pseudoRegBase b)
  | [], s => by simp [regsSelectBases]
  | b :: bases, s => by
      rw [regsSelectBases, List.foldl_cons, ← regsSelectBases, mem_regsSelectBases,
        mem_regsSelectBase]
      simp only [List.mem_cons, exists_eq_or_imp]
      tauto

theorem mem_regsIntersectBases : r ∈ regsIntersectBases s src ↔
    r ∈ s ∧ ∃ b ∈ src, pseudoRegBase r = pseudoRegBase b := by
  simp [regsIntersectBases, mem_regsSelectBases]

theorem sorted_regsSelectBases : ∀ {bases s : Regs}, s.Pairwise (· < ·) →
    (regsSelectBases s src bases).Pairwise (· < ·)
  | [], _, h => h
  | b :: bases, s, h => by
      rw [regsSelectBases, List.foldl_cons, ← regsSelectBases]
      exact sorted_regsSelectBases (sorted_regsUnion _ h)

theorem sorted_regsEliminateBases : ∀ {bases s : Regs}, s.Pairwise (· < ·) →
    (regsEliminateBases s bases).Pairwise (· < ·)
  | [], _, h => h
  | b :: bases, s, h => by
      rw [regsEliminateBases, List.foldl_cons, ← regsEliminateBases]
      exact sorted_regsEliminateBases (h.filter _)

theorem mem_foldl_regsAdd (g : PseudoReg → PseudoReg) : ∀ {s t : Regs},
    r ∈ s.foldl (fun t x => regsAdd t (g x)) t ↔ r ∈ t ∨ ∃ x ∈ s, r = g x
  | [], t => by simp
  | x :: s, t => by
      rw [List.foldl_cons, mem_foldl_regsAdd, mem_regsAdd]
      simp only [List.mem_cons, exists_eq_or_imp]
      tauto

theorem mem_regsStrip : r ∈ regsStrip s ↔ ∃ x ∈ s, r = pseudoRegBase x := by
  rw [regsStrip, mem_foldl_regsAdd]
  simp

theorem sorted_foldl_regsAdd (g : PseudoReg → PseudoReg) : ∀ {s t : Regs}, t.Pairwise (· < ·) →
    (s.foldl (fun t x => regsAdd t (g x)) t).Pairwise (· < ·)
  | [], _, h => h
  | x :: s, t, h => by
      rw [List.foldl_cons]
      exact sorted_foldl_regsAdd g (sorted_regsAdd h)

/-- Sets in ascending order are equal when they have the same elements. -/
theorem regs_ext {t : Regs} (hs : s.Pairwise (· < ·)) (ht : t.Pairwise (· < ·))
    (h : ∀ r, r ∈ s ↔ r ∈ t) : s = t := by
  have hnd : ∀ {l : Regs}, l.Pairwise (· < ·) → l.Nodup :=
    fun hl => hl.imp fun hlt => BitVec.ne_of_lt hlt
  refine List.Perm.eq_of_pairwise (fun a b _ _ hab hba => ?_) hs ht
    ((List.perm_ext_iff_of_nodup (hnd hs) (hnd ht)).mpr h)
  exact absurd (BitVec.lt_trans hab hba) (BitVec.lt_irrefl a)

end

end Ncc
