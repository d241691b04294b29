import Ncc.Testz

/-! What `live_ccs` promises of an insn that DEFs the condition codes (live.c).

    The range that the insn heads knows how often the codes are read and where last, and no more.
    When they are read once, and not by the branch, `live_ccs` asks the wrong insn: the one that
    DEFs the codes instead of the one that reads them. -/

namespace Ncc

section
variable {α : Type*} (q : Queries α)

/-- Of the insns `rest` after a DEF of the codes, `i` reads them before they are redefined. -/
structure ReadsCc (rest l₁ : List α) (i : α) (l₂ : List α) : Prop where
  split : rest = l₁ ++ i :: l₂
  reaches : ∀ j ∈ l₁, q.defsCc j = false
  reads : q.usesCc i ≠ ∅

/-- The conditional branch reads the codes. -/
def BranchReadsCc (rest : List α) (conditional : Bool) : Prop :=
  (∀ j ∈ rest, q.defsCc j = false) ∧ conditional = true

/-- A later insn, or the branch on the codes `ccs`, depends on the code. -/
def DependsCc (rest : List α) (conditional : Bool) (ccs : CcSet) (cc : ConditionCode) : Prop :=
  (∃ l₁ i l₂, ReadsCc q rest l₁ i l₂ ∧ cc ∈ q.usesCc i) ∨
    BranchReadsCc q rest conditional ∧ cc ∈ ccs

/-- One insn alone reads the codes, and it reads some that `insn` does not read itself. -/
def SoleReader (insn : α) (rest : List α) (conditional : Bool) : Prop :=
  ∃ l₁ i l₂, ReadsCc q rest l₁ i l₂ ∧ ¬ q.usesCc i ⊆ q.usesCc insn ∧
    (∀ m₁ j m₂, ReadsCc q rest m₁ j m₂ → m₁.length = l₁.length) ∧
    ¬ BranchReadsCc q rest conditional

variable {q} {rest l₁ l₂ : List α} {i insn : α} {conditional : Bool} {control : Option Operand}
variable {ccs : CcSet} {cc : ConditionCode} {n : Nat} {u : InsnIndex}

/-- The USEs that the range of a DEF counts are the readers. -/
theorem mem_blockReads_cc : u ∈ blockReads q .cc n rest conditional control ↔
    (∃ l₁ i l₂, ReadsCc q rest l₁ i l₂ ∧ u = .insn (n + l₁.length)) ∨
      (u = .branch ∧ BranchReadsCc q rest conditional) := by
  rw [mem_blockReads]
  refine or_congr ⟨?_, ?_⟩ Iff.rfl
  · rintro ⟨l₁, i, l₂, hsplit, hu, huses, hall⟩
    exact ⟨l₁, i, l₂, ⟨hsplit, hall, by simpa [uses] using huses⟩, hu⟩
  · rintro ⟨l₁, i, l₂, h, hu⟩
    exact ⟨l₁, i, l₂, h.split, hu, by simpa [uses] using h.reads, h.reaches⟩

theorem nodup_blockReads {k : LiveReg} : ∀ {l : List α} {n : Nat},
    (blockReads q k n l conditional control).Nodup
  | [], n => by
    unfold blockReads reads
    split <;> simp
  | i :: l, n => by
    rw [blockReads_cons]
    have ih : (blockReads q k (n + 1) l conditional control).Nodup := nodup_blockReads
    have hnew : InsnIndex.insn n ∉ blockReads q k (n + 1) l conditional control :=
      fun h => ne_of_mem_blockReads q (Nat.lt_succ_self n) h rfl
    split <;> split <;> simp [ih, hnew]

/-- The readers' own codes are what is depended on. -/
theorem ReadsCc.unique {m₁ m₂ : List α} {j : α} (h : ReadsCc q rest l₁ i l₂)
    (h' : ReadsCc q rest m₁ j m₂) (hlen : m₁.length = l₁.length) : j = i := by
  obtain ⟨-, he⟩ := List.append_inj (h'.split.symm.trans h.split) hlen
  exact (List.cons.inj he).1

/-- What `live_ccs` answers, by the number of readers. -/
theorem liveCcs_eq (hdef : q.defsCc insn = true) (pre : List α) :
    liveCcs q (liveAnalyzeLocal q (pre ++ insn :: rest) conditional control) ccs insn
        (.insn pre.length) =
      match blockReads q .cc (pre.length + 1) rest conditional control with
      | [] => ∅
      | [u] => if u = .branch then ccs else q.usesCc insn
      | _ => Finset.univ := by
  have hrange := rangeByDef_liveAnalyzeLocal q (k := .cc) hdef pre rest conditional control
  unfold liveCcs
  rw [hrange]
  match blockReads q .cc (pre.length + 1) rest conditional control with
  | [] => rfl
  | [u] => rfl
  | u :: v :: us =>
    simp only [Range.extend_uses, Nat.zero_add, List.length_cons]
    rw [if_neg (by omega), if_neg (by omega)]

end

/-- `live_ccs` tells every code that is depended on unless one insn alone reads the codes, and reads
    some that the defining insn does not read itself. -/
theorem liveCcs_conservative_iff {α : Type*} (q : Queries α) (pre : List α) (insn : α)
    (rest : List α) (conditional : Bool) (control : Option Operand) (ccs : CcSet)
    (hdef : q.defsCc insn = true) :
    (∀ cc, DependsCc q rest conditional ccs cc →
      cc ∈ liveCcs q (liveAnalyzeLocal q (pre ++ insn :: rest) conditional control) ccs insn
        (.insn pre.length)) ↔ ¬ SoleReader q insn rest conditional := by
  rw [liveCcs_eq hdef]
  have hmem := @mem_blockReads_cc α q rest conditional control (pre.length + 1)
  have hnodup := @nodup_blockReads α q conditional control .cc rest (pre.length + 1)
  rcases hus : blockReads q .cc (pre.length + 1) rest conditional control with _ | ⟨u, _ | ⟨v, us⟩⟩
  · -- nobody reads them
    rw [hus] at hmem
    have hno : ∀ l₁ i l₂, ¬ ReadsCc q rest l₁ i l₂ := fun l₁ i l₂ h =>
      List.not_mem_nil (hmem.mpr (.inl ⟨l₁, i, l₂, h, rfl⟩))
    refine iff_of_true (fun cc hcc => ?_) fun ⟨l₁, i, l₂, h, _⟩ => hno l₁ i l₂ h
    rcases hcc with ⟨l₁, i, l₂, h, -⟩ | ⟨hb, -⟩
    · exact absurd h (hno l₁ i l₂)
    · exact absurd (hmem.mpr (.inr ⟨rfl, hb⟩)) List.not_mem_nil
  · rw [hus] at hmem
    rcases hmem.mp (List.mem_cons_self ..) with ⟨l₁, i, l₂, h, rfl⟩ | ⟨rfl, hb⟩
    · -- one insn reads them
      have hsole : ∀ m₁ j m₂, ReadsCc q rest m₁ j m₂ → m₁.length = l₁.length := by
        intro m₁ j m₂ hj
        have he := List.mem_singleton.mp (hmem.mpr (.inl ⟨m₁, j, m₂, hj, rfl⟩))
        have := InsnIndex.insn.inj he
        omega
      have hbranch : ¬ BranchReadsCc q rest conditional := by
        intro hb
        cases List.mem_singleton.mp (hmem.mpr (.inr ⟨rfl, hb⟩))
      dsimp only
      rw [if_neg nofun]
      constructor
      · rintro hall ⟨m₁, j, m₂, hj, hsub, -⟩
        obtain rfl := h.unique hj (hsole m₁ j m₂ hj)
        exact hsub fun cc hcc => hall cc (.inl ⟨l₁, j, l₂, h, hcc⟩)
      · rintro hnot cc (⟨m₁, j, m₂, hj, hcc⟩ | ⟨hb, -⟩)
        · obtain rfl := h.unique hj (hsole m₁ j m₂ hj)
          by_contra hcc'
          exact hnot ⟨l₁, j, l₂, h, fun hsub => hcc' (hsub hcc), hsole, hbranch⟩
        · exact absurd hb hbranch
    · -- the branch alone reads them
      have hno : ∀ l₁ i l₂, ¬ ReadsCc q rest l₁ i l₂ := by
        intro l₁ i l₂ h
        cases List.mem_singleton.mp (hmem.mpr (.inl ⟨l₁, i, l₂, h, rfl⟩))
      dsimp only
      rw [if_pos rfl]
      refine iff_of_true (fun cc hcc => ?_) fun ⟨l₁, i, l₂, h, _⟩ => hno l₁ i l₂ h
      rcases hcc with ⟨l₁, i, l₂, h, -⟩ | ⟨-, hcc⟩
      · exact absurd h (hno l₁ i l₂)
      · exact hcc
  · -- two USEs at least
    refine iff_of_true (fun cc _ => Finset.mem_univ cc) ?_
    rintro ⟨l₁, i, l₂, h, -, hsole, hbranch⟩
    rw [hus] at hmem hnodup
    have hall : ∀ w ∈ u :: v :: us, w = .insn (pre.length + 1 + l₁.length) := by
      intro w hw
      rcases hmem.mp hw with ⟨m₁, j, m₂, hj, rfl⟩ | ⟨-, hb⟩
      · rw [hsole m₁ j m₂ hj]
      · exact absurd hb hbranch
    have huv : u = v := (hall u (by simp)).trans (hall v (by simp)).symm
    simp [huv] at hnodup

/-- `z = a == b; c = a < b` of one comparison. -/
theorem liveCcs_conservative_twice :
    insnQueries.defsCc (insnNew .cmp none (operandReg .uint 1) (operandReg .uint 2)) = true ∧
    ∀ cc, DependsCc insnQueries [insnNew (.set .z) (operandReg .int 3),
        insnNew (.set .b) (operandReg .int 4)] false ∅ cc →
      cc ∈ liveCcs insnQueries (liveAnalyzeLocal insnQueries
        [insnNew .cmp none (operandReg .uint 1) (operandReg .uint 2),
          insnNew (.set .z) (operandReg .int 3), insnNew (.set .b) (operandReg .int 4)]
        false none) ∅ (insnNew .cmp none (operandReg .uint 1) (operandReg .uint 2)) (.insn 0) := by
  refine ⟨by decide, (liveCcs_conservative_iff insnQueries [] _ _ false none ∅ (by decide)).mpr ?_⟩
  rintro ⟨l₁, i, l₂, h, -, hsole, -⟩
  have hz := hsole [] _ _ ⟨rfl, by simp, by decide⟩
  have hb := hsole [insnNew (.set .z) (operandReg .int 3)] _ [] ⟨rfl, by
    simp [insnQueries, insnDefsCc, insnNew, InsnOp.defCc], by decide⟩
  rw [← hz] at hb
  cases hb

/-- `c = a < b` of one comparison: no code is told. -/
theorem liveCcs_setcc : ¬ ∀ (x : Block) (pre : List Insn) (insn : Insn) (rest : List Insn),
    x.insns = pre ++ insn :: rest → insnDefsCc insn = true →
    ∀ cc, DependsCc insnQueries rest (blockConditional x) (blockCcs x) cc →
      cc ∈ liveCcs insnQueries (Testz.blockLive x) (blockCcs x) insn (.insn pre.length) := by
  intro h
  have hb := h { insns := [insnNew .cmp none (operandReg .uint 1) (operandReg .uint 2),
    insnNew (.set .b) (operandReg .int 3)] } [] _ _ rfl (by decide) .b
    (.inl ⟨[], _, [], ⟨rfl, by simp, by decide⟩, by decide⟩)
  revert hb
  decide

end Ncc
