import Ncc.Run

/-! Local live ranges, and the use of condition codes (live.h, live.c).

    The analysis works on target-independent and on target insns, through the queries of insn.c that
    dispatch on the kind of insn. Ranges of all registers are in one list, ordered by register and
    definition; `chain` is the part that belongs to one register, and there the analysis is simple: a
    definition starts a range, a use extends the last one. -/

namespace Ncc

/-- What insn.c and the target tell about an insn. The registers are sets. -/
structure Queries (α : Type*) where
  defsRegs : α → Regs
  usesRegs : α → Regs
  defsCc : α → Bool
  usesCc : α → CcSet
  defsRegs_nodup : ∀ i, (defsRegs i).Nodup
  usesRegs_nodup : ∀ i, (usesRegs i).Nodup

/-- The queries on target-independent insns. -/
def insnQueries : Queries Insn where
  defsRegs := insnDefsRegs
  usesRegs := insnUsesRegs
  defsCc := insnDefsCc
  usesCc := insnUsesCc
  defsRegs_nodup i := (sorted_insnDefsRegs i).imp fun h => (BitVec.ne_of_lt h)
  usesRegs_nodup i := (sorted_insnUsesRegs i).imp fun h => (BitVec.ne_of_lt h)

/-- INSN_INDEX_*: the position of an insn in its block, or one of the reserved values around them. -/
inductive InsnIndex where
  | before | insn (n : Nat) | branch | after
  deriving DecidableEq, Repr

/-- `<` on indices. -/
def InsnIndex.lt : InsnIndex → InsnIndex → Bool
  | .before, .before => false
  | .before, _ => true
  | .insn m, .insn n => m < n
  | .insn _, .branch | .insn _, .after => true
  | .branch, .after => true
  | _, _ => false

theorem InsnIndex.lt_asymm {a b : InsnIndex} (h : a.lt b = true) : b.lt a = false := by
  cases a <;> cases b <;> simp_all [InsnIndex.lt]
  omega

theorem InsnIndex.lt_branch {a : InsnIndex} {n : Nat} (h : a.lt (.insn n) = true) :
    a.lt .branch = true := by
  cases a <;> simp_all [InsnIndex.lt]

theorem InsnIndex.ne_of_lt {a : InsnIndex} {n : Nat} (h : a.lt (.insn n) = true) :
    a ≠ .insn n := by
  rintro rfl
  simp [InsnIndex.lt] at h

theorem InsnIndex.lt_succ {a : InsnIndex} {n : Nat} (h : a.lt (.insn n) = true) :
    a.lt (.insn (n + 1)) = true := by
  cases a <;> simp_all [InsnIndex.lt]
  omega

/-- What a range is about: a register, or PSEUDO_REG_CC. -/
inductive LiveReg where
  | reg (r : PseudoReg) | cc
  deriving DecidableEq

/-- The order of registers; the reserved number PSEUDO_REG_CC comes after those in use. -/
def LiveReg.num : LiveReg → Nat
  | .reg r => r.toNat
  | .cc => 2 ^ 32

theorem LiveReg.num_inj {k k' : LiveReg} (h : k.num = k'.num) : k = k' := by
  cases k with
  | reg r =>
    cases k' with
    | reg r' => exact congrArg _ (BitVec.eq_of_toNat_eq h)
    | cc => exact absurd h (Nat.ne_of_lt r.isLt)
  | cc =>
    cases k' with
    | reg r => exact absurd h (Nat.ne_of_gt r.isLt)
    | cc => rfl

/-- `struct range`. -/
structure Range where
  reg : LiveReg
  defn : InsnIndex
  last : InsnIndex
  uses : Nat := 0
  deriving DecidableEq

/-- The ranges of `struct live`. -/
abbrev Live := List Range

/-- RANGE_AFTER: is `r₁` ordered after `r₂`? -/
def rangeAfter (r₁ r₂ : Range) : Bool :=
  if r₁.reg = r₂.reg then r₂.defn.lt r₁.defn else decide (r₂.reg.num < r₁.reg.num)

/-- RANGE_AFTER_USE: does the use of `k` at `u` occur before the range? -/
def rangeAfterUse (r : Range) (k : LiveReg) (u : InsnIndex) : Bool :=
  decide (k.num < r.reg.num) || (decide (r.reg = k) && !r.defn.lt u)

/-- Insert a range at its proper position. -/
def rangeNew (new : Range) : Live → Live
  | [] => [new]
  | r :: live => if rangeAfter r new then new :: r :: live else r :: rangeNew new live

/-- The range headed by a def of a register. -/
def rangeByDef (live : Live) (k : LiveReg) (defn : InsnIndex) : Option Range :=
  live.find? fun r => decide (r.reg = k) && decide (r.defn = defn)

/-- `live_def`. -/
def liveDef (live : Live) (k : LiveReg) (defn : InsnIndex) : Live :=
  rangeNew { reg := k, defn := defn, last := defn } live

/-- Extend the last range of `k` whose def is not at or after the use, if there is one. -/
def extendLast (k : LiveReg) (u : InsnIndex) : Live → Option Live
  | [] => none
  | r :: live =>
    if rangeAfterUse r k u then none
    else
      match extendLast k u live with
      | some live' => some (r :: live')
      | none => if r.reg = k then some ({ r with last := u, uses := r.uses + 1 } :: live) else none

/-- `live_use`. -/
def liveUse (live : Live) (k : LiveReg) (u : InsnIndex) : Live :=
  (extendLast k u live).getD (rangeNew { reg := k, defn := .before, last := u, uses := 1 } live)

section
variable {α : Type*} (q : Queries α)

/-- The references of an insn to the condition codes. -/
def liveInsnCc (n : Nat) (insn : α) (live : Live) : Live :=
  let live := if q.usesCc insn ≠ ∅ then liveUse live .cc (.insn n) else live
  if q.defsCc insn then liveDef live .cc (.insn n) else live

/-- The references of an insn to registers. -/
def liveInsnRegs (n : Nat) (insn : α) (live : Live) : Live :=
  let live := (q.usesRegs insn).foldl (fun live r => liveUse live (.reg r) (.insn n)) live
  (q.defsRegs insn).foldl (fun live r => liveDef live (.reg r) (.insn n)) live

/-- One turn of the loop in `live_analyze_local`. -/
def liveInsn (n : Nat) (insn : α) (live : Live) : Live :=
  liveInsnRegs q n insn (liveInsnCc q n insn live)

/-- The loop in `live_analyze_local`. -/
def liveInsns : Nat → List α → Live → Live
  | _, [], live => live
  | n, insn :: insns, live => liveInsns (n + 1) insns (liveInsn q n insn live)

/-- The ranges `live_analyze_local` builds for a block. -/
def liveAnalyzeLocal (insns : List α) (conditional : Bool) (control : Option Operand) : Live :=
  let live := liveInsns q 0 insns []
  let live := if conditional then liveUse live .cc .branch else live
  (operandRegs control).foldl (fun live r => liveUse live (.reg r) .branch) live

/-- The codes defined by the insn at an index which are used by subsequent code, pessimistically.
    `ccs` is `block_ccs` of the block. When there is one use and it is not the branch, the answer is
    what the defining insn itself uses. -/
def liveCcs (live : Live) (ccs : CcSet) (insn : α) (idx : InsnIndex) : CcSet :=
  match rangeByDef live .cc idx with
  | some r =>
    if r.uses = 0 then ∅
    else if r.uses = 1 then if r.last = .branch then ccs else q.usesCc insn
    else Finset.univ
  | none => ∅

end

/-! ### The ranges of one register -/

/-- The ranges of `k`, in order. -/
def chain (k : LiveReg) (live : Live) : Live := live.filter fun r => decide (r.reg = k)

/-- Ordered by register. -/
def Ordered (live : Live) : Prop := live.Pairwise fun r r' => r.reg.num ≤ r'.reg.num

/-- A use extends the last range, or the register is live in. -/
def useChain (k : LiveReg) (u : InsnIndex) : Live → Live
  | [] => [{ reg := k, defn := .before, last := u, uses := 1 }]
  | [r] => [{ r with last := u, uses := r.uses + 1 }]
  | r :: live => r :: useChain k u live

section
variable {k k' : LiveReg} {live : Live} {u : InsnIndex} {new : Range}

theorem mem_chain {r : Range} : r ∈ chain k live ↔ r ∈ live ∧ r.reg = k := by
  simp [chain]

@[simp] theorem mem_rangeNew {r : Range} : ∀ {live : Live},
    r ∈ rangeNew new live ↔ r = new ∨ r ∈ live
  | [] => by simp [rangeNew]
  | r' :: live => by
      unfold rangeNew
      split
      · simp
      · rw [List.mem_cons, mem_rangeNew, List.mem_cons]; tauto

theorem num_le_of_rangeAfter {r : Range} (h : rangeAfter r new = true) :
    new.reg.num ≤ r.reg.num := by
  unfold rangeAfter at h
  split at h
  · rename_i heq; rw [heq]
  · exact le_of_lt (by simpa using h)

theorem num_le_of_not_rangeAfter {r : Range} (h : ¬ rangeAfter r new = true) :
    r.reg.num ≤ new.reg.num := by
  unfold rangeAfter at h
  split at h
  · rename_i heq; rw [heq]
  · simpa using h

theorem ordered_rangeNew : ∀ {live : Live}, Ordered live → Ordered (rangeNew new live)
  | [], _ => by simp [rangeNew, Ordered]
  | r :: live, h => by
      obtain ⟨hr, hlive⟩ := List.pairwise_cons.mp h
      unfold rangeNew
      split
      · rename_i hafter
        have hnew := num_le_of_rangeAfter hafter
        refine List.pairwise_cons.mpr ⟨fun x hx => ?_, h⟩
        rcases List.mem_cons.mp hx with rfl | hx
        · exact hnew
        · exact le_trans hnew (hr x hx)
      · rename_i hafter
        refine List.pairwise_cons.mpr ⟨fun x hx => ?_, ordered_rangeNew hlive⟩
        rcases mem_rangeNew.mp hx with rfl | hx
        · exact num_le_of_not_rangeAfter hafter
        · exact hr x hx

/-- In an ordered list nothing after a greater register is about `k`. -/
theorem chain_eq_nil_of_lt {r : Range} (h : Ordered (r :: live)) (hk : k.num < r.reg.num) :
    chain k (r :: live) = [] := by
  rw [chain, List.filter_eq_nil_iff]
  intro x hx
  have hle : r.reg.num ≤ x.reg.num := by
    rcases List.mem_cons.mp hx with rfl | hx
    · exact le_rfl
    · exact (List.pairwise_cons.mp h).1 x hx
  simp only [decide_eq_true_eq]
  rintro rfl
  omega

theorem chain_rangeNew_ne (hk : k ≠ new.reg) : ∀ {live : Live},
    chain k (rangeNew new live) = chain k live
  | [] => by simp [rangeNew, chain, Ne.symm hk]
  | r :: live => by
      have ih : chain k (rangeNew new live) = chain k live := chain_rangeNew_ne hk
      unfold rangeNew
      split
      · simp [chain, Ne.symm hk]
      · simp only [chain, List.filter_cons] at ih ⊢
        rw [ih]

/-- A range that is not before any other of its register becomes the last one. -/
theorem chain_rangeNew : ∀ {live : Live}, Ordered live →
    (∀ r ∈ chain new.reg live, new.defn.lt r.defn = false) →
      chain new.reg (rangeNew new live) = chain new.reg live ++ [new]
  | [], _, _ => by simp [rangeNew, chain]
  | r :: live, h, hlt => by
      have ih := chain_rangeNew (List.pairwise_cons.mp h).2 fun x hx =>
        hlt x (mem_chain.mpr ⟨List.mem_cons_of_mem _ (mem_chain.mp hx).1, (mem_chain.mp hx).2⟩)
      unfold rangeNew rangeAfter
      by_cases hr : r.reg = new.reg
      · have hnot := hlt r (mem_chain.mpr ⟨List.mem_cons_self .., hr⟩)
        simp only [hr, hnot, if_true, Bool.false_eq_true, if_false]
        simp only [chain, List.filter_cons, hr, decide_true, if_true] at ih ⊢
        rw [ih, List.cons_append]
      · rw [if_neg hr]
        split
        · rename_i hafter
          have hnil := chain_eq_nil_of_lt h (by simpa using hafter)
          rw [hnil]
          simp only [chain, List.filter_cons, decide_true, if_true] at hnil ⊢
          rw [hnil]
          rfl
        · simp only [chain, List.filter_cons, hr, decide_false, Bool.false_eq_true, if_false] at ih ⊢
          exact ih

/-- The registers and the definitions of the ranges. -/
def heads (live : Live) : List (LiveReg × InsnIndex) := live.map fun r => (r.reg, r.defn)

theorem ordered_congr {live' : Live} (h : heads live' = heads live) (ho : Ordered live) :
    Ordered live' := by
  have hmap : ∀ l : Live, Ordered l ↔ (heads l).Pairwise fun a b => a.1.num ≤ b.1.num := by
    intro l; unfold Ordered heads; rw [List.pairwise_map]
  rw [hmap] at ho ⊢
  rwa [h]

/-- Extending a range changes its end only, and nothing about other registers. -/
theorem extendLast_spec : ∀ {live live' : Live}, extendLast k u live = some live' →
    heads live' = heads live ∧ ∀ k' ≠ k, chain k' live' = chain k' live
  | [], _, h => by simp [extendLast] at h
  | r :: live, live', h => by
      unfold extendLast at h
      split at h
      · exact absurd h (by simp)
      · split at h
        · rename_i l hl
          obtain ⟨hh, hc⟩ := extendLast_spec hl
          obtain rfl := Option.some.inj h
          refine ⟨congrArg (List.cons (r.reg, r.defn)) hh, fun k' hk => ?_⟩
          have := hc k' hk
          simp only [chain, List.filter_cons] at this ⊢
          rw [this]
        · split at h
          · rename_i hr
            obtain rfl := Option.some.inj h
            refine ⟨rfl, fun k' hk => ?_⟩
            simp [chain, hr, Ne.symm hk]
          · exact absurd h (by simp)

/-- A use after all definitions of its register extends the last range, if there is one. -/
theorem chain_extendLast : ∀ {live : Live}, Ordered live →
    (∀ r ∈ chain k live, r.defn.lt u = true) →
      match extendLast k u live with
      | some live' => chain k live ≠ [] ∧ chain k live' = useChain k u (chain k live)
      | none => chain k live = []
  | [], _, _ => rfl
  | r :: live, h, hlt => by
      have ih := chain_extendLast (List.pairwise_cons.mp h).2 fun x hx =>
        hlt x (mem_chain.mpr ⟨List.mem_cons_of_mem _ (mem_chain.mp hx).1, (mem_chain.mp hx).2⟩)
      unfold extendLast
      by_cases hafter : rangeAfterUse r k u = true
      · rw [if_pos hafter]
        simp only
        by_cases hr : r.reg = k
        · have hu := hlt r (mem_chain.mpr ⟨List.mem_cons_self .., hr⟩)
          simp [rangeAfterUse, hr, hu] at hafter
        · exact chain_eq_nil_of_lt h (by simpa [rangeAfterUse, hr] using hafter)
      · rw [if_neg hafter]
        cases hl : extendLast k u live with
        | some live' =>
          rw [hl] at ih
          obtain ⟨hne, heq⟩ := ih
          by_cases hr : r.reg = k
          · refine ⟨by simp [chain, hr], ?_⟩
            simp only [chain, List.filter_cons, hr, decide_true, if_true] at hne heq ⊢
            rw [heq]
            obtain ⟨x, xs, hx⟩ := List.exists_cons_of_ne_nil hne
            rw [hx]
            rfl
          · simp only [chain, List.filter_cons, hr, decide_false, Bool.false_eq_true, if_false]
            exact ⟨hne, heq⟩
        | none =>
          rw [hl] at ih
          by_cases hr : r.reg = k
          · subst hr
            simp only [chain, List.filter_cons, decide_true, if_true] at ih ⊢
            refine ⟨List.cons_ne_nil _ _, ?_⟩
            rw [ih]
            rfl
          · simp only [hr, if_false]
            simp only [chain, List.filter_cons, hr, decide_false, Bool.false_eq_true, if_false] at ih ⊢
            exact ih

theorem ordered_liveUse (h : Ordered live) : Ordered (liveUse live k u) := by
  unfold liveUse
  cases hl : extendLast k u live with
  | none => exact ordered_rangeNew h
  | some live' => exact ordered_congr (extendLast_spec hl).1 h

theorem chain_liveUse (h : Ordered live) (hlt : ∀ r ∈ chain k live, r.defn.lt u = true) :
    chain k (liveUse live k u) = useChain k u (chain k live) := by
  have hspec := chain_extendLast h hlt
  unfold liveUse
  cases hl : extendLast k u live with
  | none =>
    rw [hl] at hspec
    simp only [Option.getD_none] at hspec ⊢
    have hnew := @chain_rangeNew ⟨k, .before, u, 1⟩ live h
      (by intro r hr; rw [hspec] at hr; exact absurd hr List.not_mem_nil)
    rw [hnew, hspec]
    rfl
  | some live' => rw [hl] at hspec; exact hspec.2

theorem chain_liveUse_ne (hk : k' ≠ k) : chain k' (liveUse live k u) = chain k' live := by
  unfold liveUse
  cases hl : extendLast k u live with
  | none => exact chain_rangeNew_ne hk
  | some live' => exact (extendLast_spec hl).2 k' hk

theorem chain_liveDef {u : InsnIndex} (h : Ordered live)
    (hlt : ∀ r ∈ chain k live, u.lt r.defn = false) :
    chain k (liveDef live k u) = chain k live ++ [{ reg := k, defn := u, last := u }] :=
  @chain_rangeNew ⟨k, u, u, 0⟩ live h hlt

theorem chain_liveDef_ne {u : InsnIndex} (hk : k' ≠ k) :
    chain k' (liveDef live k u) = chain k' live :=
  chain_rangeNew_ne hk

/-- The USEs of an insn, a register at a time. -/
theorem foldl_liveUse : ∀ {rs : Regs} {live : Live}, rs.Nodup → Ordered live →
    (∀ r ∈ rs, ∀ x ∈ chain (.reg r) live, x.defn.lt u = true) →
      let live' := rs.foldl (fun live r => liveUse live (.reg r) u) live
      Ordered live' ∧ chain .cc live' = chain .cc live ∧
        ∀ r, chain (.reg r) live' =
          if r ∈ rs then useChain (.reg r) u (chain (.reg r) live) else chain (.reg r) live
  | [], _, _, h, _ => ⟨h, rfl, by simp⟩
  | r :: rs, live, hn, h, hlt => by
      obtain ⟨hr, hrs⟩ := List.nodup_cons.mp hn
      have hother : ∀ r', r' ≠ r →
          chain (.reg r') (liveUse live (.reg r) u) = chain (.reg r') live := fun r' hne =>
        chain_liveUse_ne (by simpa using hne)
      obtain ⟨ho, hc, hrest⟩ := foldl_liveUse hrs (ordered_liveUse (k := .reg r) (u := u) h)
        fun r' hr' x hx => hlt r' (List.mem_cons_of_mem _ hr') x
          (hother r' (fun he => hr (he ▸ hr')) ▸ hx)
      refine ⟨ho, hc.trans (chain_liveUse_ne (by simp)), fun r' => ?_⟩
      rw [List.foldl_cons, hrest]
      by_cases hr' : r' = r
      · subst hr'
        rw [if_neg hr, if_pos (List.mem_cons_self ..)]
        exact chain_liveUse h (hlt _ (List.mem_cons_self ..))
      · simp only [List.mem_cons, hr', false_or, hother r' hr']

/-- The DEFs of an insn, a register at a time. -/
theorem foldl_liveDef : ∀ {rs : Regs} {live : Live}, rs.Nodup → Ordered live →
    (∀ r ∈ rs, ∀ x ∈ chain (.reg r) live, u.lt x.defn = false) →
      let live' := rs.foldl (fun live r => liveDef live (.reg r) u) live
      Ordered live' ∧ chain .cc live' = chain .cc live ∧
        ∀ r, chain (.reg r) live' =
          if r ∈ rs then chain (.reg r) live ++ [⟨.reg r, u, u, 0⟩] else chain (.reg r) live
  | [], _, _, h, _ => ⟨h, rfl, by simp⟩
  | r :: rs, live, hn, h, hlt => by
      obtain ⟨hr, hrs⟩ := List.nodup_cons.mp hn
      have hother : ∀ r', r' ≠ r →
          chain (.reg r') (liveDef live (.reg r) u) = chain (.reg r') live := fun r' hne =>
        chain_liveDef_ne (by simpa using hne)
      obtain ⟨ho, hc, hrest⟩ := foldl_liveDef hrs (@ordered_rangeNew ⟨.reg r, u, u, 0⟩ _ h)
        fun r' hr' x hx => hlt r' (List.mem_cons_of_mem _ hr') x
          (hother r' (fun he => hr (he ▸ hr')) ▸ hx)
      refine ⟨ho, hc.trans (chain_liveDef_ne (by simp)), fun r' => ?_⟩
      rw [List.foldl_cons, liveDef, hrest]
      by_cases hr' : r' = r
      · subst hr'
        rw [if_neg hr, if_pos (List.mem_cons_self ..)]
        exact chain_liveDef h (hlt _ (List.mem_cons_self ..))
      · have := hother r' hr'
        rw [liveDef] at this
        simp only [List.mem_cons, hr', false_or, this]

end

/-! ### The ranges of one register, insn by insn -/

section
variable {α : Type*} (q : Queries α)

/-- Does the insn USE what the range is about? -/
def uses (k : LiveReg) (insn : α) : Bool :=
  match k with
  | .cc => decide (q.usesCc insn ≠ ∅)
  | .reg r => decide (r ∈ q.usesRegs insn)

/-- Does the insn DEF what the range is about? -/
def defines (k : LiveReg) (insn : α) : Bool :=
  match k with
  | .cc => q.defsCc insn
  | .reg r => decide (r ∈ q.defsRegs insn)

/-- What an insn does to the ranges of `k`. -/
def chainInsn (k : LiveReg) (n : Nat) (insn : α) (c : Live) : Live :=
  let c := if uses q k insn then useChain k (.insn n) c else c
  if defines q k insn then c ++ [⟨k, .insn n, .insn n, 0⟩] else c

/-- What insns from index `n` on do to the ranges of `k`. -/
def chainInsns (k : LiveReg) : Nat → List α → Live → Live
  | _, [], c => c
  | n, insn :: insns, c => chainInsns k (n + 1) insns (chainInsn q k n insn c)

variable {live : Live} {n : Nat}

/-- The definitions of the ranges are before the insn at `n`. -/
def Before (n : Nat) (live : Live) : Prop := ∀ r ∈ live, r.defn.lt (.insn n) = true

theorem before_useChain {k : LiveReg} {u : InsnIndex} : ∀ {live : Live}, Before n live →
    Before n (useChain k u live)
  | [], _ => by simp [useChain, Before, InsnIndex.lt]
  | [r], h => by simpa [useChain, Before] using h
  | r :: r' :: live, h => by
      intro x hx
      rcases List.mem_cons.mp hx with rfl | hx
      · exact h _ (List.mem_cons_self ..)
      · exact before_useChain (fun y hy => h y (List.mem_cons_of_mem _ hy)) x hx

theorem before_chainInsn {k : LiveReg} {insn : α} (h : Before n live) :
    Before (n + 1) (chainInsn q k n insn live) := by
  have huse : Before n (if uses q k insn then useChain k (.insn n) live else live) := by
    split
    · exact before_useChain h
    · exact h
  intro x hx
  unfold chainInsn at hx
  simp only at hx
  split at hx
  · rcases List.mem_append.mp hx with hx | hx
    · exact InsnIndex.lt_succ (huse x hx)
    · rw [List.mem_singleton.mp hx]; simp [InsnIndex.lt]
  · exact InsnIndex.lt_succ (huse x hx)

theorem chain_liveInsnCc (ho : Ordered live) (hb : Before n (chain .cc live)) (insn : α) :
    Ordered (liveInsnCc q n insn live) ∧
      chain .cc (liveInsnCc q n insn live) = chainInsn q .cc n insn (chain .cc live) ∧
      ∀ r, chain (.reg r) (liveInsnCc q n insn live) = chain (.reg r) live := by
  have huse : ∀ c : Prop, [Decidable c] →
      let l := if c then liveUse live .cc (.insn n) else live
      Ordered l ∧ chain .cc l = (if c then useChain .cc (.insn n) (chain .cc live)
        else chain .cc live) ∧ Before n (chain .cc l) ∧
        ∀ r, chain (.reg r) l = chain (.reg r) live := by
    intro c _
    by_cases hc : c
    · simp only [if_pos hc]
      refine ⟨ordered_liveUse ho, chain_liveUse ho hb, ?_, fun r => chain_liveUse_ne (by simp)⟩
      rw [chain_liveUse ho hb]
      exact before_useChain hb
    · simp only [if_neg hc]
      exact ⟨ho, trivial, hb, fun _ => trivial⟩
  obtain ⟨ho', hc', hb', hr'⟩ := huse (q.usesCc insn ≠ ∅)
  unfold liveInsnCc chainInsn
  simp only [uses, defines, decide_eq_true_eq] at hc' ⊢
  split
  · refine ⟨ordered_rangeNew ho', ?_, fun r => (chain_liveDef_ne (by simp)).trans (hr' r)⟩
    rw [chain_liveDef ho' fun x hx => InsnIndex.lt_asymm (hb' x hx), hc']
  · exact ⟨ho', hc', hr'⟩

theorem chain_liveInsnRegs (ho : Ordered live) (hb : ∀ r, Before n (chain (.reg r) live))
    (insn : α) :
    Ordered (liveInsnRegs q n insn live) ∧
      chain .cc (liveInsnRegs q n insn live) = chain .cc live ∧
      ∀ r, chain (.reg r) (liveInsnRegs q n insn live) =
        chainInsn q (.reg r) n insn (chain (.reg r) live) := by
  obtain ⟨ho', hc', hr'⟩ := foldl_liveUse (u := .insn n) (q.usesRegs_nodup insn) ho
    fun r _ => hb r
  have hb' : ∀ r ∈ q.defsRegs insn, ∀ x ∈ chain (.reg r) ((q.usesRegs insn).foldl
      (fun live r => liveUse live (.reg r) (.insn n)) live),
      (InsnIndex.insn n).lt x.defn = false := by
    intro r _ x hx
    rw [hr'] at hx
    refine InsnIndex.lt_asymm ?_
    split at hx
    · exact before_useChain (hb r) x hx
    · exact hb r x hx
  obtain ⟨ho'', hc'', hr''⟩ := foldl_liveDef (q.defsRegs_nodup insn) ho' hb'
  refine ⟨ho'', hc''.trans hc', fun r => ?_⟩
  have := hr'' r
  rw [hr'] at this
  unfold chainInsn
  simp only [uses, defines, decide_eq_true_eq]
  exact this

/-- One turn of the loop does to the ranges of a register what the insn does to them. -/
theorem chain_liveInsn (ho : Ordered live) (hb : Before n live) (insn : α) :
    Ordered (liveInsn q n insn live) ∧ Before (n + 1) (liveInsn q n insn live) ∧
      ∀ k, chain k (liveInsn q n insn live) = chainInsn q k n insn (chain k live) := by
  have hbc : ∀ k, Before n (chain k live) := fun k x hx => hb x (mem_chain.mp hx).1
  obtain ⟨ho₁, hc₁, hr₁⟩ := chain_liveInsnCc q ho (hbc .cc) insn
  obtain ⟨ho₂, hc₂, hr₂⟩ := chain_liveInsnRegs q ho₁ (fun r => by rw [hr₁]; exact hbc _) insn
  have hchain : ∀ k, chain k (liveInsn q n insn live) = chainInsn q k n insn (chain k live) := by
    intro k
    cases k with
    | cc => exact hc₂.trans hc₁
    | reg r => rw [liveInsn, hr₂, hr₁]
  refine ⟨ho₂, fun x hx => ?_, hchain⟩
  have hx' : x ∈ chain x.reg (liveInsn q n insn live) := mem_chain.mpr ⟨hx, rfl⟩
  rw [hchain] at hx'
  exact before_chainInsn q (hbc _) x hx'

/-- The loop does to the ranges of a register what the insns do to them. -/
theorem chain_liveInsns : ∀ (insns : List α) {n : Nat} {live : Live}, Ordered live →
    Before n live → Ordered (liveInsns q n insns live) ∧
      Before (n + insns.length) (liveInsns q n insns live) ∧
      ∀ k, chain k (liveInsns q n insns live) = chainInsns q k n insns (chain k live)
  | [], _, _, ho, hb => ⟨ho, hb, fun _ => rfl⟩
  | insn :: insns, n, live, ho, hb => by
      obtain ⟨ho', hb', hc'⟩ := chain_liveInsn q ho hb insn
      obtain ⟨ho'', hb'', hc''⟩ := chain_liveInsns insns ho' hb'
      refine ⟨ho'', ?_, fun k => ?_⟩
      · rw [List.length_cons, Nat.add_comm insns.length, ← Nat.add_assoc]; exact hb''
      · rw [liveInsns, hc'', hc', chainInsns]

/-! ### The range of one definition -/

/-- The indices at which insns from `n` on USE `k`, up to the first that DEFs it; and whether none
    does. -/
def reads (k : LiveReg) : Nat → List α → List InsnIndex × Bool
  | _, [] => ([], true)
  | n, insn :: insns =>
    let rest := if defines q k insn then ([], false) else reads k (n + 1) insns
    (if uses q k insn then .insn n :: rest.1 else rest.1, rest.2)

/-- Does the end of the block USE `k`? -/
def branchUses (conditional : Bool) (control : Option Operand) : LiveReg → Bool
  | .cc => conditional
  | .reg r => decide (r ∈ operandRegs control)

/-- The USEs of `k` that see a definition before index `n`, the branch included. -/
def blockReads (k : LiveReg) (n : Nat) (insns : List α) (conditional : Bool)
    (control : Option Operand) : List InsnIndex :=
  (reads q k n insns).1 ++
    if (reads q k n insns).2 && branchUses conditional control k then [.branch] else []

/-- Extend a range to later uses. -/
def Range.extend (r : Range) (us : List InsnIndex) : Range :=
  us.foldl (fun r u => { r with last := u, uses := r.uses + 1 }) r

@[simp] theorem Range.extend_nil (r : Range) : r.extend [] = r := rfl

theorem Range.extend_cons (r : Range) (u : InsnIndex) (us : List InsnIndex) :
    r.extend (u :: us) = Range.extend { r with last := u, uses := r.uses + 1 } us := rfl

theorem Range.extend_append (r : Range) (us vs : List InsnIndex) :
    r.extend (us ++ vs) = (r.extend us).extend vs := List.foldl_append

@[simp] theorem Range.extend_uses (r : Range) : ∀ us : List InsnIndex,
    (r.extend us).uses = r.uses + us.length
  | [] => rfl
  | u :: us => by
      rw [extend_cons, Range.extend_uses _ us]
      exact Nat.add_right_comm r.uses 1 us.length

@[simp] theorem Range.extend_reg (r : Range) : ∀ us : List InsnIndex, (r.extend us).reg = r.reg
  | [] => rfl
  | u :: us => by rw [extend_cons, Range.extend_reg _ us]

@[simp] theorem Range.extend_defn (r : Range) : ∀ us : List InsnIndex,
    (r.extend us).defn = r.defn
  | [] => rfl
  | u :: us => by rw [extend_cons, Range.extend_defn _ us]

theorem useChain_append {k : LiveReg} {u : InsnIndex} {d : Live} (hd : d ≠ []) :
    ∀ c : Live, useChain k u (c ++ d) = c ++ useChain k u d
  | [] => rfl
  | [r] => by obtain ⟨x, xs, rfl⟩ := List.exists_cons_of_ne_nil hd; rfl
  | r :: r' :: c => by
      have := useChain_append hd (k := k) (u := u) (r' :: c)
      simp only [List.cons_append] at this ⊢
      rw [useChain, this]
      exact fun h => nomatch h

theorem useChain_ne_nil {k : LiveReg} {u : InsnIndex} : ∀ c : Live, useChain k u c ≠ []
  | [] | [_] | _ :: _ :: _ => by simp [useChain]

/-- Once a register is redefined, the ranges before stay as they are. -/
theorem chainInsns_append {k : LiveReg} : ∀ (insns : List α) (n : Nat) (c d : Live), d ≠ [] →
    ∃ d' ≠ [], chainInsns q k n insns (c ++ d) = c ++ d'
  | [], _, _, d, hd => ⟨d, hd, rfl⟩
  | insn :: insns, n, c, d, hd => by
      obtain ⟨e, he, heq⟩ : ∃ e ≠ [], (if uses q k insn then useChain k (.insn n) (c ++ d)
          else c ++ d) = c ++ e := by
        split
        · exact ⟨_, useChain_ne_nil d, useChain_append hd c⟩
        · exact ⟨d, hd, rfl⟩
      have hstep : ∃ d' ≠ [], chainInsn q k n insn (c ++ d) = c ++ d' := by
        rw [chainInsn, heq]
        split
        · exact ⟨e ++ [⟨k, .insn n, .insn n, 0⟩], by simp, List.append_assoc ..⟩
        · exact ⟨e, he, rfl⟩
      obtain ⟨d', hd', heq⟩ := hstep
      rw [chainInsns, heq]
      exact chainInsns_append insns (n + 1) c d' hd'

/-- The range of a definition covers the USEs up to the next definition. -/
theorem chainInsns_reads {k : LiveReg} (c : Live) : ∀ (insns : List α) (n : Nat) (r : Range),
    ∃ d, chainInsns q k n insns (c ++ [r]) = c ++ r.extend (reads q k n insns).1 :: d ∧
      ((reads q k n insns).2 = true ↔ d = [])
  | [], _, r => ⟨[], rfl, by simp [reads]⟩
  | insn :: insns, n, r => by
      obtain ⟨r', hr'⟩ : ∃ r', r' = if uses q k insn then r.extend [.insn n] else r := ⟨_, rfl⟩
      have huse : (if uses q k insn then useChain k (.insn n) (c ++ [r]) else c ++ [r]) =
          c ++ [r'] := by
        rw [hr']; split
        · rw [useChain_append (by simp)]; rfl
        · rfl
      have hext : ∀ us, r.extend (if uses q k insn then .insn n :: us else us) = r'.extend us := by
        intro us; rw [hr']; split <;> rfl
      rw [chainInsns, chainInsn]
      simp only [huse]
      cases hd : defines q k insn with
      | true =>
        simp only [if_true]
        rw [List.append_assoc, List.singleton_append]
        obtain ⟨d', hd', heq⟩ := chainInsns_append q insns (n + 1) (c ++ [r'])
          [⟨k, .insn n, .insn n, 0⟩] (by simp)
        rw [List.append_assoc, List.singleton_append] at heq
        refine ⟨d', ?_, by simp [reads, hd, hd']⟩
        rw [heq, reads, hd, if_pos rfl, hext, Range.extend_nil, List.append_assoc]
        rfl
      | false =>
        simp only [Bool.false_eq_true, if_false]
        obtain ⟨d, heq, hiff⟩ := chainInsns_reads c insns (n + 1) r'
        refine ⟨d, ?_, by simpa [reads, hd] using hiff⟩
        rw [heq, reads, hd]
        simp only [Bool.false_eq_true, if_false, hext]

theorem rangeByDef_eq (live : Live) (k : LiveReg) (u : InsnIndex) :
    rangeByDef live k u = (chain k live).find? fun r => decide (r.defn = u) := by
  rw [rangeByDef, chain, List.find?_filter]
  simp only [decide_eq_true_eq, Bool.decide_and]

theorem chainInsns_append_insns {k : LiveReg} (l : List α) : ∀ (p : List α) (n : Nat) (c : Live),
    chainInsns q k n (p ++ l) c = chainInsns q k (n + p.length) l (chainInsns q k n p c)
  | [], _, _ => rfl
  | i :: p, n, c => by
      rw [List.cons_append, chainInsns, chainInsns_append_insns l p, chainInsns, List.length_cons,
        Nat.add_assoc, Nat.add_comm 1]

theorem before_chainInsns {k : LiveReg} : ∀ {p : List α} {n : Nat} {c : Live}, Before n c →
    Before (n + p.length) (chainInsns q k n p c)
  | [], _, _, h => h
  | i :: p, n, c, h => by
      have hp : Before (n + 1 + p.length) (chainInsns q k (n + 1) p (chainInsn q k n i c)) :=
        before_chainInsns (before_chainInsn q h)
      rw [List.length_cons, Nat.add_comm p.length, ← Nat.add_assoc]
      exact hp

/-- The end of the block extends the last range of what it uses. -/
theorem chain_liveAnalyzeLocal (insns : List α) (conditional : Bool) (control : Option Operand)
    (k : LiveReg) : chain k (liveAnalyzeLocal q insns conditional control) =
      if branchUses conditional control k then useChain k .branch (chainInsns q k 0 insns [])
      else chainInsns q k 0 insns [] := by
  have hempty : Before 0 [] := fun x hx => absurd hx List.not_mem_nil
  obtain ⟨ho, hb, hc⟩ := chain_liveInsns q insns List.Pairwise.nil hempty
  have hlt : ∀ k, ∀ x ∈ chain k (liveInsns q 0 insns []), x.defn.lt .branch = true :=
    fun k x hx => InsnIndex.lt_branch (hb x (mem_chain.mp hx).1)
  have hc' : ∀ k, chainInsns q k 0 insns [] = chain k (liveInsns q 0 insns []) := fun k => by
    rw [hc]; rfl
  have hcond : ∀ (l : Live), l = (if conditional = true then
      liveUse (liveInsns q 0 insns []) .cc .branch else liveInsns q 0 insns []) →
      Ordered l ∧ chain .cc l = (if conditional = true then
        useChain .cc .branch (chain .cc (liveInsns q 0 insns []))
        else chain .cc (liveInsns q 0 insns [])) ∧
        ∀ r, chain (.reg r) l = chain (.reg r) (liveInsns q 0 insns []) := by
    rintro l rfl
    cases conditional with
    | true =>
      exact ⟨ordered_liveUse ho, chain_liveUse ho (hlt .cc), fun r => chain_liveUse_ne (by simp)⟩
    | false => exact ⟨ho, rfl, fun _ => rfl⟩
  obtain ⟨ho₁, hcc₁, hr₁⟩ := hcond _ rfl
  obtain ⟨_, hcc₂, hr₂⟩ := foldl_liveUse (u := .branch)
    ((sorted_operandRegs control).imp fun h => BitVec.ne_of_lt h) ho₁
    fun r _ x hx => hlt _ x (hr₁ r ▸ hx)
  rw [hc']
  cases k with
  | cc => exact hcc₂.trans hcc₁
  | reg r =>
    have := hr₂ r
    rw [hr₁] at this
    simp only [branchUses, decide_eq_true_eq]
    exact this

/-- The range that `live_analyze_local` records for a definition. -/
theorem rangeByDef_liveAnalyzeLocal {k : LiveReg} {insn : α} (hdef : defines q k insn = true)
    (p rest : List α) (conditional : Bool) (control : Option Operand) :
    rangeByDef (liveAnalyzeLocal q (p ++ insn :: rest) conditional control) k (.insn p.length) =
      some (Range.extend ⟨k, .insn p.length, .insn p.length, 0⟩
        (blockReads q k (p.length + 1) rest conditional control)) := by
  have hbefore : Before p.length (chainInsns q k 0 p []) := by
    have h := before_chainInsns q (k := k) (p := p) (n := 0) (c := [])
      fun x hx => absurd hx List.not_mem_nil
    rwa [Nat.zero_add] at h
  -- the ranges before the definition, and the range it starts
  obtain ⟨c, hbc, hc⟩ : ∃ c, Before p.length c ∧
      chainInsn q k p.length insn (chainInsns q k 0 p []) =
        c ++ [⟨k, .insn p.length, .insn p.length, 0⟩] := by
    unfold chainInsn
    rw [hdef, if_pos rfl]
    refine ⟨_, ?_, rfl⟩
    split
    · exact before_useChain hbefore
    · exact hbefore
  obtain ⟨d, hd, hopen⟩ := chainInsns_reads q c rest (p.length + 1)
    ⟨k, .insn p.length, .insn p.length, 0⟩
  have hchain : chainInsns q k 0 (p ++ insn :: rest) [] = c ++ Range.extend
      ⟨k, .insn p.length, .insn p.length, 0⟩ (reads q k (p.length + 1) rest).1 :: d := by
    rw [chainInsns_append_insns, Nat.zero_add, chainInsns, hc, hd]
  obtain ⟨d', hfinal⟩ : ∃ d', chain k (liveAnalyzeLocal q (p ++ insn :: rest) conditional control) =
      c ++ Range.extend ⟨k, .insn p.length, .insn p.length, 0⟩
        (blockReads q k (p.length + 1) rest conditional control) :: d' := by
    rw [chain_liveAnalyzeLocal, hchain, blockReads]
    cases hb : branchUses conditional control k with
    | false => exact ⟨d, by simp⟩
    | true =>
      rw [if_pos rfl, useChain_append (by simp)]
      cases ho : (reads q k (p.length + 1) rest).2 with
      | true =>
        obtain rfl := hopen.mp ho
        exact ⟨[], by simp [useChain, Range.extend_append, Range.extend_cons]⟩
      | false =>
        obtain ⟨x, xs, rfl⟩ := List.exists_cons_of_ne_nil (mt hopen.mpr (by simp [ho]))
        exact ⟨useChain k .branch (x :: xs), by simp [useChain]⟩
  rw [rangeByDef_eq, hfinal, List.find?_append, List.find?_eq_none.mpr, Option.none_or,
    List.find?_cons_of_pos]
  · simp
  · intro x hx
    simpa using InsnIndex.ne_of_lt (hbc x hx)

/-- What `reads` finds: the USEs without a DEF before. -/
theorem mem_reads {k : LiveReg} {u : InsnIndex} : ∀ {l : List α} {n : Nat},
    u ∈ (reads q k n l).1 ↔ ∃ l₁ i l₂, l = l₁ ++ i :: l₂ ∧ u = .insn (n + l₁.length) ∧
      uses q k i = true ∧ ∀ j ∈ l₁, defines q k j = false
  | [], n => by simp [reads]
  | i :: l, n => by
      have ih := mem_reads (k := k) (u := u) (l := l) (n := n + 1)
      have hmem : u ∈ (reads q k n (i :: l)).1 ↔ (uses q k i = true ∧ u = .insn n) ∨
          (defines q k i = false ∧ u ∈ (reads q k (n + 1) l).1) := by
        rw [reads]
        cases uses q k i <;> cases defines q k i <;> simp
      rw [hmem, ih]
      constructor
      · rintro (⟨hu, rfl⟩ | ⟨hd, l₁, j, l₂, rfl, rfl, hu, hall⟩)
        · exact ⟨[], i, l, rfl, rfl, hu, fun j hj => absurd hj List.not_mem_nil⟩
        · refine ⟨i :: l₁, j, l₂, rfl, by rw [List.length_cons]; congr 1; omega, hu, fun x hx => ?_⟩
          rcases List.mem_cons.mp hx with rfl | hx
          · exact hd
          · exact hall x hx
      · rintro ⟨l₁, j, l₂, hl, rfl, hu, hall⟩
        rcases List.cons_eq_append_iff.mp hl with ⟨rfl, hj⟩ | ⟨l₁', rfl, rfl⟩
        · obtain ⟨rfl, rfl⟩ := List.cons.inj hj
          exact Or.inl ⟨hu, rfl⟩
        · refine Or.inr ⟨hall _ (List.mem_cons_self ..), l₁', j, l₂, rfl, ?_, hu, fun x hx =>
            hall x (List.mem_cons_of_mem _ hx)⟩
          rw [List.length_cons]; congr 1; omega

theorem reads_open {k : LiveReg} : ∀ {l : List α} {n : Nat},
    (reads q k n l).2 = true ↔ ∀ i ∈ l, defines q k i = false
  | [], _ => by simp [reads]
  | i :: l, n => by
      have ih := reads_open (k := k) (l := l) (n := n + 1)
      rw [List.forall_mem_cons, ← ih]
      rw [reads]
      cases defines q k i <;> simp

/-- What `blockReads` finds: the USEs without a DEF before, and the branch if there is no DEF. -/
theorem mem_blockReads {k : LiveReg} {u : InsnIndex} {n : Nat} {l : List α} {conditional : Bool}
    {control : Option Operand} : u ∈ blockReads q k n l conditional control ↔
      (∃ l₁ i l₂, l = l₁ ++ i :: l₂ ∧ u = .insn (n + l₁.length) ∧ uses q k i = true ∧
        ∀ j ∈ l₁, defines q k j = false) ∨
      (u = .branch ∧ (∀ j ∈ l, defines q k j = false) ∧
        branchUses conditional control k = true) := by
  rw [blockReads, List.mem_append, mem_reads, ← reads_open (n := n)]
  refine or_congr Iff.rfl ?_
  cases (reads q k n l).2 <;> cases branchUses conditional control k <;> simp

theorem ne_of_mem_blockReads {k : LiveReg} {u : InsnIndex} {m n : Nat} {l : List α}
    {conditional : Bool} {control : Option Operand} (hm : m < n)
    (h : u ∈ blockReads q k n l conditional control) : u ≠ .insn m := by
  rcases (mem_blockReads q).mp h with ⟨l₁, _, _, _, rfl, _⟩ | ⟨rfl, _⟩
  · intro he
    have := InsnIndex.insn.inj he
    omega
  · simp

theorem blockReads_cons {k : LiveReg} {n : Nat} {i : α} {l : List α} {conditional : Bool}
    {control : Option Operand} : blockReads q k n (i :: l) conditional control =
      (if uses q k i then [.insn n] else []) ++
        if defines q k i then [] else blockReads q k (n + 1) l conditional control := by
  rw [blockReads, reads]
  cases uses q k i <;> cases defines q k i <;> simp [blockReads]

end

end Ncc
