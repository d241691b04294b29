import Ncc.Live
import Ncc.Lib.Iterate

/-! Global live-variable analysis (live.c).

    After the local analysis of every block the live-in and live-out sets are iterated until they are
    stable; then the ranges of what is live out are extended past the end of the block. The sets are
    the least solution, so a register is in one exactly if it is used on some path before it is
    redefined (`LiveAt`), and a range covers exactly the uses its definition reaches (`Reaches`). -/

namespace Ncc

/-- A set of registers that may hold PSEUDO_REG_CC. -/
abbrev LiveRegs := Finset LiveReg

/-- What the analysis sees of the blocks of a function. Control stays in the all-blocks list. -/
structure BlockGraph (α : Type*) where
  blocks : List BlockId
  insns : BlockId → List α
  conditional : BlockId → Bool
  control : BlockId → Option Operand
  succs : BlockId → List BlockId
  closed : ∀ b ∈ blocks, ∀ c ∈ succs b, c ∈ blocks

/-- The blocks of a function of target-independent insns. -/
def Func.graph (f : Func) (hf : f.Closed) : BlockGraph Insn where
  blocks := f.blocks
  insns b := (f.block b).insns
  conditional b := blockConditional (f.block b)
  control b := (f.block b).control
  succs := f.succs
  closed := hf.2

/-- `struct live` of a block. -/
structure LiveData where
  ranges : Live
  inn : LiveRegs
  out : LiveRegs

/-- The first range of each register, given the register of the range before. -/
def firstRanges : Option LiveReg → Live → Live
  | _, [] => []
  | prev, r :: live =>
    if some r.reg = prev then firstRanges prev live else r :: firstRanges (some r.reg) live

/-- `live.use`: the registers whose first range starts before the block. -/
def liveUseSet (live : Live) : LiveRegs :=
  (((firstRanges none live).filter fun r => decide (r.defn = .before)).map Range.reg).toFinset

/-- `live.def`: the registers whose first range starts with a DEF. -/
def liveDefSet (live : Live) : LiveRegs :=
  (((firstRanges none live).filter fun r => decide (r.defn ≠ .before)).map Range.reg).toFinset

/-- The order of REGS_FOREACH. -/
def LiveReg.le (k k' : LiveReg) : Prop := k.num ≤ k'.num

instance : DecidableRel LiveReg.le := fun k k' => inferInstanceAs (Decidable (k.num ≤ k'.num))

instance : IsTrans LiveReg LiveReg.le := ⟨fun _ _ _ => Nat.le_trans⟩

instance : Std.Antisymm LiveReg.le := ⟨fun _ _ h h' => LiveReg.num_inj (Nat.le_antisymm h h')⟩

instance : Std.Total LiveReg.le := ⟨fun k k' => Nat.le_total k.num k'.num⟩

/-- The live-in and live-out sets of all blocks. -/
structure LiveSets where
  inn : BlockId → LiveRegs
  out : BlockId → LiveRegs

section
variable {α : Type*} (q : Queries α) (g : BlockGraph α)

/-- The ranges of a block after `live_analyze_local`. -/
def localRanges (b : BlockId) : Live :=
  liveAnalyzeLocal q (g.insns b) (g.conditional b) (g.control b)

/-- The registers that are live into some successor. -/
def liveOutOf (inn : BlockId → LiveRegs) (b : BlockId) : LiveRegs :=
  (g.succs b).foldl (fun regs c => regs ∪ inn c) ∅

/-- The registers live into a block, from those live out of it. -/
def liveInOf (out : LiveRegs) (b : BlockId) : LiveRegs :=
  out \ liveDefSet (localRanges q g b) ∪ liveUseSet (localRanges q g b)

/-- `live_analyze_global`; the flag is BLOCKS_ITER_REITER. -/
def liveAnalyzeGlobal (b : BlockId) (st : LiveSets) : LiveSets × Bool :=
  let out := liveOutOf g st.inn b
  let inn := liveInOf q g out b
  ({ inn := Function.update st.inn b inn, out := Function.update st.out b out },
    decide (st.inn b ≠ inn) || decide (st.out b ≠ out))

/-- `live_analyze_final`. -/
def liveAnalyzeFinal (st : LiveSets) (b : BlockId) : LiveData where
  ranges := ((st.out b).sort LiveReg.le).foldl (fun live k => liveUse live k .after)
    (localRanges q g b)
  inn := (st.inn b).erase .cc
  out := (st.out b).erase .cc

/-- `live_analyze`, with fuel for the number of iterations of the global phase. -/
def liveAnalyze (n : Nat) : Option (BlockId → LiveData) :=
  (iterate (liveAnalyzeGlobal q g) g.blocks n ⟨fun _ => ∅, fun _ => ∅⟩).map
    (liveAnalyzeFinal q g)

/-! ### What the analysis is to find -/

/-- On some path from the start of the block, `k` is used and not redefined before that. -/
inductive LiveAt (k : LiveReg) : BlockId → Prop
  | use {b : BlockId} {l₁ l₂ : List α} {i : α} : g.insns b = l₁ ++ i :: l₂ → uses q k i = true →
      (∀ j ∈ l₁, defines q k j = false) → LiveAt k b
  | branch {b : BlockId} : (∀ j ∈ g.insns b, defines q k j = false) →
      branchUses (g.conditional b) (g.control b) k = true → LiveAt k b
  | succ {b c : BlockId} : (∀ j ∈ g.insns b, defines q k j = false) → c ∈ g.succs b →
      LiveAt k c → LiveAt k b

/-- The definition of `k` at `d`, in the block or before it, is the end of `pre`. -/
def DefinedAt (k : LiveReg) (pre : List α) (d : InsnIndex) : Prop :=
  (pre = [] ∧ d = .before) ∨ ∃ p i, pre = p ++ [i] ∧ d = .insn p.length ∧ defines q k i = true

/-- The definition of `k` at `d` reaches its use at `u`: no insn between redefines `k`. The use may
    be the branch, or come after the block. -/
def Reaches (b : BlockId) (k : LiveReg) (d u : InsnIndex) : Prop :=
  ∃ pre rest, g.insns b = pre ++ rest ∧ DefinedAt q k pre d ∧
    ((∃ l₁ i l₂, rest = l₁ ++ i :: l₂ ∧ u = .insn (pre.length + l₁.length) ∧ uses q k i = true ∧
        ∀ j ∈ l₁, defines q k j = false) ∨
      ((∀ j ∈ rest, defines q k j = false) ∧
        ((u = .branch ∧ branchUses (g.conditional b) (g.control b) k = true) ∨
          (u = .after ∧ ∃ c ∈ g.succs b, LiveAt q g k c))))

/-- The indices from `n` on of the insns that DEF `k`. -/
def defIndices (k : LiveReg) : Nat → List α → List InsnIndex
  | _, [] => []
  | n, i :: l => if defines q k i then .insn n :: defIndices k (n + 1) l else defIndices k (n + 1) l

/-- The range covers exactly the uses its definition reaches. -/
def RangeExact (b : BlockId) (r : Range) : Prop :=
  ∃ us : List InsnIndex, us.Pairwise (fun u v => u.lt v = true) ∧
    (∀ u, u ∈ us ↔ Reaches q g b r.reg r.defn u) ∧ r.uses = us.length ∧ r.last = us.getLastD r.defn

/-- The ranges of `k` in a block are exactly one for each DEF, and one from before the block if
    some use is reached from there. -/
structure RangesExact (b : BlockId) (k : LiveReg) (live : Live) : Prop where
  reached : (∃ u, Reaches q g b k .before u) →
    (chain k live).map Range.defn = .before :: defIndices q k 0 (g.insns b)
  unreached : (¬ ∃ u, Reaches q g b k .before u) →
    (chain k live).map Range.defn = defIndices q k 0 (g.insns b)
  ranges : ∀ r ∈ chain k live, RangeExact q g b r

end

/-! ### The ranges of one register, as a whole -/

section
variable {α : Type*} (q : Queries α)

/-- The uses of `k` from index `n` on that see a definition before it; `tail` are those past the last
    insn. -/
def usesFrom (k : LiveReg) (n : Nat) (l : List α) (tail : List InsnIndex) : List InsnIndex :=
  (reads q k n l).1 ++ if (reads q k n l).2 then tail else []

/-- The ranges of the DEFs of `k` from index `n` on. -/
def rangesFrom (k : LiveReg) : Nat → List α → List InsnIndex → Live
  | _, [], _ => []
  | n, i :: l, tail =>
    if defines q k i then
      Range.extend ⟨k, .insn n, .insn n, 0⟩ (usesFrom q k (n + 1) l tail) ::
        rangesFrom k (n + 1) l tail
    else rangesFrom k (n + 1) l tail

/-- The range from before the block, if there are uses of it. -/
def entryRange (k : LiveReg) (us : List InsnIndex) : Live :=
  if us = [] then [] else [Range.extend ⟨k, .before, .before, 0⟩ us]

variable {q} {k : LiveReg}

theorem foldl_useChain_append (c : Live) : ∀ (us : List InsnIndex) (r : Range),
    us.foldl (fun c u => useChain k u c) (c ++ [r]) = c ++ [r.extend us]
  | [], _ => rfl
  | u :: us, r => by
      rw [List.foldl_cons, useChain_append (by simp), useChain, foldl_useChain_append c us]
      rfl

theorem foldl_useChain_nil : ∀ us : List InsnIndex,
    us.foldl (fun c u => useChain k u c) [] = entryRange k us
  | [] => rfl
  | u :: us => by
      have h := foldl_useChain_append (k := k) [] us ⟨k, .before, u, 1⟩
      rw [List.foldl_cons, useChain, entryRange, if_neg (by simp)]
      exact h

theorem usesFrom_cons {n : Nat} {i : α} {l : List α} {tail : List InsnIndex} :
    usesFrom q k n (i :: l) tail = (if uses q k i then [.insn n] else []) ++
      if defines q k i then [] else usesFrom q k (n + 1) l tail := by
  rw [usesFrom, reads]
  cases uses q k i <;> cases defines q k i <;> simp [usesFrom]

/-- Uses past the last insn extend the last range. -/
theorem foldl_chainInsns (tail : List InsnIndex) : ∀ (l : List α) (n : Nat) (c : Live),
    tail.foldl (fun c u => useChain k u c) (chainInsns q k n l c) =
      (usesFrom q k n l tail).foldl (fun c u => useChain k u c) c ++ rangesFrom q k n l tail
  | [], n, c => by simp [chainInsns, usesFrom, reads, rangesFrom]
  | i :: l, n, c => by
      rw [chainInsns, foldl_chainInsns tail l, usesFrom_cons, List.foldl_append, chainInsn,
        rangesFrom]
      have huse : (if uses q k i then [InsnIndex.insn n] else []).foldl
          (fun c u => useChain k u c) c = if uses q k i then useChain k (.insn n) c else c := by
        split <;> rfl
      rw [huse]
      cases defines q k i with
      | false => rfl
      | true =>
        simp only [if_true, List.foldl_nil]
        rw [foldl_useChain_append, List.append_assoc, List.singleton_append]

theorem mem_usesFrom {n : Nat} {l : List α} {tail : List InsnIndex} {u : InsnIndex} :
    u ∈ usesFrom q k n l tail ↔
      (∃ l₁ i l₂, l = l₁ ++ i :: l₂ ∧ u = .insn (n + l₁.length) ∧ uses q k i = true ∧
        ∀ j ∈ l₁, defines q k j = false) ∨
      ((∀ j ∈ l, defines q k j = false) ∧ u ∈ tail) := by
  rw [usesFrom, List.mem_append, mem_reads, ← reads_open (n := n)]
  refine or_congr Iff.rfl ?_
  cases (reads q k n l).2 <;> simp

theorem usesFrom_sorted {tail : List InsnIndex}
    (ht : tail.Pairwise fun u v => u.lt v = true)
    (hi : ∀ u ∈ tail, ∀ n, (InsnIndex.insn n).lt u = true) : ∀ (l : List α) (n : Nat),
    (usesFrom q k n l tail).Pairwise fun u v => u.lt v = true
  | [], n => by simpa [usesFrom, reads] using ht
  | i :: l, n => by
      rw [usesFrom_cons]
      have hrest : (if defines q k i then [] else usesFrom q k (n + 1) l tail).Pairwise
          fun u v => u.lt v = true := by
        split
        · exact List.Pairwise.nil
        · exact usesFrom_sorted ht hi l (n + 1)
      have hlt : ∀ u ∈ (if defines q k i then [] else usesFrom q k (n + 1) l tail),
          (InsnIndex.insn n).lt u = true := by
        intro u hu
        split at hu
        · exact absurd hu List.not_mem_nil
        · rcases mem_usesFrom.mp hu with ⟨l₁, _, _, _, rfl, _⟩ | ⟨_, hu⟩
          · simp [InsnIndex.lt]; omega
          · exact hi u hu n
      cases uses q k i with
      | true => exact List.pairwise_cons.mpr ⟨hlt, hrest⟩
      | false => exact hrest

theorem map_defn_rangesFrom (tail : List InsnIndex) : ∀ (l : List α) (n : Nat),
    (rangesFrom q k n l tail).map Range.defn = defIndices q k n l
  | [], _ => rfl
  | i :: l, n => by
      rw [rangesFrom, defIndices]
      split
      · rw [List.map_cons, map_defn_rangesFrom tail l, Range.extend_defn]
      · exact map_defn_rangesFrom tail l _

/-- A range of `rangesFrom` is headed by a DEF, and covers what follows it. -/
theorem mem_rangesFrom {tail : List InsnIndex} {r : Range} : ∀ {l : List α} {n : Nat},
    r ∈ rangesFrom q k n l tail → ∃ p i rest, l = p ++ i :: rest ∧ defines q k i = true ∧
      r = Range.extend ⟨k, .insn (n + p.length), .insn (n + p.length), 0⟩
        (usesFrom q k (n + p.length + 1) rest tail)
  | [], _, h => absurd h List.not_mem_nil
  | i :: l, n, h => by
      have htail : r ∈ rangesFrom q k (n + 1) l tail → ∃ p j rest, i :: l = p ++ j :: rest ∧
          defines q k j = true ∧ r = Range.extend ⟨k, .insn (n + p.length), .insn (n + p.length), 0⟩
            (usesFrom q k (n + p.length + 1) rest tail) := by
        intro h
        obtain ⟨p, j, rest, rfl, hj, rfl⟩ := mem_rangesFrom h
        refine ⟨i :: p, j, rest, rfl, hj, ?_⟩
        rw [List.length_cons, Nat.add_comm p.length, ← Nat.add_assoc]
      rw [rangesFrom] at h
      split at h
      · rename_i hdef
        rcases List.mem_cons.mp h with rfl | h
        · exact ⟨[], i, l, rfl, hdef, rfl⟩
        · exact htail h
      · exact htail h

theorem Range.extend_last_getLastD (r : Range) : ∀ us : List InsnIndex,
    (r.extend us).last = us.getLastD r.last
  | [] => rfl
  | u :: us => by
      rw [extend_cons, Range.extend_last_getLastD _ us, List.getLastD_cons]

end

/-! ### The local phase -/

section
variable {α : Type*} {q : Queries α} {k : LiveReg} {live : Live}

theorem ordered_foldl_liveUse {β : Type*} (key : β → LiveReg) (u : InsnIndex) :
    ∀ (l : List β) {live : Live}, Ordered live →
      Ordered (l.foldl (fun live x => liveUse live (key x) u) live)
  | [], _, h => h
  | _ :: l, _, h => ordered_foldl_liveUse key u l (ordered_liveUse h)

theorem ordered_liveInsns : ∀ (l : List α) (n : Nat) {live : Live}, Ordered live →
    Ordered (liveInsns q n l live)
  | [], _, _, h => h
  | i :: l, n, live, h => by
      have hcc : Ordered (liveInsnCc q n i live) := by
        obtain ⟨l', hl'⟩ : ∃ l', l' = if q.usesCc i ≠ ∅ then liveUse live .cc (.insn n) else live :=
          ⟨_, rfl⟩
        have huse : Ordered l' := by
          rw [hl']; split
          · exact ordered_liveUse h
          · exact h
        rw [liveInsnCc, ← hl']
        cases q.defsCc i with
        | true => exact ordered_rangeNew huse
        | false => exact huse
      have hdefs : ∀ (rs : Regs) {live : Live}, Ordered live →
          Ordered (rs.foldl (fun live r => liveDef live (.reg r) (.insn n)) live) := by
        intro rs
        induction rs with
        | nil => exact fun h => h
        | cons r rs ih => exact fun h => ih (ordered_rangeNew h)
      exact ordered_liveInsns l (n + 1)
        (hdefs _ (ordered_foldl_liveUse LiveReg.reg _ _ hcc))

theorem ordered_liveAnalyzeLocal (insns : List α) (conditional : Bool) (control : Option Operand) :
    Ordered (liveAnalyzeLocal q insns conditional control) := by
  have h : Ordered (liveInsns q 0 insns []) := ordered_liveInsns insns 0 List.Pairwise.nil
  unfold liveAnalyzeLocal
  refine ordered_foldl_liveUse LiveReg.reg _ _ ?_
  cases conditional with
  | true => exact ordered_liveUse h
  | false => exact h

variable {g : BlockGraph α} {b : BlockId}

theorem ordered_localRanges : Ordered (localRanges q g b) := ordered_liveAnalyzeLocal ..

/-- The uses past the last insn, within the block. -/
def branchTail (g : BlockGraph α) (b : BlockId) (k : LiveReg) : List InsnIndex :=
  if branchUses (g.conditional b) (g.control b) k then [.branch] else []

/-- The ranges of a register after the local phase. -/
theorem chain_localRanges : chain k (localRanges q g b) =
    entryRange k (usesFrom q k 0 (g.insns b) (branchTail g b k)) ++
      rangesFrom q k 0 (g.insns b) (branchTail g b k) := by
  have h : chain k (localRanges q g b) = (branchTail g b k).foldl (fun c u => useChain k u c)
      (chainInsns q k 0 (g.insns b) []) := by
    rw [localRanges, chain_liveAnalyzeLocal, branchTail]
    split <;> rfl
  rw [h, foldl_chainInsns, foldl_useChain_nil]

theorem defn_lt_after {r : Range} (h : r ∈ chain k (localRanges q g b)) :
    r.defn.lt .after = true := by
  rw [chain_localRanges] at h
  rcases List.mem_append.mp h with h | h
  · rw [entryRange] at h
    split at h
    · exact absurd h List.not_mem_nil
    · rw [List.mem_singleton.mp h, Range.extend_defn]; rfl
  · obtain ⟨_, _, _, _, _, rfl⟩ := mem_rangesFrom h
    rw [Range.extend_defn]; rfl

theorem mem_firstRanges {r : Range} : ∀ {live : Live} {prev : Option LiveReg}, Ordered live →
    (∀ k, prev = some k → ∀ x ∈ live, k.num ≤ x.reg.num) →
      (r ∈ firstRanges prev live ↔ some r.reg ≠ prev ∧ (chain r.reg live).head? = some r)
  | [], _, _, _ => by simp [firstRanges, chain]
  | x :: live, prev, h, hprev => by
      obtain ⟨hx, hlive⟩ := List.pairwise_cons.mp h
      have hchain : chain r.reg (x :: live) =
          if x.reg = r.reg then x :: chain r.reg live else chain r.reg live := by
        simp only [chain, List.filter_cons, decide_eq_true_eq]
      unfold firstRanges
      by_cases hp : some x.reg = prev
      · rw [if_pos hp, mem_firstRanges hlive fun k hk y hy =>
          hprev k hk y (List.mem_cons_of_mem _ hy)]
        refine and_congr_right fun hr => ?_
        have hne : x.reg ≠ r.reg := fun he => hr (he ▸ hp)
        rw [hchain, if_neg hne]
      · have hle : ∀ k, some x.reg = some k → ∀ y ∈ live, k.num ≤ y.reg.num := by
          rintro k hk y hy
          rw [← Option.some.inj hk]
          exact hx y hy
        rw [if_neg hp, List.mem_cons, mem_firstRanges hlive hle, hchain]
        by_cases hr : x.reg = r.reg
        · rw [if_pos hr, List.head?_cons]
          constructor
          · rintro (rfl | ⟨hne, _⟩)
            · exact ⟨hp, rfl⟩
            · exact absurd (congrArg some hr.symm) hne
          · rintro ⟨_, hxr⟩
            exact .inl (Option.some.inj hxr).symm
        · rw [if_neg hr]
          constructor
          · rintro (rfl | ⟨hne, hh⟩)
            · exact absurd rfl hr
            · refine ⟨fun he => ?_, hh⟩
              -- a later range of the register before would be out of order
              have hmem : r ∈ live := (mem_chain.mp (List.mem_of_mem_head? hh)).1
              have h₁ := hx r hmem
              have h₂ := hprev r.reg he.symm x (List.mem_cons_self ..)
              exact hr (LiveReg.num_inj (Nat.le_antisymm h₁ h₂))
          · rintro ⟨_, hh⟩
            exact .inr ⟨fun he => hr (Option.some.inj he).symm, hh⟩

theorem mem_firsts (h : Ordered live) (p : Range → Bool) :
    k ∈ (((firstRanges none live).filter p).map Range.reg).toFinset ↔
      ∃ r, (chain k live).head? = some r ∧ p r = true := by
  rw [List.mem_toFinset, List.mem_map]
  have hfirst : ∀ r, r ∈ firstRanges none live ↔ (chain r.reg live).head? = some r := by
    intro r
    rw [mem_firstRanges h fun k hk => absurd hk (by simp)]
    exact and_iff_right (by simp)
  constructor
  · rintro ⟨r, hr, rfl⟩
    obtain ⟨hr, hp⟩ := List.mem_filter.mp hr
    exact ⟨r, (hfirst r).mp hr, hp⟩
  · rintro ⟨r, hr, hp⟩
    have hk : r.reg = k := (mem_chain.mp (List.mem_of_mem_head? hr)).2
    subst hk
    exact ⟨r, List.mem_filter.mpr ⟨(hfirst r).mpr hr, hp⟩, rfl⟩

theorem head_rangesFrom {tail : List InsnIndex} : ∀ {l : List α} {n : Nat} {r : Range},
    (rangesFrom q k n l tail).head? = some r → r.defn ≠ .before := by
  intro l n r h
  obtain ⟨_, _, _, _, _, rfl⟩ := mem_rangesFrom (List.mem_of_mem_head? h)
  rw [Range.extend_defn]; simp

theorem rangesFrom_eq_nil {tail : List InsnIndex} : ∀ {l : List α} {n : Nat},
    rangesFrom q k n l tail = [] ↔ ∀ i ∈ l, defines q k i = false
  | [], _ => by simp [rangesFrom]
  | i :: l, n => by
      rw [rangesFrom, List.forall_mem_cons]
      cases defines q k i with
      | true => simp
      | false => simpa using rangesFrom_eq_nil (l := l) (n := n + 1)

/-- A register is in `live.use` if it is used, and not redefined before that. -/
theorem mem_liveUseSet : k ∈ liveUseSet (localRanges q g b) ↔
    usesFrom q k 0 (g.insns b) (branchTail g b k) ≠ [] := by
  rw [liveUseSet, mem_firsts ordered_localRanges, chain_localRanges, entryRange]
  split
  · rename_i hnil
    rw [List.nil_append]
    constructor
    · rintro ⟨r, hr, hp⟩
      exact absurd (of_decide_eq_true hp) (head_rangesFrom hr)
    · exact fun h => absurd hnil h
  · rename_i hne
    refine ⟨fun _ => hne, fun _ => ⟨_, rfl, ?_⟩⟩
    rw [Range.extend_defn]; rfl

/-- A register is in `live.def` if it is redefined, and not used before that. -/
theorem mem_liveDefSet : k ∈ liveDefSet (localRanges q g b) ↔
    usesFrom q k 0 (g.insns b) (branchTail g b k) = [] ∧
      ∃ i ∈ g.insns b, defines q k i = true := by
  rw [liveDefSet, mem_firsts ordered_localRanges, chain_localRanges, entryRange]
  have hex : (∃ i ∈ g.insns b, defines q k i = true) ↔
      rangesFrom q k 0 (g.insns b) (branchTail g b k) ≠ [] := by
    rw [Ne, rangesFrom_eq_nil]
    simp
  rw [hex]
  split
  · rename_i hnil
    rw [List.nil_append]
    constructor
    · rintro ⟨r, hr, _⟩
      exact ⟨hnil, fun he => by rw [he] at hr; exact nomatch hr⟩
    · rintro ⟨_, hne⟩
      obtain ⟨r, rs, hrs⟩ := List.exists_cons_of_ne_nil hne
      have hhead : (rangesFrom q k 0 (g.insns b) (branchTail g b k)).head? = some r := by
        rw [hrs]; rfl
      exact ⟨r, hhead, decide_eq_true (head_rangesFrom hhead)⟩
  · rename_i hne
    constructor
    · rintro ⟨r, hr, hp⟩
      rw [List.cons_append, List.head?_cons] at hr
      rw [← Option.some.inj hr, Range.extend_defn] at hp
      exact absurd rfl (of_decide_eq_true hp)
    · exact fun h => absurd h.1 hne

end

/-! ### The global phase -/

section
variable {α : Type*} {q : Queries α} {g : BlockGraph α} {k : LiveReg} {b : BlockId}

theorem mem_liveOutOf {inn : BlockId → LiveRegs} :
    k ∈ liveOutOf g inn b ↔ ∃ c ∈ g.succs b, k ∈ inn c := by
  have hfold : ∀ (l : List BlockId) (regs : LiveRegs),
      k ∈ l.foldl (fun regs c => regs ∪ inn c) regs ↔ k ∈ regs ∨ ∃ c ∈ l, k ∈ inn c := by
    intro l
    induction l with
    | nil => simp
    | cons c l ih =>
      intro regs
      rw [List.foldl_cons, ih, Finset.mem_union, or_assoc]
      simp
  rw [liveOutOf, hfold]
  simp

theorem mem_liveInOf {out : LiveRegs} : k ∈ liveInOf q g out b ↔
    usesFrom q k 0 (g.insns b) (branchTail g b k) ≠ [] ∨
      ((∀ j ∈ g.insns b, defines q k j = false) ∧ k ∈ out) := by
  rw [liveInOf, Finset.mem_union, Finset.mem_sdiff, mem_liveUseSet, mem_liveDefSet]
  have hdef : (∀ j ∈ g.insns b, defines q k j = false) ↔
      ¬ ∃ i ∈ g.insns b, defines q k i = true := by simp
  rw [hdef]
  by_cases hu : usesFrom q k 0 (g.insns b) (branchTail g b k) = [] <;> simp [hu, and_comm]

theorem usesFrom_branchTail : usesFrom q k 0 (g.insns b) (branchTail g b k) ≠ [] ↔
    (∃ l₁ i l₂, g.insns b = l₁ ++ i :: l₂ ∧ uses q k i = true ∧
      ∀ j ∈ l₁, defines q k j = false) ∨
    ((∀ j ∈ g.insns b, defines q k j = false) ∧
      branchUses (g.conditional b) (g.control b) k = true) := by
  constructor
  · intro h
    obtain ⟨u, hu⟩ := List.exists_mem_of_ne_nil _ h
    rcases mem_usesFrom.mp hu with ⟨l₁, i, l₂, hl, _, hi, hall⟩ | ⟨hall, hu⟩
    · exact .inl ⟨l₁, i, l₂, hl, hi, hall⟩
    · refine .inr ⟨hall, ?_⟩
      by_contra hno
      rw [branchTail, if_neg hno] at hu
      exact absurd hu List.not_mem_nil
  · rintro (⟨l₁, i, l₂, hl, hi, hall⟩ | ⟨hall, hbr⟩)
    · exact List.ne_nil_of_mem (mem_usesFrom.mpr (.inl ⟨l₁, i, l₂, hl, rfl, hi, hall⟩))
    · refine List.ne_nil_of_mem (mem_usesFrom.mpr (.inr ⟨hall, ?_⟩) : InsnIndex.branch ∈ _)
      rw [branchTail, if_pos hbr]
      exact List.mem_singleton_self _

/-- A register is live into a block if the block uses it, or passes it on to a successor. -/
theorem liveAt_iff : LiveAt q g k b ↔ usesFrom q k 0 (g.insns b) (branchTail g b k) ≠ [] ∨
    ((∀ j ∈ g.insns b, defines q k j = false) ∧ ∃ c ∈ g.succs b, LiveAt q g k c) := by
  rw [usesFrom_branchTail]
  constructor
  · intro h
    cases h with
    | use hl hi hall => exact .inl (.inl ⟨_, _, _, hl, hi, hall⟩)
    | branch hall hbr => exact .inl (.inr ⟨hall, hbr⟩)
    | succ hall hc h => exact .inr ⟨hall, _, hc, h⟩
  · rintro ((⟨l₁, i, l₂, hl, hi, hall⟩ | ⟨hall, hbr⟩) | ⟨hall, c, hc, h⟩)
    · exact .use hl hi hall
    · exact .branch hall hbr
    · exact .succ hall hc h

/-- The registers that are used before a redefinition in some block. -/
def usedRegs (q : Queries α) (g : BlockGraph α) : LiveRegs :=
  g.blocks.toFinset.biUnion fun b => liveUseSet (localRanges q g b)

/-- What holds of the sets during the iteration: they are bounded, they may only grow, and what is in
    them is live. -/
structure Growing (q : Queries α) (g : BlockGraph α) (st : LiveSets) : Prop where
  inn_used : ∀ b, st.inn b ⊆ usedRegs q g
  out_used : ∀ b, st.out b ⊆ usedRegs q g
  out_le : ∀ b, st.out b ⊆ liveOutOf g st.inn b
  inn_le : ∀ b, st.inn b ⊆ liveInOf q g (st.out b) b
  live : ∀ b k, k ∈ st.inn b → LiveAt q g k b

theorem liveOutOf_mono {inn inn' : BlockId → LiveRegs} (h : ∀ c, inn c ⊆ inn' c) (b : BlockId) :
    liveOutOf g inn b ⊆ liveOutOf g inn' b := by
  intro k hk
  obtain ⟨c, hc, hk⟩ := mem_liveOutOf.mp hk
  exact mem_liveOutOf.mpr ⟨c, hc, h c hk⟩

theorem liveInOf_mono {out out' : LiveRegs} (h : out ⊆ out') (b : BlockId) :
    liveInOf q g out b ⊆ liveInOf q g out' b := by
  intro k hk
  exact mem_liveInOf.mpr ((mem_liveInOf.mp hk).imp_right fun hk => ⟨hk.1, h hk.2⟩)

/-- The sets of a block before a step are parts of those after it. -/
theorem Growing.le {st : LiveSets} (h : Growing q g st) (b : BlockId) :
    st.out b ⊆ liveOutOf g st.inn b ∧ st.inn b ⊆ liveInOf q g (liveOutOf g st.inn b) b :=
  ⟨h.out_le b, (h.inn_le b).trans (liveInOf_mono (h.out_le b) b)⟩

theorem Growing.step {st : LiveSets} (h : Growing q g st) (hb : b ∈ g.blocks) :
    Growing q g (liveAnalyzeGlobal q g b st).1 := by
  obtain ⟨hout, hinn⟩ := h.le b
  have hused : liveOutOf g st.inn b ⊆ usedRegs q g := by
    intro k hk
    obtain ⟨c, _, hk⟩ := mem_liveOutOf.mp hk
    exact h.inn_used c hk
  have hgrow : ∀ c, st.inn c ⊆ (liveAnalyzeGlobal q g b st).1.inn c := by
    intro c
    simp only [liveAnalyzeGlobal, Function.update_apply]
    split
    · rename_i hc; rw [hc]; exact hinn
    · exact Finset.Subset.refl _
  constructor
  · intro c
    simp only [liveAnalyzeGlobal, Function.update_apply]
    split
    · intro k hk
      rcases Finset.mem_union.mp hk with hk | hk
      · exact hused (Finset.mem_sdiff.mp hk).1
      · exact Finset.mem_biUnion.mpr ⟨b, List.mem_toFinset.mpr hb, hk⟩
    · exact h.inn_used c
  · intro c
    simp only [liveAnalyzeGlobal, Function.update_apply]
    split
    · exact hused
    · exact h.out_used c
  · intro c
    refine Finset.Subset.trans ?_ (liveOutOf_mono hgrow c)
    simp only [liveAnalyzeGlobal, Function.update_apply]
    split
    · rename_i hc; rw [hc]
    · exact h.out_le c
  · intro c
    simp only [liveAnalyzeGlobal, Function.update_apply]
    split
    · rename_i hc; rw [hc]
    · exact h.inn_le c
  · intro c k hk
    simp only [liveAnalyzeGlobal, Function.update_apply] at hk
    split at hk
    · rename_i hc
      rw [hc]
      refine liveAt_iff.mpr ((mem_liveInOf.mp hk).imp_right fun hk => ⟨hk.1, ?_⟩)
      obtain ⟨d, hd, hk⟩ := mem_liveOutOf.mp hk.2
      exact ⟨d, hd, h.live d k hk⟩
    · exact h.live c k hk

theorem growing_init : Growing q g ⟨fun _ => ∅, fun _ => ∅⟩ :=
  ⟨fun _ => Finset.empty_subset _, fun _ => Finset.empty_subset _, fun _ => Finset.empty_subset _,
    fun _ => Finset.empty_subset _, fun _ _ h => absurd h (Finset.notMem_empty _)⟩

/-- The number of elements of the sets. -/
def setsSize (g : BlockGraph α) (st : LiveSets) : ℕ :=
  ∑ b ∈ g.blocks.toFinset, ((st.inn b).card + (st.out b).card)

theorem setsSize_step {st : LiveSets} (h : Growing q g st) (hb : b ∈ g.blocks) :
    setsSize g st ≤ setsSize g (liveAnalyzeGlobal q g b st).1 ∧
      ((liveAnalyzeGlobal q g b st).2 = true →
        setsSize g st < setsSize g (liveAnalyzeGlobal q g b st).1) := by
  obtain ⟨hout, hinn⟩ := h.le b
  have hle : ∀ c ∈ g.blocks.toFinset, (st.inn c).card + (st.out c).card ≤
      ((liveAnalyzeGlobal q g b st).1.inn c).card +
        ((liveAnalyzeGlobal q g b st).1.out c).card := by
    intro c _
    simp only [liveAnalyzeGlobal, Function.update_apply]
    split
    · rename_i hc
      rw [hc]
      exact Nat.add_le_add (Finset.card_le_card hinn) (Finset.card_le_card hout)
    · exact le_rfl
  refine ⟨Finset.sum_le_sum hle, fun hflag => Finset.sum_lt_sum hle
    ⟨b, List.mem_toFinset.mpr hb, ?_⟩⟩
  simp only [liveAnalyzeGlobal, Function.update_self]
  rcases (Bool.or_eq_true ..).mp hflag with hne | hne
  · exact Nat.add_lt_add_of_lt_of_le
      (Finset.card_lt_card (Finset.ssubset_iff_subset_ne.mpr ⟨hinn, of_decide_eq_true hne⟩))
      (Finset.card_le_card hout)
  · exact Nat.add_lt_add_of_le_of_lt (Finset.card_le_card hinn)
      (Finset.card_lt_card (Finset.ssubset_iff_subset_ne.mpr ⟨hout, of_decide_eq_true hne⟩))

/-- The analysis ends. -/
theorem liveAnalyze_ends (q : Queries α) (g : BlockGraph α) : ∃ n d, liveAnalyze q g n = some d := by
  have hbound : ∀ st, Growing q g st → setsSize g st ≤
      ∑ _b ∈ g.blocks.toFinset, ((usedRegs q g).card + (usedRegs q g).card) := fun st h =>
    Finset.sum_le_sum fun b _ => Nat.add_le_add (Finset.card_le_card (h.inn_used b))
      (Finset.card_le_card (h.out_used b))
  obtain ⟨st, hst⟩ := iterate_ends (fun _ hb _ h => h.step hb)
    (fun _ hb _ h => (setsSize_step h hb).1) (fun _ hb _ h => (setsSize_step h hb).2) hbound
    growing_init (Nat.lt_of_lt_of_le (Nat.lt_succ_self _) (Nat.le_add_left _ _))
  exact ⟨_, _, congrArg _ hst⟩

/-- When the analysis ends, the sets are stable. -/
theorem liveAnalyzeGlobal_stable {st : LiveSets}
    (h : (liveAnalyzeGlobal q g b st).2 = false) :
    st.out b = liveOutOf g st.inn b ∧ st.inn b = liveInOf q g (liveOutOf g st.inn b) b := by
  obtain ⟨hinn, hout⟩ := (Bool.or_eq_false_iff ..).mp h
  exact ⟨by simpa using hout, by simpa using hinn⟩

theorem liveAnalyzeGlobal_idle (b : BlockId) (st : LiveSets)
    (h : (liveAnalyzeGlobal q g b st).2 = false) : (liveAnalyzeGlobal q g b st).1 = st := by
  obtain ⟨hout, hinn⟩ := liveAnalyzeGlobal_stable h
  rw [liveAnalyzeGlobal, ← hinn, ← hout, Function.update_eq_self, Function.update_eq_self]

/-- The sets are exact. -/
theorem liveSets_exact {n : ℕ} {st : LiveSets}
    (h : iterate (liveAnalyzeGlobal q g) g.blocks n ⟨fun _ => ∅, fun _ => ∅⟩ = some st)
    (hb : b ∈ g.blocks) : (k ∈ st.inn b ↔ LiveAt q g k b) ∧
      (k ∈ st.out b ↔ ∃ c ∈ g.succs b, LiveAt q g k c) := by
  have hgrow : Growing q g st := iterate_inv (fun _ hb _ h => h.step hb) h growing_init
  have hstable := iterate_stable liveAnalyzeGlobal_idle h
  have hcomplete : ∀ b, LiveAt q g k b → b ∈ g.blocks → k ∈ st.inn b := by
    intro b hlive
    induction hlive with
    | use hl hi hall =>
      intro hb
      rw [(liveAnalyzeGlobal_stable (hstable _ hb)).2]
      exact mem_liveInOf.mpr (.inl (usesFrom_branchTail.mpr (.inl ⟨_, _, _, hl, hi, hall⟩)))
    | branch hall hbr =>
      intro hb
      rw [(liveAnalyzeGlobal_stable (hstable _ hb)).2]
      exact mem_liveInOf.mpr (.inl (usesFrom_branchTail.mpr (.inr ⟨hall, hbr⟩)))
    | succ hall hc _ ih =>
      intro hb
      rw [(liveAnalyzeGlobal_stable (hstable _ hb)).2]
      exact mem_liveInOf.mpr (.inr ⟨hall, mem_liveOutOf.mpr ⟨_, hc, ih (g.closed _ hb _ hc)⟩⟩)
  refine ⟨⟨hgrow.live b k, fun h => hcomplete b h hb⟩, ?_⟩
  rw [(liveAnalyzeGlobal_stable (hstable b hb)).1, mem_liveOutOf]
  refine exists_congr fun c => and_congr_right fun hc => ⟨hgrow.live c k, fun h => ?_⟩
  exact hcomplete c h (g.closed b hb c hc)

/-! ### The final phase -/

theorem foldl_liveUse_after (hlt : ∀ k, ∀ r ∈ chain k (localRanges q g b), r.defn.lt .after = true) :
    ∀ {ks : List LiveReg} {live : Live}, ks.Nodup → Ordered live →
      (∀ k ∈ ks, chain k live = chain k (localRanges q g b)) → ∀ k,
        chain k (ks.foldl (fun live k => liveUse live k .after) live) =
          if k ∈ ks then useChain k .after (chain k live) else chain k live
  | [], _, _, _, _, k => by simp
  | k' :: ks, live, hn, ho, heq, k => by
      obtain ⟨hk', hks⟩ := List.nodup_cons.mp hn
      have hother : ∀ k, k ≠ k' → chain k (liveUse live k' .after) = chain k live :=
        fun k hne => chain_liveUse_ne hne
      rw [List.foldl_cons, foldl_liveUse_after hlt hks (ordered_liveUse ho) fun k hk => by
        rw [hother k fun he => hk' (he ▸ hk)]; exact heq k (List.mem_cons_of_mem _ hk)]
      by_cases hk : k = k'
      · subst hk
        rw [if_neg hk', if_pos (List.mem_cons_self ..)]
        refine chain_liveUse ho ?_
        rw [heq k (List.mem_cons_self ..)]
        exact hlt k
      · simp only [List.mem_cons, hk, false_or, hother k hk]

/-- The uses past the last insn. -/
def blockTail (g : BlockGraph α) (out : LiveRegs) (b : BlockId) (k : LiveReg) : List InsnIndex :=
  branchTail g b k ++ if k ∈ out then [.after] else []

/-- The ranges of a register after the final phase. -/
theorem chain_liveAnalyzeFinal (st : LiveSets) :
    chain k (liveAnalyzeFinal q g st b).ranges =
      entryRange k (usesFrom q k 0 (g.insns b) (blockTail g (st.out b) b k)) ++
        rangesFrom q k 0 (g.insns b) (blockTail g (st.out b) b k) := by
  have hfinal : chain k (liveAnalyzeFinal q g st b).ranges =
      if k ∈ st.out b then useChain k .after (chain k (localRanges q g b))
      else chain k (localRanges q g b) := by
    have h := foldl_liveUse_after (q := q) (g := g) (b := b) (fun _ _ => defn_lt_after)
      (Finset.sort_nodup (st.out b) LiveReg.le) ordered_localRanges (fun _ _ => rfl) k
    simp only [Finset.mem_sort] at h
    exact h
  have hlocal : chain k (localRanges q g b) = (branchTail g b k).foldl
      (fun c u => useChain k u c) (chainInsns q k 0 (g.insns b) []) := by
    rw [chain_localRanges, foldl_chainInsns, foldl_useChain_nil]
  rw [hfinal, ← foldl_useChain_nil, ← foldl_chainInsns, blockTail, List.foldl_append, hlocal]
  split <;> rfl

end

/-! ### The analysis is exact -/

section
variable {α : Type*} {q : Queries α} {g : BlockGraph α} {k : LiveReg} {b : BlockId} {out : LiveRegs}

theorem mem_blockTail {u : InsnIndex} : u ∈ blockTail g out b k ↔
    (u = .branch ∧ branchUses (g.conditional b) (g.control b) k = true) ∨
      (u = .after ∧ k ∈ out) := by
  rw [blockTail, branchTail, List.mem_append]
  refine or_congr ?_ ?_ <;> split <;> simp_all

theorem blockTail_sorted : (blockTail g out b k).Pairwise (fun u v => u.lt v = true) ∧
    ∀ u ∈ blockTail g out b k, ∀ n, (InsnIndex.insn n).lt u = true := by
  refine ⟨?_, fun u hu n => ?_⟩
  · rw [blockTail, branchTail]
    split <;> split <;> simp [InsnIndex.lt]
  · rcases mem_blockTail.mp hu with ⟨rfl, _⟩ | ⟨rfl, _⟩ <;> rfl

theorem DefinedAt.length {pre pre' : List α} {d : InsnIndex} (h : DefinedAt q k pre d)
    (h' : DefinedAt q k pre' d) : pre.length = pre'.length := by
  rcases h with ⟨rfl, rfl⟩ | ⟨p, i, rfl, rfl, _⟩
  · rcases h' with ⟨rfl, _⟩ | ⟨p', i', _, hd, _⟩
    · rfl
    · exact absurd hd (by simp)
  · rcases h' with ⟨_, hd⟩ | ⟨p', i', rfl, hd, _⟩
    · exact absurd hd (by simp)
    · rw [List.length_append, List.length_append, InsnIndex.insn.inj hd]
      rfl

/-- What a definition reaches, when the live-out set is right. -/
theorem reaches_iff (hout : k ∈ out ↔ ∃ c ∈ g.succs b, LiveAt q g k c) {pre rest : List α}
    {d u : InsnIndex} (hb : g.insns b = pre ++ rest) (hd : DefinedAt q k pre d) :
    Reaches q g b k d u ↔ u ∈ usesFrom q k pre.length rest (blockTail g out b k) := by
  rw [mem_usesFrom, mem_blockTail, hout]
  constructor
  · rintro ⟨pre', rest', hb', hd', h⟩
    obtain ⟨rfl, rfl⟩ := List.append_inj (hb'.symm.trans hb) (hd'.length hd)
    exact h
  · exact fun h => ⟨pre, rest, hb, hd, h⟩

theorem rangeExact_extend (hout : k ∈ out ↔ ∃ c ∈ g.succs b, LiveAt q g k c) {pre rest : List α}
    {d : InsnIndex} (hb : g.insns b = pre ++ rest) (hd : DefinedAt q k pre d) :
    RangeExact q g b
      (Range.extend ⟨k, d, d, 0⟩ (usesFrom q k pre.length rest (blockTail g out b k))) := by
  refine ⟨usesFrom q k pre.length rest (blockTail g out b k),
    usesFrom_sorted blockTail_sorted.1 blockTail_sorted.2 rest pre.length,
    fun u => ?_, ?_, ?_⟩
  · rw [Range.extend_reg, Range.extend_defn, reaches_iff hout hb hd]
  · rw [Range.extend_uses, Nat.zero_add]
  · rw [Range.extend_last_getLastD, Range.extend_defn]

theorem rangesExact {st : LiveSets} (hout : k ∈ st.out b ↔ ∃ c ∈ g.succs b, LiveAt q g k c) :
    RangesExact q g b k (liveAnalyzeFinal q g st b).ranges := by
  have hentry : DefinedAt q k ([] : List α) .before := .inl ⟨rfl, rfl⟩
  have hreach : (∃ u, Reaches q g b k .before u) ↔
      usesFrom q k 0 (g.insns b) (blockTail g (st.out b) b k) ≠ [] := by
    have hiff := fun u => @reaches_iff _ q g k b _ hout [] (g.insns b) .before u rfl hentry
    simp only [hiff, List.length_nil]
    exact ⟨fun ⟨u, hu⟩ => List.ne_nil_of_mem hu, List.exists_mem_of_ne_nil _⟩
  refine ⟨fun h => ?_, fun h => ?_, fun r hr => ?_⟩
  · rw [chain_liveAnalyzeFinal, entryRange, if_neg (hreach.mp h), List.map_append,
      map_defn_rangesFrom, List.map_singleton, Range.extend_defn]
    rfl
  · rw [chain_liveAnalyzeFinal, entryRange, if_pos (not_not.mp (mt hreach.mpr h)),
      List.nil_append, map_defn_rangesFrom]
  · rw [chain_liveAnalyzeFinal] at hr
    rcases List.mem_append.mp hr with hr | hr
    · rw [entryRange] at hr
      split at hr
      · exact absurd hr List.not_mem_nil
      · rw [List.mem_singleton.mp hr]
        exact rangeExact_extend hout (List.nil_append _).symm hentry
    · obtain ⟨p, i, rest, hp, hi, rfl⟩ := mem_rangesFrom hr
      have hd : DefinedAt q k (p ++ [i]) (.insn p.length) := .inr ⟨p, i, rfl, rfl, hi⟩
      have hb : g.insns b = (p ++ [i]) ++ rest := by rw [hp]; simp
      have h := rangeExact_extend hout hb hd
      rw [List.length_append, List.length_singleton] at h
      rw [Nat.zero_add]
      exact h

/-- What `live_analyze` finds at the end, of the sets and of the ranges. -/
theorem liveAnalyze_ranges {α : Type*} (q : Queries α) (g : BlockGraph α) :
    ∃ n d, (∀ m ≥ n, liveAnalyze q g m = some d) ∧
      ∀ (b : {b // b ∈ g.blocks}) (r : PseudoReg),
        (.reg r ∈ (d b).inn ↔ LiveAt q g (.reg r) b) ∧
        (.reg r ∈ (d b).out ↔ ∃ c ∈ g.succs b, .reg r ∈ (d c).inn) ∧
        RangesExact q g b (.reg r) (d b).ranges := by
  obtain ⟨n, d, h⟩ := liveAnalyze_ends q g
  obtain ⟨st, hst, rfl⟩ := Option.map_eq_some_iff.mp h
  have hinn : ∀ c ∈ g.blocks, ∀ r, .reg r ∈ (liveAnalyzeFinal q g st c).inn ↔
      LiveAt q g (.reg r) c := by
    intro c hc r
    rw [liveAnalyzeFinal, Finset.mem_erase, (liveSets_exact hst hc).1]
    exact and_iff_right (by simp)
  refine ⟨n, _, fun m hm => congrArg _ (iterate_mono hm hst), ?_⟩
  rintro ⟨b, hb⟩ r
  have hout := (liveSets_exact (k := .reg r) hst hb).2
  refine ⟨hinn b hb r, ?_, rangesExact hout⟩
  rw [liveAnalyzeFinal, Finset.mem_erase, and_iff_right (by simp : LiveReg.reg r ≠ .cc), hout]
  exact exists_congr fun c => and_congr_right fun hc => (hinn c (g.closed b hb c hc) r).symm

/-- Live-variable analysis ends, and it is exact on registers. -/
theorem liveAnalyze_exact {α : Type*} (q : Queries α) (g : BlockGraph α) :
    ∃ n d, (∀ m ≥ n, liveAnalyze q g m = some d) ∧
      ∀ (b : {b // b ∈ g.blocks}) (r : PseudoReg),
        (.reg r ∈ (d b).inn ↔ LiveAt q g (.reg r) b) ∧
        (.reg r ∈ (d b).out ↔ ∃ c ∈ g.succs b, .reg r ∈ (d c).inn) ∧
        RangesExact q g b (.reg r) (d b).ranges :=
  liveAnalyze_ranges q g

end

end Ncc
