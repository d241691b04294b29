import Ncc.Bitset
import Ncc.Copy
import Ncc.Dom

/-! Global copy propagation (copy.c): which copies are available at the entry of a block.

    Every copy insn of the function has an entry in the copies list. The entries are put at the head
    of the list, so the entry of the insn seen last is bit 0 of the bitsets, and `init0` counts down
    while it sees the insns in the same order again. `Available` is what a bit of `copy.in` means:
    the copy was executed on the path, and nothing since has redefined either register. -/

namespace Ncc.Copy

/-- `struct copy_insn`. -/
structure CopyInsn where
  dst : PseudoReg
  src : PseudoReg
  b : BlockId
  index : Nat
  deriving DecidableEq

/-- An insn of a block, with where it stands. -/
structure Site where
  b : BlockId
  index : Nat
  insn : Insn
  deriving DecidableEq

/-- The insns of a block in order (INSNS_FOREACH). -/
def sites (f : Func) (b : BlockId) : List Site :=
  (f.block b).insns.zipIdx.map fun x => ⟨b, x.2, x.1⟩

/-- `copies_new`: the new entry goes to the head of the list. -/
def copiesNew (copies : List CopyInsn) (dst src : PseudoReg) (b : BlockId) (index : Nat) :
    List CopyInsn :=
  ⟨dst, src, b, index⟩ :: copies

/-- One turn of the loop in `copies0`. -/
def copies0Insn (copies : List CopyInsn) (x : Site) : List CopyInsn :=
  match insnCopy x.insn with
  | some (dst, src) => copiesNew copies dst src x.b x.index
  | none => copies

/-- `copies0`. -/
def copies0 (f : Func) (copies : List CopyInsn) (b : BlockId) : List CopyInsn :=
  (sites f b).foldl copies0Insn copies

/-- `blocks_iter(copies0)`: the copies list of a function. -/
def copiesOf (f : Func) : List CopyInsn := f.blocks.foldl (copies0 f) []

/-- `copies_invalidate`: reset the bit of every entry that mentions the register. -/
def copiesInvalidate {w : Nat} (copies : List CopyInsn) (s : Bitset w) (reg : PseudoReg) :
    Bitset w :=
  copies.zipIdx.foldl
    (fun s c => if c.1.dst = reg ∨ c.1.src = reg then bitsetReset s c.2 else s) s

/-- The sets of `struct copy`. -/
structure BlockCopy (w : Nat) where
  inn : Bitset w
  out : Bitset w
  gen : Bitset w
  prsv : Bitset w

/-- What the loop of `init0` over the insns changes: `next_copy_bit`, GEN and PRSV. -/
structure Init0 (w : Nat) where
  next : Nat
  gen : Bitset w
  prsv : Bitset w

/-- One turn of the loop in `init0`. -/
def init0Insn {w : Nat} (copies : List CopyInsn) (x : Init0 w) (insn : Insn) : Init0 w :=
  let defs := insnDefsRegs insn
  let gen := defs.foldl (copiesInvalidate copies) x.gen
  let prsv := defs.foldl (copiesInvalidate copies) x.prsv
  match insnCopy insn with
  | some _ => ⟨x.next - 1, bitsetSet gen (x.next - 1), prsv⟩
  | none => ⟨x.next, gen, prsv⟩

/-- The number of words of each bitset. -/
abbrev copyWords (copies : List CopyInsn) : Nat := bitsetWords copies.length

/-- `init0`. The counter is absent (-1) before the first block. -/
def init0 (f : Func) (copies : List CopyInsn)
    (x : Option Nat × (BlockId → BlockCopy (copyWords copies))) (b : BlockId) :
    Option Nat × (BlockId → BlockCopy (copyWords copies)) :=
  let zero := bitsetInit copies.length
  let y := (f.block b).insns.foldl (init0Insn copies)
    ⟨x.1.getD copies.length, zero, bitsetOneAll zero⟩
  (some y.next, Function.update x.2 b
    ⟨if b ≠ f.entry then bitsetOneAll zero else zero, zero, y.gen, y.prsv⟩)

/-- What `blocks_iter(init0)` leaves behind, from sets that do not matter. -/
def copyInit (f : Func) (any : BlockId → BlockCopy (copyWords (copiesOf f))) :
    BlockId → BlockCopy (copyWords (copiesOf f)) :=
  (f.blocks.foldl (init0 f (copiesOf f)) (none, any)).2

/-- IN of a block: what the OUT sets of its predecessors have in common. Without predecessors it
    stays what it was. -/
def copyIn {w : Nat} (f : Func) (b : BlockId) (data : BlockId → BlockCopy w) : Bitset w :=
  match (f.block b).predecessors with
  | [] => (data b).inn
  | pred :: preds => preds.foldl (fun s p => bitsetAnd s (data p).out) (data pred).out

/-- The `tmp` of `copy0`: OUT of a block. -/
def copyOut {w : Nat} (f : Func) (b : BlockId) (data : BlockId → BlockCopy w) : Bitset w :=
  bitsetOr (bitsetAnd (copyIn f b data) (data b).prsv) (data b).gen

/-- `copy0`. -/
def copy0 {w : Nat} (f : Func) (b : BlockId) (data : BlockId → BlockCopy w) :
    (BlockId → BlockCopy w) × Bool :=
  if bitsetSame (copyOut f b data) (data b).out then
    (Function.update data b { data b with inn := copyIn f b data }, false)
  else
    (Function.update data b { data b with
      inn := copyIn f b data
      out := copyOut f b data }, true)

/-- The analysis: `blocks_iter` of `copies0`, `init0` and `copy0`, with fuel for the passes. -/
def copyGlobal (f : Func) (any : BlockId → BlockCopy (copyWords (copiesOf f))) (n : Nat) :
    Option (BlockId → BlockCopy (copyWords (copiesOf f))) :=
  iterate (copy0 f) f.blocks n (copyInit f any)

/-- The map `rewrite0` makes of the bits of IN, from which it does the local replacements. -/
def rewriteMap {w : Nat} (copies : List CopyInsn) (inn : Bitset w) : Regmaps :=
  copies.zipIdx.foldl
    (fun m c => if bitsetGet inn c.2 then regmapsUpdate m c.1.dst c.1.src else m) .empty

/-! ### What the analysis is for -/

/-- The insn leaves both registers of a copy alone. -/
def Spares (c : CopyInsn) (i : Insn) : Prop := c.dst ∉ insnDefsRegs i ∧ c.src ∉ insnDefsRegs i

/-- The copy was executed, and neither of its registers was redefined after its last execution. -/
def Available (c : CopyInsn) (trail : List Site) : Prop :=
  ∃ l₁ i l₂, trail = l₁ ++ ⟨c.b, c.index, i⟩ :: l₂ ∧ insnCopy i = some (c.dst, c.src) ∧
    ∀ x ∈ l₂, Spares c x.insn

/-- The insns executed along a path, up to the block it leads to. -/
def trailOf (f : Func) (path : List BlockId) : List Site := path.dropLast.flatMap (sites f)

/-- The destination of the copy holds what its source operand reads, at the type of the copy. -/
def Holds (f : Func) (env : Env) (c : CopyInsn) (s : State) : Prop :=
  ∃ i, (f.block c.b).insns[c.index]? = some i ∧ insnCopy i = some (c.dst, c.src) ∧
    (c.dst ≠ c.src → s.regs c.dst = fit (tsOpt i.dst) (readOpt env s.regs i.src1))

/-- The copy is in the block, and the insns of the block after it spare its registers. -/
def Exposed (f : Func) (c : CopyInsn) (b : BlockId) : Prop :=
  c.b = b ∧ ∃ l₁ i l₂, (f.block b).insns = l₁ ++ i :: l₂ ∧ l₁.length = c.index ∧
    insnCopy i = some (c.dst, c.src) ∧ ∀ j ∈ l₂, Spares c j

/-! ### The copies list -/

/-- The entry of an insn, if it is a copy. -/
def entryOf (x : Site) : Option CopyInsn :=
  (insnCopy x.insn).map fun c => ⟨c.1, c.2, x.b, x.index⟩

theorem foldl_copies0Insn : ∀ (l : List Site) (copies : List CopyInsn),
    l.foldl copies0Insn copies = (l.filterMap entryOf).reverse ++ copies
  | [], _ => rfl
  | x :: l, copies => by
      rw [List.foldl_cons, foldl_copies0Insn l]
      cases hc : insnCopy x.insn with
      | none => simp [copies0Insn, entryOf, hc]
      | some c => simp [copies0Insn, copiesNew, entryOf, hc]

/-- The list holds the copies of the function, the last one first. -/
theorem copiesOf_eq (f : Func) :
    copiesOf f = ((f.blocks.flatMap (sites f)).filterMap entryOf).reverse := by
  have hfold : ∀ (bs : List BlockId) (copies : List CopyInsn), bs.foldl (copies0 f) copies =
      ((bs.flatMap (sites f)).filterMap entryOf).reverse ++ copies := by
    intro bs
    induction bs with
    | nil => intro copies; rfl
    | cons b bs ih =>
      intro copies
      rw [List.foldl_cons, ih, copies0, foldl_copies0Insn]
      simp
  rw [copiesOf, hfold, List.append_nil]

/-- How many of the insns are copies. -/
def copyCount (l : List Insn) : Nat := l.countP fun i => (insnCopy i).isSome

/-- The sites of some insns of a block, the first of which stands at `k`. -/
def sitesFrom (b : BlockId) (k : Nat) (l : List Insn) : List Site :=
  (l.zipIdx k).map fun x => ⟨b, x.2, x.1⟩

theorem sites_eq (f : Func) (b : BlockId) : sites f b = sitesFrom b 0 (f.block b).insns := rfl

theorem sitesFrom_append (b : BlockId) (k : Nat) (l₁ l₂ : List Insn) :
    sitesFrom b k (l₁ ++ l₂) = sitesFrom b k l₁ ++ sitesFrom b (k + l₁.length) l₂ := by
  rw [sitesFrom, List.zipIdx_append, List.map_append]; rfl

theorem sitesFrom_cons (b : BlockId) (k : Nat) (i : Insn) (l : List Insn) :
    sitesFrom b k (i :: l) = ⟨b, k, i⟩ :: sitesFrom b (k + 1) l := rfl

theorem map_insn_sitesFrom (b : BlockId) : ∀ (k : Nat) (l : List Insn),
    (sitesFrom b k l).map Site.insn = l
  | _, [] => rfl
  | k, i :: l => by rw [sitesFrom_cons, List.map_cons, map_insn_sitesFrom b (k + 1) l]

theorem length_entries (b : BlockId) : ∀ (k : Nat) (l : List Insn),
    ((sitesFrom b k l).filterMap entryOf).length = copyCount l
  | _, [] => rfl
  | k, i :: l => by
      have ih := length_entries b (k + 1) l
      rw [copyCount] at ih ⊢
      rw [sitesFrom_cons, List.filterMap_cons, List.countP_cons]
      cases hc : insnCopy i <;> simp [entryOf, hc, ih]

/-- How many copies the blocks hold. -/
def blocksCount (f : Func) (bs : List BlockId) : Nat :=
  ((bs.flatMap (sites f)).filterMap entryOf).length

theorem blocksCount_cons (f : Func) (b : BlockId) (bs : List BlockId) :
    blocksCount f (b :: bs) = copyCount (f.block b).insns + blocksCount f bs := by
  rw [blocksCount, List.flatMap_cons, List.filterMap_append, List.length_append, sites_eq,
    length_entries, blocksCount]

/-- Counting down from the length of the list, the number of a copy is the place of its entry. -/
theorem copiesOf_number {f : Func} {B₁ B₂ : List BlockId} {b : BlockId} {l₁ l₂ : List Insn}
    {i : Insn} {c : PseudoReg × PseudoReg} (hb : f.blocks = B₁ ++ b :: B₂)
    (hl : (f.block b).insns = l₁ ++ i :: l₂) (hc : insnCopy i = some c) :
    (copiesOf f)[(copiesOf f).length - blocksCount f B₁ - copyCount l₁ - 1]? =
      some ⟨c.1, c.2, b, l₁.length⟩ := by
  -- what is seen before the copy, and what is seen after it
  obtain ⟨A, B, hA, heq⟩ : ∃ A B, A.length = blocksCount f B₁ + copyCount l₁ ∧
      copiesOf f = (A ++ ⟨c.1, c.2, b, l₁.length⟩ :: B).reverse := by
    refine ⟨((B₁.flatMap (sites f)) ++ sitesFrom b 0 l₁).filterMap entryOf,
      ((sitesFrom b (l₁.length + 1) l₂) ++ B₂.flatMap (sites f)).filterMap entryOf, ?_, ?_⟩
    · rw [List.filterMap_append, List.length_append, length_entries, blocksCount]
    · rw [copiesOf_eq, hb, List.flatMap_append, List.flatMap_cons, sites_eq f b, hl,
        sitesFrom_append, sitesFrom_cons, Nat.zero_add]
      simp [entryOf, hc]
  have hlen : (copiesOf f).length = A.length + (B.length + 1) := by
    rw [heq, List.length_reverse, List.length_append, List.length_cons]
  have hindex : (copiesOf f).length - blocksCount f B₁ - copyCount l₁ - 1 = B.length := by omega
  rw [hindex, heq, List.getElem?_reverse (by simp; omega), List.length_append, List.length_cons]
  have hplace : A.length + (B.length + 1) - 1 - B.length = A.length := by omega
  rw [hplace, List.getElem?_append_right (le_refl _), Nat.sub_self, List.getElem?_cons_zero]

/-- No entry of the list stands there twice. -/
theorem nodup_copiesOf {f : Func} (h : f.blocks.Nodup) : (copiesOf f).Nodup := by
  rw [copiesOf_eq, List.nodup_reverse]
  have hkeys : ((f.blocks.flatMap (sites f)).map fun x => (x.b, x.index)).Nodup := by
    rw [List.map_flatMap, List.nodup_flatMap]
    refine ⟨fun b _ => ?_, h.imp fun {b c} hne => ?_⟩
    · have hrange : (sites f b).map (fun x => (x.b, x.index)) =
          (List.range (f.block b).insns.length).map fun n => (b, n) := by
        rw [sites, List.map_map, List.range_eq_range', ← List.zipIdx_map_snd 0, List.map_map]
        rfl
      rw [hrange]
      exact List.nodup_range.map fun m n hmn => (Prod.mk.inj hmn).2
    · intro x hx hy
      obtain ⟨y, hy', rfl⟩ := List.mem_map.mp hx
      obtain ⟨z, hz', hzy⟩ := List.mem_map.mp hy
      obtain ⟨_, _, rfl⟩ := List.mem_map.mp hy'
      obtain ⟨_, _, rfl⟩ := List.mem_map.mp hz'
      exact hne (Prod.mk.inj hzy).1.symm
  have hsub : List.Sublist
      (((f.blocks.flatMap (sites f)).filterMap entryOf).map fun c => (c.b, c.index))
      ((f.blocks.flatMap (sites f)).map fun x => (x.b, x.index)) := by
    induction f.blocks.flatMap (sites f) with
    | nil => exact List.Sublist.refl _
    | cons x l ih =>
      cases hc : insnCopy x.insn with
      | none => simpa [entryOf, hc] using ih.cons _
      | some c => simpa [entryOf, hc] using ih
  exact List.Nodup.of_map _ (hkeys.sublist hsub)

/-! ### GEN and PRSV -/

/-- The insn redefines a register of the entry with the given number. -/
def Kills (copies : List CopyInsn) (i : Insn) (k : Nat) : Prop :=
  ∃ c, copies[k]? = some c ∧ ¬ Spares c i

section
variable {w : Nat} {copies : List CopyInsn}

theorem mem_copiesInvalidate {s : Bitset w} {reg : PseudoReg} {k : Nat} :
    k ∈ bits (copiesInvalidate copies s reg) ↔
      k ∈ bits s ∧ ∀ c, copies[k]? = some c → c.dst ≠ reg ∧ c.src ≠ reg := by
  -- the numbers of the entries start from `n` in the tail of the list
  have hfold : ∀ (l : List CopyInsn) (n : Nat) (s : Bitset w),
      k ∈ bits ((l.zipIdx n).foldl
        (fun s c => if c.1.dst = reg ∨ c.1.src = reg then bitsetReset s c.2 else s) s) ↔
      k ∈ bits s ∧ ∀ j c, l[j]? = some c → k = n + j → c.dst ≠ reg ∧ c.src ≠ reg := by
    intro l
    induction l with
    | nil => intro n s; simp
    | cons c l ih =>
      intro n s
      rw [List.zipIdx_cons, List.foldl_cons, ih]
      have hhead : k ∈ bits (if c.dst = reg ∨ c.src = reg then bitsetReset s n else s) ↔
          k ∈ bits s ∧ (k = n → c.dst ≠ reg ∧ c.src ≠ reg) := by
        split_ifs with hreg
        · rw [mem_bits_reset]
          exact and_congr_right fun _ => ⟨fun hne he => absurd he hne, fun h he => by
            have := h he; tauto⟩
        · simp only [not_or] at hreg
          exact ⟨fun h => ⟨h, fun _ => hreg⟩, fun h => h.1⟩
      rw [hhead, and_assoc]
      refine and_congr_right fun _ => ⟨fun ⟨h0, hrest⟩ j d hd hk => ?_, fun h => ⟨fun hk => ?_,
        fun j d hd hk => ?_⟩⟩
      · cases j with
        | zero =>
          obtain rfl : c = d := Option.some.inj hd
          exact h0 hk
        | succ j => exact hrest j d hd (by omega)
      · exact h 0 c rfl hk
      · exact h (j + 1) d hd (by omega)
  rw [copiesInvalidate, hfold]
  refine and_congr_right fun _ => ⟨fun h c hc => h k c hc (Nat.zero_add k).symm, ?_⟩
  rintro h j c hc rfl
  exact h c (by rwa [Nat.zero_add])

/-- Invalidating all the registers an insn DEFs. -/
theorem mem_foldl_copiesInvalidate {i : Insn} {s : Bitset w} {k : Nat} :
    k ∈ bits ((insnDefsRegs i).foldl (copiesInvalidate copies) s) ↔
      k ∈ bits s ∧ ¬ Kills copies i k := by
  have hfold : ∀ (regs : Regs) (s : Bitset w),
      k ∈ bits (regs.foldl (copiesInvalidate copies) s) ↔
        k ∈ bits s ∧ ∀ c, copies[k]? = some c → c.dst ∉ regs ∧ c.src ∉ regs := by
    intro regs
    induction regs with
    | nil => simp
    | cons r regs ih =>
      intro s
      rw [List.foldl_cons, ih, mem_copiesInvalidate, and_assoc]
      refine and_congr_right fun _ => ⟨fun ⟨h, h'⟩ c hc => ?_, fun h => ⟨fun c hc => ?_,
        fun c hc => ?_⟩⟩
      · simp only [List.mem_cons, not_or]
        exact ⟨⟨(h c hc).1, (h' c hc).1⟩, (h c hc).2, (h' c hc).2⟩
      · have := h c hc; simp only [List.mem_cons, not_or] at this; exact ⟨this.1.1, this.2.1⟩
      · have := h c hc; simp only [List.mem_cons, not_or] at this; exact ⟨this.1.2, this.2.2⟩
  rw [hfold, Kills]
  refine and_congr_right fun _ => ⟨?_, fun h c hc => ?_⟩
  · rintro h ⟨c, hc, hno⟩
    exact hno (h c hc)
  · by_contra hno
    exact h ⟨c, hc, hno⟩

/-- The loop of `init0` over some insns of a block. -/
def init0Insns (copies : List CopyInsn) (n : Nat) (l : List Insn) : Init0 (copyWords copies) :=
  l.foldl (init0Insn copies)
    ⟨n, bitsetInit copies.length, bitsetOneAll (bitsetInit copies.length)⟩

theorem init0Insns_concat (n : Nat) (l : List Insn) (i : Insn) :
    init0Insns copies n (l ++ [i]) = init0Insn copies (init0Insns copies n l) i := by
  rw [init0Insns, List.foldl_concat]; rfl

theorem init0Insn_next (x : Init0 w) (i : Insn) :
    (init0Insn copies x i).next = x.next - copyCount [i] := by
  unfold init0Insn
  cases hc : insnCopy i <;> simp [copyCount, hc]

theorem init0Insns_next (n : Nat) (l : List Insn) :
    (init0Insns copies n l).next = n - copyCount l := by
  induction l using List.reverseRecOn with
  | nil => rfl
  | append_singleton l i ih =>
    rw [init0Insns_concat, init0Insn_next, ih, copyCount, copyCount, copyCount, List.countP_append,
      Nat.sub_sub]

/-- PRSV: the copies no insn kills. -/
theorem mem_prsv {n k : Nat} {l : List Insn} : k ∈ bits (init0Insns copies n l).prsv ↔
    k / 32 < copyWords copies ∧ ∀ i ∈ l, ¬ Kills copies i k := by
  induction l using List.reverseRecOn with
  | nil => simp [init0Insns, mem_bits_oneAll]
  | append_singleton l i ih =>
    have hstep : (init0Insn copies (init0Insns copies n l) i).prsv =
        (insnDefsRegs i).foldl (copiesInvalidate copies) (init0Insns copies n l).prsv := by
      unfold init0Insn
      cases insnCopy i <;> rfl
    rw [init0Insns_concat, hstep, mem_foldl_copiesInvalidate, ih, and_assoc, List.forall_mem_append,
      List.forall_mem_singleton]

/-- GEN: the copies no later insn kills, by the numbers the counter gives them. -/
theorem mem_gen {n k : Nat} {l : List Insn} : k ∈ bits (init0Insns copies n l).gen ↔
    k / 32 < copyWords copies ∧ ∃ l₁ i l₂, l = l₁ ++ i :: l₂ ∧ (insnCopy i).isSome = true ∧
      k = n - copyCount l₁ - 1 ∧ ∀ j ∈ l₂, ¬ Kills copies j k := by
  induction l using List.reverseRecOn with
  | nil => simp [init0Insns, mem_bits_init]
  | append_singleton l i ih =>
    rw [init0Insns_concat]
    have hold : k ∈ bits ((insnDefsRegs i).foldl (copiesInvalidate copies)
        (init0Insns copies n l).gen) ↔ k / 32 < copyWords copies ∧
          ∃ l₁ j l₂, l ++ [i] = l₁ ++ j :: (l₂ ++ [i]) ∧ (insnCopy j).isSome = true ∧
            k = n - copyCount l₁ - 1 ∧ ∀ j ∈ l₂ ++ [i], ¬ Kills copies j k := by
      rw [mem_foldl_copiesInvalidate, ih, and_assoc]
      refine and_congr_right fun _ => ⟨?_, ?_⟩
      · rintro ⟨⟨l₁, j, l₂, rfl, hj, hk, hno⟩, hi⟩
        refine ⟨l₁, j, l₂, by simp, hj, hk, fun x hx => ?_⟩
        rcases List.mem_append.mp hx with hx | hx
        · exact hno x hx
        · rw [List.mem_singleton.mp hx]; exact hi
      · rintro ⟨l₁, j, l₂, hl, hj, hk, hno⟩
        refine ⟨⟨l₁, j, l₂, ?_, hj, hk, fun x hx => hno x (List.mem_append_left _ hx)⟩,
          hno i (by simp)⟩
        have := congrArg List.dropLast hl
        rwa [List.dropLast_concat, ← List.cons_append, ← List.append_assoc,
          List.dropLast_concat] at this
    have hnew : k ∈ bits (init0Insn copies (init0Insns copies n l) i).gen ↔
        k ∈ bits ((insnDefsRegs i).foldl (copiesInvalidate copies) (init0Insns copies n l).gen) ∨
          ((insnCopy i).isSome = true ∧ k = n - copyCount l - 1 ∧ k / 32 < copyWords copies) := by
      unfold init0Insn
      cases insnCopy i with
      | none => simp
      | some c => simp only [Option.isSome_some, true_and]; rw [mem_bits_set, init0Insns_next]
    rw [hnew, hold]
    constructor
    · rintro (⟨hw, l₁, j, l₂, hl, hj, hk, hno⟩ | ⟨hi, hk, hw⟩)
      · exact ⟨hw, l₁, j, l₂ ++ [i], hl, hj, hk, hno⟩
      · exact ⟨hw, l, i, [], rfl, hi, hk, by simp⟩
    · rintro ⟨hw, l₁, j, l₂, hl, hj, hk, hno⟩
      -- the copy is the last insn, or the last insn comes after it
      rcases List.eq_nil_or_concat l₂ with rfl | ⟨l₂', x, rfl⟩
      · obtain ⟨rfl, hx⟩ := List.append_inj' hl rfl
        obtain ⟨rfl, _⟩ := List.cons.inj hx
        exact Or.inr ⟨hj, hk, hw⟩
      · have hlast : i = x := by
          have hends := congrArg List.getLast? hl
          rw [List.concat_eq_append, List.getLast?_concat, ← List.cons_append,
            ← List.append_assoc, List.getLast?_concat] at hends
          exact Option.some.inj hends
        subst hlast
        exact Or.inl ⟨hw, l₁, j, l₂', by simpa using hl, hj, hk, by simpa using hno⟩

end

/-! ### All blocks -/

section
variable {f : Func} {any : BlockId → BlockCopy (copyWords (copiesOf f))}

/-- The counter after some blocks. -/
theorem init0_next : ∀ (bs : List BlockId)
    (x : Option Nat × (BlockId → BlockCopy (copyWords (copiesOf f)))),
    (bs.foldl (init0 f (copiesOf f)) x).1.getD (copiesOf f).length =
      x.1.getD (copiesOf f).length - blocksCount f bs
  | [], _ => rfl
  | b :: bs, x => by
      have hb : (init0 f (copiesOf f) x b).1.getD (copiesOf f).length =
          x.1.getD (copiesOf f).length - copyCount (f.block b).insns := init0Insns_next _ _
      rw [List.foldl_cons, init0_next bs, hb, blocksCount_cons, Nat.sub_sub]

/-- Other blocks leave the sets of a block alone. -/
theorem init0_ne {b : BlockId} : ∀ {bs : List BlockId}
    {x : Option Nat × (BlockId → BlockCopy (copyWords (copiesOf f)))}, b ∉ bs →
    (bs.foldl (init0 f (copiesOf f)) x).2 b = x.2 b
  | [], _, _ => rfl
  | c :: bs, x, h => by
      obtain ⟨hc, hbs⟩ := not_or.mp (mt List.mem_cons.mpr h)
      rw [List.foldl_cons, init0_ne hbs]
      exact Function.update_of_ne hc ..

/-- The sets of a block after `init0`. -/
theorem copyInit_block (hnd : f.blocks.Nodup) {b : BlockId} {B₁ B₂ : List BlockId}
    (hb : f.blocks = B₁ ++ b :: B₂) : copyInit f any b =
      ⟨if b ≠ f.entry then bitsetOneAll (bitsetInit (copiesOf f).length)
          else bitsetInit (copiesOf f).length, bitsetInit (copiesOf f).length,
        (init0Insns (copiesOf f) ((copiesOf f).length - blocksCount f B₁) (f.block b).insns).gen,
        (init0Insns (copiesOf f) ((copiesOf f).length - blocksCount f B₁)
          (f.block b).insns).prsv⟩ := by
  have hnot : b ∉ B₂ := by
    rw [hb, List.nodup_append] at hnd
    exact (List.nodup_cons.mp hnd.2.1).1
  have hnext := init0_next (f := f) B₁ (none, any)
  rw [copyInit, hb, List.foldl_append, List.foldl_cons, init0_ne hnot]
  simp only [init0, Function.update_self]
  rw [hnext]
  rfl

/-- PRSV of a block, exactly. -/
theorem mem_prsv_copyInit (hnd : f.blocks.Nodup) {b : BlockId} (hb : b ∈ f.blocks) {k : Nat} :
    k ∈ bits (copyInit f any b).prsv ↔ k / 32 < copyWords (copiesOf f) ∧
      ∀ i ∈ (f.block b).insns, ¬ Kills (copiesOf f) i k := by
  obtain ⟨B₁, B₂, heq⟩ := List.append_of_mem hb
  rw [copyInit_block hnd heq, mem_prsv]

theorem spares_of_not_kills {copies : List CopyInsn} {c : CopyInsn} {k : Nat} {i : Insn}
    (hc : copies[k]? = some c) : ¬ Kills copies i k ↔ Spares c i := by
  refine ⟨fun h => not_not.mp fun hno => h ⟨c, hc, hno⟩, ?_⟩
  rintro h ⟨c', hc', hno⟩
  rw [hc] at hc'
  exact hno (Option.some.inj hc' ▸ h)

/-- The words of a bitset have room for every entry. -/
theorem number_lt {copies : List CopyInsn} {c : CopyInsn} {k : Nat}
    (hc : copies[k]? = some c) : k / 32 < copyWords copies := by
  have hk := (List.getElem?_eq_some_iff.mp hc).1
  rw [copyWords, bitsetWords]
  omega

/-- GEN of a block, exactly: the entries of the copies that leave the block intact. -/
theorem mem_gen_copyInit (hnd : f.blocks.Nodup) {b : BlockId} (hb : b ∈ f.blocks) {k : Nat} :
    k ∈ bits (copyInit f any b).gen ↔ ∃ c, (copiesOf f)[k]? = some c ∧ Exposed f c b := by
  obtain ⟨B₁, B₂, heq⟩ := List.append_of_mem hb
  rw [copyInit_block hnd heq, mem_gen]
  constructor
  · rintro ⟨_, l₁, i, l₂, hl, hi, hk, hno⟩
    obtain ⟨d, hd⟩ := Option.isSome_iff_exists.mp hi
    have hnum := copiesOf_number heq hl hd
    rw [← hk] at hnum
    exact ⟨_, hnum, rfl, l₁, i, l₂, hl, rfl, hd,
      fun j hj => (spares_of_not_kills hnum).mp (hno j hj)⟩
  · rintro ⟨c, hc, hcb, l₁, i, l₂, hl, hlen, hi, hno⟩
    have hnum := copiesOf_number heq hl hi
    have hentry : (⟨c.dst, c.src, b, l₁.length⟩ : CopyInsn) = c := by
      obtain ⟨dst, src, b', index⟩ := c
      simp only [CopyInsn.mk.injEq, true_and]
      exact ⟨hcb.symm, hlen⟩
    -- an entry stands in one place only
    have hk : k = (copiesOf f).length - blocksCount f B₁ - copyCount l₁ - 1 := by
      rw [hentry] at hnum
      obtain ⟨hlt, hck⟩ := List.getElem?_eq_some_iff.mp hc
      obtain ⟨hlt', hck'⟩ := List.getElem?_eq_some_iff.mp hnum
      exact (nodup_copiesOf hnd).getElem_inj_iff.mp (hck.trans hck'.symm)
    exact ⟨number_lt hc, l₁, i, l₂, hl, by rw [hi]; rfl, hk,
      fun j hj => (spares_of_not_kills hc).mpr (hno j hj)⟩

end

/-! ### The iteration -/

section
variable {w : Nat} {f : Func} {data : BlockId → BlockCopy w} {b : BlockId} {k : Nat}

theorem mem_copyIn (h : (f.block b).predecessors ≠ []) :
    k ∈ bits (copyIn f b data) ↔ ∀ p ∈ (f.block b).predecessors, k ∈ bits (data p).out := by
  cases hp : (f.block b).predecessors with
  | nil => exact absurd hp h
  | cons pred preds =>
    have hfold : ∀ (l : List BlockId) (s : Bitset w),
        k ∈ bits (l.foldl (fun s p => bitsetAnd s (data p).out) s) ↔
          k ∈ bits s ∧ ∀ p ∈ l, k ∈ bits (data p).out := by
      intro l
      induction l with
      | nil => simp
      | cons p l ih =>
        intro s
        rw [List.foldl_cons, ih, mem_bits_and, List.forall_mem_cons, and_assoc]
    rw [copyIn, hp]
    simp only []
    rw [hfold, List.forall_mem_cons]

theorem copyIn_nil (h : (f.block b).predecessors = []) : copyIn f b data = (data b).inn := by
  rw [copyIn, h]

theorem mem_copyOut : k ∈ bits (copyOut f b data) ↔
    (k ∈ bits (copyIn f b data) ∧ k ∈ bits (data b).prsv) ∨ k ∈ bits (data b).gen := by
  rw [copyOut, mem_bits_or, mem_bits_and]

/-- What a step leaves in the sets of each block. -/
theorem copy0_block (c : BlockId) : (copy0 f b data).1 c =
    if c = b then
      { data b with
        inn := copyIn f b data
        out := if (copy0 f b data).2 then copyOut f b data else (data b).out }
    else data c := by
  unfold copy0
  by_cases hc : c = b
  · subst hc; split <;> simp
  · split <;> simp [hc]

theorem copy0_false (h : (copy0 f b data).2 = false) : copyOut f b data = (data b).out := by
  unfold copy0 at h
  split at h
  · rename_i hs; exact of_decide_eq_true hs
  · exact absurd h (by simp)

theorem copy0_true (h : (copy0 f b data).2 = true) : copyOut f b data ≠ (data b).out := by
  unfold copy0 at h
  split at h
  · exact absurd h (by simp)
  · rename_i hs; exact fun he => hs (decide_eq_true he)

/-- GEN, PRSV and the IN sets that no predecessor determines stay as `init0` made them. -/
structure Kept (f : Func) (start data : BlockId → BlockCopy w) : Prop where
  gen : ∀ b, (data b).gen = (start b).gen
  prsv : ∀ b, (data b).prsv = (start b).prsv
  inn : ∀ b, (f.block b).predecessors = [] → (data b).inn = (start b).inn

theorem Kept.step {start : BlockId → BlockCopy w} (h : Kept f start data) :
    Kept f start (copy0 f b data).1 := by
  refine ⟨fun c => ?_, fun c => ?_, fun c hp => ?_⟩
  · rw [copy0_block]; split
    · rename_i hc; subst hc; exact h.gen c
    · exact h.gen c
  · rw [copy0_block]; split
    · rename_i hc; subst hc; exact h.prsv c
    · exact h.prsv c
  · rw [copy0_block]; split
    · rename_i hc; subst hc; exact (copyIn_nil hp).trans (h.inn c hp)
    · exact h.inn c hp

/-- The equations of the data-flow problem hold at a block. -/
def Solved (f : Func) (b : BlockId) (data : BlockId → BlockCopy w) : Prop :=
  (data b).inn = copyIn f b data ∧ (data b).out = copyOut f b data

/-- A step without change leaves every OUT set alone. -/
theorem copy0_out (h : (copy0 f b data).2 = false) (c : BlockId) :
    ((copy0 f b data).1 c).out = (data c).out := by
  rw [copy0_block, h]
  split
  · rename_i hc; subst hc; rfl
  · rfl

theorem copyIn_congr {data' : BlockId → BlockCopy w} (hout : ∀ c, (data' c).out = (data c).out)
    (hin : (f.block b).predecessors = [] → (data' b).inn = (data b).inn) :
    copyIn f b data' = copyIn f b data := by
  unfold copyIn
  split
  · rename_i hp; exact hin hp
  · simp only [hout]

theorem copyIn_step (h : (copy0 f b data).2 = false) (c : BlockId) :
    copyIn f c (copy0 f b data).1 = copyIn f c data := by
  refine copyIn_congr (copy0_out h) fun hp => ?_
  rw [copy0_block]
  split
  · rename_i hc; subst hc; exact copyIn_nil hp
  · rfl

theorem copyOut_step (h : (copy0 f b data).2 = false) (c : BlockId) :
    copyOut f c (copy0 f b data).1 = copyOut f c data := by
  rw [copyOut, copyOut, copyIn_step h, copy0_block]
  split
  · rename_i hc; subst hc; rfl
  · rfl

/-- When the iteration ends, the equations hold at every block. -/
theorem solved_of_iterate {n : Nat} {start st : BlockId → BlockCopy w}
    (h : iterate (copy0 f) f.blocks n start = some st) : ∀ b ∈ f.blocks, Solved f b st := by
  refine iterate_settles (Q := Solved f) (fun b data hb => ?_) (fun b c data hc hs => ?_) h
  · rw [Solved, copyIn_step hb, copyOut_step hb, copy0_out hb, copy0_false hb, copy0_block,
      if_pos rfl]
    exact ⟨rfl, rfl⟩
  · rw [Solved, copyIn_step hc, copyOut_step hc, copy0_out hc, copy0_block]
    refine ⟨?_, hs.2⟩
    split
    · rename_i he; subst he; rfl
    · exact hs.1

/-! ### Termination -/

/-- The invariant of the iteration: a step can only add to an OUT set. -/
def Rising (f : Func) (data : BlockId → BlockCopy w) : Prop :=
  ∀ b ∈ f.blocks, bits (data b).out ⊆ bits (copyOut f b data)

theorem Rising.out_subset (h : Rising f data) (hb : b ∈ f.blocks) (c : BlockId) :
    bits (data c).out ⊆ bits ((copy0 f b data).1 c).out := by
  rw [copy0_block]
  split
  · rename_i hc
    subst hc
    cases (copy0 f c data).2 with
    | true => exact h c hb
    | false => exact Finset.Subset.refl _
  · exact Finset.Subset.refl _

theorem Rising.step (h : Rising f data) (hb : b ∈ f.blocks) : Rising f (copy0 f b data).1 := by
  -- larger OUT sets make larger OUT sets
  have hmono : ∀ c, bits (copyOut f c data) ⊆ bits (copyOut f c (copy0 f b data).1) := by
    intro c k hk
    have hkept : Kept f data (copy0 f b data).1 :=
      Kept.step ⟨fun _ => rfl, fun _ => rfl, fun _ _ => rfl⟩
    rw [mem_copyOut] at hk ⊢
    rw [hkept.gen, hkept.prsv]
    refine hk.imp_left fun ⟨hin, hp⟩ => ⟨?_, hp⟩
    by_cases hpred : (f.block c).predecessors = []
    · rw [copyIn_nil hpred] at hin ⊢
      rwa [hkept.inn c hpred]
    · rw [mem_copyIn hpred] at hin ⊢
      exact fun p hmem => h.out_subset hb p (hin p hmem)
  intro c hcb k hk
  rw [copy0_block] at hk
  split at hk
  · rename_i hc
    subst hc
    cases hch : (copy0 f c data).2 with
    | true => rw [hch] at hk; exact hmono c hk
    | false => rw [hch] at hk; exact hmono c (h c hcb hk)
  · exact hmono c (h c hcb hk)

/-- How many bits the OUT sets of all blocks have. -/
def outSize (f : Func) (data : BlockId → BlockCopy w) : Nat :=
  ∑ b ∈ f.blocks.toFinset, (bits (data b).out).card

theorem outSize_le (f : Func) (data : BlockId → BlockCopy w) :
    outSize f data ≤ f.blocks.length * (32 * w) := by
  calc outSize f data ≤ f.blocks.toFinset.card • (32 * w) :=
        Finset.sum_le_card_nsmul _ _ _ fun b _ => (Finset.card_filter_le _ _).trans (by simp)
    _ ≤ f.blocks.length * (32 * w) := Nat.mul_le_mul_right _ (List.toFinset_card_le _)

theorem Rising.outSize_lt (h : Rising f data) (hb : b ∈ f.blocks)
    (hc : (copy0 f b data).2 = true) : outSize f data < outSize f (copy0 f b data).1 := by
  refine Finset.sum_lt_sum (fun c _ => Finset.card_le_card (h.out_subset hb c))
    ⟨b, List.mem_toFinset.mpr hb, Finset.card_lt_card ?_⟩
  rw [copy0_block, if_pos rfl, hc]
  exact (h b hb).ssubset_of_ne fun he => copy0_true hc (bits_inj he.symm)

/-- The iteration ends. -/
theorem copy0_ends {n : Nat} (h : Rising f data) (hn : f.blocks.length * (32 * w) < n) :
    ∃ st, iterate (copy0 f) f.blocks n data = some st := by
  refine iterate_ends (P := Rising f) (μ := outSize f) (fun b hb st h => h.step hb)
    (fun b hb st h => Finset.sum_le_sum fun c _ => Finset.card_le_card (h.out_subset hb c))
    (fun b hb st h hc => h.outSize_lt hb hc) (fun st _ => outSize_le f st) h
    (Nat.lt_add_left _ hn)

end

/-! ### Soundness -/

theorem Available.append {c : CopyInsn} {l l' : List Site} (h : Available c l)
    (hl : ∀ x ∈ l', Spares c x.insn) : Available c (l ++ l') := by
  obtain ⟨l₁, i, l₂, rfl, hi, hno⟩ := h
  refine ⟨l₁, i, l₂ ++ l', by simp, hi, fun x hx => ?_⟩
  rcases List.mem_append.mp hx with hx | hx
  · exact hno x hx
  · exact hl x hx

/-- A copy that leaves a block intact is available after it. -/
theorem Exposed.available {f : Func} {c : CopyInsn} {b : BlockId} (h : Exposed f c b)
    (l : List Site) : Available c (l ++ sites f b) := by
  obtain ⟨rfl, l₁, i, l₂, hl, hlen, hi, hno⟩ := h
  refine ⟨l ++ sitesFrom c.b 0 l₁, i, sitesFrom c.b (l₁.length + 1) l₂, ?_, hi, fun x hx => ?_⟩
  · rw [sites_eq, hl, sitesFrom_append, sitesFrom_cons, Nat.zero_add, ← hlen, List.append_assoc]
  · refine hno _ ?_
    rw [← map_insn_sitesFrom c.b (l₁.length + 1) l₂]
    exact List.mem_map_of_mem hx

/-- The insns of a site stand where it says. -/
theorem mem_sites {f : Func} {b : BlockId} {x : Site} (h : x ∈ sites f b) :
    (f.block x.b).insns[x.index]? = some x.insn := by
  obtain ⟨⟨i, n⟩, hmem, rfl⟩ := List.mem_map.mp h
  exact List.mem_zipIdx_iff_getElem?.mp hmem

/-- Insns that spare a register leave it alone. -/
theorem execs_regs_of_spares (env : Env) {c : CopyInsn} : ∀ {l : List Site} (s : State),
    (∀ x ∈ l, Spares c x.insn) →
      (execs env (l.map Site.insn) s).regs c.dst = s.regs c.dst ∧
        (execs env (l.map Site.insn) s).regs c.src = s.regs c.src
  | [], _, _ => ⟨rfl, rfl⟩
  | x :: l, s, h => by
      obtain ⟨hdst, hsrc⟩ := h x (List.mem_cons_self ..)
      obtain ⟨ih₁, ih₂⟩ := execs_regs_of_spares env (exec env x.insn s)
        fun y hy => h y (List.mem_cons_of_mem _ hy)
      rw [List.map_cons, execs_cons, ih₁, ih₂, exec_regs_of_notMem env hdst,
        exec_regs_of_notMem env hsrc]
      exact ⟨rfl, rfl⟩

/-- A copy writes what its source operand reads, at the type of the copy. -/
theorem exec_copy {env : Env} {i : Insn} {d r : PseudoReg} (h : insnCopy i = some (d, r))
    (s : State) : (exec env i s).regs d = fit (tsOpt i.dst) (readOpt env s.regs i.src1) := by
  obtain ⟨op, dst, src1, src2, vol, iasm⟩ := i
  unfold insnCopy at h
  split at h
  · rename_i hop hdst hsrc
    obtain ⟨rfl, rfl⟩ := Prod.mk.inj (Option.some.inj h)
    cases hop; cases hdst; cases hsrc
    exact Function.update_self ..
  · exact absurd h (by simp)

/-- The source operand of a copy reads its register only. -/
theorem readOpt_copy {env : Env} {i : Insn} {d r : PseudoReg} (h : insnCopy i = some (d, r))
    {regs regs' : PseudoReg → Word} (hr : regs r = regs' r) :
    readOpt env regs i.src1 = readOpt env regs' i.src1 := by
  obtain ⟨op, dst, src1, src2, vol, iasm⟩ := i
  unfold insnCopy at h
  split at h
  · rename_i hop hdst hsrc
    obtain ⟨rfl, rfl⟩ := Prod.mk.inj (Option.some.inj h)
    cases hop; cases hdst; cases hsrc
    exact congrArg (fit _) hr
  · exact absurd h (by simp)

/-- After a trail on which a copy is available, its registers hold the same value. -/
theorem Available.holds {f : Func} {env : Env} {c : CopyInsn} {l : List Site}
    (h : Available c l) (hl : ∀ x ∈ l, (f.block x.b).insns[x.index]? = some x.insn) (s : State) :
    Holds f env c (execs env (l.map Site.insn) s) := by
  obtain ⟨l₁, i, l₂, rfl, hi, hno⟩ := h
  refine ⟨i, hl ⟨c.b, c.index, i⟩ (by simp), hi, fun hne => ?_⟩
  rw [List.map_append, List.map_cons, execs_append, execs_cons]
  obtain ⟨hdst, hsrc⟩ := execs_regs_of_spares env (exec env i (execs env (l₁.map Site.insn) s)) hno
  have hkeep : (exec env i (execs env (l₁.map Site.insn) s)).regs c.src =
      (execs env (l₁.map Site.insn) s).regs c.src :=
    exec_regs_of_notMem env (by rw [insnDefsRegs_of_copy hi]; simpa using hne.symm)
  rw [hdst, exec_copy hi, readOpt_copy hi (hsrc.trans hkeep)]

/-- The iteration starts from empty OUT sets. -/
theorem rising_copyInit {f : Func} (hnd : f.blocks.Nodup)
    {any : BlockId → BlockCopy (copyWords (copiesOf f))} : Rising f (copyInit f any) := by
  intro b hb k hk
  obtain ⟨B₁, B₂, heq⟩ := List.append_of_mem hb
  rw [copyInit_block hnd heq] at hk
  exact absurd hk mem_bits_init

/-- The induction over paths. -/
theorem available_of_path {f : Func} (hf : f.Listed) (hnd : f.blocks.Nodup)
    (hentry : ∀ b, ¬ f.Edge b f.entry) {any st : BlockId → BlockCopy (copyWords (copiesOf f))}
    {n : Nat} (h : copyGlobal f any n = some st) {k : Nat} {c : CopyInsn}
    (hc : (copiesOf f)[k]? = some c) {path : List BlockId} {b : BlockId}
    (hpath : Path f.Edge f.entry path b) (hk : k ∈ bits (st b).inn) :
    Available c (trailOf f path) := by
  have hkept : Kept f (copyInit f any) st := iterate_inv (fun b _ st h => h.step) h
    ⟨fun _ => rfl, fun _ => rfl, fun _ _ => rfl⟩
  have hsolved := solved_of_iterate h
  induction hpath with
  | root =>
    -- the IN set of the entry block is still empty
    have hpred : (f.block f.entry).predecessors = [] :=
      List.eq_nil_iff_forall_not_mem.mpr fun p hp => hentry p (Func.mem_preds.mp hp)
    obtain ⟨B₁, B₂, heq⟩ := List.append_of_mem hf.1
    rw [hkept.inn _ hpred, copyInit_block hnd heq] at hk
    simp only [ne_eq, not_true_eq_false, if_false] at hk
    exact absurd hk mem_bits_init
  | @step l p b hl hedge ih =>
    obtain ⟨hp, hb⟩ := hf.2 p b hedge
    have hmem : p ∈ (f.block b).predecessors := Func.mem_preds.mpr hedge
    have hout : k ∈ bits (st p).out := by
      rw [(hsolved b hb).1, mem_copyIn (List.ne_nil_of_mem hmem)] at hk
      exact hk p hmem
    rw [trailOf, List.dropLast_concat, ← hl.dropLast_concat, List.flatMap_append,
      List.flatMap_singleton]
    rw [(hsolved p hp).2, mem_copyOut, ← (hsolved p hp).1, hkept.prsv, hkept.gen,
      mem_prsv_copyInit hnd hp, mem_gen_copyInit hnd hp] at hout
    rcases hout with ⟨hin, _, hno⟩ | ⟨c', hc', hex⟩
    · refine (ih hin).append fun x hx => (spares_of_not_kills hc).mp (hno x.insn ?_)
      rw [← map_insn_sitesFrom p 0 (f.block p).insns]
      exact List.mem_map_of_mem hx
    · rw [hc] at hc'
      exact (Option.some.inj hc' ▸ hex).available _

/-- The sets `rewrite0` starts from: every entry of its map is a copy whose bit is set. -/
theorem mem_rewriteMap {w : Nat} {copies : List CopyInsn} {inn : Bitset w}
    {e : PseudoReg × PseudoReg} (he : e ∈ rewriteMap copies inn) :
    ∃ k c, copies[k]? = some c ∧ bitsetGet inn k = true ∧ e = (c.dst, c.src) := by
  have hfold : ∀ (l : List (CopyInsn × Nat)) (m : Regmaps),
      e ∈ l.foldl (fun m c => if bitsetGet inn c.2 then regmapsUpdate m c.1.dst c.1.src else m) m →
      e ∈ m ∨ ∃ x ∈ l, bitsetGet inn x.2 = true ∧ e = (x.1.dst, x.1.src) := by
    intro l
    induction l with
    | nil => exact fun m h => Or.inl h
    | cons x l ih =>
      intro m h
      rcases ih _ h with hm | ⟨y, hy, hget, heq⟩
      · beta_reduce at hm
        by_cases hget : bitsetGet inn x.2 = true
        · rw [if_pos hget, regmapsUpdate, Assoc.mem_update] at hm
          rcases hm with heq | ⟨_, hm⟩
          · exact Or.inr ⟨x, List.mem_cons_self .., hget, heq⟩
          · exact Or.inl hm
        · rw [if_neg hget] at hm; exact Or.inl hm
      · exact Or.inr ⟨y, List.mem_cons_of_mem _ hy, hget, heq⟩
  rcases hfold _ _ he with hm | ⟨x, hx, hget, heq⟩
  · exact absurd hm (Assoc.notMem_empty e)
  · exact ⟨x.2, x.1, List.mem_zipIdx_iff_getElem?.mp hx, hget, heq⟩

/-- Bit `k` stands for entry `k` of the copies list: in GEN, where `init0` counts down; in PRSV,
    where `copies_invalidate` counts up; and in the map of `rewrite0`. -/
def NumbersAgree (f : Func) (any : BlockId → BlockCopy (copyWords (copiesOf f))) : Prop :=
  (∀ b ∈ f.blocks, ∀ k, bitsetGet (copyInit f any b).gen k = true ↔
    ∃ c, (copiesOf f)[k]? = some c ∧ Exposed f c b) ∧
  (∀ b ∈ f.blocks, ∀ k c, (copiesOf f)[k]? = some c →
    (bitsetGet (copyInit f any b).prsv k = true ↔ ∀ i ∈ (f.block b).insns, Spares c i)) ∧
  ∀ (inn : Bitset (copyWords (copiesOf f))) (e : PseudoReg × PseudoReg),
    e ∈ rewriteMap (copiesOf f) inn → ∃ k c, (copiesOf f)[k]? = some c ∧
      bitsetGet inn k = true ∧ e = (c.dst, c.src)

/-- A copy whose bit is set in IN of a block is available on every path from the entry block to the
    block, and its registers hold the same value there. -/
def InSound (f : Func) (data : BlockId → BlockCopy (copyWords (copiesOf f))) : Prop :=
  ∀ b ∈ f.blocks, ∀ k c, (copiesOf f)[k]? = some c → bitsetGet (data b).inn k = true →
    ∀ path, Path f.Edge f.entry path b → Available c (trailOf f path) ∧
      ∀ env s, Holds f env c (execs env ((trailOf f path).map Site.insn) s)

/-- The insns of a trail stand where their sites say. -/
theorem mem_trailOf {f : Func} {path : List BlockId} {x : Site} (h : x ∈ trailOf f path) :
    (f.block x.b).insns[x.index]? = some x.insn := by
  obtain ⟨b, _, hb⟩ := List.mem_flatMap.mp h
  exact mem_sites hb

/-- Global copy availability is sound, if no block leads to the entry block: the bit numbers agree
    with the copies list, the iteration ends, and a bit of IN tells the truth. -/
theorem copyGlobal_sound (f : Func) (any : BlockId → BlockCopy (copyWords (copiesOf f)))
    (hf : f.Listed) (hnd : f.blocks.Nodup) (hentry : ∀ b, ¬ f.Edge b f.entry) :
    NumbersAgree f any ∧
      (∀ n, f.blocks.length * (32 * copyWords (copiesOf f)) < n →
        ∃ data, copyGlobal f any n = some data) ∧
      ∀ n data, copyGlobal f any n = some data → InSound f data := by
  refine ⟨⟨fun b hb k => ?_, fun b hb k c hc => ?_, fun inn e he => mem_rewriteMap he⟩,
    fun n hn => ?_, fun n data h b hb k c hc hk path hpath => ?_⟩
  · rw [← mem_bits, mem_gen_copyInit hnd hb]
  · rw [← mem_bits, mem_prsv_copyInit hnd hb]
    exact ⟨fun h i hi => (spares_of_not_kills hc).mp (h.2 i hi),
      fun h => ⟨number_lt hc, fun i hi => (spares_of_not_kills hc).mpr (h i hi)⟩⟩
  · exact copy0_ends (rising_copyInit hnd) hn
  · have hav := available_of_path hf hnd hentry h hc hpath (mem_bits.mpr hk)
    exact ⟨hav, fun env s => hav.holds (fun x hx => mem_trailOf hx) s⟩

/-- The loop of `whileFunc`, with a copy in front of it. -/
def copyFunc : Func :=
  whileFunc.setInsns 0 [insnNew .move (operandReg .int 1) (operandReg .int 2)]

theorem copyGlobal_sound_while : NumbersAgree copyFunc (fun _ => ⟨0, 0, 0, 0⟩) ∧
    (∀ n, copyFunc.blocks.length * (32 * copyWords (copiesOf copyFunc)) < n →
      ∃ data, copyGlobal copyFunc (fun _ => ⟨0, 0, 0, 0⟩) n = some data) ∧
    ∀ n data, copyGlobal copyFunc (fun _ => ⟨0, 0, 0, 0⟩) n = some data → InSound copyFunc data :=
  copyGlobal_sound copyFunc _ (listed_setInsns (listed_edgesFunc (by decide) (by decide)))
    (by decide) fun b h => not_edge_entry (by decide) b (edge_setInsns.mp h)

/-- Two blocks that lead to each other, the first being the entry, and a copy in the other. -/
def copyBackFunc : Func :=
  backFunc.setInsns 1 [insnNew .move (operandReg .int 1) (operandReg .int 2)]

/-- Where a block leads to the entry block, its copies are taken to be available when the function
    is entered. -/
theorem not_copyGlobal_sound : ¬ ∀ (f : Func)
    (any : BlockId → BlockCopy (copyWords (copiesOf f))), f.Listed → f.blocks.Nodup →
      ∀ n data, copyGlobal f any n = some data → InSound f data := by
  intro hall
  have hedge := edge_edgesFunc 3 [(0, .always, 1), (1, .nz, 0), (1, .z, 2)]
  have hf : copyBackFunc.Listed := listed_setInsns (listed_edgesFunc (by decide) (by decide))
  have hnd : copyBackFunc.blocks.Nodup := by decide
  have hb : (1 : BlockId) ∈ copyBackFunc.blocks := by decide
  have hrising : Rising copyBackFunc (copyInit copyBackFunc fun _ => ⟨0, 0, 0, 0⟩) :=
    rising_copyInit hnd
  obtain ⟨data, hdata⟩ := copy0_ends (n := 1000) hrising (by decide)
  have hsolved := solved_of_iterate hdata
  have hkept : Kept copyBackFunc (copyInit copyBackFunc fun _ => ⟨0, 0, 0, 0⟩) data :=
    iterate_inv (fun b _ st h => h.step) hdata ⟨fun _ => rfl, fun _ => rfl, fun _ _ => rfl⟩
  -- the copy is in OUT of block 1, which is all that leads to the entry block
  have hout : 0 ∈ bits (data 1).out := by
    rw [(hsolved 1 hb).2, mem_copyOut, hkept.gen, mem_gen_copyInit hnd hb]
    exact Or.inr ⟨⟨1, 2, 1, 0⟩, by decide, rfl, [], _, [], rfl, rfl, rfl, by simp⟩
  have hin : 0 ∈ bits (data 0).inn := by
    have hpred : (copyBackFunc.block 0).predecessors = [1] := by decide
    rw [(hsolved 0 hf.1).1, mem_copyIn (by rw [hpred]; simp), hpred]
    simpa using hout
  obtain ⟨⟨l₁, i, l₂, hl, _⟩, _⟩ := hall copyBackFunc _ hf hnd _ _ hdata 0 hf.1 0 ⟨1, 2, 1, 0⟩
    (by decide) (mem_bits.mp hin) [0] .root
  exact absurd hl (by simp [trailOf])

end Ncc.Copy
