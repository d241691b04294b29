import Ncc.Preheader
import Ncc.Lib.Worklist
import Ncc.Lib.NaturalLoop

/-! Natural loops (loop.c).

    For every back edge, `loop_blocks` walks backwards from the tail with a worklist, and adds what it
    finds to the loop of the head; loops that share a head are taken to be one. With the dominators
    exact, the blocks of a head are its natural loop (`loopAnalyze_natural`). -/

namespace Ncc

/-- `struct loop`. -/
structure Loop where
  blks : Finset BlockId := ∅
  depth : Nat := 0

/-- `loop` of every block. -/
abbrev Loops := BlockId → Loop

/-- The `blks` of `loop_blocks`, the stack being empty before and after. -/
def tailBlocks (f : Func) (tail head : BlockId) (n : Nat) : Option (Finset BlockId) :=
  if head ≠ tail then
    Worklist.explore (fun b => (f.block b).predecessors) n (Worklist.see ⟨{head}, []⟩ tail)
  else some {head}

/-- `loop_blocks`: add the blocks of the loop that a back edge implies to those of the head. -/
def loopBlocks (f : Func) (tail head : BlockId) (n : Nat) (loops : Loops) : Option Loops :=
  (tailBlocks f tail head n).map fun blks =>
    Function.update loops head { loops head with blks := (loops head).blks ∪ blks }

/-- `loop0`. -/
def loop0 (loops : Loops) (b : BlockId) : Loops := Function.update loops b {}

/-- `loop1`: invoke `loop_blocks` for each back edge from a block. -/
def loop1 (f : Func) (dom : Doms) (n : Nat) (loops : Loops) (b : BlockId) : Option Loops :=
  (f.succs b).foldlM (fun loops succ =>
    if succ ∈ dom b then loopBlocks f b succ n loops else some loops) loops

/-- `loop2`: the blocks of the loop of a block are one loop deeper. -/
def loop2 (loops : Loops) (b : BlockId) : Loops := fun x =>
  if x ∈ (loops b).blks then { loops x with depth := (loops x).depth + 1 } else loops x

/-- `loop_analyze`, with fuel for the passes of `dom_analyze` and for the worklist. Unreachable blocks
    are gone afterwards. -/
def loopAnalyze (f : Func) (dom : Doms) (loops : Loops) (n : Nat) : Option (Func × Loops) := do
  let dom ← domAnalyze f dom n
  let f := unreach f
  let loops ← f.blocks.foldlM (loop1 f dom n) (f.blocks.foldl loop0 loops)
  return (f, f.blocks.foldl loop2 loops)

/-! ### What the loops gain -/

/-- The blocks `A x` are added to the loop of each `x`. -/
def Adds (loops loops' : Loops) (A : BlockId → BlockId → Prop) : Prop :=
  ∀ x, (loops' x).depth = (loops x).depth ∧ ∀ b, b ∈ (loops' x).blks ↔ b ∈ (loops x).blks ∨ A x b

/-- What the steps of a loop add is added up. -/
theorem foldlM_adds {α : Type} {step : Loops → α → Option Loops}
    {A : α → BlockId → BlockId → Prop} : ∀ {l : List α} {loops : Loops},
    (∀ a ∈ l, ∀ loops, ∃ loops', step loops a = some loops' ∧ Adds loops loops' (A a)) →
      ∃ loops', l.foldlM step loops = some loops' ∧
        Adds loops loops' fun x b => ∃ a ∈ l, A a x b
  | [], loops, _ => ⟨loops, rfl, fun x => ⟨rfl, fun b => by simp⟩⟩
  | a :: l, loops, h => by
      obtain ⟨mid, hmid, hadd⟩ := h a (List.mem_cons_self ..) loops
      obtain ⟨loops', hl, hrest⟩ := @foldlM_adds α step A l mid
        fun c hc => h c (List.mem_cons_of_mem _ hc)
      refine ⟨loops', by rw [List.foldlM_cons, hmid]; exact hl, fun x => ⟨?_, fun b => ?_⟩⟩
      · exact (hrest x).1.trans (hadd x).1
      · rw [(hrest x).2, (hadd x).2, or_assoc]
        simp only [List.mem_cons, exists_eq_or_imp]

/-- The blocks that `loop_blocks` finds for an edge from `tail` to `head`. -/
def TailBlock (f : Func) (tail head b : BlockId) : Prop :=
  b = head ∨ ReachesAvoiding f.Edge head b tail

/-- The worklist follows the edges backwards. -/
theorem around_iff {f : Func} {tail head b : BlockId} (hne : tail ≠ head) :
    Worklist.Around (fun b => (f.block b).predecessors) {head} tail b ↔
      ReachesAvoiding f.Edge head b tail := by
  rw [ReachesAvoiding, and_iff_left hne, ← Relation.reflTransGen_swap, Worklist.Around]
  have hsame : (fun b c => c ∈ (f.block b).predecessors ∧ c ∉ ({head} : Finset BlockId)) =
      Function.swap fun x y => f.Edge x y ∧ x ≠ head := by
    funext b c
    rw [Function.swap, Func.mem_preds, Finset.mem_singleton]
    rfl
  rw [hsame]

theorem tailBlocks_spec {f : Func} (hf : f.Listed) {tail : BlockId} (htail : tail ∈ f.blocks)
    (head : BlockId) {n : Nat} (hn : f.blocks.length < n) : ∃ blks, tailBlocks f tail head n = some blks ∧
      ∀ b, b ∈ blks ↔ TailBlock f tail head b := by
  unfold tailBlocks TailBlock
  split
  · rename_i hne
    have hnodes : ∀ b ∈ f.blocks.toFinset, ∀ c ∈ (f.block b).predecessors,
        c ∈ f.blocks.toFinset :=
      fun b _ c hc => List.mem_toFinset.mpr (hf.2 c b (Func.mem_preds.mp hc)).1
    have hstart : tail ∉ ({head} : Finset BlockId) := by
      rw [Finset.mem_singleton]
      exact hne.symm
    obtain ⟨blks, hblks⟩ := @Worklist.explore_start_ends _ _ _ {head} tail _ hnodes
      (List.mem_toFinset.mpr htail) n (lt_of_le_of_lt (List.toFinset_card_le _) hn)
    refine ⟨blks, hblks, fun b => ?_⟩
    rw [Worklist.mem_explore hstart hblks, Finset.mem_singleton, around_iff hne.symm]
  · rename_i heq
    obtain rfl : head = tail := not_ne_iff.mp heq
    refine ⟨{head}, rfl, fun b => ?_⟩
    rw [Finset.mem_singleton, ReachesAvoiding]
    simp

theorem adds_update (loops : Loops) (head : BlockId) (blks : Finset BlockId) :
    Adds loops (Function.update loops head { loops head with blks := (loops head).blks ∪ blks })
      fun x b => x = head ∧ b ∈ blks := by
  intro x
  by_cases hx : x = head
  · subst hx
    rw [Function.update_self]
    exact ⟨rfl, fun b => by simp [Finset.mem_union]⟩
  · rw [Function.update_of_ne hx]
    exact ⟨rfl, fun b => by simp [hx]⟩

theorem loopBlocks_spec {f : Func} (hf : f.Listed) {tail : BlockId} (htail : tail ∈ f.blocks)
    (head : BlockId) {n : Nat} (hn : f.blocks.length < n) (loops : Loops) :
    ∃ loops', loopBlocks f tail head n loops = some loops' ∧
      Adds loops loops' fun x b => x = head ∧ TailBlock f tail head b := by
  obtain ⟨blks, hblks, hmem⟩ := tailBlocks_spec hf htail head hn
  refine ⟨_, by rw [loopBlocks, hblks]; rfl, ?_⟩
  simp only [← hmem]
  exact adds_update loops head blks

theorem loop1_spec {f : Func} (hf : f.Listed) (dom : Doms) {n : Nat} (hn : f.blocks.length < n)
    {b : BlockId} (hb : b ∈ f.blocks) (loops : Loops) :
    ∃ loops', loop1 f dom n loops b = some loops' ∧ Adds loops loops' fun x c =>
      ∃ head ∈ f.succs b, head ∈ dom b ∧ x = head ∧ TailBlock f b head c := by
  refine foldlM_adds fun succ _ loops => ?_
  split
  · rename_i hdom
    obtain ⟨loops', hloops, hadd⟩ := loopBlocks_spec hf hb succ hn loops
    refine ⟨loops', hloops, fun x => ⟨(hadd x).1, fun c => ?_⟩⟩
    rw [(hadd x).2]
    simp [hdom]
  · rename_i hdom
    exact ⟨loops, rfl, fun x => ⟨rfl, fun c => by simp [hdom]⟩⟩

/-! ### The loops that are found -/

theorem foldl_loop0 {l : List BlockId} {loops : Loops} {b : BlockId} (hb : b ∈ l) :
    l.foldl loop0 loops b = {} := by
  induction l using List.reverseRecOn with
  | nil => exact absurd hb List.not_mem_nil
  | append_singleton l c ih =>
    rw [List.foldl_concat, loop0]
    by_cases hbc : b = c
    · subst hbc
      rw [Function.update_self]
    · rw [Function.update_of_ne hbc]
      exact ih ((List.mem_append.mp hb).resolve_right fun h => hbc (List.mem_singleton.mp h))

/-- `loop2` counts the loops around a block, and leaves the loops alone. -/
theorem foldl_loop2 (loops : Loops) (l : List BlockId) : ∀ x,
    (l.foldl loop2 loops x).blks = (loops x).blks ∧
      (l.foldl loop2 loops x).depth =
        (loops x).depth + l.countP fun b => decide (x ∈ (loops b).blks) := by
  induction l using List.reverseRecOn with
  | nil => exact fun x => ⟨rfl, rfl⟩
  | append_singleton l b ih =>
    intro x
    rw [List.foldl_concat, loop2, (ih b).1, List.countP_append, List.countP_singleton]
    split
    · rename_i hx
      rw [(ih x).1, (ih x).2, if_pos (decide_eq_true hx)]
      exact ⟨rfl, Nat.add_assoc ..⟩
    · rename_i hx
      rw [(ih x).1, (ih x).2, if_neg (by simpa using hx)]
      exact ⟨rfl, rfl⟩

/-- What `loop_analyze` finds, by the sets that `dom_analyze` found. The depth of a block is the number
    of the loops it is in. -/
theorem loopAnalyze_spec {f : Func} (hf : (unreach f).Listed) {dom dom' : Doms} {n : Nat}
    (hdom : domAnalyze f dom n = some dom') (hn : (unreach f).blocks.length < n) (loops : Loops) :
    ∃ loops', loopAnalyze f dom loops n = some (unreach f, loops') ∧
      ∀ x ∈ (unreach f).blocks,
        (∀ b, b ∈ (loops' x).blks ↔
          ∃ tail, (unreach f).Edge tail x ∧ x ∈ dom' tail ∧ TailBlock (unreach f) tail x b) ∧
        (loops' x).depth =
          (unreach f).blocks.countP fun head => decide (x ∈ (loops' head).blks) := by
  obtain ⟨mid, hmid, hadd⟩ := @foldlM_adds _ _ _ (unreach f).blocks
    ((unreach f).blocks.foldl loop0 loops) fun b hb => loop1_spec hf dom' hn hb
  refine ⟨(unreach f).blocks.foldl loop2 mid, ?_, fun x hx => ⟨fun b => ?_, ?_⟩⟩
  · rw [loopAnalyze, hdom]
    simp only [Option.bind_eq_bind, Option.bind_some, hmid, Option.pure_def]
  · rw [(foldl_loop2 mid _ x).1, (hadd x).2, foldl_loop0 hx]
    simp only [Finset.notMem_empty, false_or]
    constructor
    · rintro ⟨tail, _, head, hedge, hd, rfl, hb⟩
      exact ⟨tail, hedge, hd, hb⟩
    · rintro ⟨tail, hedge, hd, hb⟩
      exact ⟨tail, (hf.2 tail x hedge).1, x, hedge, hd, rfl, hb⟩
  · rw [(foldl_loop2 mid _ x).2, (hadd x).1, foldl_loop0 hx, Nat.zero_add]
    exact List.countP_congr fun head _ => by rw [(foldl_loop2 mid _ head).1]

/-- What a head and the blocks that are found for it have to be: the natural loop of the head, which
    control enters at the head only. -/
structure LoopExact (f : Func) (head : BlockId) (blks : Finset BlockId) : Prop where
  natural : ∀ b, b ∈ blks ↔ NaturalLoop f.Edge f.entry head b
  entered : ∀ p b, f.Edge p b → p ∉ blks → b ∈ blks → b = head
  dominated : ∀ b ∈ blks, Dominates f.Edge f.entry head b

theorem loopExact {f : Func} {head : BlockId} {blks : Finset BlockId}
    (h : ∀ b, b ∈ blks ↔ NaturalLoop f.Edge f.entry head b) : LoopExact f head blks := by
  refine ⟨h, fun p b hpb hp hb => ?_, fun b hb => ((h b).mp hb).dominates⟩
  by_contra hne
  exact hp ((h p).mpr (((h b).mp hb).pred hne hpb))

/-- Natural loops are exact. The analysis ends; a block has a loop if some back edge leads to it; the
    loop is its natural loop, which is entered at the head only; and when a preheader is put before
    the head, an edge into the head comes from the preheader or from a block of the loop, the blocks
    of the loop keep their successors, and the others lead to the preheader where they led to the
    head. -/
theorem loopAnalyze_natural (f : Func) (dom : Doms) (loops : Loops) (hf : f.Cfg) (n : Nat)
    (hn : f.blocks.length * f.blocks.length < n) :
    ∃ g loops', loopAnalyze f dom loops n = some (g, loops') ∧ g = unreach f ∧
      ∀ head ∈ g.blocks,
        ((loops' head).blks.Nonempty ↔ ∃ tail, BackEdge g.Edge g.entry tail head) ∧
        ((loops' head).blks.Nonempty → LoopExact g head (loops' head).blks ∧
          let (new, g') := blockPreheader g head (loops' head).blks
          Preheader g g' head new (loops' head).blks ∧
            ∀ p, g'.Edge p head → p = new ∨ p ∈ (loops' head).blks) := by
  have hg : (unreach f).Cfg := hf.unreach
  have hlen := length_unreach_le f
  have hn' : (unreach f).blocks.length * (unreach f).blocks.length < n :=
    lt_of_le_of_lt (Nat.mul_le_mul hlen hlen) hn
  obtain ⟨dom', hdom, hexact⟩ :=
    @domAnalyze_dominates f dom hg.listed (entered_unreach hf) hg.entry n hn'
  obtain ⟨loops', hloops, hblks⟩ := loopAnalyze_spec hg.listed hdom
    (lt_of_le_of_lt (Nat.le_mul_self _) hn') loops
  refine ⟨unreach f, loops', hloops, rfl, fun head hhead => ?_⟩
  -- membership in the sets of `dom_analyze` is dominance, for the tails of edges
  have hback : ∀ tail, (unreach f).Edge tail head ∧ head ∈ dom' tail ↔
      BackEdge (unreach f).Edge (unreach f).entry tail head := by
    intro tail
    refine and_congr_right fun hedge => hexact tail (hg.listed.2 _ _ hedge).1 ?_ head
    exact entered_unreach hf tail head hedge
  have hmem : ∀ b, b ∈ (loops' head).blks ↔ ∃ tail,
      BackEdge (unreach f).Edge (unreach f).entry tail head ∧
        TailBlock (unreach f) tail head b := by
    intro b
    rw [(hblks head hhead).1]
    simp only [← and_assoc, hback]
  have hnonempty : (loops' head).blks.Nonempty ↔
      ∃ tail, BackEdge (unreach f).Edge (unreach f).entry tail head := by
    constructor
    · rintro ⟨b, hb⟩
      obtain ⟨tail, htail, _⟩ := (hmem b).mp hb
      exact ⟨tail, htail⟩
    · rintro ⟨tail, htail⟩
      exact ⟨head, (hmem head).mpr ⟨tail, htail, Or.inl rfl⟩⟩
  refine ⟨hnonempty, fun hne => ⟨loopExact fun b => ?_, ?_⟩⟩
  · rw [hmem]
    constructor
    · rintro ⟨tail, htail, rfl | hb⟩
      · exact Or.inl rfl
      · exact Or.inr ⟨tail, htail, hb⟩
    · rintro (rfl | ⟨tail, htail, hb⟩)
      · obtain ⟨tail, htail⟩ := hnonempty.mp hne
        exact ⟨tail, htail, Or.inl rfl⟩
      · exact ⟨tail, htail, Or.inr hb⟩
  · have hlisted : ∀ b ∈ (loops' head).blks, b ∈ (unreach f).blocks := by
      intro b hb
      obtain ⟨tail, htail, rfl | hb⟩ := (hmem b).mp hb
      · exact hhead
      · rcases Relation.ReflTransGen.cases_head hb.1 with rfl | ⟨c, hbc, _⟩
        · exact (hg.listed.2 _ _ htail.1).1
        · exact (hg.listed.2 _ _ hbc.1).1
    have hpre := blockPreheader_spec hg hhead hlisted
    exact ⟨hpre, fun p hp => hpre.edge_head (fun h => hpre.fresh (h ▸ hhead)) hp⟩

theorem cfg_while : whileFunc.Cfg := by
  have hedge := edge_edgesFunc 4 [(0, .always, 1), (1, .nz, 2), (1, .z, 3), (2, .always, 1)]
  refine ⟨listed_edgesFunc (by decide) (by decide), fun b hb => ?_,
    fun b hb => absurd hb (not_edge_entry (by decide) b), by decide⟩
  obtain ⟨e, he, h3, _⟩ := (hedge whileFunc.exit b).mp hb
  have hno : ∀ e ∈ ([(0, .always, 1), (1, .nz, 2), (1, .z, 3), (2, .always, 1)] :
      List (BlockId × ConditionCode × BlockId)), e.1 ≠ whileFunc.exit := by decide
  exact hno e he h3

theorem loopAnalyze_natural_while : ∃ g loops',
    loopAnalyze whileFunc (fun _ => ∅) (fun _ => {}) 17 = some (g, loops') ∧ g = unreach whileFunc ∧
      ∀ head ∈ g.blocks,
        ((loops' head).blks.Nonempty ↔ ∃ tail, BackEdge g.Edge g.entry tail head) ∧
        ((loops' head).blks.Nonempty → LoopExact g head (loops' head).blks ∧
          let (new, g') := blockPreheader g head (loops' head).blks
          Preheader g g' head new (loops' head).blks ∧
            ∀ p, g'.Edge p head → p = new ∨ p ∈ (loops' head).blks) :=
  loopAnalyze_natural whileFunc (fun _ => ∅) (fun _ => {}) cfg_while 17 (by decide)

/-- Where another block leads to the entry block, the edge from the entry block to it is taken for a
    back edge, although the block does not dominate the entry block. -/
theorem not_loopAnalyze_natural : ¬ ∀ (f : Func) (dom : Doms) (loops : Loops), f.Listed → f.Reachable →
    (∀ b, ¬ f.Edge f.exit b) → (∀ b ∈ f.blocks, b ≤ f.lastLabel) →
      ∃ N, ∀ n, N ≤ n → ∃ g loops', loopAnalyze f dom loops n = some (g, loops') ∧
        ∀ head ∈ g.blocks, (loops' head).blks.Nonempty → LoopExact g head (loops' head).blks := by
  intro hall
  have hf : backFunc.Listed := listed_edgesFunc (by decide) (by decide)
  have hsame : unreach backFunc = backFunc := unreach_eq hf reachable_backFunc
  have hexit : backFunc.exit = 2 := by decide
  obtain ⟨N, hN⟩ := hall backFunc (fun _ => ∅) (fun _ => {}) hf reachable_backFunc
    (fun b hb => by simp [edge_backFunc, hexit] at hb) (by decide)
  obtain ⟨g, loops', hloops, hexact⟩ := hN (max N 4) (Nat.le_max_left N 4)
  obtain ⟨d, hd, hdom⟩ := domAnalyze_backFunc
  have hd := domAnalyze_mono (Nat.le_max_right N 4) hd
  obtain ⟨loops'', hloops', hspec⟩ := loopAnalyze_spec (by rwa [hsame]) hd
    (by rw [hsame]; exact Nat.le_max_right N 4) (fun _ => {})
  obtain ⟨rfl, rfl⟩ := Prod.mk.inj (Option.some.inj (hloops.symm.trans hloops'))
  rw [hsame] at hspec hexact
  -- the entry block is found to be in the loop of block 1
  have hmem : 0 ∈ (loops' 1).blks := by
    refine ((hspec 1 (by decide)).1 0).mpr ⟨0, edge_backFunc.mpr (by simp), hdom, Or.inr ?_⟩
    exact ⟨.refl, by decide⟩
  have hdominated := (hexact 1 (by decide) ⟨0, hmem⟩).dominated 0 hmem
  exact absurd (dominates_root.mp hdominated) (by decide)

end Ncc
