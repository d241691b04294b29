import Ncc.Color
import Ncc.Liveness

/-! Building the interference graph from the live ranges (live.c: live_interf; graph.c: interf0).

    Two registers interfere if ranges of theirs overlap, and a range is half open: it holds the insns
    after its definition, up to its last use. A definition whose value is not used is a range that
    holds nothing. It still overlaps every range that goes on around it, but not that of another
    register that the same insn defines. -/

namespace Ncc

/-- RANGE_OVERLAPS. -/
def rangeOverlaps (r₁ r₂ : Range) : Bool := r₂.defn.lt r₁.last && r₁.defn.lt r₂.last

/-- The inner loop of `live_interf`: the registers of the ranges that overlap a range of `reg`. -/
def overlapping (live : Live) (reg : PseudoReg) (r₁ : Range) (regs : Regs) : Regs :=
  live.foldl (fun regs r₂ =>
    match r₂.reg with
    | .cc => regs
    | .reg q => if q ≠ reg ∧ rangeOverlaps r₁ r₂ = true then regsAdd regs q else regs) regs

/-- `live_interf`: the registers that interfere with `reg` are added to `regs`. -/
def liveInterf (live : Live) (reg : PseudoReg) (regs : Regs) : Regs :=
  live.foldl (fun regs r₁ => if r₁.reg = .reg reg then overlapping live reg r₁ regs else regs) regs

/-- A set of registers, from the ranges that stand for them. PSEUDO_REG_CC is removed from it by
    `live_analyze_final`. -/
def rangeRegs (live : Live) : Regs :=
  live.foldl (fun regs r =>
    match r.reg with
    | .cc => regs
    | .reg q => regsAdd regs q) []

section
variable {α κ : Type*} [DecidableEq κ] (q : Queries α) (g : BlockGraph α) (regClass : PseudoReg → κ)

/-- The `all` of `interf0`: `live.def` and `live.use` of the block. -/
def blockRegs (b : BlockId) : Regs :=
  let firsts := firstRanges none (localRanges q g b)
  regsUnion (regsUnion [] (rangeRegs (firsts.filter fun r => decide (r.defn ≠ .before))))
    (rangeRegs (firsts.filter fun r => decide (r.defn = .before)))

/-- `interf0`. -/
def interf0 (d : BlockId → LiveData) (graph : Graph) (b : BlockId) : Graph :=
  interf (fun r s => decide (regClass r = regClass s)) (fun r => liveInterf (d b).ranges r [])
    (blockRegs q g b) graph

/-- `blocks_iter(interf0)` on the empty graph. -/
def interference (d : BlockId → LiveData) : Graph :=
  g.blocks.foldl (interf0 q g regClass d) graphEmpty

end

/-! ### Edges stay -/

/-- There is an edge between two nodes. -/
structure Graph.Joined (g : Graph) (n m : PseudoReg) : Prop where
  left : n ∈ g.nodes
  right : m ∈ g.nodes
  half : m ∈ g.edges n
  mirror : n ∈ g.edges m

/-- Half edges lead to nodes, and are mirrored there. -/
def Graph.Mirrored (g : Graph) : Prop :=
  ∀ n ∈ g.nodes, ∀ m ∈ g.edges n, m ∈ g.nodes ∧ n ∈ g.edges m

/-- What building the graph does to it: no node and no edge goes away, and edges stay mirrored. -/
structure Grows (g g' : Graph) : Prop where
  nodes : ∀ n ∈ g.nodes, n ∈ g'.nodes
  edges : ∀ n ∈ g.nodes, ∀ m ∈ g.edges n, m ∈ g'.edges n
  mirrored : g.Mirrored → g'.Mirrored

section
variable {g g' g'' : Graph} {n m r : PseudoReg}

theorem Grows.refl (g : Graph) : Grows g g := ⟨fun _ h => h, fun _ _ _ h => h, fun h => h⟩

theorem Grows.trans (h : Grows g g') (h' : Grows g' g'') : Grows g g'' :=
  ⟨fun n hn => h'.nodes n (h.nodes n hn),
    fun n hn m hm => h'.edges n (h.nodes n hn) m (h.edges n hn m hm),
    fun hm => h'.mirrored (h.mirrored hm)⟩

theorem Grows.foldl {β : Type*} {step : Graph → β → Graph} : ∀ {l : List β} {g : Graph},
    (∀ g, ∀ b ∈ l, Grows g (step g b)) → Grows g (l.foldl step g)
  | [], g, _ => Grows.refl g
  | b :: _, g, h => (h g b (List.mem_cons_self ..)).trans
      (Grows.foldl fun g c hc => h g c (List.mem_cons_of_mem _ hc))

theorem Graph.Joined.grows (h : g.Joined n m) (hg : Grows g g') : g'.Joined n m :=
  ⟨hg.nodes n h.left, hg.nodes m h.right, hg.edges n h.left m h.half, hg.edges m h.right n h.mirror⟩

theorem grows_graphLookup (g : Graph) (r : PseudoReg) : Grows g (graphLookup g r) := by
  have hedges : ∀ n ∈ g.nodes, (graphLookup g r).edges n = g.edges n :=
    fun n hn => congrArg Node.edges (node_graphLookup hn)
  refine ⟨fun n hn => mem_graphLookup.mpr (.inl hn), fun n hn m hm => ?_, fun hg n hn m hm => ?_⟩
  · rw [hedges n hn]
    exact hm
  · by_cases hold : n ∈ g.nodes
    · rw [hedges n hold] at hm
      obtain ⟨hmn, hnm⟩ := hg n hold m hm
      rw [hedges m hmn]
      exact ⟨mem_graphLookup.mpr (.inl hmn), hnm⟩
    · -- a new node has no edges
      obtain rfl : n = r := (mem_graphLookup.mp hn).resolve_left hold
      rw [Graph.edges, node_graphLookup_new hold] at hm
      exact absurd hm List.not_mem_nil

/-- The edges after an edge was added. -/
theorem mem_edges_graphAddEdge (hne : n ≠ m) (hnew : m ∉ g.edges n) {x y : PseudoReg} :
    y ∈ (graphAddEdge g n m).edges x ↔ y ∈ g.edges x ∨ x = n ∧ y = m ∨ x = m ∧ y = n := by
  have hc : graphConnected g n m ≠ true := fun h => hnew (of_decide_eq_true h)
  rw [graphAddEdge, if_neg hc, Graph.edges]
  rcases eq_or_ne x m with rfl | hxm
  · rw [node_graphAddHalfEdge_self, node_graphAddHalfEdge_of_ne hne.symm, Node.link, List.mem_cons,
      Graph.edges]
    grind
  · rw [node_graphAddHalfEdge_of_ne hxm]
    rcases eq_or_ne x n with rfl | hxn
    · rw [node_graphAddHalfEdge_self, Node.link, List.mem_cons, Graph.edges]
      grind
    · rw [node_graphAddHalfEdge_of_ne hxn, Graph.edges]
      grind

theorem grows_graphAddEdge (hn : n ∈ g.nodes) (hm : m ∈ g.nodes) (hne : n ≠ m) :
    Grows g (graphAddEdge g n m) := by
  by_cases hold : m ∈ g.edges n
  · have hc : graphConnected g n m = true := decide_eq_true hold
    rw [graphAddEdge, if_pos hc]
    exact Grows.refl g
  · refine ⟨fun x hx => (mem_graphAddEdge hn hm).mpr hx,
      fun x _ y hy => (mem_edges_graphAddEdge hne hold).mpr (.inl hy), fun hg x hx y hy => ?_⟩
    rw [mem_graphAddEdge hn hm] at hx ⊢
    rw [mem_edges_graphAddEdge hne hold] at hy ⊢
    rcases hy with hy | ⟨rfl, rfl⟩ | ⟨rfl, rfl⟩
    · exact ⟨(hg x hx y hy).1, .inl (hg x hx y hy).2⟩
    · exact ⟨hm, .inr (.inr ⟨rfl, rfl⟩)⟩
    · exact ⟨hn, .inr (.inl ⟨rfl, rfl⟩)⟩

theorem joined_graphAddEdge (hg : g.Mirrored) (hn : n ∈ g.nodes) (hm : m ∈ g.nodes) (hne : n ≠ m) :
    (graphAddEdge g n m).Joined n m := by
  by_cases hold : m ∈ g.edges n
  · have hc : graphConnected g n m = true := decide_eq_true hold
    rw [graphAddEdge, if_pos hc]
    exact ⟨hn, hm, hold, (hg n hn m hold).2⟩
  · exact ⟨(mem_graphAddEdge hn hm).mpr hn, (mem_graphAddEdge hn hm).mpr hm,
      (mem_edges_graphAddEdge hne hold).mpr (.inr (.inl ⟨rfl, rfl⟩)),
      (mem_edges_graphAddEdge hne hold).mpr (.inr (.inr ⟨rfl, rfl⟩))⟩

/-! ### The edges of a block -/

variable {sameClass : PseudoReg → PseudoReg → Bool} {liveInterf : PseudoReg → Regs}

theorem grows_neighbors : ∀ {qs : Regs} {g : Graph}, r ∈ g.nodes → r ∉ qs →
    Grows g (qs.foldl (fun g q =>
      if sameClass r q then graphAddEdge (graphLookup g q) r q else g) g)
  | [], g, _, _ => Grows.refl g
  | q :: qs, g, hr, hqs => by
    obtain ⟨hne, hqs⟩ := List.ne_and_not_mem_of_not_mem_cons hqs
    have hstep : Grows g (if sameClass r q then graphAddEdge (graphLookup g q) r q else g) := by
      split
      · exact (grows_graphLookup g q).trans (grows_graphAddEdge (mem_graphLookup.mpr (.inl hr))
          (mem_graphLookup.mpr (.inr rfl)) hne)
      · exact Grows.refl g
    exact hstep.trans (grows_neighbors (hstep.nodes r hr) hqs)

theorem joined_neighbors : ∀ {qs : Regs} {g : Graph}, g.Mirrored → r ∈ g.nodes → r ∉ qs →
    m ∈ qs → sameClass r m = true →
    (qs.foldl (fun g q =>
      if sameClass r q then graphAddEdge (graphLookup g q) r q else g) g).Joined r m
  | q :: qs, g, hg, hr, hqs, hm, hclass => by
    obtain ⟨hne, hrest⟩ := List.ne_and_not_mem_of_not_mem_cons hqs
    have hlook := grows_graphLookup g q
    have hadd := @grows_graphAddEdge (graphLookup g q) r q (hlook.nodes r hr)
      (mem_graphLookup.mpr (.inr rfl)) hne
    rw [List.foldl_cons]
    by_cases hmq : m = q
    · subst hmq
      rw [if_pos hclass]
      have hjoined := joined_graphAddEdge (hlook.mirrored hg) (hlook.nodes r hr)
        (mem_graphLookup.mpr (.inr rfl)) hne
      exact hjoined.grows (grows_neighbors hjoined.left hrest)
    · have hm' : m ∈ qs := (List.mem_cons.mp hm).resolve_left hmq
      split
      · exact joined_neighbors (hadd.mirrored (hlook.mirrored hg))
          (hadd.nodes r (hlook.nodes r hr)) hrest hm' hclass
      · exact joined_neighbors hg hr hrest hm' hclass

theorem grows_interf (hirr : ∀ r, r ∉ liveInterf r) (all : Regs) (g : Graph) :
    Grows g (interf sameClass liveInterf all g) :=
  Grows.foldl fun g r _ => (grows_graphLookup g r).trans
    (grows_neighbors (mem_graphLookup.mpr (.inr rfl)) (hirr r))

/-- `interf0` joins the registers of the block to what interferes with them. -/
theorem joined_interf (hirr : ∀ r, r ∉ liveInterf r) : ∀ {all : Regs} {g : Graph}, g.Mirrored →
    n ∈ all → m ∈ liveInterf n → sameClass n m = true →
      (interf sameClass liveInterf all g).Joined n m
  | r :: all, g, hg, hn, hm, hclass => by
    have hlook := grows_graphLookup g r
    have hstep := hlook.trans
      (@grows_neighbors r sameClass (liveInterf r) _ (mem_graphLookup.mpr (.inr rfl)) (hirr r))
    by_cases hnr : n = r
    · subst hnr
      have hjoined := joined_neighbors (hlook.mirrored hg) (mem_graphLookup.mpr (.inr rfl))
        (hirr n) hm hclass
      exact hjoined.grows (grows_interf hirr all _)
    · show (interf sameClass liveInterf all _).Joined n m
      exact joined_interf hirr (hstep.mirrored hg) ((List.mem_cons.mp hn).resolve_left hnr) hm
        hclass

end

/-! ### What overlaps -/

section
variable {live : Live} {reg r : PseudoReg} {regs : Regs}

theorem mem_overlapping {r₁ : Range} (all : Live) : r ∈ overlapping all reg r₁ regs ↔
    r ∈ regs ∨ r ≠ reg ∧ ∃ r₂ ∈ all, r₂.reg = .reg r ∧ rangeOverlaps r₁ r₂ = true := by
  induction all using List.reverseRecOn with
  | nil => simp [overlapping]
  | append_singleton all r₂ ih =>
    rw [overlapping, List.foldl_concat, ← overlapping]
    simp only [List.mem_append, List.mem_singleton]
    split
    · rename_i hcc
      rw [ih]
      grind
    · rename_i s hs
      split
      · rw [mem_regsAdd, ih]
        grind
      · rw [ih]
        grind

/-- What interferes with a register: those that have a range that overlaps one of its ranges. -/
theorem mem_liveInterf : r ∈ liveInterf live reg regs ↔ r ∈ regs ∨ r ≠ reg ∧
    ∃ r₁ ∈ live, r₁.reg = .reg reg ∧ ∃ r₂ ∈ live, r₂.reg = .reg r ∧ rangeOverlaps r₁ r₂ = true := by
  have hfold : ∀ l : Live, r ∈ l.foldl (fun regs r₁ =>
      if r₁.reg = .reg reg then overlapping live reg r₁ regs else regs) regs ↔ r ∈ regs ∨ r ≠ reg ∧
      ∃ r₁ ∈ l, r₁.reg = .reg reg ∧ ∃ r₂ ∈ live, r₂.reg = .reg r ∧ rangeOverlaps r₁ r₂ = true := by
    intro l
    induction l using List.reverseRecOn with
    | nil => simp
    | append_singleton l r₁ ih =>
      rw [List.foldl_concat]
      simp only [List.mem_append, List.mem_singleton]
      split
      · rw [mem_overlapping, ih]
        grind
      · rw [ih]
        grind
  exact hfold live

theorem mem_rangeRegs : r ∈ rangeRegs live ↔ ∃ x ∈ live, x.reg = .reg r := by
  induction live using List.reverseRecOn with
  | nil => simp [rangeRegs]
  | append_singleton live x ih =>
    rw [rangeRegs, List.foldl_concat, ← rangeRegs]
    simp only [List.mem_append, List.mem_singleton]
    split
    · rw [ih]
      grind
    · rw [mem_regsAdd, ih]
      grind

theorem not_mem_liveInterf (live : Live) (r : PseudoReg) : r ∉ liveInterf live r [] := by
  rw [mem_liveInterf]
  simp

end

section
variable {α : Type*} {q : Queries α} {g : BlockGraph α} {b : BlockId} {r : PseudoReg}

theorem mem_blockRegs : r ∈ blockRegs q g b ↔
    .reg r ∈ liveDefSet (localRanges q g b) ∨ .reg r ∈ liveUseSet (localRanges q g b) := by
  rw [blockRegs, mem_regsUnion, mem_regsUnion, mem_rangeRegs, mem_rangeRegs, liveDefSet, liveUseSet]
  simp only [List.not_mem_nil, false_or, List.mem_toFinset, List.mem_map]

/-- A register that some insn of the block DEFs is one of those `interf0` goes through. -/
theorem mem_blockRegs_of_defines {i : α} (hi : i ∈ g.insns b) (hd : r ∈ q.defsRegs i) :
    r ∈ blockRegs q g b := by
  rw [mem_blockRegs, mem_liveDefSet, mem_liveUseSet]
  by_cases hu : usesFrom q (.reg r) 0 (g.insns b) (branchTail g b (.reg r)) = []
  · exact .inl ⟨hu, i, hi, decide_eq_true hd⟩
  · exact .inr hu

/-! ### The ranges around an insn -/

variable {k : LiveReg}

/-- `k` is live before the insns `rest` at the end of the block: it is used by one of them, by the
    branch or after the block, and not redefined before that. -/
def LiveAfter (q : Queries α) (g : BlockGraph α) (b : BlockId) (k : LiveReg) (rest : List α) : Prop :=
  (∃ l₁ i l₂, rest = l₁ ++ i :: l₂ ∧ uses q k i = true ∧ ∀ j ∈ l₁, defines q k j = false) ∨
    (∀ j ∈ rest, defines q k j = false) ∧
      (branchUses (g.conditional b) (g.control b) k = true ∨ ∃ c ∈ g.succs b, LiveAt q g k c)

/-- A definition that is not overwritten reaches a use behind, if its register is live. -/
theorem reaches_of_liveAfter {pre mid rest : List α} {d : InsnIndex}
    (hb : g.insns b = pre ++ (mid ++ rest)) (hd : DefinedAt q k pre d)
    (hmid : ∀ j ∈ mid, defines q k j = false) (hlive : LiveAfter q g b k rest) :
    ∃ u, Reaches q g b k d u ∧ ∀ n, n < (pre ++ mid).length → (InsnIndex.insn n).lt u = true := by
  rcases hlive with ⟨l₁, i, l₂, rfl, hi, hl₁⟩ | ⟨hrest, hend⟩
  · refine ⟨.insn (pre.length + (mid ++ l₁).length), ⟨pre, _, hb, hd, .inl ⟨mid ++ l₁, i, l₂,
      (List.append_assoc ..).symm, rfl, hi, fun j hj => ?_⟩⟩, fun n hn => ?_⟩
    · rcases List.mem_append.mp hj with hj | hj
      · exact hmid j hj
      · exact hl₁ j hj
    · simp only [List.length_append, InsnIndex.lt, decide_eq_true_eq] at hn ⊢
      omega
  · have hall : ∀ j ∈ mid ++ rest, defines q k j = false := by
      intro j hj
      rcases List.mem_append.mp hj with hj | hj
      · exact hmid j hj
      · exact hrest j hj
    rcases hend with hbranch | hsucc
    · exact ⟨.branch, ⟨pre, _, hb, hd, .inr ⟨hall, .inl ⟨rfl, hbranch⟩⟩⟩, fun _ _ => rfl⟩
    · exact ⟨.after, ⟨pre, _, hb, hd, .inr ⟨hall, .inr ⟨rfl, hsucc⟩⟩⟩, fun _ _ => rfl⟩

theorem InsnIndex.lt_trans {a b c : InsnIndex} (h : a.lt b = true) (h' : b.lt c = true) :
    a.lt c = true := by
  cases a <;> cases b <;> cases c <;> simp_all [InsnIndex.lt]
  omega

/-- The last use of a range is not before any use it covers. -/
theorem last_of_sorted {us : List InsnIndex} (h : us.Pairwise fun u v => u.lt v = true)
    {u : InsnIndex} (hu : u ∈ us) (d : InsnIndex) : us.getLastD d = u ∨ u.lt (us.getLastD d) = true := by
  induction us generalizing u d with
  | nil => exact absurd hu List.not_mem_nil
  | cons v us ih =>
    obtain ⟨hv, hus⟩ := List.pairwise_cons.mp h
    rw [List.getLastD_cons]
    rcases List.mem_cons.mp hu with rfl | hu
    · cases us with
      | nil => exact .inl rfl
      | cons w us =>
        rcases ih hus (List.mem_cons_self ..) u with hw | hw
        · exact .inr (by rw [hw]; exact hv w (List.mem_cons_self ..))
        · exact .inr (InsnIndex.lt_trans (hv w (List.mem_cons_self ..)) hw)
    · exact ih hus hu v

/-- The range of a definition that reaches a use ends there or later. -/
theorem RangeExact.lt_last {x : Range} (hx : RangeExact q g b x) {u a : InsnIndex}
    (hu : Reaches q g b x.reg x.defn u) (ha : a.lt u = true) : a.lt x.last = true := by
  obtain ⟨us, hsorted, hmem, -, hlast⟩ := hx
  rw [hlast]
  rcases last_of_sorted hsorted ((hmem u).mpr hu) x.defn with h | h
  · rw [h]
    exact ha
  · exact InsnIndex.lt_trans ha h

/-- A use is behind the definition that reaches it. -/
theorem Reaches.lt {d u : InsnIndex} (h : Reaches q g b k d u) : d.lt u = true := by
  obtain ⟨pre, rest, -, hd, hu⟩ := h
  rcases hd with ⟨rfl, rfl⟩ | ⟨p, i, rfl, rfl, -⟩
  · rcases hu with ⟨_, _, _, _, rfl, _⟩ | ⟨_, ⟨rfl, _⟩ | ⟨rfl, _⟩⟩ <;> rfl
  · rcases hu with ⟨l₁, _, _, _, rfl, _⟩ | ⟨_, ⟨rfl, _⟩ | ⟨rfl, _⟩⟩
    · simp only [List.length_append, List.length_singleton, InsnIndex.lt, decide_eq_true_eq]
      omega
    · rfl
    · rfl

/-- A range does not end before its definition. -/
theorem RangeExact.defn_le {x : Range} (hx : RangeExact q g b x) {a : InsnIndex}
    (ha : a.lt x.defn = true) : a.lt x.last = true := by
  obtain ⟨us, hsorted, hmem, -, hlast⟩ := hx
  cases us with
  | nil =>
    rw [hlast]
    exact ha
  | cons u us =>
    have hu := (hmem u).mp (List.mem_cons_self ..)
    rw [hlast]
    rcases last_of_sorted hsorted (List.mem_cons_self ..) x.defn with h | h
    · rw [h]
      exact InsnIndex.lt_trans ha hu.lt
    · exact InsnIndex.lt_trans (InsnIndex.lt_trans ha hu.lt) h

theorem mem_defIndices {i : α} {post : List α} (hi : defines q k i = true) :
    ∀ (pre : List α) (n : Nat), .insn (n + pre.length) ∈ defIndices q k n (pre ++ i :: post)
  | [], n => by
      rw [List.nil_append, defIndices, if_pos hi]
      exact List.mem_cons_self ..
  | j :: pre, n => by
      have h := @mem_defIndices i post hi pre (n + 1)
      rw [List.length_cons, Nat.add_comm pre.length, ← Nat.add_assoc, List.cons_append, defIndices]
      split
      · exact List.mem_cons_of_mem _ h
      · exact h

/-- The ranges are there: of every definition in the block, and from before the block if it reaches
    a use. -/
theorem RangesExact.exists_range {live : Live} (h : RangesExact q g b k live) {pre rest : List α}
    {d : InsnIndex} (hb : g.insns b = pre ++ rest) (hd : DefinedAt q k pre d)
    (hu : d = .before → ∃ u, Reaches q g b k d u) :
    ∃ x ∈ live, x.reg = k ∧ x.defn = d ∧ RangeExact q g b x := by
  have hmem : d ∈ (chain k live).map Range.defn := by
    rcases hd with ⟨rfl, rfl⟩ | ⟨p, i, rfl, rfl, hi⟩
    · rw [h.reached (hu rfl)]
      exact List.mem_cons_self ..
    · have hidx : .insn p.length ∈ defIndices q k 0 (g.insns b) := by
        have : .insn (0 + p.length) ∈ defIndices q k 0 (p ++ i :: rest) := mem_defIndices hi p 0
        rw [Nat.zero_add] at this
        rwa [hb, List.append_assoc]
      by_cases hre : ∃ u, Reaches q g b k .before u
      · rw [h.reached hre]
        exact List.mem_cons_of_mem _ hidx
      · rw [h.unreached hre]
        exact hidx
  obtain ⟨x, hx, rfl⟩ := List.mem_map.mp hmem
  obtain ⟨hlive, hreg⟩ := mem_chain.mp hx
  exact ⟨x, hlive, hreg, rfl, h.ranges x hx⟩

/-- The last definition before some insn, in the block or before it. -/
theorem exists_definedAt (q : Queries α) (k : LiveReg) (l : List α) : ∃ pre mid d, l = pre ++ mid ∧
    DefinedAt q k pre d ∧ (∀ j ∈ mid, defines q k j = false) ∧ d.lt (.insn l.length) = true := by
  induction l using List.reverseRecOn with
  | nil => exact ⟨[], [], .before, rfl, .inl ⟨rfl, rfl⟩, by simp, rfl⟩
  | append_singleton l i ih =>
    cases hi : defines q k i with
    | true =>
      refine ⟨l ++ [i], [], .insn l.length, by simp, .inr ⟨l, i, rfl, rfl, hi⟩, by simp, ?_⟩
      simp [InsnIndex.lt]
    | false =>
      obtain ⟨pre, mid, d, rfl, hd, hmid, hlt⟩ := ih
      refine ⟨pre, mid ++ [i], d, List.append_assoc .., hd, fun j hj => ?_, ?_⟩
      · rcases List.mem_append.mp hj with hj | hj
        · exact hmid j hj
        · rw [List.mem_singleton.mp hj]
          exact hi
      · rw [List.length_append, List.length_singleton]
        exact InsnIndex.lt_succ hlt

/-- A register that an insn DEFs has a range from there on; it goes on behind the insn if the register
    is live. -/
theorem RangesExact.range_of_defines {live : Live} (h : RangesExact q g b k live)
    {pre rest : List α} {insn : α} (hb : g.insns b = pre ++ insn :: rest)
    (hd : defines q k insn = true) : ∃ x ∈ live, x.reg = k ∧ x.defn = .insn pre.length ∧
      (∀ a : InsnIndex, a.lt (.insn pre.length) = true → a.lt x.last = true) ∧
      (LiveAfter q g b k rest → (InsnIndex.insn pre.length).lt x.last = true) := by
  have hb' : g.insns b = (pre ++ [insn]) ++ ([] ++ rest) := by rw [hb]; simp
  have hdef : DefinedAt q k (pre ++ [insn]) (.insn pre.length) := .inr ⟨pre, insn, rfl, rfl, hd⟩
  obtain ⟨x, hx, hreg, hdefn, hexact⟩ := h.exists_range hb' hdef (fun he => nomatch he)
  refine ⟨x, hx, hreg, hdefn, fun a ha => hexact.defn_le (hdefn ▸ ha), fun hlive => ?_⟩
  obtain ⟨u, hu, hlt⟩ := reaches_of_liveAfter hb' hdef (fun j hj => absurd hj List.not_mem_nil) hlive
  rw [← hreg, ← hdefn] at hu
  exact hexact.lt_last hu (hlt pre.length (by simp))

/-- A register that is live behind an insn, and that the insn does not DEF, has a range around it. -/
theorem RangesExact.range_of_liveAfter {live : Live} (h : RangesExact q g b k live)
    {pre rest : List α} {insn : α} (hb : g.insns b = pre ++ insn :: rest)
    (hd : defines q k insn = false) (hlive : LiveAfter q g b k rest) :
    ∃ x ∈ live, x.reg = k ∧ x.defn.lt (.insn pre.length) = true ∧
      (InsnIndex.insn pre.length).lt x.last = true := by
  obtain ⟨p, mid, d, rfl, hdef, hmid, hlt⟩ := exists_definedAt q k pre
  have hb' : g.insns b = p ++ ((mid ++ [insn]) ++ rest) := by rw [hb]; simp
  have hmid' : ∀ j ∈ mid ++ [insn], defines q k j = false := by
    intro j hj
    rcases List.mem_append.mp hj with hj | hj
    · exact hmid j hj
    · rw [List.mem_singleton.mp hj]
      exact hd
  obtain ⟨u, hu, hltu⟩ := reaches_of_liveAfter hb' hdef hmid' hlive
  obtain ⟨x, hx, hreg, hdefn, hexact⟩ := h.exists_range hb' hdef fun _ => ⟨u, hu⟩
  refine ⟨x, hx, hreg, by rw [hdefn]; exact hlt, ?_⟩
  rw [← hreg, ← hdefn] at hu
  exact hexact.lt_last hu (hltu _ (by simp))

/-- A definition overlaps with what is live behind the insn. -/
theorem overlaps_of_defines {live : Live} {r₁ r₂ : PseudoReg}
    (h₁ : RangesExact q g b (.reg r₁) live) (h₂ : RangesExact q g b (.reg r₂) live)
    {pre rest : List α} {insn : α} (hb : g.insns b = pre ++ insn :: rest)
    (hd : r₁ ∈ q.defsRegs insn) (hlive : LiveAfter q g b (.reg r₂) rest)
    (hboth : r₂ ∈ q.defsRegs insn → LiveAfter q g b (.reg r₁) rest) (hne : r₁ ≠ r₂) :
    r₂ ∈ liveInterf live r₁ [] := by
  rw [mem_liveInterf]
  refine .inr ⟨hne.symm, ?_⟩
  obtain ⟨x, hx, hxreg, hxdefn, hxle, hxlt⟩ := h₁.range_of_defines hb (decide_eq_true hd)
  by_cases hd₂ : r₂ ∈ q.defsRegs insn
  · obtain ⟨y, hy, hyreg, hydefn, -, hylt⟩ := h₂.range_of_defines hb (decide_eq_true hd₂)
    refine ⟨x, hx, hxreg, y, hy, hyreg, ?_⟩
    rw [rangeOverlaps, hydefn, hxdefn, hxlt (hboth hd₂), hylt hlive]
    rfl
  · obtain ⟨y, hy, hyreg, hydefn, hylt⟩ := h₂.range_of_liveAfter hb (decide_eq_false hd₂) hlive
    refine ⟨x, hx, hxreg, y, hy, hyreg, ?_⟩
    rw [rangeOverlaps, hxdefn, hxle y.defn hydefn, hylt]
    rfl

end

/-! ### The graph -/

section
variable {α κ : Type*} [DecidableEq κ] {q : Queries α} {g : BlockGraph α} {regClass : PseudoReg → κ}
  {d : BlockId → LiveData}

theorem grows_interf0 (graph : Graph) (b : BlockId) :
    Grows graph (interf0 q g regClass d graph b) :=
  grows_interf (not_mem_liveInterf _) _ graph

/-- An edge that one block needs is in the graph of the function. -/
theorem joined_interference {b : BlockId} (hb : b ∈ g.blocks) {r₁ r₂ : PseudoReg}
    (hall : r₁ ∈ blockRegs q g b) (hinterf : r₂ ∈ liveInterf (d b).ranges r₁ [])
    (hclass : regClass r₁ = regClass r₂) : (interference q g regClass d).Joined r₁ r₂ := by
  obtain ⟨bs, bs', hbs⟩ := List.append_of_mem hb
  have hempty : graphEmpty.Mirrored := fun n hn => absurd hn List.not_mem_nil
  have hpre : Grows graphEmpty (bs.foldl (interf0 q g regClass d) graphEmpty) :=
    Grows.foldl fun graph c _ => grows_interf0 graph c
  rw [interference, hbs, List.foldl_append, List.foldl_cons]
  have hjoined : (interf0 q g regClass d (bs.foldl (interf0 q g regClass d) graphEmpty) b).Joined
      r₁ r₂ :=
    joined_interf (not_mem_liveInterf _) (hpre.mirrored hempty) hall hinterf
      (decide_eq_true hclass)
  exact hjoined.grows (Grows.foldl fun graph c _ => grows_interf0 graph c)

end

/-- Interference is complete. When an insn DEFs a register and another one of the same class is live
    behind the insn, there is an edge between the two, and so there is if the insn DEFs both and both
    are live. What is left are two registers that the insn DEFs, one of which is dead. With machine
    registers for these, no proper coloring gives the two registers the same one. -/
theorem interference_complete {α κ : Type*} [DecidableEq κ] (q : Queries α) (g : BlockGraph α)
    (regClass : PseudoReg → κ) : ∃ n d, (∀ m ≥ n, liveAnalyze q g m = some d) ∧
      ∀ b ∈ g.blocks, ∀ pre insn rest, g.insns b = pre ++ insn :: rest →
      ∀ r₁ r₂, r₁ ≠ r₂ → regClass r₁ = regClass r₂ → r₁ ∈ q.defsRegs insn →
        r₂ ∈ q.defsRegs insn ∨ LiveAfter q g b (.reg r₂) rest →
        ((r₂ ∈ q.defsRegs insn →
            LiveAfter q g b (.reg r₁) rest ∧ LiveAfter q g b (.reg r₂) rest) →
          (interference q g regClass d).Joined r₁ r₂) ∧
        ∀ physical : PseudoReg → Prop, ∀ color : PseudoReg → PseudoReg,
          (r₂ ∈ q.defsRegs insn → physical r₁ ∧ physical r₂) →
          (∀ r, physical r → color r = r) →
          (∀ r s, (interference q g regClass d).Joined r s → color r ≠ color s) →
          color r₁ ≠ color r₂ := by
  obtain ⟨n, d, hd, hexact⟩ := liveAnalyze_ranges q g
  refine ⟨n, d, hd, fun b hb pre insn rest hins r₁ r₂ hne hclass hdef hor => ?_⟩
  have hjoined : (r₂ ∈ q.defsRegs insn →
      LiveAfter q g b (.reg r₁) rest ∧ LiveAfter q g b (.reg r₂) rest) →
      (interference q g regClass d).Joined r₁ r₂ := by
    intro hboth
    have hlive : LiveAfter q g b (.reg r₂) rest := hor.elim (fun h => (hboth h).2) id
    have hinsn : insn ∈ g.insns b := by rw [hins]; simp
    exact joined_interference hb (mem_blockRegs_of_defines hinsn hdef)
      (overlaps_of_defines (hexact ⟨b, hb⟩ r₁).2.2 (hexact ⟨b, hb⟩ r₂).2.2 hins hdef hlive
        (fun h => (hboth h).1) hne) hclass
  refine ⟨hjoined, fun physical color hphys hown hproper => ?_⟩
  by_cases h₂ : r₂ ∈ q.defsRegs insn
  · rw [hown r₁ (hphys h₂).1, hown r₂ (hphys h₂).2]
    exact hne
  · exact hproper r₁ r₂ (hjoined fun h => absurd h h₂)

/-- Two constants, and a comparison of them. -/
def cmpGraph : BlockGraph Insn where
  blocks := [0]
  insns _ := [insnNew .move (some ⟨.int, .reg 16, 0⟩) (some ⟨.int, .con 1 none, 0⟩),
    insnNew .move (some ⟨.int, .reg 17, 0⟩) (some ⟨.int, .con 2 none, 0⟩),
    insnNew .cmp none (some ⟨.int, .reg 16, 0⟩) (some ⟨.int, .reg 17, 0⟩)]
  conditional _ := false
  control _ := none
  succs _ := []
  closed := by simp

theorem interference_complete_cmp : ∃ n d, liveAnalyze insnQueries cmpGraph n = some d ∧
    (interference insnQueries cmpGraph amd64IsIreg d).Joined 17 16 := by
  obtain ⟨n, d, hd, hall⟩ := interference_complete insnQueries cmpGraph amd64IsIreg
  refine ⟨n, d, hd n le_rfl, ?_⟩
  refine (hall 0 (by decide) [insnNew .move (some ⟨.int, .reg 16, 0⟩) (some ⟨.int, .con 1 none, 0⟩)]
    _ _ rfl 17 16 (by decide) (by decide) (by decide) (.inr (.inl ?_))).1 fun h =>
      absurd h (by decide)
  exact ⟨[], _, [], rfl, by decide, fun j hj => absurd hj List.not_mem_nil⟩

/-- An inline assembly that DEFs RAX and RDX, and a copy of RAX. -/
def asmGraph : BlockGraph Insn where
  blocks := [0]
  insns _ := [{ op := .asm, iasm := { asmNew with defs := [2, 4] } },
    insnNew .move (some ⟨.int, .reg 16, 0⟩) (some ⟨.int, .reg 2, 0⟩)]
  conditional _ := false
  control _ := none
  succs _ := []
  closed := by simp

/-- Two machine registers of one insn, one of which is dead, get no edge. -/
theorem not_interference_complete : ¬ ∀ (g : BlockGraph Insn) (n : Nat) (d : BlockId → LiveData),
    liveAnalyze insnQueries g n = some d →
      ∀ b ∈ g.blocks, ∀ pre insn rest, g.insns b = pre ++ insn :: rest →
      ∀ r₁ r₂, r₁ ≠ r₂ → amd64IsIreg r₁ = amd64IsIreg r₂ → r₁ ∈ insnDefsRegs insn →
        r₂ ∈ insnDefsRegs insn ∨ LiveAfter insnQueries g b (.reg r₂) rest →
        (interference insnQueries g amd64IsIreg d).Joined r₁ r₂ := by
  intro hall
  have hsome : (liveAnalyze insnQueries asmGraph 2).any (fun d =>
      decide (4 ∉ (interference insnQueries asmGraph amd64IsIreg d).edges 2)) = true := by
    decide +kernel
  obtain ⟨d, hd, hno⟩ : ∃ d, liveAnalyze insnQueries asmGraph 2 = some d ∧
      4 ∉ (interference insnQueries asmGraph amd64IsIreg d).edges 2 := by
    simpa [Option.any_eq_true] using hsome
  exact hno (hall asmGraph 2 d hd 0 (by decide) [] _ _ rfl 2 4 (by decide) (by decide) (by decide)
    (.inl (by decide))).half

end Ncc
