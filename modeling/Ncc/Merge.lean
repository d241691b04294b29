import Ncc.Color
import Ncc.Interf

/-! Merging two nodes of the interference graph (graph.c: graph_merge, graph_remove_node).

    The survivor first gets an edge to every neighbor of the other node, which is then taken out with
    all of its edges. In a valid graph none of this fails, and when the two nodes had no edge between
    them the graph stays valid, with the neighbors of both at the survivor. -/

namespace Ncc

section
variable {g : Graph} {n m q x y n₁ n₂ : PseudoReg} {es : List PseudoReg}

/-! ### Removing a node -/

theorem graphRemoveEdge_ok (hs : g.Sorted) (hn : n ∈ g.nodes) (hm : m ∈ g.nodes) (hne : m ≠ n)
    (hnm : m ∈ g.edges n) (hmn : n ∈ g.edges m) :
    ∃ g', graphRemoveEdge g n m = .ok g' ∧ g'.Sorted ∧ g'.nodes.Perm g.nodes ∧
      g'.node n = (g.node n).unlink m ∧ g'.node m = (g.node m).unlink n ∧
        ∀ x, x ≠ n → x ≠ m → g'.node x = g.node x := by
  obtain ⟨g₁, hg₁, hs₁, hp₁, hself₁, hother₁⟩ := graphRemoveHalfEdge_ok hs hn hnm
  have hm₁ : m ∈ g₁.nodes := hp₁.mem_iff.mpr hm
  have hmn₁ : n ∈ g₁.edges m := by
    rw [Graph.edges, hother₁ m hne]
    exact hmn
  obtain ⟨g₂, hg₂, hs₂, hp₂, hself₂, hother₂⟩ := graphRemoveHalfEdge_ok hs₁ hm₁ hmn₁
  refine ⟨g₂, ?_, hs₂, hp₂.trans hp₁, ?_, ?_, fun x hxn hxm => ?_⟩
  · rw [graphRemoveEdge, hg₁]
    exact hg₂
  · rw [hother₂ n hne.symm, hself₁]
  · rw [hself₂, hother₁ m hne]
  · rw [hother₂ x hxm, hother₁ x hxn]

/-- The loop of `graph_remove_node`. -/
theorem foldlM_graphRemoveEdge : ∀ {es : List PseudoReg} {g : Graph}, g.Sorted → n ∈ g.nodes →
    es.Nodup → (∀ q ∈ es, q ≠ n ∧ q ∈ g.nodes ∧ q ∈ g.edges n ∧ n ∈ g.edges q) →
    ∃ g', es.foldlM (fun g q => graphRemoveEdge g n q) g = .ok g' ∧ g'.Sorted ∧
      g'.nodes.Perm g.nodes ∧
      ∀ m, m ≠ n → g'.node m = if m ∈ es then (g.node m).unlink n else g.node m
  | [], g, hs, _, _, _ => ⟨g, rfl, hs, List.Perm.refl _, fun m _ => (if_neg List.not_mem_nil).symm⟩
  | q :: es, g, hs, hn, hnd, h => by
    obtain ⟨hq, hes⟩ := List.nodup_cons.mp hnd
    obtain ⟨hqn, hqg, hnq, hqe⟩ := h q List.mem_cons_self
    obtain ⟨g₁, hg₁, hs₁, hp₁, hself, hq₁, hother⟩ := graphRemoveEdge_ok hs hn hqg hqn hnq hqe
    obtain ⟨g₂, hg₂, hs₂, hp₂, hnode⟩ := foldlM_graphRemoveEdge hs₁ (hp₁.mem_iff.mpr hn) hes (by
      intro m hm
      obtain ⟨hmn, hmg, hnm, hme⟩ := h m (List.mem_cons_of_mem _ hm)
      have hmq : m ≠ q := fun he => hq (he ▸ hm)
      refine ⟨hmn, hp₁.mem_iff.mpr hmg, ?_, ?_⟩
      · rw [Graph.edges, hself]
        exact (List.mem_erase_of_ne hmq).mpr hnm
      · rw [Graph.edges, hother m hmn hmq]
        exact hme)
    refine ⟨g₂, ?_, hs₂, hp₂.trans hp₁, fun m hmn => ?_⟩
    · rw [List.foldlM_cons, hg₁]
      exact hg₂
    · rw [hnode m hmn]
      rcases eq_or_ne m q with rfl | hmq
      · rw [if_neg hq, if_pos List.mem_cons_self, hq₁]
      · rw [hother m hmn hmq]
        simp [List.mem_cons, hmq]

/-- Removing a node does not fail, and leaves an interference graph. -/
theorem graphRemoveNode_ok (h : g.Valid) (hn : n ∈ g.nodes) :
    ∃ g', graphRemoveNode g n = .ok g' ∧ g'.Valid ∧ (∀ m, m ∈ g'.nodes ↔ m ≠ n ∧ m ∈ g.nodes) ∧
      ∀ m, m ≠ n → m ∈ g.nodes → ∀ q, q ∈ g'.edges m ↔ q ≠ n ∧ q ∈ g.edges m := by
  obtain ⟨g₁, hg₁, hs₁, hp₁, hnode⟩ := foldlM_graphRemoveEdge h.toSorted hn (h.edges_nodup n hn)
    fun q hq => ⟨fun he => h.edges_irrefl n hn (he ▸ hq), h.edges_nodes n hn q hq, hq,
      h.edges_symm n hn q hq⟩
  have hnodes : ∀ m, m ∈ g₁.nodes.erase n ↔ m ≠ n ∧ m ∈ g.nodes := by
    intro m
    rw [hs₁.nodup.mem_erase_iff, hp₁.mem_iff]
  -- the neighbors of the node know it, so that it is gone from the edges of all
  have hedges : ∀ m, m ≠ n → m ∈ g.nodes → g₁.edges m = (g.edges m).erase n := by
    intro m hmn hm
    rw [Graph.edges, hnode m hmn]
    split
    · rfl
    · next hno =>
      have hnm : n ∉ g.edges m := fun he => hno (h.edges_symm m hm n he)
      rw [List.erase_of_not_mem hnm]
      rfl
  have hmem : ∀ m, m ≠ n → m ∈ g.nodes → ∀ q, q ∈ g₁.edges m ↔ q ≠ n ∧ q ∈ g.edges m := by
    intro m hmn hm q
    rw [hedges m hmn hm, (h.edges_nodup m hm).mem_erase_iff]
  refine ⟨{ g₁ with nodes := g₁.nodes.erase n }, ?_, ?_, hnodes, hmem⟩
  · rw [graphRemoveNode, hg₁]
    rfl
  refine ⟨⟨hs₁.nodup.erase n, hs₁.descending.sublist List.erase_sublist⟩, ?_, ?_, ?_, ?_, ?_, ?_⟩
  · intro m hm
    obtain ⟨hmn, hm⟩ := (hnodes m).mp hm
    show g₁.degree m = (g₁.edges m).length
    have hd := h.degree_eq m hm
    rw [Graph.degree, hedges m hmn hm, hnode m hmn]
    split
    · next he =>
      rw [List.length_erase_of_mem (h.edges_symm n hn m he), ← hd]
      rfl
    · next hno =>
      rw [List.erase_of_not_mem fun he => hno (h.edges_symm m hm n he)]
      exact hd
  · intro m hm
    obtain ⟨hmn, hm⟩ := (hnodes m).mp hm
    show (g₁.edges m).Nodup
    rw [hedges m hmn hm]
    exact (h.edges_nodup m hm).erase n
  · intro m hm q hq
    obtain ⟨hmn, hm⟩ := (hnodes m).mp hm
    obtain ⟨hqn, hq⟩ := (hmem m hmn hm q).mp hq
    exact (hnodes q).mpr ⟨hqn, h.edges_nodes m hm q hq⟩
  · intro m hm q hq
    obtain ⟨hmn, hm⟩ := (hnodes m).mp hm
    obtain ⟨hqn, hq⟩ := (hmem m hmn hm q).mp hq
    exact (hmem q hqn (h.edges_nodes m hm q hq) m).mpr ⟨hmn, h.edges_symm m hm q hq⟩
  · intro m hm hmm
    obtain ⟨hmn, hm⟩ := (hnodes m).mp hm
    exact h.edges_irrefl m hm ((hmem m hmn hm m).mp hmm).2
  · intro hm
    exact h.notNone ((hnodes regNone).mp hm).2

/-! ### Adding the edges of another node -/

theorem mem_edges_of_graphAddEdge (h : g.Valid) (hn : n ∈ g.nodes) (hne : n ≠ m) :
    y ∈ (graphAddEdge g n m).edges x ↔ y ∈ g.edges x ∨ x = n ∧ y = m ∨ x = m ∧ y = n := by
  by_cases hold : m ∈ g.edges n
  · have hc : graphConnected g n m = true := decide_eq_true hold
    rw [graphAddEdge, if_pos hc]
    refine ⟨.inl, ?_⟩
    rintro (hy | ⟨rfl, rfl⟩ | ⟨rfl, rfl⟩)
    · exact hy
    · exact hold
    · exact h.edges_symm y hn x hold
  · exact mem_edges_graphAddEdge hne hold

/-- The first loop of `graph_merge`. -/
theorem foldl_graphAddEdge : ∀ {es : List PseudoReg} {g : Graph}, g.Valid → n ∈ g.nodes →
    (∀ q ∈ es, q ≠ n ∧ q ∈ g.nodes) →
    (es.foldl (fun g q => graphAddEdge g n q) g).Valid ∧
      (∀ m, m ∈ (es.foldl (fun g q => graphAddEdge g n q) g).nodes ↔ m ∈ g.nodes) ∧
      ∀ x y, y ∈ (es.foldl (fun g q => graphAddEdge g n q) g).edges x ↔
        y ∈ g.edges x ∨ x = n ∧ y ∈ es ∨ x ∈ es ∧ y = n
  | [], g, h, _, _ => ⟨h, fun _ => Iff.rfl, fun x y => by simp⟩
  | q :: es, g, h, hn, hes => by
    obtain ⟨hqn, hq⟩ := hes q List.mem_cons_self
    have hnodes : ∀ m, m ∈ (graphAddEdge g n q).nodes ↔ m ∈ g.nodes := fun m =>
      mem_graphAddEdge hn hq
    obtain ⟨hv, hnodes', hedges⟩ := foldl_graphAddEdge (valid_graphAddEdge h hn hq hqn.symm)
      ((hnodes n).mpr hn) fun m hm =>
        ⟨(hes m (List.mem_cons_of_mem _ hm)).1,
          (hnodes m).mpr (hes m (List.mem_cons_of_mem _ hm)).2⟩
    refine ⟨hv, fun m => (hnodes' m).trans (hnodes m), fun x y => ?_⟩
    rw [List.foldl_cons, hedges x y, mem_edges_of_graphAddEdge h hn hqn.symm, List.mem_cons,
      List.mem_cons]
    tauto

/-! ### Merging -/

/-- `n₂` was merged into `n₁`: it is gone, `n₁` has the neighbors of both, and it stands in the place
    of `n₂` at the neighbors of that. -/
structure Merged (g g' : Graph) (n₁ n₂ : PseudoReg) : Prop where
  valid : g'.Valid
  nodes : ∀ m, m ∈ g'.nodes ↔ m ≠ n₂ ∧ m ∈ g.nodes
  union : ∀ q, q ∈ g'.edges n₁ ↔ q ∈ g.edges n₁ ∨ q ∈ g.edges n₂
  others : ∀ m ∈ g'.nodes, m ≠ n₁ → ∀ q, q ∈ g'.edges m ↔
    q ≠ n₂ ∧ q ∈ g.edges m ∨ q = n₁ ∧ n₂ ∈ g.edges m

/-- Merging two nodes without an edge between them does not fail. -/
theorem graphMerge_ok {c : Coloring} (h : c.graph.Valid) (hstack : c.stack = [])
    (h₁ : n₁ ∈ c.graph.nodes) (h₂ : n₂ ∈ c.graph.nodes) (hne : n₁ ≠ n₂)
    (hno : n₂ ∉ c.graph.edges n₁) :
    ∃ c', graphMerge c n₁ n₂ = .ok c' ∧ c'.stack = [] ∧ Merged c.graph c'.graph n₁ n₂ := by
  have hno' : n₁ ∉ c.graph.edges n₂ := fun he => hno (h.edges_symm n₂ h₂ n₁ he)
  have hself : n₂ ∉ c.graph.edges n₂ := h.edges_irrefl n₂ h₂
  have hes : ∀ q ∈ c.graph.edges n₂, q ≠ n₁ ∧ q ∈ c.graph.nodes := fun q hq =>
    ⟨fun he => hno' (he ▸ hq), h.edges_nodes n₂ h₂ q hq⟩
  obtain ⟨hv, hnodes, hedges⟩ := foldl_graphAddEdge h h₁ hes
  obtain ⟨g', hg', hv', hnodes', hedges'⟩ := graphRemoveNode_ok hv ((hnodes n₂).mpr h₂)
  refine ⟨{ c with
      graph := g'
      copies := c.copies.map fun p =>
        (if p.1 = n₂ then n₁ else p.1, if p.2 = n₂ then n₁ else p.2) }, ?_, hstack, hv', ?_, ?_, ?_⟩
  · rw [graphMerge, hstack, List.foldl_nil, hg']
    rfl
  · intro m
    rw [hnodes' m, hnodes m]
  · intro q
    rw [hedges' n₁ hne ((hnodes n₁).mpr h₁), hedges]
    have hq₁ : q = n₂ → q ∉ c.graph.edges n₁ ∧ q ∉ c.graph.edges n₂ := by
      rintro rfl
      exact ⟨hno, hself⟩
    tauto
  · intro m hm hmn q
    obtain ⟨hm₂, hm⟩ := (hnodes' m).mp hm
    have hm' := (hnodes m).mp hm
    have hmirror : m ∈ c.graph.edges n₂ ↔ n₂ ∈ c.graph.edges m :=
      ⟨h.edges_symm n₂ h₂ m, h.edges_symm m hm' n₂⟩
    rw [hedges' m hm₂ hm, hedges, hmirror]
    have hq : q = n₁ → q ≠ n₂ := fun he => he ▸ hne
    tauto

end

end Ncc
