import Ncc.Regs
import Ncc.Lib.Bubble

/-! The interference graph (graph.c).

    A node is named by its register: `graph_lookup` never makes two nodes of one register. An edge
    is a pair of pointers, one in each node. A node that is disconnected keeps its half edges, so
    that it is known where to connect it again. -/

namespace Ncc

open Bubble

/-- `struct node`, without the register that names it. -/
structure Node where
  color : PseudoReg
  cost : BitVec 32
  degree : Nat
  edges : List PseudoReg
  deriving DecidableEq, Repr

/-- The list `graph`, in descending order of degree, and the nodes. A node that has been
    disconnected is not in the list. -/
structure Graph where
  nodes : List PseudoReg
  node : PseudoReg → Node

namespace Graph

def degree (g : Graph) (n : PseudoReg) : Nat := (g.node n).degree

def color (g : Graph) (n : PseudoReg) : PseudoReg := (g.node n).color

def edges (g : Graph) (n : PseudoReg) : List PseudoReg := (g.node n).edges

/-- Change a node. -/
def modify (g : Graph) (n : PseudoReg) (f : Node → Node) : Graph :=
  { g with node := Function.update g.node n (f (g.node n)) }

/-- BUBBLE_UP. -/
def bubbleUp (g : Graph) (n : PseudoReg) : Graph := { g with nodes := up g.degree n g.nodes }

/-- The loop at the end of `graph_remove_half_edge`. -/
def bubbleDown (g : Graph) (n : PseudoReg) : Graph := { g with nodes := down g.degree n g.nodes }

end Graph

/-- The node with one more half edge. -/
def Node.link (dst : PseudoReg) (x : Node) : Node :=
  { x with edges := dst :: x.edges, degree := x.degree + 1 }

/-- The node with one half edge less. -/
def Node.unlink (dst : PseudoReg) (x : Node) : Node :=
  { x with edges := x.edges.erase dst, degree := x.degree - 1 }

/-- `graph_lookup` with GRAPH_LOOKUP_CREATE: the graph in which the register has a node. -/
def graphLookup (g : Graph) (reg : PseudoReg) : Graph :=
  if reg ∈ g.nodes then g
  else { (g.modify reg fun _ => ⟨regNone, 0, 0, []⟩) with nodes := g.nodes ++ [reg] }

/-- `graph_add_half_edge`. -/
def graphAddHalfEdge (g : Graph) (src dst : PseudoReg) : Graph :=
  (g.modify src (Node.link dst)).bubbleUp src

/-- `graph_connected`. -/
def graphConnected (g : Graph) (n₁ n₂ : PseudoReg) : Bool := decide (n₂ ∈ g.edges n₁)

/-- `graph_add_edge`. -/
def graphAddEdge (g : Graph) (n₁ n₂ : PseudoReg) : Graph :=
  if graphConnected g n₁ n₂ then g else graphAddHalfEdge (graphAddHalfEdge g n₁ n₂) n₂ n₁

/-- `graph_remove_half_edge`. The edge that is not found is a null pointer. -/
def graphRemoveHalfEdge (g : Graph) (src dst : PseudoReg) : Except String Graph :=
  if dst ∈ g.edges src then .ok ((g.modify src (Node.unlink dst)).bubbleDown src)
  else .error "SIGSEGV"

/-- `graph_remove_edge`. -/
def graphRemoveEdge (g : Graph) (n₁ n₂ : PseudoReg) : Except String Graph := do
  let g ← graphRemoveHalfEdge g n₁ n₂
  graphRemoveHalfEdge g n₂ n₁

/-- `graph_remove_node`: the loop takes the first half edge as long as there is one. -/
def graphRemoveNode (g : Graph) (n : PseudoReg) : Except String Graph := do
  let g ← (g.edges n).foldlM (fun g q => graphRemoveEdge g n q) g
  return { g with nodes := g.nodes.erase n }

/-- `graph_disconnect`. -/
def graphDisconnect (g : Graph) (n : PseudoReg) : Except String Graph := do
  let g ← (g.edges n).foldlM (fun g q => graphRemoveHalfEdge g q n) g
  return { g with nodes := g.nodes.erase n }

/-- `graph_reconnect`. -/
def graphReconnect (g : Graph) (n : PseudoReg) : Graph :=
  let g := (g.edges n).foldl (fun g q => graphAddHalfEdge g q n) g
  { g with nodes := g.nodes ++ [n] }.bubbleUp n

/-- `graph_neighbor_colors`. -/
def graphNeighborColors (g : Graph) (n : PseudoReg) (colors : Regs) : Regs :=
  (g.edges n).foldl (fun colors q => if g.color q ≠ regNone then regsAdd colors (g.color q)
    else colors) colors

/-- One block of `interf0`: the registers of the block and what each of them interferes with. -/
def interf (sameClass : PseudoReg → PseudoReg → Bool) (liveInterf : PseudoReg → Regs) (all : Regs)
    (g : Graph) : Graph :=
  all.foldl (fun g r =>
    (liveInterf r).foldl (fun g q =>
      if sameClass r q then graphAddEdge (graphLookup g q) r q else g) (graphLookup g r)) g

namespace Graph
variable {g : Graph} {n m : PseudoReg} {f : Node → Node}

@[simp] theorem nodes_modify : (g.modify n f).nodes = g.nodes := rfl

@[simp] theorem node_modify_self : (g.modify n f).node n = f (g.node n) :=
  Function.update_self n _ _

theorem node_modify_of_ne (h : m ≠ n) : (g.modify n f).node m = g.node m :=
  Function.update_of_ne h _ _

@[simp] theorem node_bubbleUp : (g.bubbleUp n).node = g.node := rfl

@[simp] theorem node_bubbleDown : (g.bubbleDown n).node = g.node := rfl

/-- What an operation on the list does not touch: the order changes only. -/
structure Sorted (g : Graph) : Prop where
  nodup : g.nodes.Nodup
  descending : Descending g.degree g.nodes

end Graph

/-! ### Half edges -/

section
variable {g : Graph} {n m src dst : PseudoReg}

theorem node_graphAddHalfEdge_self :
    (graphAddHalfEdge g src dst).node src = (g.node src).link dst :=
  Graph.node_modify_self

theorem node_graphAddHalfEdge_of_ne (h : m ≠ src) :
    (graphAddHalfEdge g src dst).node m = g.node m := Graph.node_modify_of_ne h

theorem graphAddHalfEdge_perm (h : src ∈ g.nodes) :
    (graphAddHalfEdge g src dst).nodes.Perm g.nodes := up_perm h

theorem sorted_graphAddHalfEdge (hs : g.Sorted) (h : src ∈ g.nodes) :
    (graphAddHalfEdge g src dst).Sorted := by
  refine ⟨(graphAddHalfEdge_perm h).nodup_iff.mpr hs.nodup, ?_⟩
  refine descending_up hs.nodup hs.descending h ?_ ?_
  · intro a ha
    exact congrArg Node.degree (Graph.node_modify_of_ne ha)
  · rw [Graph.degree, Graph.degree, node_graphAddHalfEdge_self]
    exact Nat.le_succ _

/-- Removing a half edge that is there. -/
theorem graphRemoveHalfEdge_ok (hs : g.Sorted) (h : src ∈ g.nodes) (he : dst ∈ g.edges src) :
    ∃ g', graphRemoveHalfEdge g src dst = .ok g' ∧ g'.Sorted ∧ g'.nodes.Perm g.nodes ∧
      g'.node src = (g.node src).unlink dst ∧ ∀ m, m ≠ src → g'.node m = g.node m := by
  refine ⟨_, if_pos he, ⟨?_, ?_⟩, down_perm h, Graph.node_modify_self,
    fun m hm => Graph.node_modify_of_ne hm⟩
  · exact (down_perm h).nodup_iff.mpr hs.nodup
  · refine descending_down hs.nodup hs.descending h ?_ ?_
    · intro a ha
      exact congrArg Node.degree (Graph.node_modify_of_ne ha)
    · rw [Graph.degree, Graph.degree, Graph.node_bubbleDown, Graph.node_modify_self]
      exact Nat.sub_le _ 1

/-- The neighbors of a node lose their half edges to it. -/
theorem foldlM_graphRemoveHalfEdge : ∀ {es : List PseudoReg} {g : Graph}, g.Sorted → es.Nodup →
    (∀ q ∈ es, q ∈ g.nodes ∧ n ∈ g.edges q) →
    ∃ g', es.foldlM (fun g q => graphRemoveHalfEdge g q n) g = .ok g' ∧ g'.Sorted ∧
      g'.nodes.Perm g.nodes ∧
      ∀ m, g'.node m = if m ∈ es then (g.node m).unlink n else g.node m
  | [], g, hs, _, _ => ⟨g, rfl, hs, List.Perm.refl _, fun m => (if_neg List.not_mem_nil).symm⟩
  | q :: es, g, hs, hnd, h => by
    obtain ⟨hq, hes⟩ := List.nodup_cons.mp hnd
    obtain ⟨hqn, hqe⟩ := h q List.mem_cons_self
    obtain ⟨g₁, hg₁, hs₁, hp₁, hself, hother⟩ := graphRemoveHalfEdge_ok hs hqn hqe
    have hne : ∀ {m}, m ∈ es → m ≠ q := fun hm he => hq (he ▸ hm)
    obtain ⟨g₂, hg₂, hs₂, hp₂, hnode⟩ := foldlM_graphRemoveHalfEdge hs₁ hes (by
      intro m hm
      obtain ⟨hmn, hme⟩ := h m (List.mem_cons_of_mem _ hm)
      rw [Graph.edges, hother m (hne hm)]
      exact ⟨hp₁.mem_iff.mpr hmn, hme⟩)
    refine ⟨g₂, ?_, hs₂, hp₂.trans hp₁, ?_⟩
    · rw [List.foldlM_cons, hg₁]
      exact hg₂
    · intro m
      rw [hnode m]
      rcases eq_or_ne m q with rfl | hmq
      · rw [if_neg hq, if_pos List.mem_cons_self, hself]
      · rw [hother m hmq]
        simp [List.mem_cons, hmq]

/-- The neighbors of a node get their half edges to it back. -/
theorem foldl_graphAddHalfEdge : ∀ {es : List PseudoReg} {g : Graph}, g.Sorted → es.Nodup →
    (∀ q ∈ es, q ∈ g.nodes) →
    (es.foldl (fun g q => graphAddHalfEdge g q n) g).Sorted ∧
      (es.foldl (fun g q => graphAddHalfEdge g q n) g).nodes.Perm g.nodes ∧
      ∀ m, (es.foldl (fun g q => graphAddHalfEdge g q n) g).node m =
        if m ∈ es then (g.node m).link n else g.node m
  | [], g, hs, _, _ => ⟨hs, List.Perm.refl _, fun m => (if_neg List.not_mem_nil).symm⟩
  | q :: es, g, hs, hnd, h => by
    obtain ⟨hq, hes⟩ := List.nodup_cons.mp hnd
    have hqn := h q List.mem_cons_self
    have hp₁ : (graphAddHalfEdge g q n).nodes.Perm g.nodes := graphAddHalfEdge_perm hqn
    obtain ⟨hs₂, hp₂, hnode⟩ := foldl_graphAddHalfEdge (sorted_graphAddHalfEdge hs hqn) hes
      (fun m hm => hp₁.mem_iff.mpr (h m (List.mem_cons_of_mem _ hm)))
    rw [List.foldl_cons]
    refine ⟨hs₂, hp₂.trans hp₁, ?_⟩
    intro m
    rw [hnode m]
    rcases eq_or_ne m q with rfl | hmq
    · rw [if_neg hq, if_pos List.mem_cons_self, node_graphAddHalfEdge_self]
    · rw [node_graphAddHalfEdge_of_ne hmq]
      simp [List.mem_cons, hmq]

end

/-! ### Well-formed graphs -/

/-- An interference graph: the half edges of a node lead to other nodes and are mirrored there. -/
structure Graph.Valid (g : Graph) : Prop extends g.Sorted where
  degree_eq : ∀ n ∈ g.nodes, g.degree n = (g.edges n).length
  edges_nodup : ∀ n ∈ g.nodes, (g.edges n).Nodup
  edges_nodes : ∀ n ∈ g.nodes, ∀ q ∈ g.edges n, q ∈ g.nodes
  edges_symm : ∀ n ∈ g.nodes, ∀ q ∈ g.edges n, n ∈ g.edges q
  edges_irrefl : ∀ n ∈ g.nodes, n ∉ g.edges n
  notNone : regNone ∉ g.nodes

section
variable {g : Graph} {n m q r : PseudoReg}

/-- The graph with nothing in it. -/
def graphEmpty : Graph := ⟨[], fun _ => ⟨regNone, 0, 0, []⟩⟩

theorem valid_graphEmpty : graphEmpty.Valid where
  nodup := List.nodup_nil
  descending := List.Pairwise.nil
  degree_eq := List.forall_mem_nil _
  edges_nodup := List.forall_mem_nil _
  edges_nodes := List.forall_mem_nil _
  edges_symm := List.forall_mem_nil _
  edges_irrefl := List.forall_mem_nil _
  notNone := List.not_mem_nil

theorem mem_graphLookup : m ∈ (graphLookup g r).nodes ↔ m ∈ g.nodes ∨ m = r := by
  rw [graphLookup]
  split
  · next h => exact ⟨Or.inl, fun hm => hm.elim id fun he => he ▸ h⟩
  · rw [List.mem_append, List.mem_singleton]

theorem node_graphLookup (h : m ∈ g.nodes) : (graphLookup g r).node m = g.node m := by
  rw [graphLookup]
  split
  · rfl
  · next hr =>
    have hne : m ≠ r := by
      rintro rfl
      exact hr h
    exact Graph.node_modify_of_ne (f := fun _ => ⟨regNone, 0, 0, []⟩) hne

theorem node_graphLookup_new (h : r ∉ g.nodes) :
    (graphLookup g r).node r = ⟨regNone, 0, 0, []⟩ := by
  rw [graphLookup, if_neg h]
  exact Graph.node_modify_self (f := fun _ => ⟨regNone, 0, 0, []⟩)

/-- A new node has no edges, so it is last. -/
theorem valid_graphLookup (h : g.Valid) (hr : r ≠ regNone) : (graphLookup g r).Valid := by
  by_cases hmem : r ∈ g.nodes
  · rw [graphLookup, if_pos hmem]
    exact h
  · have hold : ∀ m ∈ g.nodes, (graphLookup g r).node m = g.node m :=
      fun m hm => node_graphLookup hm
    have hnew : (graphLookup g r).node r = ⟨regNone, 0, 0, []⟩ := node_graphLookup_new hmem
    have hnodes : (graphLookup g r).nodes = g.nodes ++ [r] := by rw [graphLookup, if_neg hmem]
    have hcases : ∀ {P : PseudoReg → Prop}, (∀ m ∈ g.nodes, P m) → P r →
        ∀ m ∈ (graphLookup g r).nodes, P m := by
      intro P hP hPr m hm
      rcases mem_graphLookup.mp hm with hm | rfl
      · exact hP m hm
      · exact hPr
    have hnone : (graphLookup g r).edges r = [] := by rw [Graph.edges, hnew]
    have hedges : ∀ m ∈ g.nodes, (graphLookup g r).edges m = g.edges m :=
      fun m hm => congrArg Node.edges (hold m hm)
    refine ⟨⟨?_, ?_⟩, ?_, ?_, ?_, ?_, ?_, ?_⟩
    · rw [hnodes]
      exact List.nodup_append.mpr ⟨h.nodup, List.nodup_singleton r,
        fun a ha b hb he => hmem (List.mem_singleton.mp hb ▸ he ▸ ha)⟩
    · rw [hnodes]
      refine List.pairwise_append.mpr ⟨?_, List.pairwise_singleton _ r, ?_⟩
      · exact h.descending.congr fun m hm => congrArg Node.degree (hold m hm)
      · intro a _ b hb
        rw [List.mem_singleton.mp hb, Graph.degree, hnew]
        exact Nat.zero_le _
    · refine hcases (fun m hm => ?_) ?_
      · rw [hedges m hm, Graph.degree, hold m hm]
        exact h.degree_eq m hm
      · rw [hnone, Graph.degree, hnew]
        rfl
    · refine hcases (fun m hm => ?_) ?_
      · rw [hedges m hm]
        exact h.edges_nodup m hm
      · rw [hnone]
        exact List.nodup_nil
    · refine hcases (fun m hm q hq => ?_) ?_
      · rw [hedges m hm] at hq
        exact mem_graphLookup.mpr (.inl (h.edges_nodes m hm q hq))
      · rw [hnone]
        exact List.forall_mem_nil _
    · refine hcases (fun m hm q hq => ?_) ?_
      · rw [hedges m hm] at hq
        rw [hedges q (h.edges_nodes m hm q hq)]
        exact h.edges_symm m hm q hq
      · rw [hnone]
        exact List.forall_mem_nil _
    · refine hcases (fun m hm => ?_) ?_
      · rw [hedges m hm]
        exact h.edges_irrefl m hm
      · rw [hnone]
        exact List.not_mem_nil
    · intro hm
      rcases mem_graphLookup.mp hm with hm | he
      · exact h.notNone hm
      · exact hr he.symm

theorem mem_graphAddEdge (hn : n ∈ g.nodes) (hq : q ∈ g.nodes) :
    m ∈ (graphAddEdge g n q).nodes ↔ m ∈ g.nodes := by
  rw [graphAddEdge]
  split
  · rfl
  · have hp : (graphAddHalfEdge g n q).nodes.Perm g.nodes := graphAddHalfEdge_perm hn
    exact (graphAddHalfEdge_perm (hp.mem_iff.mpr hq)).mem_iff.trans hp.mem_iff

theorem valid_graphAddEdge (h : g.Valid) (hn : n ∈ g.nodes) (hq : q ∈ g.nodes) (hne : n ≠ q) :
    (graphAddEdge g n q).Valid := by
  by_cases hc : graphConnected g n q = true
  · rw [graphAddEdge, if_pos hc]
    exact h
  · have hp₁ : (graphAddHalfEdge g n q).nodes.Perm g.nodes := graphAddHalfEdge_perm hn
    have hq₁ : q ∈ (graphAddHalfEdge g n q).nodes := hp₁.mem_iff.mpr hq
    have hp : (graphAddEdge g n q).nodes.Perm g.nodes := by
      rw [graphAddEdge, if_neg hc]
      exact (graphAddHalfEdge_perm hq₁).trans hp₁
    have hs : (graphAddEdge g n q).Sorted := by
      rw [graphAddEdge, if_neg hc]
      exact sorted_graphAddHalfEdge (sorted_graphAddHalfEdge h.toSorted hn) hq₁
    have hnq : q ∉ g.edges n := fun he => hc (decide_eq_true he)
    have hqn : n ∉ g.edges q := fun he => hnq (h.edges_symm q hq n he)
    have hn' : (graphAddEdge g n q).node n = (g.node n).link q := by
      rw [graphAddEdge, if_neg hc, node_graphAddHalfEdge_of_ne hne, node_graphAddHalfEdge_self]
    have hq' : (graphAddEdge g n q).node q = (g.node q).link n := by
      rw [graphAddEdge, if_neg hc, node_graphAddHalfEdge_self,
        node_graphAddHalfEdge_of_ne hne.symm]
    have ho : ∀ m, m ≠ n → m ≠ q → (graphAddEdge g n q).node m = g.node m := by
      intro m hmn hmq
      rw [graphAddEdge, if_neg hc, node_graphAddHalfEdge_of_ne hmq,
        node_graphAddHalfEdge_of_ne hmn]
    have hmem : ∀ m p, p ∈ (graphAddEdge g n q).edges m ↔
        p ∈ g.edges m ∨ (m = n ∧ p = q) ∨ (m = q ∧ p = n) := by
      intro m p
      rw [Graph.edges]
      rcases eq_or_ne m n with rfl | hmn
      · rw [hn', Node.link, List.mem_cons, Graph.edges]
        have : ¬ (m = q ∧ p = m) := fun hh => hne hh.1
        tauto
      · rcases eq_or_ne m q with rfl | hmq
        · rw [hq', Node.link, List.mem_cons, Graph.edges]
          tauto
        · rw [ho m hmn hmq, Graph.edges]
          tauto
    refine ⟨hs, ?_, ?_, ?_, ?_, ?_, fun hm => h.notNone (hp.mem_iff.mp hm)⟩
    all_goals intro m hm
    all_goals rw [hp.mem_iff] at hm
    · rw [Graph.degree, Graph.edges]
      have hd := h.degree_eq m hm
      rw [Graph.degree, Graph.edges] at hd
      rcases eq_or_ne m n with rfl | hmn
      · rw [hn', Node.link, List.length_cons, hd]
      · rcases eq_or_ne m q with rfl | hmq
        · rw [hq', Node.link, List.length_cons, hd]
        · rw [ho m hmn hmq, hd]
    · have hd := h.edges_nodup m hm
      rw [Graph.edges]
      rcases eq_or_ne m n with rfl | hmn
      · rw [hn']
        exact List.nodup_cons.mpr ⟨hnq, hd⟩
      · rcases eq_or_ne m q with rfl | hmq
        · rw [hq']
          exact List.nodup_cons.mpr ⟨hqn, hd⟩
        · rw [ho m hmn hmq]
          exact hd
    · intro p hpm
      rw [hp.mem_iff]
      rcases (hmem m p).mp hpm with hpm | ⟨-, rfl⟩ | ⟨-, rfl⟩
      · exact h.edges_nodes m hm p hpm
      · exact hq
      · exact hn
    · intro p hpm
      rw [hmem]
      rcases (hmem m p).mp hpm with hpm | ⟨rfl, rfl⟩ | ⟨rfl, rfl⟩
      · exact .inl (h.edges_symm m hm p hpm)
      · exact .inr (.inr ⟨rfl, rfl⟩)
      · exact .inr (.inl ⟨rfl, rfl⟩)
    · intro hmm
      rcases (hmem m m).mp hmm with hmm | ⟨rfl, he⟩ | ⟨rfl, he⟩
      · exact h.edges_irrefl m hm hmm
      · exact hne he
      · exact hne he.symm

/-- `interf0` builds an interference graph: `live_interf` leaves out the register itself. -/
theorem valid_interf {sameClass : PseudoReg → PseudoReg → Bool} {liveInterf : PseudoReg → Regs}
    (hirr : ∀ r, r ∉ liveInterf r) (hnone : ∀ r, regNone ∉ liveInterf r) :
    ∀ {all : Regs} {g : Graph}, regNone ∉ all → g.Valid → (interf sameClass liveInterf all g).Valid
  | [], _, _, h => h
  | r :: all, g, hall, h => by
    obtain ⟨hr, hall⟩ := List.ne_and_not_mem_of_not_mem_cons hall
    have hinner : ∀ (qs : Regs) (g : Graph), g.Valid → r ∈ g.nodes → r ∉ qs → regNone ∉ qs →
        (qs.foldl (fun g q =>
          if sameClass r q then graphAddEdge (graphLookup g q) r q else g) g).Valid := by
      intro qs
      induction qs with
      | nil => exact fun g h _ _ _ => h
      | cons q qs ih =>
        intro g h hrn hrq hnq
        obtain ⟨hne, hrq⟩ := List.ne_and_not_mem_of_not_mem_cons hrq
        obtain ⟨hqn, hnq⟩ := List.ne_and_not_mem_of_not_mem_cons hnq
        rw [List.foldl_cons]
        split
        · have hv := valid_graphLookup h (Ne.symm hqn)
          have hr' : r ∈ (graphLookup g q).nodes := mem_graphLookup.mpr (.inl hrn)
          have hq' : q ∈ (graphLookup g q).nodes := mem_graphLookup.mpr (.inr rfl)
          exact ih _ (valid_graphAddEdge hv hr' hq' hne) ((mem_graphAddEdge hr' hq').mpr hr') hrq
            hnq
        · exact ih g h hrn hrq hnq
    rw [interf, List.foldl_cons]
    exact valid_interf hirr hnone hall (hinner _ _ (valid_graphLookup h (Ne.symm hr))
      (mem_graphLookup.mpr (.inr rfl)) (hirr r) (hnone r))

end

end Ncc
