import Ncc.Graph
import Ncc.Lib.Fuel

/-! Coloring of the interference graph (graph.c).

    Nodes are disconnected one by one and pushed on a stack, those of low degree first. They are
    popped, connected again and colored in the opposite order, so that a node is connected to what
    it was connected to when it was picked. What the graph and the stack hold at any time is told by
    `Linked`, with the edges of the original graph as its reference. -/

namespace Ncc

open Bubble

/-! ### Coloring -/

/-- What `color` asks of the target. Every class has a register. -/
structure Target where
  physical : PseudoReg → Bool
  k : PseudoReg → Nat
  icolors : PseudoReg → List PseudoReg
  k_pos : ∀ r, 0 < k r

/-- `reg_colors`. -/
def Target.colors (t : Target) (r : PseudoReg) : Regs := (t.icolors r).foldl regsAdd []

/-- `regs_diff`. -/
def regsDiff (dst src : Regs) : Regs := src.foldl (fun dst r => dst.erase r) dst

/-- The graph, the node stack, the copies in the IR (their destinations and sources, by insn) and
    the flag. -/
structure Coloring where
  graph : Graph
  stack : List PseudoReg
  copies : List (PseudoReg × PseudoReg)
  changed : Bool

/-- `graph_merge`. -/
def graphMerge (c : Coloring) (n₁ n₂ : PseudoReg) : Except String Coloring := do
  let g := (c.graph.edges n₂).foldl (fun g q => graphAddEdge g n₁ q) c.graph
  let redirect (r : PseudoReg) : PseudoReg := if r = n₂ then n₁ else r
  let g := c.stack.foldl
    (fun g s => g.modify s fun x => { x with edges := x.edges.map redirect }) g
  let g ← graphRemoveNode g n₂
  return { c with graph := g, copies := c.copies.map fun p => (redirect p.1, redirect p.2) }

/-- `coal_eligible`, for a copy: the node that survives and the one that is merged into it. -/
def coalEligible (t : Target) (size : PseudoReg → Nat) (g : Graph) (dst src : PseudoReg) :
    Option (PseudoReg × PseudoReg) :=
  if dst = src then none
  else if dst ∉ g.nodes ∨ src ∉ g.nodes then none
  else if graphConnected g dst src then none
  else
    let p := if t.physical src then (src, dst) else (dst, src)
    if t.physical p.2 then none
    else if !t.physical p.1 && decide (size p.2 > size p.1) then some p.swap
    else some p

/-- The body of the loop in `later0`. -/
def later (t : Target) (size : PseudoReg → Nat) (c : Coloring) (copy : PseudoReg × PseudoReg) :
    Except String Coloring :=
  match coalEligible t size c.graph copy.1 copy.2 with
  | none => .ok c
  | some (dst, src) =>
    if c.graph.color dst = regNone ∨ c.graph.color src = regNone then .ok c
    else if c.graph.color dst ∈ graphNeighborColors c.graph src [] then .ok c
    else (graphMerge c dst src).map fun c => { c with changed := true }

/-- `later0` for every block; a merge may rewrite the copies that follow. -/
def later0 (t : Target) (size : PseudoReg → Nat) (c : Coloring) : Except String Coloring :=
  (List.range c.copies.length).foldlM (fun c i => (c.copies[i]?).elim (.ok c) (later t size c)) c

/-- UINT_MAX. -/
def uintMax : Nat := 2 ^ 32 - 1

/-- The body of the loop at the end of `graph_pick`: the node picked so far and its quotient. -/
def cheaper (g : Graph) (best : Option PseudoReg × Nat) (n : PseudoReg) :
    Except String (Option PseudoReg × Nat) :=
  if g.color n ≠ regNone then .ok best
  else if g.degree n = 0 then .error "SIGFPE"
  else
    let quotient := (g.node n).cost.toNat / g.degree n
    .ok (if quotient < best.2 then (some n, quotient) else best)

/-- The loop at the end of `graph_pick`. -/
def pickSpill (g : Graph) : Except String (Option PseudoReg × Nat) :=
  g.nodes.foldlM (cheaper g) (none, uintMax)

/-- `graph_pick`. -/
def graphPick (t : Target) (size : PseudoReg → Nat) :
    Nat → Coloring → Except String (Option PseudoReg × Coloring)
  | 0, _ => .error "out of fuel"
  | fuel + 1, c =>
    let last := c.graph.nodes.reverse.find? fun n => c.graph.color n == regNone
    if last.any fun n => decide (c.graph.degree n < t.k n) then .ok (last, c)
    else do
      let c ← later0 t size { c with changed := false }
      if c.changed then graphPick t size fuel c
      else (pickSpill c.graph).map fun r => (r.1, c)

/-- The first loop of `color`. -/
def precolor (t : Target) (g : Graph) : Graph :=
  g.nodes.foldl (fun g n =>
    g.modify n fun x => { x with color := if t.physical n then n else regNone }) g

/-- The second loop: nodes are disconnected and pushed. -/
def disconnectAll (t : Target) (size : PseudoReg → Nat) : Nat → Coloring → Except String Coloring
  | 0, _ => .error "out of fuel"
  | fuel + 1, c => do
    let (pick, c) ← graphPick t size fuel c
    match pick with
    | none => .ok c
    | some n =>
      let g ← graphDisconnect c.graph n
      disconnectAll t size fuel { c with graph := g, stack := n :: c.stack }

/-- A node takes the first color of its class that no neighbor has. -/
def colorNode (t : Target) (g : Graph) (n : PseudoReg) : Graph :=
  match regsDiff (t.colors n) (graphNeighborColors g n []) with
  | [] => g
  | r :: _ => g.modify n fun x => { x with color := r }

/-- The third loop: nodes are popped, connected again and colored. -/
def reconnectAll (t : Target) : List PseudoReg → Graph → Graph
  | [], g => g
  | n :: stack, g => reconnectAll t stack (colorNode t (graphReconnect g n) n)

/-- `color`. -/
def color (t : Target) (size : PseudoReg → Nat) (fuel : Nat) (c : Coloring) :
    Except String Coloring := do
  let c ← disconnectAll t size fuel { c with graph := precolor t c.graph }
  return { c with graph := reconnectAll t c.stack c.graph, stack := [] }

/-! ### Disconnecting and connecting again -/

section
variable {t : Target} {size : PseudoReg → Nat} {adj : PseudoReg → PseudoReg → Prop} {g : Graph}
variable {stack : List PseudoReg} {n m q r : PseudoReg} {c : Coloring}

/-- The half edges that the nodes on the stack keep: those to the nodes `present` when they were
    disconnected. -/
def Kept (adj : PseudoReg → PseudoReg → Prop) (edges : PseudoReg → List PseudoReg) :
    (PseudoReg → Prop) → List PseudoReg → Prop
  | _, [] => True
  | present, s :: stack =>
    (∀ q, q ∈ edges s ↔ adj s q ∧ present q) ∧ Kept adj edges (fun q => q = s ∨ present q) stack

/-- The edges of the graph are those of `adj` between the nodes that are connected; the stack keeps
    the others. -/
structure Linked (adj : PseudoReg → PseudoReg → Prop) (g : Graph) (stack : List PseudoReg) : Prop
    extends g.Sorted where
  disjoint : (g.nodes ++ stack).Nodup
  degree_eq : ∀ n ∈ g.nodes ++ stack, g.degree n = (g.edges n).length
  edges_nodup : ∀ n ∈ g.nodes ++ stack, (g.edges n).Nodup
  connected : ∀ n ∈ g.nodes, ∀ q, q ∈ g.edges n ↔ adj n q ∧ q ∈ g.nodes
  kept : Kept adj g.edges (· ∈ g.nodes) stack

theorem Kept.congr {edges edges' : PseudoReg → List PseudoReg} :
    ∀ {stack : List PseudoReg} {present present' : PseudoReg → Prop},
      (∀ q, present q ↔ present' q) → (∀ s ∈ stack, edges' s = edges s) →
      Kept adj edges present stack → Kept adj edges' present' stack
  | [], _, _, _, _, _ => trivial
  | s :: stack, present, present', hp, he, h => by
    refine ⟨?_, h.2.congr ?_ fun m hm => he m (List.mem_cons_of_mem _ hm)⟩
    · intro q
      rw [he s List.mem_cons_self, h.1 q, hp q]
    · intro q
      rw [hp q]

/-- A symmetric relation without loops: the edges of an interference graph. -/
structure Undirected (adj : PseudoReg → PseudoReg → Prop) : Prop where
  symm : ∀ {n q}, adj n q → adj q n
  irrefl : ∀ n, ¬ adj n n

/-- The neighbors of a connected node are connected, and know it. -/
theorem Linked.mirror (hadj : Undirected adj) (h : Linked adj g stack) (hn : n ∈ g.nodes) :
    ∀ q ∈ g.edges n, q ∈ g.nodes ∧ n ∈ g.edges q := by
  intro q hq
  obtain ⟨ha, hqn⟩ := (h.connected n hn q).mp hq
  exact ⟨hqn, (h.connected q hqn n).mpr ⟨hadj.symm ha, hn⟩⟩

theorem Linked.notMem_edges (hadj : Undirected adj) (h : Linked adj g stack) (hn : n ∈ g.nodes) :
    n ∉ g.edges n := fun he => hadj.irrefl n ((h.connected n hn n).mp he).1

/-- Disconnecting a node never fails. -/
theorem graphDisconnect_ok (hadj : Undirected adj) (h : Linked adj g stack) (hn : n ∈ g.nodes) :
    ∃ g', graphDisconnect g n = .ok g' ∧ g'.Sorted ∧ g'.nodes.Perm (g.nodes.erase n) ∧
      ∀ m, g'.node m = if m ∈ g.edges n then (g.node m).unlink n else g.node m := by
  have hnd := h.edges_nodup n (List.mem_append_left _ hn)
  obtain ⟨g₁, hg₁, hs₁, hp₁, hnode⟩ :=
    foldlM_graphRemoveHalfEdge h.toSorted hnd (h.mirror hadj hn)
  refine ⟨{ g₁ with nodes := g₁.nodes.erase n }, ?_, ⟨hs₁.nodup.erase n, ?_⟩, hp₁.erase n, hnode⟩
  · rw [graphDisconnect, hg₁]
    rfl
  · exact hs₁.descending.sublist (List.erase_sublist ..)

/-- Disconnecting a node moves its edges to the stack. -/
theorem linked_graphDisconnect {g' : Graph} (hadj : Undirected adj) (h : Linked adj g stack)
    (hn : n ∈ g.nodes) (hs : g'.Sorted) (hp : g'.nodes.Perm (g.nodes.erase n))
    (hnode : ∀ m, g'.node m = if m ∈ g.edges n then (g.node m).unlink n else g.node m) :
    Linked adj g' (n :: stack) := by
  have hself := h.notMem_edges hadj hn
  have hmirror := h.mirror hadj hn
  have hmem : ∀ q, q ∈ g'.nodes ↔ q ≠ n ∧ q ∈ g.nodes := by
    intro q
    rw [hp.mem_iff, h.nodup.mem_erase_iff]
  have hedges : ∀ m, m ∉ g.edges n → g'.edges m = g.edges m := by
    intro m hm
    rw [Graph.edges, hnode m, if_neg hm]
    rfl
  have hedges' : ∀ m, m ∈ g.edges n → g'.edges m = (g.edges m).erase n := by
    intro m hm
    rw [Graph.edges, hnode m, if_pos hm]
    rfl
  have hall : (g'.nodes ++ n :: stack).Perm (g.nodes ++ stack) := by
    refine List.perm_middle.trans ?_
    rw [← List.cons_append]
    exact ((hp.cons n).trans (List.perm_cons_erase hn).symm).append_right stack
  refine ⟨hs, hall.nodup_iff.mpr h.disjoint, ?_, ?_, ?_, ?_, ?_⟩
  · intro m hm
    have hd := h.degree_eq m (hall.mem_iff.mp hm)
    rw [Graph.degree, hnode m]
    split
    · next he =>
      rw [hedges' m he, List.length_erase_of_mem (hmirror m he).2, Node.unlink]
      exact congrArg (· - 1) hd
    · next he =>
      rw [hedges m he]
      exact hd
  · intro m hm
    have hd := h.edges_nodup m (hall.mem_iff.mp hm)
    by_cases he : m ∈ g.edges n
    · rw [hedges' m he]
      exact hd.erase n
    · rw [hedges m he]
      exact hd
  · intro m hm q
    rw [hmem] at hm ⊢
    have hconn := h.connected m hm.2 q
    by_cases he : m ∈ g.edges n
    · rw [hedges' m he, (h.edges_nodup m (List.mem_append_left _ hm.2)).mem_erase_iff, hconn]
      tauto
    · have hqn : q ∈ g.edges m → q ≠ n := by
        rintro hq rfl
        exact he ((h.connected q hn m).mpr ⟨hadj.symm (hconn.mp hq).1, hm.2⟩)
      rw [hedges m he]
      rw [hconn] at hqn ⊢
      tauto
  · intro q
    change q ∈ g'.edges n ↔ adj n q ∧ q ∈ g'.nodes
    rw [hedges n hself, h.connected n hn q, hmem]
    have : adj n q → q ≠ n := by
      rintro ha rfl
      exact hadj.irrefl q ha
    tauto
  · refine h.kept.congr ?_ ?_
    · intro q
      change q ∈ g.nodes ↔ q = n ∨ q ∈ g'.nodes
      rw [hmem]
      by_cases hq : q = n
      · exact iff_of_true (hq ▸ hn) (.inl hq)
      · exact ⟨fun hh => .inr ⟨hq, hh⟩, fun hh => (hh.resolve_left hq).2⟩
    · intro s hs
      refine hedges s fun he => ?_
      exact (List.nodup_append.mp h.disjoint).2.2 s (hmirror s he).1 s hs rfl

theorem Linked.top_kept (h : Linked adj g (n :: stack)) :
    n ∉ g.nodes ∧ n ∉ stack ∧ ∀ q, q ∈ g.edges n ↔ adj n q ∧ q ∈ g.nodes := by
  obtain ⟨-, hstack, hcross⟩ := List.nodup_append.mp h.disjoint
  exact ⟨fun hm => hcross n hm n List.mem_cons_self rfl, (List.nodup_cons.mp hstack).1, h.kept.1⟩

theorem graphReconnect_spec (h : Linked adj g (n :: stack)) :
    (graphReconnect g n).Sorted ∧ (graphReconnect g n).nodes.Perm (n :: g.nodes) ∧
      ∀ m, (graphReconnect g n).node m =
        if m ∈ g.edges n then (g.node m).link n else g.node m := by
  obtain ⟨hnotin, -, hkept⟩ := h.top_kept
  have hnd := h.edges_nodup n (List.mem_append_right _ List.mem_cons_self)
  obtain ⟨hs₁, hp₁, hnode⟩ := foldl_graphAddHalfEdge (n := n) h.toSorted hnd
    (fun q hq => ((hkept q).mp hq).2)
  have hnotin₁ := fun hm => hnotin (hp₁.mem_iff.mp hm)
  have hp : (graphReconnect g n).nodes.Perm (n :: g.nodes) := by
    refine (up_perm (List.mem_append_right _ (List.mem_singleton_self n))).trans ?_
    exact (List.perm_append_singleton n _).trans (hp₁.cons n)
  refine ⟨⟨hp.nodup_iff.mpr (List.nodup_cons.mpr ⟨hnotin, h.nodup⟩), ?_⟩, hp, hnode⟩
  exact descending_up_append hs₁.descending hnotin₁

/-- Connecting the node on top of the stack again. -/
theorem linked_graphReconnect (hadj : Undirected adj) (h : Linked adj g (n :: stack)) :
    Linked adj (graphReconnect g n) stack := by
  obtain ⟨hnotin, hnstack, hkept⟩ := h.top_kept
  obtain ⟨hs, hp, hnode⟩ := graphReconnect_spec h
  generalize graphReconnect g n = g' at hs hp hnode
  have hself : n ∉ g.edges n := fun he => hadj.irrefl n ((hkept n).mp he).1
  have hmem : ∀ q, q ∈ g'.nodes ↔ q = n ∨ q ∈ g.nodes := by
    intro q
    rw [hp.mem_iff, List.mem_cons]
  have hedges : ∀ m, m ∉ g.edges n → g'.edges m = g.edges m := by
    intro m hm
    rw [Graph.edges, hnode m, if_neg hm]
    rfl
  have hedges' : ∀ m, m ∈ g.edges n → g'.edges m = n :: g.edges m := by
    intro m hm
    rw [Graph.edges, hnode m, if_pos hm]
    rfl
  have hall : (g'.nodes ++ stack).Perm (g.nodes ++ n :: stack) := by
    refine (hp.append_right stack).trans ?_
    rw [List.cons_append]
    exact List.perm_middle.symm
  have hfresh : ∀ m ∈ g.edges n, n ∉ g.edges m := by
    intro m hm hnm
    exact hnotin ((h.connected m ((hkept m).mp hm).2 n).mp hnm).2
  refine ⟨hs, hall.nodup_iff.mpr h.disjoint, ?_, ?_, ?_, ?_⟩
  · intro m hm
    have hd := h.degree_eq m (hall.mem_iff.mp hm)
    rw [Graph.degree, hnode m]
    split
    · next he =>
      rw [hedges' m he, List.length_cons, ← hd]
      rfl
    · next he =>
      rw [hedges m he]
      exact hd
  · intro m hm
    have hd := h.edges_nodup m (hall.mem_iff.mp hm)
    by_cases he : m ∈ g.edges n
    · rw [hedges' m he]
      exact List.nodup_cons.mpr ⟨hfresh m he, hd⟩
    · rw [hedges m he]
      exact hd
  · intro m hm q
    rw [hmem] at hm ⊢
    rcases eq_or_ne m n with rfl | hmn
    · rw [hedges m hself, hkept q]
      have : adj m q → q ≠ m := by
        rintro ha rfl
        exact hadj.irrefl q ha
      tauto
    · have hm' := hm.resolve_left hmn
      have hconn := h.connected m hm' q
      have hside : m ∈ g.edges n ↔ adj m n := by
        rw [hkept m]
        exact ⟨fun hh => hadj.symm hh.1, fun hh => ⟨hadj.symm hh, hm'⟩⟩
      by_cases he : m ∈ g.edges n
      · rw [hedges' m he, List.mem_cons, hconn]
        have := hside.mp he
        constructor
        · rintro (rfl | hq)
          · exact ⟨this, .inl rfl⟩
          · exact ⟨hq.1, .inr hq.2⟩
        · rintro ⟨ha, rfl | hq⟩
          · exact .inl rfl
          · exact .inr ⟨ha, hq⟩
      · rw [hedges m he, hconn]
        constructor
        · exact fun hq => ⟨hq.1, .inr hq.2⟩
        · rintro ⟨ha, rfl | hq⟩
          · exact absurd (hside.mpr ha) he
          · exact ⟨ha, hq⟩
  · refine h.kept.2.congr ?_ ?_
    · intro q
      rw [hmem]
    · intro s hs
      refine hedges s fun he => ?_
      exact (List.nodup_append.mp h.disjoint).2.2 s ((hkept s).mp he).2 s
        (List.mem_cons_of_mem _ hs) rfl

end

/-! ### Picking -/

section
variable {t : Target} {size : PseudoReg → Nat} {g : Graph} {c : Coloring} {n m q r : PseudoReg}

/-- Only physical registers have a color, their own. -/
def Precolored (t : Target) (g : Graph) (l : List PseudoReg) : Prop :=
  ∀ n ∈ l, g.color n = if t.physical n then n else regNone

/-- A physical register is never merged into another one. -/
theorem coalEligible_src {dst src d s : PseudoReg}
    (h : coalEligible t size g dst src = some (d, s)) :
    s ∈ g.nodes ∧ t.physical s = false := by
  rw [coalEligible] at h
  split at h
  · cases h
  · split at h
    · cases h
    · next hmem =>
      rw [not_or, not_not, not_not] at hmem
      split at h
      · cases h
      · dsimp only at h
        generalize hp : (if t.physical src then (src, dst) else (dst, src)) = p at h
        have hp' : p.1 ∈ g.nodes ∧ p.2 ∈ g.nodes := by
          rw [← hp]
          split
          · exact hmem.symm
          · exact hmem
        split at h
        · cases h
        · next hsrc =>
          rw [Bool.not_eq_true] at hsrc
          split at h
          · next hdst =>
            rw [Bool.and_eq_true, Bool.not_eq_true'] at hdst
            obtain rfl : p.1 = s := congrArg Prod.snd (Option.some.inj h)
            exact ⟨hp'.1, hdst.1⟩
          · obtain rfl : p.2 = s := congrArg Prod.snd (Option.some.inj h)
            exact ⟨hp'.2, hsrc⟩

/-- While nodes are picked there is nothing to coalesce: one side of each copy has no color. -/
theorem later_ok (size : PseudoReg → Nat) (h : Precolored t c.graph c.graph.nodes)
    (copy : PseudoReg × PseudoReg) : later t size c copy = .ok c := by
  rw [later]
  cases he : coalEligible t size c.graph copy.1 copy.2 with
  | none => rfl
  | some p =>
    obtain ⟨hs, hp⟩ := coalEligible_src he
    refine if_pos (.inr ?_)
    rw [h _ hs, hp]
    rfl

theorem later0_ok (size : PseudoReg → Nat) (h : Precolored t c.graph c.graph.nodes) :
    later0 t size c = .ok c := by
  have hfold : ∀ l : List Nat,
      l.foldlM (fun c i => (c.copies[i]?).elim (.ok c) (later t size c)) c = .ok c := by
    intro l
    induction l with
    | nil => rfl
    | cons i l ih =>
      have hstep : (c.copies[i]?).elim (.ok c) (later t size c) = .ok c := by
        cases c.copies[i]? with
        | none => rfl
        | some copy => exact later_ok size h copy
      rw [List.foldlM_cons, hstep]
      exact ih
  exact hfold _

/-- The spill heuristic picks a node without a color, and divides by no zero. -/
theorem pickSpill_ok (h : ∀ n ∈ g.nodes, g.color n = regNone → g.degree n ≠ 0) :
    ∃ p, pickSpill g = .ok p ∧ ∀ n, p.1 = some n → n ∈ g.nodes ∧ g.color n = regNone := by
  have hstep : ∀ {best n}, n ∈ g.nodes →
      (∀ m, best.1 = some m → m ∈ g.nodes ∧ g.color m = regNone) →
      ∃ p, cheaper g best n = .ok p ∧ ∀ m, p.1 = some m → m ∈ g.nodes ∧ g.color m = regNone := by
    intro best n hn hbest
    by_cases hc : g.color n = regNone
    · rw [cheaper, if_neg (not_not_intro hc), if_neg (h n hn hc)]
      refine ⟨_, rfl, ?_⟩
      intro m hm
      split at hm
      · cases hm
        exact ⟨hn, hc⟩
      · exact hbest m hm
    · exact ⟨best, if_pos hc, hbest⟩
  have hfold : ∀ (l : List PseudoReg) (best : Option PseudoReg × Nat), (∀ n ∈ l, n ∈ g.nodes) →
      (∀ m, best.1 = some m → m ∈ g.nodes ∧ g.color m = regNone) →
      ∃ p, l.foldlM (cheaper g) best = .ok p ∧
        ∀ m, p.1 = some m → m ∈ g.nodes ∧ g.color m = regNone := by
    intro l
    induction l with
    | nil => exact fun best _ hbest => ⟨best, rfl, hbest⟩
    | cons n l ih =>
      intro best hl hbest
      obtain ⟨p, hp, hbest'⟩ := hstep (hl n List.mem_cons_self) hbest
      rw [List.foldlM_cons, hp]
      exact ih p (fun m hm => hl m (List.mem_cons_of_mem _ hm)) hbest'
  exact hfold g.nodes _ (fun _ h => h) fun n hn => by cases hn

/-- The uncolored node that is found from the end has the least degree of them. -/
theorem degree_le_of_find? (hs : g.Sorted)
    (hf : g.nodes.reverse.find? (fun n => g.color n == regNone) = some n) (hm : m ∈ g.nodes)
    (hc : g.color m = regNone) : g.degree n ≤ g.degree m := by
  obtain ⟨-, post, pre, heq, hpost⟩ := List.find?_eq_some_iff_append.mp hf
  have hnodes : g.nodes = pre.reverse ++ n :: post.reverse := by
    rw [← List.reverse_reverse g.nodes, heq]
    simp
  have hdesc := hs.descending
  rw [hnodes] at hdesc
  rw [← List.mem_reverse, heq] at hm
  rcases List.mem_append.mp hm with hm | hm
  · have := hpost m hm
    rw [hc] at this
    simp at this
  · rcases List.mem_cons.mp hm with rfl | hm
    · exact le_rfl
    · exact (List.pairwise_append.mp hdesc).2.2 m (List.mem_reverse.mpr hm) n List.mem_cons_self

/-- `graph_pick` returns a node without a color or none, and leaves the graph as it is. -/
theorem graphPick_ok (size : PseudoReg → Nat) (hs : c.graph.Sorted)
    (h : Precolored t c.graph c.graph.nodes) :
    ∃ pick c', (∀ fuel, graphPick t size (fuel + 1) c = .ok (pick, c')) ∧ c'.graph = c.graph ∧
      c'.stack = c.stack ∧
      ∀ n, pick = some n → n ∈ c.graph.nodes ∧ c.graph.color n = regNone := by
  have hlater := later0_ok size (c := { c with changed := false }) h
  cases hf : c.graph.nodes.reverse.find? (fun n => c.graph.color n == regNone) with
  | none =>
    have hall : ∀ n ∈ c.graph.nodes, c.graph.color n = regNone → c.graph.degree n ≠ 0 := by
      intro n hn hc
      have := List.find?_eq_none.mp hf n (List.mem_reverse.mpr hn)
      rw [hc] at this
      simp at this
    obtain ⟨p, hp, hpick⟩ := pickSpill_ok hall
    refine ⟨p.1, { c with changed := false }, fun fuel => ?_, rfl, rfl, hpick⟩
    simp only [graphPick, hf, hlater, Option.any_none]
    change (pickSpill c.graph).map _ = _
    rw [hp]
    rfl
  | some n =>
    by_cases hk : c.graph.degree n < t.k n
    · refine ⟨some n, c, fun fuel => ?_, rfl, rfl, ?_⟩
      · simp only [graphPick, hf, Option.any_some, hk, decide_true, if_true]
      · rintro m hm
        cases hm
        obtain ⟨hc, _, _, heq, -⟩ := List.find?_eq_some_iff_append.mp hf
        refine ⟨List.mem_reverse.mp ?_, beq_iff_eq.mp hc⟩
        rw [heq]
        exact List.mem_append_right _ List.mem_cons_self
    · have hall : ∀ m ∈ c.graph.nodes, c.graph.color m = regNone → c.graph.degree m ≠ 0 := by
        intro m hm hc
        have hle := degree_le_of_find? hs hf hm hc
        have hpos := t.k_pos n
        omega
      obtain ⟨p, hp, hpick⟩ := pickSpill_ok hall
      refine ⟨p.1, { c with changed := false }, fun fuel => ?_, rfl, rfl, hpick⟩
      simp only [graphPick, hf, hlater, Option.any_some, hk, decide_false]
      change (pickSpill c.graph).map _ = _
      rw [hp]
      rfl

end

/-! ### Every node is colored or spilled -/

section
variable {t : Target} {size : PseudoReg → Nat} {adj : PseudoReg → PseudoReg → Prop} {g : Graph}
variable {stack : List PseudoReg} {n m q r : PseudoReg} {c : Coloring}

/-- The first phase ends with every node that was picked on the stack. -/
theorem disconnectAll_ok (size : PseudoReg → Nat) (hadj : Undirected adj) :
    ∀ (k : Nat) {c : Coloring}, c.graph.nodes.length = k → Linked adj c.graph c.stack →
    Precolored t c.graph (c.graph.nodes ++ c.stack) → (∀ n ∈ c.stack, t.physical n = false) →
    regNone ∉ c.graph.nodes →
    ∃ c', (∀ fuel, k + 1 < fuel → disconnectAll t size fuel c = .ok c') ∧
      Linked adj c'.graph c'.stack ∧ Precolored t c'.graph (c'.graph.nodes ++ c'.stack) ∧
      (∀ n ∈ c'.stack, t.physical n = false) ∧
      (c'.graph.nodes ++ c'.stack).Perm (c.graph.nodes ++ c.stack) := by
  intro k
  induction k using Nat.strong_induction_on with
  | _ k ih =>
  intro c hk hl hpre hstack hnone
  obtain ⟨pick, c₁, hpick, hg₁, hst₁, hn⟩ := graphPick_ok size hl.toSorted
    (fun n hm => hpre n (List.mem_append_left _ hm))
  have hfuel : ∀ {fuel}, k + 1 < fuel → ∃ f, fuel = f + 1 + 1 ∧ k ≤ f := by
    intro fuel hf
    exact ⟨fuel - 2, by omega, by omega⟩
  cases pick with
  | none =>
    refine ⟨c₁, fun fuel hf => ?_, ?_⟩
    · obtain ⟨f, rfl, -⟩ := hfuel hf
      rw [disconnectAll, hpick]
      rfl
    · rw [hg₁, hst₁]
      exact ⟨hl, hpre, hstack, List.Perm.refl _⟩
  | some n =>
    obtain ⟨hmem, hc⟩ := hn n rfl
    obtain ⟨g₂, hg₂, hs₂, hp₂, hnode⟩ := graphDisconnect_ok hadj hl hmem
    have hl₂ := linked_graphDisconnect hadj hl hmem hs₂ hp₂ hnode
    have hcolor : ∀ m, g₂.color m = c.graph.color m := by
      intro m
      rw [Graph.color, hnode m]
      split <;> rfl
    have hperm : (g₂.nodes ++ n :: c.stack).Perm (c.graph.nodes ++ c.stack) := by
      refine List.perm_middle.trans ?_
      rw [← List.cons_append]
      exact ((hp₂.cons n).trans (List.perm_cons_erase hmem).symm).append_right c.stack
    have hphys : t.physical n = false := by
      have hcn := hpre n (List.mem_append_left _ hmem)
      rcases hp : t.physical n with _ | _
      · rfl
      · rw [hp, if_pos rfl] at hcn
        rw [hcn] at hc
        exact absurd (hc ▸ hmem) hnone
    have hlen : g₂.nodes.length + 1 = k := by
      rw [hp₂.length_eq, List.length_erase_of_mem hmem, hk]
      have := List.length_pos_of_mem hmem
      omega
    obtain ⟨c', hc', hrest⟩ := ih g₂.nodes.length (by omega)
      (c := { c₁ with graph := g₂, stack := n :: c.stack }) rfl hl₂
      (fun m hm => by rw [hcolor m]; exact hpre m (hperm.mem_iff.mp hm))
      (fun m hm => by
        rcases List.mem_cons.mp hm with rfl | hm
        · exact hphys
        · exact hstack m hm)
      (fun hm => hnone (List.mem_of_mem_erase (hp₂.mem_iff.mp hm)))
    refine ⟨c', fun fuel hf => ?_, hrest.1, hrest.2.1, hrest.2.2.1, hrest.2.2.2.trans hperm⟩
    obtain ⟨f, rfl, hf'⟩ := hfuel hf
    rw [disconnectAll, hpick]
    change (graphDisconnect c₁.graph n >>= _) = _
    rw [hg₁, hg₂, hst₁]
    exact hc' (f + 1) (by omega)

/-- What coloring keeps while nodes are connected again. -/
structure Colored (t : Target) (adj : PseudoReg → PseudoReg → Prop) (g : Graph)
    (stack : List PseudoReg) : Prop where
  own : ∀ n ∈ g.nodes, t.physical n = true → g.color n = n
  inClass : ∀ n ∈ g.nodes, t.physical n = false → g.color n = regNone ∨ g.color n ∈ t.colors n
  proper : ∀ n ∈ g.nodes, ∀ q ∈ g.nodes, adj n q → g.color n ≠ regNone → g.color n ≠ g.color q
  waiting : ∀ n ∈ stack, t.physical n = false ∧ g.color n = regNone

theorem mem_regsDiff : ∀ {src dst : Regs}, dst.Nodup → (r ∈ regsDiff dst src ↔ r ∈ dst ∧ r ∉ src)
  | [], dst, _ => by simp [regsDiff]
  | q :: src, dst, h => by
    rw [regsDiff, List.foldl_cons, ← regsDiff, mem_regsDiff (h.erase q), h.mem_erase_iff,
      List.mem_cons]
    tauto

theorem mem_graphNeighborColors : r ∈ graphNeighborColors g n [] ↔
    ∃ q ∈ g.edges n, g.color q ≠ regNone ∧ r = g.color q := by
  have hfold : ∀ (l : List PseudoReg) (s : Regs),
      r ∈ l.foldl (fun s q => if g.color q ≠ regNone then regsAdd s (g.color q) else s) s ↔
        r ∈ s ∨ ∃ q ∈ l, g.color q ≠ regNone ∧ r = g.color q := by
    intro l
    induction l with
    | nil => simp
    | cons q l ih =>
      intro s
      rw [List.foldl_cons, ih]
      split
      · next h => simp [h, or_assoc, or_left_comm]
      · next h => simp [not_not.mp h]
  rw [graphNeighborColors, hfold]
  simp

/-- `colorNode` changes nothing but the color, to one that no neighbor has. -/
theorem colorNode_spec (t : Target) (g : Graph) (n : PseudoReg) :
    (colorNode t g n).nodes = g.nodes ∧
      (∀ m, (colorNode t g n).degree m = g.degree m ∧ (colorNode t g n).edges m = g.edges m) ∧
      (∀ m, m ≠ n → (colorNode t g n).color m = g.color m) ∧
      ((colorNode t g n).color n = g.color n ∨
        (colorNode t g n).color n ∈ t.colors n ∧
          ∀ q ∈ g.edges n, g.color q ≠ regNone → (colorNode t g n).color n ≠ g.color q) := by
  rw [colorNode]
  split
  · exact ⟨rfl, fun m => ⟨rfl, rfl⟩, fun m _ => rfl, .inl rfl⟩
  · next r rest heq =>
    have hnd : (t.colors n).Nodup := by
      refine List.Pairwise.imp ?_ (sorted_regsUnion (t.icolors n) List.Pairwise.nil)
      intro a b hab he
      exact BitVec.lt_irrefl a (he ▸ hab)
    have hr : r ∈ t.colors n ∧ r ∉ graphNeighborColors g n [] := by
      rw [← mem_regsDiff hnd, heq]
      exact List.mem_cons_self
    have hother : ∀ m, m ≠ n → (g.modify n fun x => { x with color := r }).node m = g.node m :=
      fun m hm => Graph.node_modify_of_ne hm
    have hself : (g.modify n fun x => { x with color := r }).color n = r :=
      congrArg Node.color Graph.node_modify_self
    refine ⟨rfl, fun m => ?_, fun m hm => congrArg Node.color (hother m hm), .inr ?_⟩
    · rcases eq_or_ne m n with rfl | hm
      · have hnode := Graph.node_modify_self (g := g) (n := m) (f := fun x => { x with color := r })
        exact ⟨(congrArg Node.degree hnode).trans rfl, (congrArg Node.edges hnode).trans rfl⟩
      · exact ⟨congrArg Node.degree (hother m hm), congrArg Node.edges (hother m hm)⟩
    · rw [hself]
      refine ⟨hr.1, fun q hq hc he => hr.2 ?_⟩
      exact mem_graphNeighborColors.mpr ⟨q, hq, hc, he⟩

theorem Linked.congr {g' : Graph} (h : Linked adj g stack) (hn : g'.nodes = g.nodes)
    (he : ∀ m, g'.degree m = g.degree m ∧ g'.edges m = g.edges m) : Linked adj g' stack := by
  refine ⟨⟨?_, ?_⟩, ?_, ?_, ?_, ?_, ?_⟩
  · rw [hn]
    exact h.nodup
  · rw [hn]
    exact h.descending.congr fun m _ => (he m).1
  · rw [hn]
    exact h.disjoint
  · intro m hm
    rw [hn] at hm
    rw [(he m).1, (he m).2]
    exact h.degree_eq m hm
  · intro m hm
    rw [hn] at hm
    rw [(he m).2]
    exact h.edges_nodup m hm
  · intro m hm q
    rw [hn] at hm ⊢
    rw [(he m).2]
    exact h.connected m hm q
  · rw [hn]
    exact h.kept.congr (fun q => Iff.rfl) fun s _ => (he s).2

/-- One node is connected again and colored. -/
theorem colored_step (hadj : Undirected adj) (hl : Linked adj g (n :: stack))
    (h : Colored t adj g (n :: stack)) :
    Linked adj (colorNode t (graphReconnect g n) n) stack ∧
      Colored t adj (colorNode t (graphReconnect g n) n) stack ∧
      (colorNode t (graphReconnect g n) n).nodes.Perm (n :: g.nodes) := by
  obtain ⟨-, hp, hnode⟩ := graphReconnect_spec hl
  have hl₁ := linked_graphReconnect hadj hl
  obtain ⟨hnotin, hnstack, -⟩ := hl.top_kept
  obtain ⟨hnphys, hnnone⟩ := h.waiting n List.mem_cons_self
  have hcol₁ : ∀ m, (graphReconnect g n).color m = g.color m := by
    intro m
    rw [Graph.color, hnode m]
    split <;> rfl
  generalize graphReconnect g n = g₁ at hp hl₁ hcol₁
  obtain ⟨hnodes, hedges, hother, hself⟩ := colorNode_spec t g₁ n
  have hl₂ := hl₁.congr hnodes hedges
  generalize colorNode t g₁ n = g₂ at hnodes hedges hother hself hl₂
  have hmem : ∀ m, m ∈ g₂.nodes ↔ m = n ∨ m ∈ g.nodes := by
    intro m
    rw [hnodes, hp.mem_iff, List.mem_cons]
  have hold : ∀ m, m ≠ n → g₂.color m = g.color m := fun m hm => (hother m hm).trans (hcol₁ m)
  have hne : ∀ m ∈ g.nodes, m ≠ n := fun m hm he => hnotin (he ▸ hm)
  rw [hcol₁ n, hnnone] at hself
  -- the new color against a neighbor that is connected already
  have hclash : ∀ m ∈ g.nodes, adj n m → g₂.color n = regNone ∨
      g.color m = regNone ∨ g₂.color n ≠ g.color m := by
    intro m hm ha
    rcases hself with hs | ⟨-, hs⟩
    · exact .inl hs
    · rcases eq_or_ne (g.color m) regNone with hc | hc
      · exact .inr (.inl hc)
      · have hmn : m ∈ g₁.edges n :=
          (hl₁.connected n (hp.mem_iff.mpr List.mem_cons_self) m).mpr
            ⟨ha, hp.mem_iff.mpr (List.mem_cons_of_mem _ hm)⟩
        rw [← hcol₁ m]
        exact .inr (.inr (hs m hmn (by rw [hcol₁ m]; exact hc)))
  refine ⟨hl₂, ⟨?_, ?_, ?_, ?_⟩, by rw [hnodes]; exact hp⟩
  · intro m hm hphys
    rcases (hmem m).mp hm with rfl | hm
    · rw [hnphys] at hphys
      cases hphys
    · rw [hold m (hne m hm)]
      exact h.own m hm hphys
  · intro m hm hphys
    rcases (hmem m).mp hm with rfl | hm
    · exact hself.imp_right And.left
    · rw [hold m (hne m hm)]
      exact h.inClass m hm hphys
  · intro a ha b hb hab hca
    rcases (hmem a).mp ha with rfl | ha
    · rcases (hmem b).mp hb with rfl | hb
      · exact absurd hab (hadj.irrefl _)
      · rw [hold b (hne b hb)]
        rcases hclash b hb hab with hc | hc | hc
        · exact absurd hc hca
        · rw [hc]
          exact hca
        · exact hc
    · rw [hold a (hne a ha)] at hca ⊢
      rcases (hmem b).mp hb with rfl | hb
      · rcases hclash a ha (hadj.symm hab) with hc | hc | hc
        · rw [hc]
          exact hca
        · exact absurd hc hca
        · exact hc.symm
      · rw [hold b (hne b hb)]
        exact h.proper a ha b hb hab hca
  · intro m hm
    have hmn : m ≠ n := by
      rintro rfl
      exact hnstack hm
    rw [hold m hmn]
    exact h.waiting m (List.mem_cons_of_mem _ hm)

theorem reconnectAll_ok (hadj : Undirected adj) : ∀ {stack : List PseudoReg} {g : Graph},
    Linked adj g stack → Colored t adj g stack →
    Linked adj (reconnectAll t stack g) [] ∧ Colored t adj (reconnectAll t stack g) [] ∧
      (reconnectAll t stack g).nodes.Perm (g.nodes ++ stack)
  | [], g, hl, h => ⟨hl, h, by rw [List.append_nil]; exact List.Perm.refl _⟩
  | n :: stack, g, hl, h => by
    obtain ⟨hl₁, h₁, hp₁⟩ := colored_step hadj hl h
    obtain ⟨hl₂, h₂, hp₂⟩ := reconnectAll_ok hadj hl₁ h₁
    refine ⟨hl₂, h₂, hp₂.trans ((hp₁.append_right stack).trans ?_)⟩
    rw [List.cons_append]
    exact List.perm_middle.symm

end

/-! ### color -/

section
variable {t : Target} {size : PseudoReg → Nat} {g : Graph} {c : Coloring} {n m q : PseudoReg}

/-- The edges of a graph. -/
def Graph.Adj (g : Graph) (n q : PseudoReg) : Prop := n ∈ g.nodes ∧ q ∈ g.edges n

theorem Graph.Valid.undirected (h : g.Valid) : Undirected g.Adj where
  symm := fun ⟨hn, hq⟩ => ⟨h.edges_nodes _ hn _ hq, h.edges_symm _ hn _ hq⟩
  irrefl := fun n ⟨hn, hq⟩ => h.edges_irrefl n hn hq

theorem node_precolor : (precolor t g).nodes = g.nodes ∧
    ∀ m, (precolor t g).node m =
      if m ∈ g.nodes then { g.node m with color := if t.physical m then m else regNone }
      else g.node m := by
  have hfold : ∀ (l : List PseudoReg) (g : Graph),
      (l.foldl (fun g n => g.modify n fun x =>
        { x with color := if t.physical n then n else regNone }) g).nodes = g.nodes ∧
      ∀ m, (l.foldl (fun g n => g.modify n fun x =>
        { x with color := if t.physical n then n else regNone }) g).node m =
          if m ∈ l then { g.node m with color := if t.physical m then m else regNone }
          else g.node m := by
    intro l
    induction l with
    | nil => exact fun g => ⟨rfl, fun m => (if_neg List.not_mem_nil).symm⟩
    | cons n l ih =>
      intro g
      obtain ⟨hn, hnode⟩ := ih (g.modify n fun x =>
        { x with color := if t.physical n then n else regNone })
      refine ⟨hn, fun m => ?_⟩
      rw [List.foldl_cons, hnode m]
      rcases eq_or_ne m n with rfl | hm
      · rw [Graph.node_modify_self, if_pos List.mem_cons_self]
        split <;> rfl
      · rw [Graph.node_modify_of_ne hm]
        simp [List.mem_cons, hm]
  exact hfold g.nodes g

/-- Coloring sets the colors of a graph whose nodes are all connected. -/
theorem linked_precolor (h : g.Valid) : Linked g.Adj (precolor t g) [] ∧
    Precolored t (precolor t g) (precolor t g).nodes := by
  obtain ⟨hn, hnode⟩ := node_precolor (t := t) (g := g)
  have hedges : ∀ m, (precolor t g).degree m = g.degree m ∧ (precolor t g).edges m = g.edges m := by
    intro m
    rw [Graph.degree, Graph.edges, hnode m]
    split <;> exact ⟨rfl, rfl⟩
  have hl : Linked g.Adj g [] := by
    refine ⟨h.toSorted, ?_, ?_, ?_, ?_, trivial⟩
    · rw [List.append_nil]
      exact h.nodup
    · rw [List.append_nil]
      exact h.degree_eq
    · rw [List.append_nil]
      exact h.edges_nodup
    · exact fun n hn q => ⟨fun hq => ⟨⟨hn, hq⟩, h.edges_nodes n hn q hq⟩, fun hq => hq.1.2⟩
  refine ⟨hl.congr hn hedges, fun m hm => ?_⟩
  rw [hn] at hm
  rw [Graph.color, hnode m, if_pos hm]

/-- `color` ends, with every node that is no physical register spilled or given a color of its class
    that no neighbor has; the graph has its edges back, and nothing was divided by zero. -/
theorem color_proper (t : Target) (size : PseudoReg → Nat) (c : Coloring) (h : c.graph.Valid)
    (hs : c.stack = []) :
    ∃ c', Yields (fun fuel => color t size fuel c) (.ok c') ∧ c'.stack = [] ∧
      c'.graph.nodes.Perm c.graph.nodes ∧
      ∀ n ∈ c.graph.nodes, (c'.graph.edges n).Perm (c.graph.edges n) ∧
        (t.physical n = true → c'.graph.color n = n) ∧
        (t.physical n = false → c'.graph.color n = regNone ∨
          c'.graph.color n ∈ t.colors n ∧
            ∀ q ∈ c.graph.edges n, c'.graph.color n ≠ c'.graph.color q) := by
  have hadj := h.undirected
  obtain ⟨hl, hpre⟩ := linked_precolor (t := t) h
  have hnodes := (node_precolor (t := t) (g := c.graph)).1
  obtain ⟨c₁, hc₁, hl₁, hpre₁, hphys₁, hp₁⟩ := disconnectAll_ok (t := t) size hadj
    (precolor t c.graph).nodes.length (c := { c with graph := precolor t c.graph }) rfl
    (by rw [hs]; exact hl) (by rw [hs, List.append_nil]; exact hpre)
    (by rw [hs]; exact List.forall_mem_nil _) (by rw [hnodes]; exact h.notNone)
  have hp : (c₁.graph.nodes ++ c₁.stack).Perm c.graph.nodes := by
    refine hp₁.trans ?_
    rw [hs, List.append_nil, hnodes]
  have hcol : Colored t c.graph.Adj c₁.graph c₁.stack := by
    have hown : ∀ n ∈ c₁.graph.nodes, c₁.graph.color n = n ∨ c₁.graph.color n = regNone := by
      intro n hn
      rw [hpre₁ n (List.mem_append_left _ hn)]
      split
      · exact .inl rfl
      · exact .inr rfl
    refine ⟨?_, ?_, ?_, ?_⟩
    · intro n hn hphys
      rw [hpre₁ n (List.mem_append_left _ hn), hphys, if_pos rfl]
    · intro n hn hphys
      rw [hpre₁ n (List.mem_append_left _ hn), hphys]
      exact .inl rfl
    · intro n hn q hq ha hc
      have hnq : n ≠ q := by
        rintro rfl
        exact hadj.irrefl n ha
      rcases hown q hq with hq' | hq'
      · rw [(hown n hn).resolve_right hc, hq']
        exact hnq
      · rw [hq']
        exact hc
    · intro n hn
      refine ⟨hphys₁ n hn, ?_⟩
      rw [hpre₁ n (List.mem_append_right _ hn), hphys₁ n hn]
      rfl
  obtain ⟨hl₂, hcol₂, hp₂⟩ := reconnectAll_ok hadj hl₁ hcol
  have hp₃ : (reconnectAll t c₁.stack c₁.graph).nodes.Perm c.graph.nodes := hp₂.trans hp
  refine ⟨{ c₁ with graph := reconnectAll t c₁.stack c₁.graph, stack := [] }, ?_, rfl, hp₃, ?_⟩
  · refine ⟨(precolor t c.graph).nodes.length + 2, fun fuel hf => ?_⟩
    change (disconnectAll t size fuel _ >>= _) = _
    rw [hc₁ fuel hf]
    rfl
  · intro n hn
    have hn' : n ∈ (reconnectAll t c₁.stack c₁.graph).nodes := hp₃.mem_iff.mpr hn
    have hedge : ∀ q, q ∈ (reconnectAll t c₁.stack c₁.graph).edges n ↔ q ∈ c.graph.edges n := by
      intro q
      rw [hl₂.connected n hn' q, hp₃.mem_iff]
      exact ⟨fun hq => hq.1.2, fun hq => ⟨⟨hn, hq⟩, h.edges_nodes n hn q hq⟩⟩
    refine ⟨?_, hcol₂.own n hn', fun hphys => ?_⟩
    · refine (List.perm_ext_iff_of_nodup ?_ (h.edges_nodup n hn)).mpr hedge
      exact hl₂.edges_nodup n (List.mem_append_left _ hn')
    · rcases eq_or_ne ((reconnectAll t c₁.stack c₁.graph).color n) regNone with hc | hc
      · exact .inl hc
      · refine .inr ⟨(hcol₂.inClass n hn' hphys).resolve_left hc, fun q hq => ?_⟩
        exact hcol₂.proper n hn' q (hp₃.mem_iff.mpr (h.edges_nodes n hn q hq)) ⟨hn, hq⟩ hc

end

/-! ### AMD64 -/

/-- AMD64_IS_IREG. -/
def amd64IsIreg (r : PseudoReg) : Bool := r &&& 0x00100000 == 0

/-- The registers of the AMD64 target (amd64/reg.c). -/
def amd64 : Target where
  physical r := decide ((r &&& 0x000FFFFF).toNat < 16)
  k r := if amd64IsIreg r then 12 else 14
  icolors r :=
    if amd64IsIreg r then [2, 3, 4, 0, 1, 7, 8, 11, 12, 13, 14, 15]
    else (List.range 14).map fun i => BitVec.ofNat 32 i ||| 0x00100000
  k_pos r := by split <;> decide

/-- As many colors as `reg_k` says. -/
theorem amd64_colors_length (r : PseudoReg) : (amd64.colors r).length = amd64.k r := by
  cases h : amd64IsIreg r <;> simp only [Target.colors, amd64, h] <;> decide

/-- A variable that interferes with RAX gets another register. -/
theorem color_proper_edge : ∃ c',
    Yields (fun fuel => color amd64 (fun _ => 8) fuel
      ⟨graphAddEdge (graphLookup (graphLookup graphEmpty 2) 16) 2 16, [], [], false⟩) (.ok c') ∧
    c'.graph.color 2 = 2 ∧ (c'.graph.color 16 = regNone ∨ c'.graph.color 16 ≠ 2) := by
  have h2 : (2 : PseudoReg) ∈ (graphLookup (graphLookup graphEmpty 2) 16).nodes := by decide
  have h16 : (16 : PseudoReg) ∈ (graphLookup (graphLookup graphEmpty 2) 16).nodes := by decide
  have hv : (graphAddEdge (graphLookup (graphLookup graphEmpty 2) 16) 2 16).Valid :=
    valid_graphAddEdge (valid_graphLookup (valid_graphLookup valid_graphEmpty (by decide))
      (by decide)) h2 h16 (by decide)
  obtain ⟨c', hc', -, -, hn⟩ := color_proper amd64 (fun _ => 8)
    ⟨graphAddEdge (graphLookup (graphLookup graphEmpty 2) 16) 2 16, [], [], false⟩ hv rfl
  have hown : c'.graph.color 2 = 2 := (hn 2 (by decide)).2.1 (by decide)
  refine ⟨c', hc', hown, ?_⟩
  refine ((hn 16 (by decide)).2.2 (by decide)).imp_right fun h => ?_
  rw [← hown]
  exact h.2 2 (by decide)

end Ncc
