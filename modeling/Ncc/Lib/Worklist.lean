import Mathlib

/-! A worklist: explore a graph from a node, with the set of the nodes that were seen and a stack of
    those whose neighbours are still to be looked at.

    The nodes of `base` count as seen from the start, so the search does not go through them. It ends
    with `base` and the nodes that can be reached around it (`mem_explore`). A node is pushed when it
    is seen first, so one unit of fuel for each node is enough (`explore_ends`). -/

namespace Ncc

/-- The nodes seen so far, and those of them that wait. -/
structure Worklist (ν : Type*) where
  seen : Finset ν
  stack : List ν

namespace Worklist

variable {ν : Type*} [DecidableEq ν]

/-- See a node: push it, unless it was seen before. -/
def see (w : Worklist ν) (b : ν) : Worklist ν :=
  if b ∈ w.seen then w else ⟨insert b w.seen, b :: w.stack⟩

/-- Pop nodes and see their neighbours, until the stack is empty. -/
def explore (next : ν → List ν) : ℕ → Worklist ν → Option (Finset ν)
  | 0, _ => none
  | _ + 1, ⟨seen, []⟩ => some seen
  | n + 1, ⟨seen, b :: stack⟩ => explore next n ((next b).foldl see ⟨seen, stack⟩)

/-- A node that can be reached from `start` without entering `base`. -/
def Around (next : ν → List ν) (base : Finset ν) (start b : ν) : Prop :=
  Relation.ReflTransGen (fun b c => c ∈ next b ∧ c ∉ base) start b

section
variable {next : ν → List ν} {base s : Finset ν} {start b : ν} {w : Worklist ν}

omit [DecidableEq ν] in
theorem Around.notMem (hstart : start ∉ base) (h : Around next base start b) : b ∉ base := by
  rcases Relation.ReflTransGen.cases_tail h with rfl | ⟨_, _, hstep⟩
  · exact hstart
  · exact hstep.2

/-! ### Seeing a list of nodes -/

theorem mem_seen_see {c : ν} : c ∈ (w.see b).seen ↔ c ∈ w.seen ∨ c = b := by
  unfold see
  split
  · rename_i hb
    constructor
    · exact Or.inl
    · rintro (h | rfl)
      · exact h
      · exact hb
  · rw [Finset.mem_insert, or_comm]

theorem mem_stack_see {c : ν} : c ∈ (w.see b).stack ↔ c ∈ w.stack ∨ c = b ∧ b ∉ w.seen := by
  unfold see
  split
  · rename_i hb
    simp [hb]
  · rename_i hb
    rw [List.mem_cons, or_comm, and_iff_left hb]

theorem mem_seen_foldl {l : List ν} {c : ν} :
    c ∈ (l.foldl see w).seen ↔ c ∈ w.seen ∨ c ∈ l := by
  induction l generalizing w with
  | nil => simp
  | cons b l ih => rw [List.foldl_cons, ih, mem_seen_see, List.mem_cons, or_assoc]

theorem mem_stack_foldl {l : List ν} {c : ν} :
    c ∈ (l.foldl see w).stack ↔ c ∈ w.stack ∨ c ∈ l ∧ c ∉ w.seen := by
  induction l generalizing w with
  | nil => simp
  | cons b l ih =>
    rw [List.foldl_cons, ih, mem_stack_see, mem_seen_see, List.mem_cons]
    by_cases hcb : c = b
    · subst hcb
      tauto
    · simp only [hcb, or_false, false_or, false_and]

/-! ### What the search ends with -/

/-- What has been seen was reached, and the neighbours of a node that no longer waits were seen. -/
structure Exploring (next : ν → List ν) (base : Finset ν) (start : ν) (w : Worklist ν) : Prop where
  subset : base ⊆ w.seen
  start_mem : start ∈ w.seen
  seen : ∀ b ∈ w.seen, b ∈ base ∨ Around next base start b
  stack : ∀ b ∈ w.stack, Around next base start b
  closed : ∀ b ∈ w.seen, b ∉ base → b ∉ w.stack → ∀ c ∈ next b, c ∈ w.seen

theorem exploring_start (hstart : start ∉ base) :
    Exploring next base start (see ⟨base, []⟩ start) := by
  refine ⟨fun b hb => mem_seen_see.mpr (Or.inl hb), mem_seen_see.mpr (Or.inr rfl),
    fun b hb => ?_, fun b hb => ?_, fun b hb hbase hstack => ?_⟩
  · rcases mem_seen_see.mp hb with h | rfl
    · exact Or.inl h
    · exact Or.inr .refl
  · obtain h | ⟨rfl, _⟩ := mem_stack_see.mp hb
    · exact absurd h List.not_mem_nil
    · exact .refl
  · obtain rfl : b = start := (mem_seen_see.mp hb).resolve_left hbase
    exact absurd (mem_stack_see.mpr (Or.inr ⟨rfl, hbase⟩)) hstack

/-- One turn of the search. -/
theorem Exploring.pop {seen : Finset ν} {stack : List ν}
    (h : Exploring next base start ⟨seen, b :: stack⟩) :
    Exploring next base start ((next b).foldl see ⟨seen, stack⟩) := by
  have hb : Around next base start b := h.stack b (List.mem_cons_self ..)
  have hnext : ∀ c ∈ next b, c ∈ base ∨ Around next base start c := by
    intro c hc
    by_cases hbase : c ∈ base
    · exact Or.inl hbase
    · exact Or.inr (hb.tail ⟨hc, hbase⟩)
  refine ⟨fun c hc => mem_seen_foldl.mpr (Or.inl (h.subset hc)),
    mem_seen_foldl.mpr (Or.inl h.start_mem), fun c hc => ?_, fun c hc => ?_,
    fun c hc hbase hstack d hd => mem_seen_foldl.mpr ?_⟩
  · rcases mem_seen_foldl.mp hc with hc | hc
    · exact h.seen c hc
    · exact hnext c hc
  · obtain hc | ⟨hc, hfresh⟩ := mem_stack_foldl.mp hc
    · exact h.stack c (List.mem_cons_of_mem _ hc)
    · exact (hnext c hc).resolve_left fun hbase => hfresh (h.subset hbase)
  · rw [mem_stack_foldl, not_or, not_and_not_right] at hstack
    have hseen : c ∈ seen := (mem_seen_foldl.mp hc).elim id hstack.2
    by_cases hcb : c = b
    · subst hcb
      exact Or.inr hd
    · have hwait : c ∉ b :: stack := by
        rw [List.mem_cons, not_or]
        exact ⟨hcb, hstack.1⟩
      exact Or.inl (h.closed c hseen hbase hwait d hd)

theorem Exploring.end : ∀ {n : ℕ} {w : Worklist ν}, Exploring next base start w →
    explore next n w = some s → Exploring next base start ⟨s, []⟩
  | 0, _, _, hs => nomatch hs
  | _ + 1, ⟨_, []⟩, h, hs => Option.some.inj hs ▸ h
  | n + 1, ⟨_, _ :: _⟩, h, hs => Exploring.end (n := n) h.pop hs

/-- The search ends with `base`, and what can be reached around it. -/
theorem mem_explore {n : ℕ} (hstart : start ∉ base)
    (hs : explore next n (see ⟨base, []⟩ start) = some s) :
    b ∈ s ↔ b ∈ base ∨ Around next base start b := by
  have h : Exploring next base start ⟨s, []⟩ := (exploring_start hstart).end hs
  refine ⟨h.seen b, ?_⟩
  rintro (hb | hb)
  · exact h.subset hb
  · induction hb with
    | refl => exact h.start_mem
    | tail hab hbc ih =>
      exact h.closed _ ih (Around.notMem hstart hab) List.not_mem_nil _ hbc.1

/-! ### Termination -/

/-- How many nodes can still be popped. -/
def room (nodes : Finset ν) (w : Worklist ν) : ℕ := (nodes \ w.seen).card + w.stack.length

variable {nodes : Finset ν}

theorem room_see (hb : b ∈ nodes) : room nodes (w.see b) = room nodes w := by
  unfold see
  split
  · rfl
  · rename_i hfresh
    have hmem : b ∈ nodes \ w.seen := Finset.mem_sdiff.mpr ⟨hb, hfresh⟩
    have hcard : (nodes \ insert b w.seen).card + 1 = (nodes \ w.seen).card := by
      rw [Finset.sdiff_insert, Finset.card_erase_add_one hmem]
    show (nodes \ insert b w.seen).card + (w.stack.length + 1) =
      (nodes \ w.seen).card + w.stack.length
    omega

theorem room_foldl {l : List ν} (hl : ∀ b ∈ l, b ∈ nodes) :
    room nodes (l.foldl see w) = room nodes w := by
  induction l generalizing w with
  | nil => rfl
  | cons b l ih =>
    rw [List.foldl_cons, ih fun c hc => hl c (List.mem_cons_of_mem _ hc),
      room_see (hl b (List.mem_cons_self ..))]

/-- The search ends: every turn takes a node from the room that is left. -/
theorem explore_ends (hnodes : ∀ b ∈ nodes, ∀ c ∈ next b, c ∈ nodes) :
    ∀ {n : ℕ} {w : Worklist ν}, (∀ b ∈ w.stack, b ∈ nodes) → room nodes w < n →
      ∃ s, explore next n w = some s
  | 0, _, _, h => absurd h (Nat.not_lt_zero _)
  | _ + 1, ⟨seen, []⟩, _, _ => ⟨seen, rfl⟩
  | n + 1, ⟨seen, b :: stack⟩, hstack, h => by
      have hb : ∀ c ∈ next b, c ∈ nodes := hnodes b (hstack b (List.mem_cons_self ..))
      refine explore_ends hnodes (n := n) (w := (next b).foldl see ⟨seen, stack⟩) (fun c hc => ?_) ?_
      · obtain hc | ⟨hc, _⟩ := mem_stack_foldl.mp hc
        · exact hstack c (List.mem_cons_of_mem _ hc)
        · exact hb c hc
      · rw [room_foldl hb]
        have hlt : (nodes \ seen).card + (stack.length + 1) < n + 1 := h
        show (nodes \ seen).card + stack.length < n
        omega

/-- One unit of fuel more than there are nodes is enough. -/
theorem explore_start_ends (hnodes : ∀ b ∈ nodes, ∀ c ∈ next b, c ∈ nodes) (hstart : start ∈ nodes)
    {n : ℕ} (hn : nodes.card < n) : ∃ s, explore next n (see ⟨base, []⟩ start) = some s := by
  refine explore_ends hnodes (fun b hb => ?_) ?_
  · obtain hb | ⟨rfl, _⟩ := mem_stack_see.mp hb
    · exact absurd hb List.not_mem_nil
    · exact hstart
  · rw [room_see hstart]
    have hle : (nodes \ base).card ≤ nodes.card := Finset.card_le_card Finset.sdiff_subset
    show (nodes \ base).card + 0 < n
    omega

end

end Worklist

end Ncc
