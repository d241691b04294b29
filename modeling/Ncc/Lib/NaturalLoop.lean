import Ncc.Lib.Dominance

/-! Natural loops of a directed graph with a root.

    An edge is a back edge if the node it leads to, the head, dominates the one it comes from. The loop
    of a head is the head together with all nodes that reach the tail of a back edge around the head.
    It can be entered at the head only (`NaturalLoop.pred`), and the head dominates it
    (`NaturalLoop.dominates`). -/

namespace Ncc

variable {ν : Type*}

/-- The edge leads back to a node that dominates its tail. -/
def BackEdge (E : ν → ν → Prop) (root tail head : ν) : Prop :=
  E tail head ∧ Dominates E root head tail

/-- There is a way from `b` to `c` none of whose nodes is `head`. -/
def ReachesAvoiding (E : ν → ν → Prop) (head b c : ν) : Prop :=
  Relation.ReflTransGen (fun x y => E x y ∧ x ≠ head) b c ∧ c ≠ head

/-- The natural loop of a head. -/
def NaturalLoop (E : ν → ν → Prop) (root head b : ν) : Prop :=
  b = head ∨ ∃ tail, BackEdge E root tail head ∧ ReachesAvoiding E head b tail

section
variable {E : ν → ν → Prop} {root head b p : ν}

/-- What leads to a member other than the head is a member. -/
theorem NaturalLoop.pred (h : NaturalLoop E root head b) (hne : b ≠ head) (hp : E p b) :
    NaturalLoop E root head p := by
  by_cases hph : p = head
  · exact Or.inl hph
  · obtain ⟨tail, hback, hb, htail⟩ := h.resolve_left hne
    exact Or.inr ⟨tail, hback, hb.head ⟨hp, hph⟩, htail⟩

/-- A node that dominates the end of a way that avoids it dominates the start. -/
theorem ReachesAvoiding.dominates {c : ν} (h : ReachesAvoiding E head b c)
    (hc : Dominates E root head c) : Dominates E root head b := by
  obtain ⟨hreach, hne⟩ := h
  induction hreach with
  | refl => exact hc
  | tail hbx hxy ih =>
    refine ih (fun l hl => ?_) hxy.2
    rcases List.mem_append.mp (hc _ (hl.step hxy.1)) with hmem | hmem
    · exact hmem
    · exact absurd (List.mem_singleton.mp hmem).symm hne

/-- The head dominates its loop. -/
theorem NaturalLoop.dominates (h : NaturalLoop E root head b) : Dominates E root head b := by
  rcases h with rfl | ⟨tail, hback, hb⟩
  · exact dominates_self _
  · exact hb.dominates hback.2

end

end Ncc
