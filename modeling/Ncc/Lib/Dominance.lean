import Mathlib

/-! Paths of a directed graph with a root, and which nodes dominate which.

    `Dominates d b` quantifies over paths. `dominates_iff` is the equation it satisfies at a node
    other than the root, and `dominates_of_solution` says that it is the greatest family of sets
    that satisfies the equations: what an iteration from above has to reach. -/

namespace Ncc

variable {ν : Type*}

/-- The nodes of a path from the root, and the node it leads to. -/
inductive Path (E : ν → ν → Prop) (root : ν) : List ν → ν → Prop
  | root : Path E root [root] root
  | step {l : List ν} {b c : ν} : Path E root l b → E b c → Path E root (l ++ [c]) c

/-- Every path from the root to `b` passes through `d`. -/
def Dominates (E : ν → ν → Prop) (root d b : ν) : Prop := ∀ l, Path E root l b → d ∈ l

section
variable {E : ν → ν → Prop} {root : ν}

/-- A path passes through the node it leads to. -/
theorem Path.mem_last {l : List ν} {b : ν} : Path E root l b → b ∈ l
  | .root => List.mem_singleton.mpr rfl
  | .step _ _ => List.mem_append_right _ (List.mem_singleton.mpr rfl)

/-- What comes before the node a path leads to. -/
theorem Path.dropLast_concat {l : List ν} {b : ν} : Path E root l b → l.dropLast ++ [b] = l
  | .root => rfl
  | .step _ _ => by rw [List.dropLast_concat]

/-- What can be reached, can be reached along a path. -/
theorem exists_path {b : ν} (h : Relation.ReflTransGen E root b) : ∃ l, Path E root l b := by
  induction h with
  | refl => exact ⟨_, .root⟩
  | tail _ hedge ih =>
    obtain ⟨l, hl⟩ := ih
    exact ⟨_, .step hl hedge⟩

/-- Every node dominates itself. -/
theorem dominates_self (b : ν) : Dominates E root b b := fun _ h => h.mem_last

/-- Nothing but the root dominates the root. -/
theorem dominates_root {d : ν} : Dominates E root d root ↔ d = root := by
  constructor
  · intro h
    exact List.mem_singleton.mp (h _ .root)
  · rintro rfl
    exact dominates_self _

/-- What dominates a node other than the root is the node itself, or dominates all the nodes the
    node is entered from. -/
theorem dominates_iff {d b : ν} (hb : b ≠ root) :
    Dominates E root d b ↔ d = b ∨ ∀ p, E p b → Dominates E root d p := by
  constructor
  · intro h
    refine or_iff_not_imp_left.mpr fun hd p hp l hl => ?_
    rcases List.mem_append.mp (h _ (hl.step hp)) with hmem | hmem
    · exact hmem
    · exact absurd (List.mem_singleton.mp hmem) hd
  · rintro (rfl | h) l hl
    · exact hl.mem_last
    · cases hl with
      | root => exact absurd rfl hb
      | step hp hedge => exact List.mem_append_left _ (h _ hedge _ hp)

/-- Sets that satisfy the equations hold dominators only. The induction is on the path. -/
theorem dominates_of_solution {S : ν → ν → Prop} (hroot : ∀ d, S root d → d = root)
    (hstep : ∀ p b d, E p b → S b d → d = b ∨ S p d) {d b : ν} (h : S b d) :
    Dominates E root d b := by
  intro l hl
  induction hl with
  | root => exact List.mem_singleton.mpr (hroot d h)
  | step _ hedge ih =>
    rcases hstep _ _ d hedge h with rfl | hp
    · exact List.mem_append_right _ (List.mem_singleton.mpr rfl)
    · exact List.mem_append_left _ (ih hp)

end

end Ncc
