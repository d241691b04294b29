import Mathlib

/-! The temporal operator "since" on finite histories, oldest element first.

    A scan that remembers the last event of some kind, and forgets it when something disturbs it, is
    described by `Since`; `since_snoc` is the step of the scan. -/

namespace Ncc

variable {α : Type*} {P Q : α → Prop}

/-- At some point of the history `P` held, and `Q` held ever since. -/
def Since (P Q : α → Prop) (l : List α) : Prop :=
  ∃ l₁ i l₂, l = l₁ ++ i :: l₂ ∧ P i ∧ ∀ j ∈ l₂, Q j

@[simp] theorem since_nil : ¬ Since P Q [] := by
  rintro ⟨l₁, i, l₂, h, _⟩
  simp at h

/-- Either the latest event is the one that is remembered, or it does not disturb an earlier one. -/
theorem since_snoc {l : List α} {x : α} : Since P Q (l ++ [x]) ↔ P x ∨ (Since P Q l ∧ Q x) := by
  constructor
  · rintro ⟨l₁, i, l₂, hl, hp, hq⟩
    rcases List.eq_nil_or_concat' l₂ with rfl | ⟨l₂', y, rfl⟩
    · obtain ⟨rfl, hx⟩ := List.append_inj' hl rfl
      obtain rfl := (List.cons.inj hx).1
      exact Or.inl hp
    · have hl' : l ++ [x] = (l₁ ++ i :: l₂') ++ [y] := by rw [hl]; simp
      obtain ⟨rfl, hx⟩ := List.append_inj' hl' rfl
      obtain rfl := (List.cons.inj hx).1
      exact Or.inr ⟨⟨l₁, i, l₂', rfl, hp, fun j hj => hq j (List.mem_append_left _ hj)⟩,
        hq x (List.mem_append_right _ (List.mem_singleton_self x))⟩
  · rintro (hp | ⟨⟨l₁, i, l₂, rfl, hp, hq⟩, hx⟩)
    · exact ⟨l, x, [], rfl, hp, fun j hj => absurd hj List.not_mem_nil⟩
    · refine ⟨l₁, i, l₂ ++ [x], by simp, hp, fun j hj => ?_⟩
      rcases List.mem_append.mp hj with hj | hj
      · exact hq j hj
      · rw [List.mem_singleton.mp hj]; exact hx

end Ncc
