import Mathlib

/-! Rewriting a list in place: every element becomes one related element, and other elements are
    inserted in between. The order of the elements that stay is kept. -/

namespace Ncc

/-- `Weave R I l l'`: the list `l'` is `l` with every element replaced by one it is related to, and
    with elements inserted that satisfy `I`. -/
inductive Weave {α β : Type*} (R : α → β → Prop) (I : β → Prop) : List α → List β → Prop where
  | nil : Weave R I [] []
  | keep {a b l l'} : R a b → Weave R I l l' → Weave R I (a :: l) (b :: l')
  | insert {b l l'} : I b → Weave R I l l' → Weave R I l (b :: l')

namespace Weave

variable {α β : Type*} {R R' : α → β → Prop} {I : β → Prop}

theorem append {l₁ l₂ : List α} {d₁ d₂ : List β} (h : Weave R I l₁ d₁) (h₂ : Weave R I l₂ d₂) :
    Weave R I (l₁ ++ l₂) (d₁ ++ d₂) := by
  induction h with
  | nil => exact h₂
  | keep hr _ ih => exact keep hr ih
  | insert hi _ ih => exact insert hi ih

/-- Inserted elements only. -/
theorem inserts : ∀ {d : List β}, (∀ b ∈ d, I b) → Weave R I [] d
  | [], _ => nil
  | b :: d, h => insert (h b List.mem_cons_self) (inserts fun c hc => h c (List.mem_cons_of_mem _ hc))

theorem mono (hR : ∀ a b, R a b → R' a b) {l : List α} {d : List β} (h : Weave R I l d) :
    Weave R' I l d := by
  induction h with
  | nil => exact nil
  | keep hr _ ih => exact keep (hR _ _ hr) ih
  | insert hi _ ih => exact insert hi ih

/-- A weave splits where its result splits. -/
theorem split : ∀ {d₁ d₂ : List β} {l : List α}, Weave R I l (d₁ ++ d₂) →
    ∃ l₁ l₂, l = l₁ ++ l₂ ∧ Weave R I l₁ d₁ ∧ Weave R I l₂ d₂
  | [], d₂, l, h => ⟨[], l, rfl, nil, h⟩
  | b :: d₁, d₂, l, h => by
      cases h with
      | keep hr h =>
        obtain ⟨l₁, l₂, rfl, h₁, h₂⟩ := split h
        exact ⟨_ :: l₁, l₂, rfl, keep hr h₁, h₂⟩
      | insert hi h =>
        obtain ⟨l₁, l₂, rfl, h₁, h₂⟩ := split h
        exact ⟨l₁, l₂, rfl, insert hi h₁, h₂⟩

/-- Elements may be inserted in the middle as well. -/
theorem insertMid {d₁ d₂ e : List β} {l : List α} (h : Weave R I l (d₁ ++ d₂))
    (he : ∀ b ∈ e, I b) : Weave R I l (d₁ ++ (e ++ d₂)) := by
  obtain ⟨l₁, l₂, rfl, h₁, h₂⟩ := split h
  exact h₁.append ((inserts he).append h₂)

end Weave

end Ncc
