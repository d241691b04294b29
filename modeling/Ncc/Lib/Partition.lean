import Mathlib

/-! Partitions as lists of classes.

    Classes are added and joined, never split, so that elements of one class stay together; `join`
    takes the union of two classes and drops one of them. -/

namespace Ncc

variable {α : Type*}

/-- Classes without common elements; no class is empty. -/
structure IsPartition (W : List (List α)) : Prop where
  nonempty : [] ∉ W
  disjoint : W.Pairwise List.Disjoint

/-- The two elements are in one class. -/
def Same (W : List (List α)) (x y : α) : Prop := ∃ w ∈ W, x ∈ w ∧ y ∈ w

theorem Same.symm {W : List (List α)} {x y : α} : Same W x y → Same W y x
  | ⟨w, hw, hx, hy⟩ => ⟨w, hw, hy, hx⟩

/-- An element determines its class. -/
theorem eq_of_mem_class : ∀ {W : List (List α)}, W.Pairwise List.Disjoint →
    ∀ {w w' : List α} {x : α}, w ∈ W → w' ∈ W → x ∈ w → x ∈ w' → w = w'
  | v :: W, h, w, w', x, hw, hw', hx, hx' => by
      obtain ⟨hv, hW⟩ := List.pairwise_cons.mp h
      rcases List.mem_cons.mp hw with rfl | hwW
      · rcases List.mem_cons.mp hw' with rfl | hwW'
        · rfl
        · exact absurd hx' (hv w' hwW' hx)
      · rcases List.mem_cons.mp hw' with rfl | hwW'
        · exact absurd hx (hv w hwW hx')
        · exact eq_of_mem_class hW hwW hwW' hx hx'

theorem Same.trans {W : List (List α)} (h : IsPartition W) {x y z : α} :
    Same W x y → Same W y z → Same W x z
  | ⟨w, hw, hx, hy⟩, ⟨w', hw', hy', hz⟩ =>
    ⟨w, hw, hx, by rw [eq_of_mem_class h.disjoint hw hw' hy hy']; exact hz⟩

theorem isPartition_nil : IsPartition ([] : List (List α)) :=
  ⟨List.not_mem_nil, List.Pairwise.nil⟩

/-- A new element is a class of its own. -/
theorem IsPartition.snoc {W : List (List α)} (h : IsPartition W) {x : α} (hx : ¬ Same W x x) :
    IsPartition (W ++ [[x]]) := by
  refine ⟨fun hc => ?_, List.pairwise_append.mpr ⟨h.disjoint, List.pairwise_singleton _ _, ?_⟩⟩
  · rcases List.mem_append.mp hc with hc | hc
    · exact h.nonempty hc
    · exact absurd (List.mem_singleton.mp hc) (by simp)
  · intro w hw v hv
    rw [List.mem_singleton.mp hv]
    intro y hy hyx
    rw [List.mem_singleton.mp hyx] at hy
    exact hx ⟨w, hw, hy, hy⟩

theorem Same.append {W V : List (List α)} {x y : α} : Same W x y → Same (W ++ V) x y
  | ⟨w, hw, hx, hy⟩ => ⟨w, List.mem_append_left _ hw, hx, hy⟩

section
variable [DecidableEq α] (u : List α → List α → List α)

/-- Replace the class `w` by its union with `w₂`, and drop `w₂`. -/
def join (W : List (List α)) (w w₂ : List α) : List (List α) :=
  (W.filter fun v => v ≠ w₂).map fun v => if v = w then u w w₂ else v

variable {u} (hu : ∀ a b x, x ∈ u a b ↔ x ∈ a ∨ x ∈ b)

theorem mem_join {W : List (List α)} {w w₂ v : List α} (hw : w ∈ W) (hne : w ≠ w₂) :
    v ∈ join u W w w₂ ↔ v = u w w₂ ∨ (v ∈ W ∧ v ≠ w ∧ v ≠ w₂) := by
  simp only [join, List.mem_map, List.mem_filter, decide_eq_true_eq]
  constructor
  · rintro ⟨a, ⟨ha, ha₂⟩, rfl⟩
    by_cases haw : a = w
    · exact Or.inl (if_pos haw)
    · rw [if_neg haw]; exact Or.inr ⟨ha, haw, ha₂⟩
  · rintro (rfl | ⟨hv, hvw, hv₂⟩)
    · exact ⟨w, ⟨hw, hne⟩, if_pos rfl⟩
    · exact ⟨v, ⟨hv, hv₂⟩, if_neg hvw⟩

include hu

theorem IsPartition.join {W : List (List α)} (h : IsPartition W) {w w₂ : List α} (hw : w ∈ W)
    (hw₂ : w₂ ∈ W) (hne : w ≠ w₂) : IsPartition (join u W w w₂) := by
  refine ⟨fun hc => ?_, ?_⟩
  · rcases (mem_join hw hne).mp hc with hc | ⟨hc, _⟩
    · have hx : w ≠ [] := fun he => h.nonempty (he ▸ hw)
      obtain ⟨x, hx⟩ := List.exists_mem_of_ne_nil w hx
      have := (hu w w₂ x).mpr (Or.inl hx)
      rw [← hc] at this
      exact absurd this List.not_mem_nil
    · exact h.nonempty hc
  · rw [Ncc.join, List.pairwise_map]
    have hmem : ∀ a ∈ W.filter (fun v => v ≠ w₂), a ∈ W ∧ a ≠ w₂ := by
      intro a ha
      obtain ⟨ha, hne⟩ := List.mem_filter.mp ha
      exact ⟨ha, of_decide_eq_true hne⟩
    -- the joined class is disjoint from every other one
    have hdis : ∀ a, a ∈ W → a ≠ w → a ≠ w₂ → List.Disjoint (u w w₂) a := by
      intro a ha haw ha₂ x hx hxa
      rcases (hu w w₂ x).mp hx with hx | hx
      · exact haw (eq_of_mem_class h.disjoint ha hw hxa hx)
      · exact ha₂ (eq_of_mem_class h.disjoint ha hw₂ hxa hx)
    have hpair := (h.disjoint.filter fun v => v ≠ w₂).and
      ((h.disjoint.filter fun v => v ≠ w₂).imp_of_mem (S := fun a b => a ≠ b) ?_)
    · refine hpair.imp_of_mem fun {a b} ha hb hab => ?_
      obtain ⟨ha, ha₂⟩ := hmem a ha
      obtain ⟨hb, hb₂⟩ := hmem b hb
      by_cases haw : a = w
      · have hbw : b ≠ w := fun hbw => hab.2 (haw.trans hbw.symm)
        rw [if_pos haw, if_neg hbw]
        exact hdis b hb hbw hb₂
      · rw [if_neg haw]
        by_cases hbw : b = w
        · rw [if_pos hbw]; exact (hdis a ha haw ha₂).symm
        · rw [if_neg hbw]; exact hab.1
    · rintro a b ha hb hd rfl
      have hx : a ≠ [] := fun he => h.nonempty (he ▸ (hmem a ha).1)
      obtain ⟨x, hx⟩ := List.exists_mem_of_ne_nil a hx
      exact hd hx hx

/-- Elements of one class stay together. -/
theorem Same.join {W : List (List α)} {w w₂ : List α} (hw : w ∈ W) (hne : w ≠ w₂) {x y : α} :
    Same W x y → Same (join u W w w₂) x y := by
  rintro ⟨v, hv, hx, hy⟩
  by_cases hvw : v = w
  · subst hvw
    exact ⟨_, (mem_join hw hne).mpr (Or.inl rfl), (hu ..).mpr (Or.inl hx), (hu ..).mpr (Or.inl hy)⟩
  · by_cases hv₂ : v = w₂
    · subst hv₂
      exact ⟨_, (mem_join hw hne).mpr (Or.inl rfl), (hu ..).mpr (Or.inr hx),
        (hu ..).mpr (Or.inr hy)⟩
    · exact ⟨v, (mem_join hw hne).mpr (Or.inr ⟨hv, hvw, hv₂⟩), hx, hy⟩

end

end Ncc
