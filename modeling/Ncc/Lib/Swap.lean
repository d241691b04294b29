import Ncc.Lib.Exchange

/-! Exchanges of neighbours, one at a time.

    `r a b` allows `b`, right after `a`, to be moved before it. `Swap r` is one such exchange and
    `settle` makes the first one it finds, from the head again, until there is none. What an
    exchange keeps (the elements, the order of every other pair, the result of steps that commute)
    holds of a settled list. -/

namespace Ncc.Exchange

variable {α β : Type*}

/-- One exchange of neighbours. -/
inductive Swap (r : α → α → Bool) : List α → List α → Prop
  | head {a b : α} (l : List α) (h : r a b = true) : Swap r (a :: b :: l) (b :: a :: l)
  | cons (a : α) {l l' : List α} (h : Swap r l l') : Swap r (a :: l) (a :: l')

/-- Make the first exchange there is. -/
def swapFirst (r : α → α → Bool) : List α → Option (List α)
  | a :: b :: l => if r a b then some (b :: a :: l) else (swapFirst r (b :: l)).map (a :: ·)
  | _ => none

section
variable {r : α → α → Bool} {l l' : List α}

theorem Swap.perm (h : Swap r l l') : l'.Perm l := by
  induction h with
  | head l _ => exact List.Perm.swap _ _ l
  | cons a _ ih => exact ih.cons a

/-- A pair that may not be exchanged keeps its order. -/
theorem Swap.sublist (h : Swap r l l') {u v : α} (huv : r u v = false)
    (hsub : [u, v].Sublist l) : [u, v].Sublist l' := by
  induction h with
  | @head a b l hab =>
    rcases List.sublist_cons_iff.mp hsub with hsub | ⟨_, heq, hv⟩
    · exact hsub.trans ((List.sublist_cons_self a l).cons_cons b)
    · obtain ⟨rfl, rfl⟩ := List.cons.inj heq
      rcases List.mem_cons.mp (List.singleton_sublist.mp hv) with rfl | hv
      · rw [hab] at huv
        cases huv
      · exact ((List.singleton_sublist.mpr hv).cons_cons u).cons b
  | cons a hl ih =>
    rcases List.sublist_cons_iff.mp hsub with hsub | ⟨_, heq, hv⟩
    · exact (ih hsub).cons a
    · obtain ⟨rfl, rfl⟩ := List.cons.inj heq
      have hmem := hl.perm.mem_iff.mpr (List.singleton_sublist.mp hv)
      exact (List.singleton_sublist.mpr hmem).cons_cons u

theorem swaps_sublist (h : Relation.ReflTransGen (Swap r) l l') {u v : α} (huv : r u v = false)
    (hsub : [u, v].Sublist l) : [u, v].Sublist l' := by
  induction h with
  | refl => exact hsub
  | tail _ hswap ih => exact hswap.sublist huv ih

/-- Steps that commute whenever their elements may be exchanged give the same result. -/
theorem Swap.foldl (h : Swap r l l') {f : β → α → β}
    (hf : ∀ a b, r a b = true → ∀ s, f (f s a) b = f (f s b) a) (s : β) :
    l'.foldl f s = l.foldl f s := by
  induction h generalizing s with
  | head l hab =>
    rw [List.foldl_cons, List.foldl_cons, List.foldl_cons, List.foldl_cons, hf _ _ hab]
  | cons a _ ih => exact ih (f s a)

theorem Swap.inversions (hr : ∀ a b, r a b = true → r b a = false) (h : Swap r l l') :
    inversions r l' < inversions r l := by
  induction h with
  | head l hab =>
    simp only [Exchange.inversions, List.countP_cons, hab, hr _ _ hab, if_true, Bool.false_eq_true,
      if_false]
    omega
  | cons a hl ih =>
    rw [Exchange.inversions, Exchange.inversions, hl.perm.countP_eq]
    omega

/-- No run of exchanges goes on for ever. -/
theorem swap_wellFounded (hr : ∀ a b, r a b = true → r b a = false) :
    WellFounded (Function.swap (Swap r)) :=
  Subrelation.wf (fun {_ _} h => Swap.inversions hr h) (measure (inversions r)).wf

theorem swap_of_swapFirst (h : swapFirst r l = some l') : Swap r l l' := by
  induction l using swapFirst.induct r generalizing l' with
  | case1 a b l hab =>
    rw [swapFirst, if_pos hab] at h
    rw [← Option.some.inj h]
    exact .head l hab
  | case2 a b l hab ih =>
    rw [swapFirst, if_neg hab] at h
    obtain ⟨l₁, hl₁, rfl⟩ := Option.map_eq_some_iff.mp h
    exact .cons a (ih hl₁)
  | case3 l hl =>
    rw [swapFirst] at h
    · cases h
    · exact hl

/-- If no exchange is found, there is none. -/
theorem not_swap_of_swapFirst (h : swapFirst r l = none) : ¬Swap r l l' := by
  intro hs
  induction hs with
  | head l hab =>
    rw [swapFirst, if_pos hab] at h
    cases h
  | cons a hl ih =>
    cases hl with
    | head l hbc =>
      rw [swapFirst] at h
      split at h
      · cases h
      · exact ih (Option.map_eq_none_iff.mp h)
    | cons b hl =>
      rw [swapFirst] at h
      split at h
      · cases h
      · exact ih (Option.map_eq_none_iff.mp h)

end

variable {r : α → α → Bool}

/-- Exchange after exchange, until there is none. -/
def settle (r : α → α → Bool) (hr : ∀ a b, r a b = true → r b a = false) (l : List α) : List α :=
  match _h : swapFirst r l with
  | none => l
  | some l' => settle r hr l'
  termination_by inversions r l
  decreasing_by exact (swap_of_swapFirst _h).inversions hr

theorem settle_of_none (hr : ∀ a b, r a b = true → r b a = false) {l : List α}
    (h : swapFirst r l = none) : settle r hr l = l := by
  rw [settle]
  split
  · rfl
  · next l' hl' =>
    rw [h] at hl'
    cases hl'

theorem settle_of_some (hr : ∀ a b, r a b = true → r b a = false) {l l' : List α}
    (h : swapFirst r l = some l') : settle r hr l = settle r hr l' := by
  rw [settle]
  split
  · next hn =>
    rw [h] at hn
    cases hn
  · next l₁ hl₁ => rw [Option.some.inj (h.symm.trans hl₁)]

/-- Settling is nothing but exchanges. -/
theorem settle_swaps (hr : ∀ a b, r a b = true → r b a = false) (l : List α) :
    Relation.ReflTransGen (Swap r) l (settle r hr l) := by
  induction l using settle.induct r hr with
  | case1 l h => rw [settle_of_none hr h]
  | case2 l l' h ih =>
    rw [settle_of_some hr h]
    exact .head (swap_of_swapFirst h) ih

/-- Nothing can be exchanged in a settled list. -/
theorem swapFirst_settle (hr : ∀ a b, r a b = true → r b a = false) (l : List α) :
    swapFirst r (settle r hr l) = none := by
  induction l using settle.induct r hr with
  | case1 l h => rwa [settle_of_none hr h]
  | case2 l l' h ih => rwa [settle_of_some hr h]

end Ncc.Exchange
