import Mathlib

/-! Sorting by exchanges of neighbours.

    `r a b` says that `b`, right after `a`, should be before it. A pass looks for the first element
    with such a neighbour, moves it past all of them, and the list is searched from its head again.
    That ends because every exchange leaves one inversion less; the relation need not be an order. -/

namespace Ncc.Exchange

variable {α : Type*} (r : α → α → Bool)

/-- Move `a` past the elements that should be before it. -/
def sink (a : α) : List α → List α
  | [] => [a]
  | b :: l => if r a b then b :: sink a l else a :: b :: l

/-- Move the first element that has to be moved. -/
def pass : List α → Option (List α)
  | a :: b :: l => if r a b then some (sink r a (b :: l)) else (pass (b :: l)).map (a :: ·)
  | _ => none

/-- The pairs that are the wrong way round. -/
def inversions : List α → Nat
  | [] => 0
  | a :: l => l.countP (r a) + inversions l

variable {r}

theorem sink_perm (a : α) (l : List α) : (sink r a l).Perm (a :: l) := by
  induction l with
  | nil => exact List.Perm.refl _
  | cons b l ih =>
    rw [sink]
    split
    · exact (ih.cons b).trans (List.Perm.swap a b l)
    · exact List.Perm.refl _

theorem pass_perm {l l' : List α} (h : pass r l = some l') : l'.Perm l := by
  induction l using pass.induct r generalizing l' with
  | case1 a b l hab =>
    rw [pass, if_pos hab] at h
    rw [← Option.some.inj h]
    exact sink_perm a (b :: l)
  | case2 a b l hab ih =>
    rw [pass, if_neg hab] at h
    obtain ⟨l₁, hl₁, rfl⟩ := Option.map_eq_some_iff.mp h
    exact (ih hl₁).cons a
  | case3 l hl =>
    rw [pass] at h
    · cases h
    · exact hl

/-- Sinking adds no inversion, since none of what is passed should be behind. -/
theorem inversions_sink (hr : ∀ a b, r a b = true → r b a = false) (a : α) (l : List α) :
    inversions r (sink r a l) ≤ inversions r (a :: l) := by
  induction l with
  | nil => exact le_rfl
  | cons b l ih =>
    rw [sink]
    split
    · next hab =>
      have hperm := (sink_perm (r := r) a l).countP_eq (r b)
      simp only [inversions, List.countP_cons, hr a b hab, hab, if_true, Bool.false_eq_true,
        if_false] at hperm ih ⊢
      omega
    · exact le_rfl

theorem inversions_pass (hr : ∀ a b, r a b = true → r b a = false) {l l' : List α}
    (h : pass r l = some l') : inversions r l' < inversions r l := by
  induction l using pass.induct r generalizing l' with
  | case1 a b l hab =>
    rw [pass, if_pos hab] at h
    rw [← Option.some.inj h, sink, if_pos hab]
    have hperm := (sink_perm (r := r) a l).countP_eq (r b)
    have hsink := inversions_sink hr a l
    simp only [inversions, List.countP_cons, hr a b hab, hab, if_true, Bool.false_eq_true,
      if_false] at hperm hsink ⊢
    omega
  | case2 a b l hab ih =>
    rw [pass, if_neg hab] at h
    obtain ⟨l₁, hl₁, rfl⟩ := Option.map_eq_some_iff.mp h
    have hlt := ih hl₁
    have hperm := (pass_perm hl₁).countP_eq (r a)
    rw [inversions, hperm, inversions]
    omega
  | case3 l hl =>
    rw [pass] at h
    · cases h
    · exact hl

/-- A list in which nothing has to be moved. -/
theorem isChain_of_pass {l : List α} (h : pass r l = none) :
    l.IsChain fun a b => r a b = false := by
  induction l using pass.induct r with
  | case1 a b l hab =>
    rw [pass, if_pos hab] at h
    cases h
  | case2 a b l hab ih =>
    rw [pass, if_neg hab] at h
    exact List.isChain_cons_cons.mpr
      ⟨Bool.eq_false_iff.mpr hab, ih (Option.map_eq_none_iff.mp h)⟩
  | case3 l hl =>
    match l, hl with
    | [], _ => exact List.isChain_nil
    | [a], _ => exact List.isChain_singleton a
    | a :: b :: l, hl => exact absurd rfl (hl a b l)

variable (r)

/-- Pass after pass, until nothing moves. -/
def sort (hr : ∀ a b, r a b = true → r b a = false) (l : List α) : List α :=
  match _h : pass r l with
  | none => l
  | some l' => sort hr l'
  termination_by inversions r l
  decreasing_by exact inversions_pass hr _h

variable {r}

theorem sort_of_none (hr : ∀ a b, r a b = true → r b a = false) {l : List α}
    (h : pass r l = none) : sort r hr l = l := by
  rw [sort]
  split
  · rfl
  · next l' hl' =>
    rw [h] at hl'
    cases hl'

theorem sort_of_some (hr : ∀ a b, r a b = true → r b a = false) {l l' : List α}
    (h : pass r l = some l') : sort r hr l = sort r hr l' := by
  rw [sort]
  split
  · next hn =>
    rw [h] at hn
    cases hn
  · next l₁ hl₁ => rw [Option.some.inj (h.symm.trans hl₁)]

theorem sort_perm (hr : ∀ a b, r a b = true → r b a = false) (l : List α) :
    (sort r hr l).Perm l := by
  induction l using sort.induct r hr with
  | case1 l h => rw [sort_of_none hr h]
  | case2 l l' h ih =>
    rw [sort_of_some hr h]
    exact ih.trans (pass_perm h)

theorem pass_sort (hr : ∀ a b, r a b = true → r b a = false) (l : List α) :
    pass r (sort r hr l) = none := by
  induction l using sort.induct r hr with
  | case1 l h => rwa [sort_of_none hr h]
  | case2 l l' h ih => rwa [sort_of_some hr h]

/-- An element at the head that is never moved stays there. -/
theorem sort_cons (hr : ∀ a b, r a b = true → r b a = false) {a : α} (ha : ∀ b, r a b = false)
    (l : List α) : sort r hr (a :: l) = a :: sort r hr l := by
  have hpass : ∀ l, pass r (a :: l) = (pass r l).map (a :: ·) := by
    intro l
    cases l with
    | nil => rfl
    | cons b l => rw [pass, ha b, if_neg Bool.false_ne_true]
  induction l using sort.induct r hr with
  | case1 l h =>
    have h' : pass r (a :: l) = none := by rw [hpass, h]; rfl
    rw [sort_of_none hr h, sort_of_none hr h']
  | case2 l l' h ih =>
    have h' : pass r (a :: l) = some (a :: l') := by rw [hpass, h]; rfl
    rw [sort_of_some hr h, sort_of_some hr h', ih]

end Ncc.Exchange
