import Mathlib

/-! Lists in descending order of a key.

    The key of one element changes and the element is moved, one neighbour at a time, to where it
    belongs again: `up` after its key has grown, `down` after it has shrunk. Both permute the list,
    and each restores the order that the other elements kept. -/

namespace Ncc.Bubble

variable {α : Type*} (key : α → Nat)

/-- The list is in descending order of the key. -/
def Descending (l : List α) : Prop := l.Pairwise fun a b => key b ≤ key a

/-- Move `n` before its predecessors (in reverse order) of a smaller key. -/
def climb (n : α) : List α → List α → List α
  | [], after => n :: after
  | prev :: before, after =>
    if key prev < key n then climb n before (prev :: after)
    else before.reverse ++ prev :: n :: after

/-- Move `n` past its successors of a greater key. -/
def sink (n : α) : List α → List α → List α
  | before, [] => before.reverse ++ [n]
  | before, next :: after =>
    if key n < key next then sink n (next :: before) after
    else before.reverse ++ n :: next :: after

variable [DecidableEq α]

/-- What stands before `n`. -/
def before (n : α) (l : List α) : List α := l.takeWhile (· ≠ n)

/-- What stands after `n`. -/
def after (n : α) (l : List α) : List α := (l.dropWhile (· ≠ n)).tail

/-- Move an element of the list up. -/
def up (n : α) (l : List α) : List α := climb key n (before n l).reverse (after n l)

/-- Move an element of the list down. -/
def down (n : α) (l : List α) : List α := sink key n (before n l).reverse (after n l)

omit [DecidableEq α]
variable {key} {key' : α → Nat} {n : α} {l : List α}

theorem Descending.sublist {m : List α} (h : Descending key l) (hm : m.Sublist l) :
    Descending key m := List.Pairwise.sublist hm h

theorem Descending.congr (h : Descending key l) (hk : ∀ a ∈ l, key' a = key a) :
    Descending key' l := by
  refine List.Pairwise.imp_of_mem ?_ h
  intro a b ha hb hab
  rw [hk a ha, hk b hb]
  exact hab

theorem climb_perm (n : α) : ∀ b a : List α, (climb key n b a).Perm (n :: (b.reverse ++ a))
  | [], a => List.Perm.refl _
  | prev :: b, a => by
    rw [climb, List.reverse_cons, List.append_assoc, List.singleton_append]
    split
    · exact climb_perm n b (prev :: a)
    · rw [← List.singleton_append, ← List.append_assoc]
      refine List.perm_middle.trans ?_
      rw [List.append_assoc, List.singleton_append]

theorem sink_perm (n : α) : ∀ b a : List α, (sink key n b a).Perm (n :: (b.reverse ++ a))
  | b, [] => by
    rw [sink, List.append_nil]
    exact List.perm_append_singleton n b.reverse
  | b, next :: a => by
    rw [sink]
    split
    · refine (sink_perm n (next :: b) a).trans ?_
      rw [List.reverse_cons, List.append_assoc, List.singleton_append]
    · exact List.perm_middle

/-- Climbing keeps the order of a list whose part after `n` has no greater key. -/
theorem descending_climb : ∀ {b a : List α}, Descending key (b.reverse ++ a) →
    (∀ x ∈ a, key x ≤ key n) → Descending key (climb key n b a)
  | [], a, h, ha => List.pairwise_cons.mpr ⟨ha, h⟩
  | prev :: b, a, h, ha => by
    rw [List.reverse_cons, List.append_assoc, List.singleton_append] at h
    rw [climb]
    split
    · next hlt =>
      refine descending_climb h ?_
      intro x hx
      rcases List.mem_cons.mp hx with rfl | hx
      · exact hlt.le
      · exact ha x hx
    · next hge =>
      obtain ⟨hb, hpa, hcross⟩ := List.pairwise_append.mp h
      obtain ⟨hp, hrest⟩ := List.pairwise_cons.mp hpa
      have hn : key n ≤ key prev := not_lt.mp hge
      refine List.pairwise_append.mpr ⟨hb, ?_, ?_⟩
      · refine List.pairwise_cons.mpr ⟨?_, List.pairwise_cons.mpr ⟨ha, hrest⟩⟩
        intro x hx
        rcases List.mem_cons.mp hx with rfl | hx
        · exact hn
        · exact hp x hx
      · intro x hx y hy
        have hxp : key prev ≤ key x := hcross x hx prev List.mem_cons_self
        rcases List.mem_cons.mp hy with rfl | hy
        · exact hxp
        · rcases List.mem_cons.mp hy with rfl | hy
          · exact hn.trans hxp
          · exact hcross x hx y (List.mem_cons_of_mem _ hy)

/-- Sinking keeps the order of a list whose part before `n` has no smaller key. -/
theorem descending_sink : ∀ {a b : List α}, Descending key (b.reverse ++ a) →
    (∀ x ∈ b, key n ≤ key x) → Descending key (sink key n b a)
  | [], b, h, hb => by
    rw [List.append_nil] at h
    refine List.pairwise_append.mpr ⟨h, List.pairwise_singleton _ n, ?_⟩
    intro x hx y hy
    rw [List.mem_singleton.mp hy]
    exact hb x (List.mem_reverse.mp hx)
  | next :: a, b, h, hb => by
    rw [sink]
    split
    · next hlt =>
      refine descending_sink ?_ ?_
      · rw [List.reverse_cons, List.append_assoc, List.singleton_append]
        exact h
      · intro x hx
        rcases List.mem_cons.mp hx with rfl | hx
        · exact hlt.le
        · exact hb x hx
    · next hge =>
      obtain ⟨hbb, hna, hcross⟩ := List.pairwise_append.mp h
      have hn : key next ≤ key n := not_lt.mp hge
      refine List.pairwise_append.mpr ⟨hbb, List.pairwise_cons.mpr ⟨?_, hna⟩, ?_⟩
      · intro x hx
        rcases List.mem_cons.mp hx with rfl | hx
        · exact hn
        · exact ((List.pairwise_cons.mp hna).1 x hx).trans hn
      · intro x hx y hy
        rcases List.mem_cons.mp hy with rfl | hy
        · exact hb x (List.mem_reverse.mp hx)
        · exact hcross x hx y hy

variable [DecidableEq α]

theorem before_append {b : List α} (h : n ∉ b) (a : List α) : before n (b ++ n :: a) = b := by
  rw [before, List.takeWhile_append_of_pos]
  · rw [List.takeWhile_cons_of_neg (by simp), List.append_nil]
  · intro x hx
    exact decide_eq_true fun he => h (he ▸ hx)

theorem after_append {b : List α} (h : n ∉ b) (a : List α) : after n (b ++ n :: a) = a := by
  rw [after, List.dropWhile_append_of_pos]
  · rw [List.dropWhile_cons_of_neg (by simp), List.tail_cons]
  · intro x hx
    exact decide_eq_true fun he => h (he ▸ hx)

theorem cut (h : n ∈ l) : l = before n l ++ n :: after n l := by
  obtain ⟨b, a, rfl, hb⟩ := List.eq_append_cons_of_mem h
  rw [before_append hb, after_append hb]

theorem up_perm (h : n ∈ l) : (up key n l).Perm l := by
  conv_rhs => rw [cut h]
  refine (climb_perm n _ _).trans ?_
  rw [List.reverse_reverse]
  exact List.perm_middle.symm

theorem down_perm (h : n ∈ l) : (down key n l).Perm l := by
  conv_rhs => rw [cut h]
  refine (sink_perm n _ _).trans ?_
  rw [List.reverse_reverse]
  exact List.perm_middle.symm

/-- The others are in order under the new key too. -/
theorem descending_others (hl : l.Nodup) (h : Descending key l) (hn : n ∈ l)
    (hk : ∀ a, a ≠ n → key' a = key a) :
    Descending key' ((before n l).reverse.reverse ++ after n l) := by
  have hs := cut hn
  rw [List.reverse_reverse]
  have hsub : (before n l ++ after n l).Sublist l := by
    conv_rhs => rw [hs]
    exact (List.sublist_cons_self n _).append_left _
  refine (h.sublist hsub).congr ?_
  intro a ha
  refine hk a ?_
  rintro rfl
  rw [hs, List.nodup_middle, List.nodup_cons] at hl
  exact hl.1 ha

/-- The order after a key has grown. -/
theorem descending_up (hl : l.Nodup) (h : Descending key l) (hn : n ∈ l)
    (hk : ∀ a, a ≠ n → key' a = key a) (hle : key n ≤ key' n) : Descending key' (up key' n l) := by
  have hs := cut hn
  refine descending_climb (descending_others hl h hn hk) ?_
  intro x hx
  rw [hs] at h hl
  have hxn : x ≠ n := by
    rintro rfl
    exact (List.nodup_cons.mp (List.nodup_append.mp hl).2.1).1 hx
  rw [hk x hxn]
  exact ((List.pairwise_cons.mp (List.pairwise_append.mp h).2.1).1 x hx).trans hle

/-- The order after a key has shrunk. -/
theorem descending_down (hl : l.Nodup) (h : Descending key l) (hn : n ∈ l)
    (hk : ∀ a, a ≠ n → key' a = key a) (hle : key' n ≤ key n) :
    Descending key' (down key' n l) := by
  have hs := cut hn
  refine descending_sink (descending_others hl h hn hk) ?_
  intro x hx
  have hx' : x ∈ before n l := List.mem_reverse.mp hx
  rw [hs] at h hl
  have hxn : x ≠ n := by
    rintro rfl
    exact (List.nodup_append.mp hl).2.2 x hx' x List.mem_cons_self rfl
  rw [hk x hxn]
  exact hle.trans ((List.pairwise_append.mp h).2.2 x hx' n List.mem_cons_self)

/-- A new element that is moved up from the end. -/
theorem descending_up_append (h : Descending key l) (hn : n ∉ l) :
    Descending key (up key n (l ++ [n])) := by
  rw [up, before_append hn, after_append hn]
  refine descending_climb ?_ (List.forall_mem_nil _)
  rw [List.reverse_reverse, List.append_nil]
  exact h

end Ncc.Bubble
