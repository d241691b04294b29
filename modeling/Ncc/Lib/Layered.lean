import Mathlib.Data.List.Perm.Subperm
import Mathlib.Tactic.Common

/-! Lists in layers.

    Every element has a level and the time it was put in; the list has the highest level first and,
    within a level, the newest element first. `insertLayer` puts an element at the head of its
    level. `walkLayer` visits one level, taking each element out and perhaps putting it in again at
    another level while the walk is under way. Both keep the order, so a search from the front meets
    the highest level first, and there the newest element. -/

namespace Ncc.Layered

variable {α : Type}

/-- Put the element at the head of its level. -/
def insertLayer (level : α → Nat) (x : α) : List α → List α
  | [] => [x]
  | p :: l => if level p ≤ level x then x :: p :: l else p :: insertLayer level x l

/-- Visit the elements of a level from `this` on. The action takes the clock; it drops the element or
    replaces it, and the clock then ticks. The walk goes on at what followed `this` before that. -/
def walkLayer (level : α → Nat) (lvl : Nat) (action : Nat → α → Option α) :
    Nat → Nat → List α → List α → List α × Nat
  | 0, clock, done, rest => (done ++ rest, clock)
  | _ + 1, clock, done, [] => (done, clock)
  | fuel + 1, clock, done, this :: next =>
    if level this < lvl then (done ++ this :: next, clock)
    else if lvl < level this then walkLayer level lvl action fuel clock (done ++ [this]) next
    else
      match action clock this with
      | none => walkLayer level lvl action fuel clock done next
      | some x =>
        if done.any (level · ≤ level x) || next.head?.all (level · ≤ level x) then
          walkLayer level lvl action fuel (clock + 1) (insertLayer level x done) next
        else walkLayer level lvl action fuel (clock + 1) done (insertLayer level x next)

variable {level stamp : α → Nat}

/-- `b` is on a lower level than `a`, or older. -/
def Below (level stamp : α → Nat) (a b : α) : Prop :=
  level b < level a ∨ level b = level a ∧ stamp b < stamp a

/-- The order of the list. -/
def Layered (level stamp : α → Nat) (l : List α) : Prop := l.Pairwise (Below level stamp)

/-! ### Insertion -/

theorem insertLayer_perm (x : α) : ∀ l, (insertLayer level x l).Perm (x :: l)
  | [] => .refl _
  | p :: l => by
    rw [insertLayer]
    split
    · exact .refl _
    · exact ((insertLayer_perm x l).cons p).trans (.swap x p l)

theorem mem_insertLayer {x y : α} {l : List α} : y ∈ insertLayer level x l ↔ y = x ∨ y ∈ l := by
  rw [(insertLayer_perm x l).mem_iff, List.mem_cons]

/-- Inserting what is newer than the rest keeps the order. -/
theorem layered_insertLayer {x : α} : ∀ {l : List α}, Layered level stamp l →
    (∀ p ∈ l, stamp p < stamp x) → Layered level stamp (insertLayer level x l)
  | [], _, _ => List.pairwise_singleton _ _
  | p :: l, h, hnew => by
    rw [insertLayer]
    obtain ⟨hp, hl⟩ := List.pairwise_cons.mp h
    split
    · next hle =>
      have hpx : Below level stamp x p := by
        rcases Nat.lt_or_eq_of_le hle with hlt | heq
        · exact .inl hlt
        · exact .inr ⟨heq, hnew p (List.mem_cons_self ..)⟩
      refine List.pairwise_cons.mpr ⟨fun q hq => ?_, h⟩
      rcases List.mem_cons.mp hq with rfl | hq
      · exact hpx
      · have hqp := hp q hq
        have hqn := hnew q (List.mem_cons_of_mem _ hq)
        unfold Below at hpx hqp ⊢
        omega
    · next hlt =>
      refine List.pairwise_cons.mpr ⟨fun q hq => ?_,
        layered_insertLayer hl fun q hq => hnew q (List.mem_cons_of_mem _ hq)⟩
      rcases mem_insertLayer.mp hq with rfl | hq
      · exact .inl (by omega)
      · exact hp q hq

/-- Inserting before the boundary of a split list. -/
theorem insertLayer_left {x : α} : ∀ {done next : List α},
    (done.any (level · ≤ level x) || next.head?.all (level · ≤ level x)) = true →
    insertLayer level x (done ++ next) = insertLayer level x done ++ next
  | [], [], _ => rfl
  | [], n :: next, h => by
    have hn : level n ≤ level x := by simpa using h
    simp [insertLayer, hn]
  | p :: done, next, h => by
    rw [List.cons_append, insertLayer, insertLayer]
    split
    · rfl
    · next hp =>
      rw [List.cons_append, insertLayer_left (by simpa [hp] using h)]

/-- Inserting behind the boundary of a split list. -/
theorem insertLayer_right {x : α} : ∀ {done next : List α},
    done.any (level · ≤ level x) = false →
    insertLayer level x (done ++ next) = done ++ insertLayer level x next
  | [], _, _ => rfl
  | p :: done, next, h => by
    have hp : ¬ level p ≤ level x := by
      intro hp
      simp [hp] at h
    rw [List.cons_append, insertLayer, if_neg hp, insertLayer_right (by simpa [hp] using h)]
    rfl

/-! ### Walks -/

/-- What a walk over a level makes of a list. -/
structure Walked (level stamp : α → Nat) (lvl : Nat) (action : Nat → α → Option α) (clock : Nat)
    (l : List α) (result : List α × Nat) : Prop where
  layered : Layered level stamp result.1
  clock_le : clock ≤ result.2
  older : ∀ y ∈ result.1, stamp y < result.2
  source : ∀ y ∈ result.1, y ∈ l ∨ ∃ c, ∃ x ∈ l, level x = lvl ∧ action c x = some y
  kept : ∀ x ∈ l, level x ≠ lvl → x ∈ result.1
  gone : ∀ y ∈ result.1, level y ≠ lvl
  keys : ∀ (β : Type) (key : α → β), (∀ c x y, action c x = some y → key y = key x) →
    (result.1.map key).Subperm (l.map key)

variable {lvl : Nat} {action : Nat → α → Option α}

/-- A walk that begins with a list whose elements are those of `l`, but for one of the level that
    was replaced. -/
theorem Walked.of_replace {clock : Nat} {l l' : List α} {this x : α} {result : List α × Nat}
    (hx : action clock this = some x) (hthis : level this = lvl) (hlvl : level x ≠ lvl)
    (hl : l'.Perm (x :: l)) (h : Walked level stamp lvl action (clock + 1) l' result)
    {l₀ : List α} (hl₀ : l₀.Perm (this :: l)) : Walked level stamp lvl action clock l₀ result where
  layered := h.layered
  clock_le := by have := h.clock_le; omega
  older := h.older
  source := fun y hy => by
    have hcase : ∀ z ∈ l', z = x ∨ z ∈ l := fun z hz => by simpa using hl.mem_iff.mp hz
    rcases h.source y hy with hy | ⟨c, z, hz, hzl, hza⟩
    · rcases hcase y hy with rfl | hy
      · exact .inr ⟨clock, this, hl₀.mem_iff.mpr (List.mem_cons_self ..), hthis, hx⟩
      · exact .inl (hl₀.mem_iff.mpr (List.mem_cons_of_mem _ hy))
    · rcases hcase z hz with rfl | hz
      · exact absurd hzl hlvl
      · exact .inr ⟨c, z, hl₀.mem_iff.mpr (List.mem_cons_of_mem _ hz), hzl, hza⟩
  kept := fun z hz hzl => by
    rcases List.mem_cons.mp (hl₀.mem_iff.mp hz) with rfl | hz
    · exact absurd hthis hzl
    · exact h.kept z (hl.mem_iff.mpr (List.mem_cons_of_mem _ hz)) hzl
  gone := h.gone
  keys := fun β key hkey => by
    refine (h.keys β key hkey).trans ?_
    refine ((hl.map key).trans ?_).subperm
    rw [List.map_cons, hkey _ _ _ hx, ← List.map_cons]
    exact (hl₀.map key).symm

/-- A walk acts on exactly the elements of its level, and keeps the order. -/
theorem walkLayer_spec (hact : ∀ c x y, action c x = some y → level y ≠ lvl ∧ stamp y = c) :
    ∀ (fuel clock : Nat) (done rest : List α), Layered level stamp (done ++ rest) →
      (∀ y ∈ done ++ rest, stamp y < clock) → (∀ y ∈ done, level y ≠ lvl) →
      rest.countP (lvl ≤ level ·) ≤ fuel →
      Walked level stamp lvl action clock (done ++ rest)
        (walkLayer level lvl action fuel clock done rest)
  | 0, clock, done, rest, hl, hold, hdone, hfuel => by
    have hnone : ∀ y ∈ done ++ rest, level y ≠ lvl := by
      intro y hy he
      rcases List.mem_append.mp hy with hy | hy
      · exact hdone y hy he
      · have : 0 < rest.countP (lvl ≤ level ·) := List.countP_pos_iff.mpr ⟨y, hy, by simp [he]⟩
        omega
    exact ⟨hl, Nat.le_refl _, hold, fun y hy => .inl hy, fun x hx _ => hx, hnone,
      fun _ _ _ => List.Subperm.refl _⟩
  | fuel + 1, clock, done, [], hl, hold, hdone, _ => by
    rw [walkLayer, List.append_nil] at *
    exact ⟨hl, Nat.le_refl _, hold, fun y hy => .inl hy, fun x hx _ => hx, hdone,
      fun _ _ _ => List.Subperm.refl _⟩
  | fuel + 1, clock, done, this :: next, hl, hold, hdone, hfuel => by
    have hbelow : ∀ y ∈ next, level y ≤ level this := fun y hy => by
      have h := (List.pairwise_cons.mp (List.pairwise_append.mp hl).2.1).1 y hy
      unfold Below at h
      omega
    rw [walkLayer]
    split
    · next hlt =>
      refine ⟨hl, Nat.le_refl _, hold, fun y hy => .inl hy, fun x hx _ => hx, fun y hy => ?_,
        fun _ _ _ => List.Subperm.refl _⟩
      rcases List.mem_append.mp hy with hy | hy
      · exact hdone y hy
      · rcases List.mem_cons.mp hy with rfl | hy
        · omega
        · have := hbelow y hy
          omega
    · next hge =>
      rw [List.countP_cons_of_pos (by simpa using hge)] at hfuel
      have hsub : List.Sublist (done ++ next) (done ++ this :: next) :=
        (List.Sublist.refl done).append (List.sublist_cons_self this next)
      have hl' : Layered level stamp (done ++ next) := hl.sublist hsub
      have hold' : ∀ y ∈ done ++ next, stamp y < clock := fun y hy => hold y (hsub.subset hy)
      have hperm : (done ++ this :: next).Perm (this :: (done ++ next)) := List.perm_middle
      split
      · next hgt =>
        have hdone' : ∀ y ∈ done ++ [this], level y ≠ lvl := fun y hy => by
          rcases List.mem_append.mp hy with hy | hy
          · exact hdone y hy
          · rw [List.mem_singleton.mp hy]
            omega
        have h := walkLayer_spec hact fuel clock (done ++ [this]) next (by simpa using hl)
          (by simpa using hold) hdone' (by omega)
        simpa using h
      · next hle =>
        have hthis : level this = lvl := by omega
        split
        · -- the element is dropped
          have h := walkLayer_spec hact fuel clock done next hl' hold' hdone (by omega)
          refine ⟨h.layered, h.clock_le, h.older, fun y hy => ?_, fun x hx hxl => ?_, h.gone,
            fun β key hkey => (h.keys β key hkey).trans (hsub.map key).subperm⟩
          · rcases h.source y hy with hy | ⟨c, x, hx, hxl, hxa⟩
            · exact .inl (hsub.subset hy)
            · exact .inr ⟨c, x, hsub.subset hx, hxl, hxa⟩
          · rcases List.mem_cons.mp (hperm.mem_iff.mp hx) with rfl | hx
            · exact absurd hthis hxl
            · exact h.kept x hx hxl
        · next x hx =>
          obtain ⟨hlvl, hstamp⟩ := hact clock this x hx
          have hnew := layered_insertLayer hl' (x := x) fun p hp => by
            rw [hstamp]
            exact hold' p hp
          have holdx : ∀ y, y = x ∨ y ∈ done ++ next → stamp y < clock + 1 := fun y hy => by
            rcases hy with rfl | hy
            · omega
            · have := hold' y hy
              omega
          split
          · next hleft =>
            rw [insertLayer_left hleft] at hnew
            have hp : (insertLayer level x done ++ next).Perm (x :: (done ++ next)) :=
              (insertLayer_perm x done).append_right next
            refine .of_replace hx hthis hlvl hp ?_ hperm
            refine walkLayer_spec hact fuel (clock + 1) _ next hnew
              (fun y hy => holdx y (List.mem_cons.mp (hp.mem_iff.mp hy))) (fun y hy => ?_)
              (by omega)
            rcases mem_insertLayer.mp hy with rfl | hy
            · exact hlvl
            · exact hdone y hy
          · next hright =>
            rw [Bool.or_eq_true, not_or, Bool.not_eq_true, Bool.not_eq_true] at hright
            rw [insertLayer_right hright.1] at hnew
            -- the element is lower than the next one, so the walk ends before it gets there
            have hlow : level x < lvl := by
              cases next with
              | nil => simp at hright
              | cons n next =>
                have hn := hbelow n (List.mem_cons_self ..)
                have hnx : ¬ level n ≤ level x := of_decide_eq_false hright.2
                omega
            have hins := @insertLayer_perm _ level x next
            have hp : (done ++ insertLayer level x next).Perm (x :: (done ++ next)) :=
              (hins.append_left done).trans List.perm_middle
            have hcount : (insertLayer level x next).countP (lvl ≤ level ·) ≤ fuel := by
              rw [hins.countP_eq, List.countP_cons_of_neg (by simpa using hlow)]
              omega
            refine .of_replace hx hthis hlvl hp ?_ hperm
            exact walkLayer_spec hact fuel (clock + 1) done _ hnew
              (fun y hy => holdx y (List.mem_cons.mp (hp.mem_iff.mp hy))) hdone hcount

end Ncc.Layered
