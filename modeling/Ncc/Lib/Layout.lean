import Mathlib

/-! Where a calling convention puts arguments: in registers, from pools of limited size, while there
    are any left, and on the stack from then on.

    An argument has a class of register, or none if it never goes in a register, and takes a number
    of bytes on the stack. Arguments are placed from left to right; the cursor counts the registers
    of each class and the bytes used so far. -/

namespace Ncc.Layout

variable {τ κ : Type*} [DecidableEq κ]

/-- Where an argument is: in a register of its class, or so far above the first stack argument. -/
inductive Place (κ : Type*) where
  | reg (c : κ) (n : Nat)
  | stack (offset : Nat)
  deriving DecidableEq

/-- What the arguments so far have used. -/
structure Cursor (κ : Type*) where
  used : κ → Nat
  bytes : Nat

section
variable (pool : τ → Option κ) (limit : κ → Nat) (size : τ → Nat)

/-- The register class of an argument, if a register of it is left. -/
def room (c : Cursor κ) (t : τ) : Option κ := (pool t).filter fun k => c.used k < limit k

/-- The place of the next argument. -/
def place (c : Cursor κ) (t : τ) : Place κ :=
  match room pool limit c t with
  | some k => .reg k (c.used k)
  | none => .stack c.bytes

/-- The cursor after the next argument. -/
def next (c : Cursor κ) (t : τ) : Cursor κ :=
  match room pool limit c t with
  | some k => { c with used := Function.update c.used k (c.used k + 1) }
  | none => { c with bytes := c.bytes + size t }

/-- The places of some arguments. -/
def places : Cursor κ → List τ → List (Place κ)
  | _, [] => []
  | c, t :: ts => place pool limit c t :: places (next pool limit size c t) ts

/-- The cursor after some arguments. -/
def final : Cursor κ → List τ → Cursor κ
  | c, [] => c
  | c, t :: ts => final (next pool limit size c t) ts

end

section
variable {pool : τ → Option κ} {limit : κ → Nat} {size : τ → Nat} {c : Cursor κ} {t : τ}
variable {ts us : List τ} {i j : Nat} {k : κ} {n m : Nat}

@[simp] theorem length_places (c : Cursor κ) (ts : List τ) :
    (places pool limit size c ts).length = ts.length := by
  induction ts generalizing c with
  | nil => rfl
  | cons t ts ih => simp [places, ih]

/-- Further arguments do not change where the first ones are. -/
theorem places_append (c : Cursor κ) (ts us : List τ) :
    places pool limit size c (ts ++ us) =
      places pool limit size c ts ++ places pool limit size (final pool limit size c ts) us := by
  induction ts generalizing c with
  | nil => rfl
  | cons t ts ih => simp [places, final, ih]

theorem final_append (c : Cursor κ) (ts us : List τ) :
    final pool limit size c (ts ++ us) =
      final pool limit size (final pool limit size c ts) us := by
  induction ts generalizing c with
  | nil => rfl
  | cons t ts ih => simp [final, ih]

omit [DecidableEq κ] in
theorem room_spec (h : room pool limit c t = some k) : pool t = some k ∧ c.used k < limit k := by
  simpa [room, Option.filter_eq_some_iff] using h

omit [DecidableEq κ] in
theorem room_congr {u : τ} (h : pool t = pool u) (c : Cursor κ) :
    room pool limit c t = room pool limit c u := by
  rw [room, room, h]

theorem bytes_next_le (c : Cursor κ) (t : τ) : c.bytes ≤ (next pool limit size c t).bytes := by
  unfold next
  split
  · exact le_rfl
  · exact Nat.le_add_right _ _

theorem used_next_le (c : Cursor κ) (t : τ) (k : κ) :
    c.used k ≤ (next pool limit size c t).used k := by
  unfold next
  split
  · next k' _ =>
    dsimp only
    rcases eq_or_ne k k' with rfl | hk
    · rw [Function.update_self]
      exact Nat.le_succ _
    · rw [Function.update_of_ne hk]
  · exact le_rfl

theorem bytes_final_le (c : Cursor κ) (ts : List τ) :
    c.bytes ≤ (final pool limit size c ts).bytes := by
  induction ts generalizing c with
  | nil => exact le_rfl
  | cons t ts ih => exact (bytes_next_le c t).trans (ih _)

/-- An argument is in a register, or on the stack where the cursor is. -/
theorem place_cases (c : Cursor κ) (t : τ) :
    (∃ k, place pool limit c t = .reg k (c.used k) ∧ pool t = some k ∧ c.used k < limit k ∧
        next pool limit size c t = { c with used := Function.update c.used k (c.used k + 1) }) ∨
      place pool limit c t = .stack c.bytes ∧
        next pool limit size c t = { c with bytes := c.bytes + size t } := by
  unfold place next
  split
  · next k h => exact .inl ⟨k, rfl, (room_spec h).1, (room_spec h).2, rfl⟩
  · exact .inr ⟨rfl, rfl⟩

/-- A place on the stack is above those before it, and below the end. -/
theorem stack_bounds (h : (places pool limit size c ts)[i]? = some (.stack n)) :
    c.bytes ≤ n ∧ ∃ t, ts[i]? = some t ∧ n + size t ≤ (final pool limit size c ts).bytes := by
  induction ts generalizing c i with
  | nil => simp [places] at h
  | cons t ts ih =>
    cases i with
    | zero =>
      have hp : place pool limit c t = .stack n := by simpa [places] using h
      rcases @place_cases _ _ _ pool limit size c t with ⟨k, hk, -⟩ | ⟨hs, hnext⟩
      · cases hk.symm.trans hp
      · obtain rfl : c.bytes = n := by simpa using hs.symm.trans hp
        refine ⟨le_rfl, t, rfl, ?_⟩
        have hend := @bytes_final_le _ _ _ pool limit size (next pool limit size c t) ts
        rw [hnext] at hend
        rw [final, hnext]
        exact hend
    | succ i =>
      obtain ⟨hle, u, hu, hend⟩ := ih (c := next pool limit size c t) (by simpa [places] using h)
      exact ⟨(bytes_next_le c t).trans hle, u, by simpa using hu, hend⟩

/-- Two places on the stack do not overlap. -/
theorem stack_apart (hij : i < j) (hi : (places pool limit size c ts)[i]? = some (.stack n))
    (hj : (places pool limit size c ts)[j]? = some (.stack m)) :
    ∃ t, ts[i]? = some t ∧ n + size t ≤ m := by
  -- the later one is a place of the rest, which begins where the earlier one ends
  have hlt : i < ts.length := by
    have := (List.getElem?_eq_some_iff.mp hi).1
    simpa using this
  have hsplit : places pool limit size c ts =
      places pool limit size c (ts.take (i + 1)) ++
        places pool limit size (final pool limit size c (ts.take (i + 1))) (ts.drop (i + 1)) := by
    rw [← places_append, List.take_append_drop]
  rw [hsplit] at hi hj
  rw [List.getElem?_append_left (by simp; omega)] at hi
  rw [List.getElem?_append_right (by simp; omega)] at hj
  obtain ⟨-, t, ht, hle⟩ := stack_bounds hi
  refine ⟨t, ?_, hle.trans (stack_bounds hj).1⟩
  rw [List.getElem?_take_of_lt (Nat.lt_succ_self i)] at ht
  exact ht

/-- A register is of the argument's class, within its pool, and not taken before. -/
theorem reg_bounds (h : (places pool limit size c ts)[i]? = some (.reg k n)) :
    c.used k ≤ n ∧ n < limit k ∧ ∃ t, ts[i]? = some t ∧ pool t = some k := by
  induction ts generalizing c i with
  | nil => simp [places] at h
  | cons t ts ih =>
    cases i with
    | zero =>
      have hp : place pool limit c t = .reg k n := by simpa [places] using h
      rcases @place_cases _ _ _ pool limit size c t with ⟨k', hk, hpool, hlt, -⟩ | ⟨hs, -⟩
      · obtain ⟨rfl, rfl⟩ : k' = k ∧ c.used k' = n := by simpa using hk.symm.trans hp
        exact ⟨le_rfl, hlt, t, rfl, hpool⟩
      · cases hs.symm.trans hp
    | succ i =>
      obtain ⟨hle, hlim, u, hu, hpool⟩ := ih (c := next pool limit size c t)
        (by simpa [places] using h)
      exact ⟨(used_next_le c t k).trans hle, hlim, u, by simpa using hu, hpool⟩

/-- The places of the arguments from the `i`th on. -/
theorem places_drop (c : Cursor κ) (ts : List τ) (i : Nat) :
    (places pool limit size c ts).drop i =
      places pool limit size (final pool limit size c (ts.take i)) (ts.drop i) := by
  induction ts generalizing c i with
  | nil => simp [places]
  | cons t ts ih =>
    cases i with
    | zero => rfl
    | succ i => simpa [places, final] using ih (next pool limit size c t) i

/-- A place on the stack is where the cursor is. -/
theorem stack_cursor (h : (places pool limit size c ts)[i]? = some (.stack n)) :
    (final pool limit size c (ts.take i)).bytes = n := by
  induction ts generalizing c i with
  | nil => simp [places] at h
  | cons t ts ih =>
    cases i with
    | zero =>
      have hp : place pool limit c t = .stack n := by simpa [places] using h
      rcases @place_cases _ _ _ pool limit size c t with ⟨k, hk, -⟩ | ⟨hs, -⟩
      · cases hk.symm.trans hp
      · simpa [final] using hs.symm.trans hp
    | succ i => simpa [final] using ih (by simpa [places] using h)

/-- Only the register class and the size of an argument count. -/
theorem places_congr {us : List τ} (h : List.Forall₂ (fun t u => pool t = pool u ∧ size t = size u)
    ts us) (c : Cursor κ) :
    places pool limit size c ts = places pool limit size c us := by
  induction h generalizing c with
  | nil => rfl
  | cons h _ ih =>
    have hroom := @room_congr _ _ pool limit _ _ h.1 c
    rw [places, places, place, place, next, next, hroom, h.2, ih]

/-- Where no register is left, everything is on the stack. -/
theorem place_of_full (h : ∀ k, limit k ≤ c.used k) (t : τ) :
    place pool limit c t = .stack c.bytes ∧ (next pool limit size c t).used = c.used := by
  have hr : room pool limit c t = none := by
    rcases hr : room pool limit c t with _ | k
    · rfl
    · exact absurd (room_spec hr).2 (by have := h k; omega)
  simp [place, next, hr]

end

end Ncc.Layout
