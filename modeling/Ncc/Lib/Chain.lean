import Mathlib

/-! Null-terminated lists linked through the cells themselves.

    `next` is what each cell says of its successor, and `null` ends a list. A cell has one successor,
    so a list that ends has no cell twice (`nodup`), and it is the same list as long as the cells on
    it keep their links (`congr`). -/

namespace Ncc

variable {α : Type*} {null : α}

/-- From `a`, the links lead through the cells `l` to `null`. -/
def Chain (null : α) (next : α → α) : α → List α → Prop
  | a, [] => a = null
  | a, c :: l => a = c ∧ c ≠ null ∧ Chain null next (next c) l

namespace Chain

variable {next next' : α → α}

/-- The links from a cell determine the list. -/
theorem unique {l l' : List α} {a : α} (h : Chain null next a l) (h' : Chain null next a l') :
    l = l' := by
  induction l generalizing a l' with
  | nil =>
    cases l' with
    | nil => rfl
    | cons c l' => exact absurd (h'.1.symm.trans h) h'.2.1
  | cons c l ih =>
    cases l' with
    | nil => exact absurd (h.1.symm.trans h') h.2.1
    | cons c' l' =>
      obtain rfl : c = c' := h.1.symm.trans h'.1
      rw [ih h.2.2 h'.2.2]

/-- What follows a cell of the list is the rest of the list. -/
theorem suffix {l : List α} {a c : α} (h : Chain null next a l) (hc : c ∈ l) :
    ∃ l', Chain null next c (c :: l') ∧ (c :: l').length ≤ l.length := by
  induction l generalizing a with
  | nil => cases hc
  | cons d l ih =>
    rcases List.mem_cons.mp hc with rfl | hc
    · exact ⟨l, ⟨rfl, h.2⟩, le_rfl⟩
    · obtain ⟨l', hl', hlen⟩ := ih h.2.2 hc
      exact ⟨l', hl', hlen.trans (Nat.le_succ _)⟩

/-- A list that ends is acyclic. -/
theorem nodup {l : List α} {a : α} (h : Chain null next a l) : l.Nodup := by
  induction l generalizing a with
  | nil => exact List.nodup_nil
  | cons c l ih =>
    refine List.nodup_cons.mpr ⟨fun hc => ?_, ih h.2.2⟩
    obtain ⟨l', hl', hlen⟩ := suffix h.2.2 hc
    have hsame : c :: l = c :: l' := unique ⟨rfl, h.2⟩ hl'
    rw [← hsame] at hlen
    exact absurd hlen (Nat.not_succ_le_self _)

/-- Only the links of the cells on the list matter. -/
theorem congr {l : List α} {a : α} (h : Chain null next a l) (hn : ∀ c ∈ l, next' c = next c) :
    Chain null next' a l := by
  induction l generalizing a with
  | nil => exact h
  | cons c l ih =>
    refine ⟨h.1, h.2.1, ?_⟩
    rw [hn c (List.mem_cons_self ..)]
    exact ih h.2.2 fun d hd => hn d (List.mem_cons_of_mem _ hd)

/-- The list whose first cell is `c`; a cell at `null` ends it. -/
theorem push [DecidableEq α] {l : List α} {c : α} (h : Chain null next (next c) l) :
    Chain null next c (if c = null then [] else c :: l) := by
  split
  · assumption
  · exact ⟨rfl, ‹_›, h⟩

/-- Where a list is not empty, its first cell leads to the rest. -/
theorem pop {l : List α} {a : α} (h : Chain null next a l) (ha : a ≠ null) :
    ∃ l', l = a :: l' ∧ Chain null next (next a) l' := by
  cases l with
  | nil => exact absurd h ha
  | cons c l => exact ⟨l, by rw [h.1], h.1 ▸ h.2.2⟩

end Chain

end Ncc
