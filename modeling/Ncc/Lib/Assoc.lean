import Mathlib

/-! Associations: lists of key/value entries with at most one entry a key.

    New entries go to the head, an existing entry is updated where it stands, and a walk over the
    entries sees them in that order. Key uniqueness is a field, so that no lemma below asks for it:
    membership after each operation is read off the operation's arguments alone. -/

namespace Ncc

/-- An association from `κ` to `β`. -/
structure Assoc (κ β : Type*) where
  entries : List (κ × β)
  nodup : (entries.map Prod.fst).Nodup
  deriving DecidableEq

namespace Assoc

variable {κ β : Type*}

instance : Membership (κ × β) (Assoc κ β) := ⟨fun m e => e ∈ m.entries⟩

theorem mem_def {m : Assoc κ β} {e : κ × β} : e ∈ m ↔ e ∈ m.entries := Iff.rfl

/-- The association without entries. -/
def empty : Assoc κ β := ⟨[], List.nodup_nil⟩

instance : Inhabited (Assoc κ β) := ⟨empty⟩

@[simp] theorem notMem_empty (e : κ × β) : e ∉ (empty : Assoc κ β) := List.not_mem_nil

/-- A key determines its entry. -/
theorem mem_unique {m : Assoc κ β} {k : κ} {v w : β} (hv : (k, v) ∈ m) (hw : (k, w) ∈ m) :
    v = w := by
  obtain ⟨l, hl⟩ := m
  have hinj := List.inj_on_of_nodup_map hl
  have := hinj hv hw rfl
  exact congrArg Prod.snd this

/-- Keep the entries a test accepts. -/
def filter (m : Assoc κ β) (p : κ × β → Bool) : Assoc κ β :=
  ⟨m.entries.filter p, m.nodup.sublist (List.filter_sublist.map _)⟩

@[simp] theorem mem_filter {m : Assoc κ β} {p : κ × β → Bool} {e : κ × β} :
    e ∈ m.filter p ↔ e ∈ m ∧ p e = true := List.mem_filter

/-- The container a `dup` builds: every entry is inserted at the head, which reverses the order. -/
def dup (m : Assoc κ β) : Assoc κ β :=
  ⟨m.entries.reverse, by rw [List.map_reverse]; exact List.nodup_reverse.mpr m.nodup⟩

@[simp] theorem mem_dup {m : Assoc κ β} {e : κ × β} : e ∈ m.dup ↔ e ∈ m := List.mem_reverse

/-- Change the values and leave the keys alone. -/
def mapValues (m : Assoc κ β) (g : β → β) : Assoc κ β :=
  ⟨m.entries.map (fun e => (e.1, g e.2)), by simpa [Function.comp_def] using m.nodup⟩

theorem mem_mapValues {m : Assoc κ β} {g : β → β} {e : κ × β} :
    e ∈ m.mapValues g ↔ ∃ v, (e.1, v) ∈ m ∧ g v = e.2 := by
  obtain ⟨k, w⟩ := e
  simp only [mem_def, mapValues, List.mem_map, Prod.mk.injEq, Prod.exists]
  constructor
  · rintro ⟨k', v, hmem, rfl, hv⟩
    exact ⟨v, hmem, hv⟩
  · rintro ⟨v, hmem, hv⟩
    exact ⟨k, v, hmem, rfl, hv⟩

variable [DecidableEq κ]

/-- The value of a key. -/
def lookup (m : Assoc κ β) (k : κ) : Option β :=
  (m.entries.find? (fun e => e.1 = k)).map Prod.snd

theorem lookup_eq_some {m : Assoc κ β} {k : κ} {v : β} : m.lookup k = some v ↔ (k, v) ∈ m := by
  simp only [lookup, Option.map_eq_some_iff, Prod.exists, exists_eq_right]
  constructor
  · rintro ⟨k', h⟩
    have hk : k' = k := by simpa using List.find?_some h
    exact hk ▸ List.mem_of_find?_eq_some h
  · intro h
    cases hf : m.entries.find? (fun e => e.1 = k) with
    | none =>
      have := List.find?_eq_none.mp hf (k, v) h
      simp at this
    | some e =>
      obtain ⟨k', w⟩ := e
      have hk : k' = k := by simpa using List.find?_some hf
      subst hk
      exact ⟨k', by rw [mem_unique h (List.mem_of_find?_eq_some hf)]⟩

theorem lookup_eq_none {m : Assoc κ β} {k : κ} : m.lookup k = none ↔ ∀ v, (k, v) ∉ m := by
  rw [Option.eq_none_iff_forall_ne_some]
  exact forall_congr' fun v => not_congr lookup_eq_some

/-- Remove the entry of a key. -/
def unset (m : Assoc κ β) (k : κ) : Assoc κ β := m.filter (fun e => e.1 ≠ k)

@[simp] theorem mem_unset {m : Assoc κ β} {k : κ} {e : κ × β} :
    e ∈ m.unset k ↔ e ∈ m ∧ e.1 ≠ k := by simp [unset]

/-- Insert a key and set its value: in place when the key has an entry, at the head otherwise. -/
def update (m : Assoc κ β) (k : κ) (v : β) : Assoc κ β :=
  if h : k ∈ m.entries.map Prod.fst then
    ⟨m.entries.map (fun e => if e.1 = k then (k, v) else e), by
      have hfst : (Prod.fst ∘ fun e : κ × β => if e.1 = k then (k, v) else e) = Prod.fst := by
        funext e; by_cases he : e.1 = k <;> simp [he]
      simpa [List.map_map, hfst] using m.nodup⟩
  else ⟨(k, v) :: m.entries, by simpa using ⟨by simpa using h, m.nodup⟩⟩

theorem mem_update {m : Assoc κ β} {k : κ} {v : β} {e : κ × β} :
    e ∈ m.update k v ↔ e = (k, v) ∨ (e.1 ≠ k ∧ e ∈ m) := by
  unfold update
  split
  · rename_i h
    simp only [mem_def, List.mem_map]
    constructor
    · rintro ⟨e', he', rfl⟩
      by_cases hk : e'.1 = k
      · exact Or.inl (if_pos hk)
      · rw [if_neg hk]; exact Or.inr ⟨hk, he'⟩
    · rintro (rfl | ⟨hk, he⟩)
      · obtain ⟨e', he', hk⟩ := List.mem_map.mp h
        exact ⟨e', he', if_pos hk⟩
      · exact ⟨e, he, if_neg hk⟩
  · rename_i h
    simp only [mem_def, List.mem_cons]
    constructor
    · rintro (rfl | he)
      · exact Or.inl rfl
      · exact Or.inr ⟨fun hk => h (List.mem_map.mpr ⟨e, he, hk⟩), he⟩
    · rintro (rfl | ⟨_, he⟩)
      · exact Or.inl rfl
      · exact Or.inr he

end Assoc

end Ncc
