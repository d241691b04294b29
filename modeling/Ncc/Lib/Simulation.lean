import Mathlib.Data.List.Basic
import Mathlib.Order.Basic

/-! Simulation between deterministic systems.

    A system makes steps, and a step shows a list of events. One system simulates another if it makes
    up for every step with steps that show the same, or with none, provided that it cannot go on like
    that for ever. Since both are deterministic, they then show the same events, and one ends exactly
    if the other does. -/

namespace Ncc

/-- What a step shows, and the state after it; there is none from where the system halts. -/
abbrev System (σ ε : Type*) := σ → Option (List ε × σ)

namespace System
variable {σ τ ε : Type*}

section
variable (t : System σ ε)

/-- A number of steps, what they show, and the state after them. -/
inductive Steps : Nat → σ → List ε → σ → Prop
  | refl (s : σ) : Steps 0 s [] s
  | step {n : Nat} {s s' s'' : σ} {l l' : List ε} :
      t s = some (l, s') → Steps n s' l' s'' → Steps (n + 1) s (l ++ l') s''

/-- Some number of steps. -/
def Run (s : σ) (l : List ε) (s' : σ) : Prop := ∃ n, t.Steps n s l s'

/-- Some steps, but not none. -/
def Moves (s : σ) (l : List ε) (s' : σ) : Prop := ∃ n, t.Steps (n + 1) s l s'

/-- The system can be seen to do `l`, and maybe more. -/
def Shows (s : σ) (l : List ε) : Prop := ∃ l' s', t.Run s l' s' ∧ l <+: l'

/-- The system does `l` and halts. -/
def Ends (s : σ) (l : List ε) (s' : σ) : Prop := t.Run s l s' ∧ t s' = none

end

section
variable {t : System σ ε} {m n : Nat} {s s' s'' : σ} {l l' : List ε}

theorem Steps.one (h : t s = some (l, s')) : t.Steps 1 s l s' := by
  have := Steps.step h (.refl s')
  rwa [List.append_nil] at this

theorem Steps.trans (h : t.Steps m s l s') (h' : t.Steps n s' l' s'') :
    t.Steps (m + n) s (l ++ l') s'' := by
  induction h with
  | refl s => rwa [Nat.zero_add, List.nil_append]
  | step hs _ ih =>
    rw [List.append_assoc, Nat.add_right_comm]
    exact .step hs (ih h')

theorem Run.refl (s : σ) : t.Run s [] s := ⟨0, .refl s⟩

theorem Run.trans (h : t.Run s l s') (h' : t.Run s' l' s'') : t.Run s (l ++ l') s'' := by
  obtain ⟨m, hm⟩ := h
  obtain ⟨n, hn⟩ := h'
  exact ⟨m + n, hm.trans hn⟩

theorem Moves.one (h : t s = some (l, s')) : t.Moves s l s' := ⟨0, .one h⟩

theorem Moves.run (h : t.Moves s l s') : t.Run s l s' := by
  obtain ⟨n, h⟩ := h
  exact ⟨n + 1, h⟩

theorem Moves.trans (h : t.Moves s l s') (h' : t.Run s' l' s'') : t.Moves s (l ++ l') s'' := by
  obtain ⟨m, hm⟩ := h
  obtain ⟨n, hn⟩ := h'
  exact ⟨m + n, by rw [Nat.add_right_comm]; exact hm.trans hn⟩

theorem Run.moves (h : t.Run s l s') (h' : t.Moves s' l' s'') : t.Moves s (l ++ l') s'' := by
  obtain ⟨m, hm⟩ := h
  obtain ⟨n, hn⟩ := h'
  exact ⟨m + n, hm.trans hn⟩

theorem Steps.inj (h : t.Steps n s l s') (h' : t.Steps n s l' s'') : l = l' ∧ s' = s'' := by
  induction h generalizing l' s'' with
  | refl s =>
    cases h'
    exact ⟨rfl, rfl⟩
  | step hs _ ih =>
    cases h' with
    | step hs' h' =>
      rw [hs] at hs'
      obtain ⟨rfl, rfl⟩ := Prod.mk.inj (Option.some.inj hs')
      obtain ⟨rfl, rfl⟩ := ih h'
      exact ⟨rfl, rfl⟩

/-- The first steps of a longer run. -/
theorem Steps.split (h : t.Steps (m + n) s l s') :
    ∃ l₁ l₂ s₁, t.Steps m s l₁ s₁ ∧ t.Steps n s₁ l₂ s' ∧ l = l₁ ++ l₂ := by
  induction m generalizing s l with
  | zero =>
    rw [Nat.zero_add] at h
    exact ⟨[], l, s, .refl s, h, rfl⟩
  | succ m ih =>
    rw [Nat.add_right_comm] at h
    cases h with
    | @step _ _ s₁ _ l₁ _ hs h =>
      obtain ⟨l₂, l₃, s₂, h₂, h₃, rfl⟩ := ih h
      exact ⟨l₁ ++ l₂, l₃, s₂, .step hs h₂, h₃, (List.append_assoc ..).symm⟩

theorem Steps.of_halted (h : t.Steps n s l s') (hs : t s = none) : l = [] ∧ s' = s := by
  cases h with
  | refl => exact ⟨rfl, rfl⟩
  | step h' _ =>
    rw [hs] at h'
    cases h'

/-- Of two runs from one state, one begins with the other. -/
theorem Steps.prefix_of_le (h : t.Steps m s l s') (h' : t.Steps n s l' s'') (hle : m ≤ n) :
    l <+: l' := by
  obtain ⟨k, rfl⟩ := Nat.le.dest hle
  obtain ⟨l₁, l₂, s₁, h₁, -, rfl⟩ := h'.split
  rw [(h.inj h₁).1]
  exact List.prefix_append ..

end

/-- `R` relates the states of `t` to those of `u`, which makes up for every step of `t`. When it makes
    none itself, `μ` decreases. -/
structure Simulation (t : System σ ε) (u : System τ ε) (R : σ → τ → Prop) (μ : σ → Nat) : Prop where
  step : ∀ {s s' x l}, R s x → t s = some (l, s') →
    ∃ x', R s' x' ∧ (u.Moves x l x' ∨ u.Run x l x' ∧ μ s' < μ s)
  halt : ∀ {s x}, R s x → t s = none → ∃ x', u.Run x [] x' ∧ u x' = none ∧ R s x'

section
variable {t : System σ ε} {u : System τ ε} {R : σ → τ → Prop} {μ : σ → Nat}
  {s s' : σ} {x x' : τ} {m n : Nat} {l : List ε}

/-- Every run of `t` is made up for. -/
theorem Simulation.forth (h : Simulation t u R μ) (hs : t.Steps n s l s') (hR : R s x) :
    ∃ x', u.Run x l x' ∧ R s' x' := by
  induction hs generalizing x with
  | refl s => exact ⟨x, .refl x, hR⟩
  | step hs _ ih =>
    obtain ⟨x₁, hR₁, hx⟩ := h.step hR hs
    obtain ⟨x₂, h₂, hR₂⟩ := ih hR₁
    rcases hx with hx | ⟨hx, -⟩
    · exact ⟨x₂, hx.run.trans h₂, hR₂⟩
    · exact ⟨x₂, hx.trans h₂, hR₂⟩

/-- `t` halts, or goes on long enough for `u` to make another step. -/
theorem Simulation.advance (h : Simulation t u R μ) (k : Nat) {s : σ} {x : τ} (hk : μ s = k)
    (hR : R s x) : ∃ l s' x', t.Run s l s' ∧ R s' x' ∧
      (u.Moves x l x' ∨ u.Run x l x' ∧ t s' = none) := by
  induction k using Nat.strongRecOn generalizing s x with
  | _ k ih =>
    cases hs : t s with
    | none => exact ⟨[], s, x, .refl s, hR, .inr ⟨.refl x, hs⟩⟩
    | some p =>
      obtain ⟨l, s'⟩ := p
      have hrun : t.Run s l s' := (Moves.one hs).run
      obtain ⟨x', hR', hx | ⟨hx, hlt⟩⟩ := h.step hR hs
      · exact ⟨l, s', x', hrun, hR', .inl hx⟩
      · obtain ⟨l', s'', x'', ht, hR'', hend⟩ := ih (μ s') (by omega) rfl hR'
        refine ⟨l ++ l', s'', x'', hrun.trans ht, hR'', hend.imp hx.moves ?_⟩
        exact fun h => ⟨hx.trans h.1, h.2⟩

/-- Every number of steps of `u` is reached by a run of `t`, unless `t` halts before. -/
theorem Simulation.catchUp (h : Simulation t u R μ) (hR : R s x) (k : Nat) :
    ∃ l s' m x', t.Run s l s' ∧ u.Steps m x l x' ∧ R s' x' ∧ (k ≤ m ∨ t s' = none) := by
  induction k with
  | zero => exact ⟨[], s, 0, x, .refl s, .refl x, hR, .inl (Nat.zero_le 0)⟩
  | succ k ih =>
    obtain ⟨l, s', m, x', ht, hu, hR', hle | hend⟩ := ih
    · obtain ⟨l', s'', x'', ht', hR'', hend⟩ := h.advance (μ s') rfl hR'
      rcases hend with ⟨n, hx⟩ | ⟨⟨n, hx⟩, hend⟩
      · exact ⟨l ++ l', s'', m + (n + 1), x'', ht.trans ht', hu.trans hx, hR'', .inl (by omega)⟩
      · exact ⟨l ++ l', s'', m + n, x'', ht.trans ht', hu.trans hx, hR'', .inr hend⟩
    · exact ⟨l, s', m, x', ht, hu, hR', .inr hend⟩

/-- Both systems show the same. -/
theorem Simulation.shows_iff (h : Simulation t u R μ) (hR : R s x) (l : List ε) :
    t.Shows s l ↔ u.Shows x l := by
  constructor
  · rintro ⟨l', s', ⟨n, hs⟩, hl⟩
    obtain ⟨x', hx, -⟩ := h.forth hs hR
    exact ⟨l', x', hx, hl⟩
  · rintro ⟨l', x', ⟨m, hx⟩, hl⟩
    obtain ⟨l₁, s', m', x₁, ht, hu, hR', hle | hend⟩ := h.catchUp hR m
    · exact ⟨l₁, s', ht, hl.trans (hx.prefix_of_le hu hle)⟩
    · obtain ⟨x₂, ⟨k, hk⟩, hhalt, -⟩ := h.halt hR' hend
      have hfull := hu.trans hk
      rw [List.append_nil] at hfull
      rcases Nat.le_total m (m' + k) with hle | hle
      · exact ⟨l₁, s', ht, hl.trans (hx.prefix_of_le hfull hle)⟩
      · -- `u` has halted long before
        obtain ⟨d, rfl⟩ := Nat.le.dest hle
        obtain ⟨l₂, l₃, x₃, h₂, h₃, rfl⟩ := hx.split
        obtain ⟨rfl, rfl⟩ := hfull.inj h₂
        rw [(h₃.of_halted hhalt).1, List.append_nil] at hl
        exact ⟨l₁, s', ht, hl⟩

/-- When `t` ends, `u` does. -/
theorem Simulation.ends (h : Simulation t u R μ) (hR : R s x) (ht : t.Ends s l s') :
    ∃ x', u.Ends x l x' ∧ R s' x' := by
  obtain ⟨⟨n, hs⟩, hend⟩ := ht
  obtain ⟨x₁, hx, hR₁⟩ := h.forth hs hR
  obtain ⟨x₂, hk, hhalt, hR₂⟩ := h.halt hR₁ hend
  have hfull := hx.trans hk
  rw [List.append_nil] at hfull
  exact ⟨x₂, ⟨hfull, hhalt⟩, hR₂⟩

theorem Ends.unique {s'' : σ} {l' : List ε} (h : t.Ends s l s') (h' : t.Ends s l' s'') :
    l = l' ∧ s' = s'' := by
  have key : ∀ {m n : Nat} {l l' : List ε} {s' s'' : σ}, m ≤ n → t.Steps m s l s' →
      t.Steps n s l' s'' → t s' = none → l = l' ∧ s' = s'' := by
    intro m n l l' s' s'' hle hm hn hs'
    obtain ⟨k, rfl⟩ := Nat.le.dest hle
    obtain ⟨l₁, l₂, s₁, h₁, h₂, rfl⟩ := hn.split
    obtain ⟨rfl, rfl⟩ := hm.inj h₁
    obtain ⟨rfl, rfl⟩ := h₂.of_halted hs'
    exact ⟨(List.append_nil _).symm, rfl⟩
  obtain ⟨⟨m, hm⟩, hs'⟩ := h
  obtain ⟨⟨n, hn⟩, hs''⟩ := h'
  rcases Nat.le_total m n with hle | hle
  · exact key hle hm hn hs'
  · obtain ⟨h₁, h₂⟩ := key hle hn hm hs''
    exact ⟨h₁.symm, h₂.symm⟩

/-- Steps that show nothing do not change what is shown. -/
theorem Run.shows_iff (h : t.Run s [] s') (l : List ε) : t.Shows s l ↔ t.Shows s' l := by
  constructor
  · rintro ⟨l', s'', ⟨m, hm⟩, hl⟩
    obtain ⟨n, hn⟩ := h
    rcases Nat.le_total m n with hle | hle
    · obtain rfl := List.prefix_nil.mp (hm.prefix_of_le hn hle)
      exact ⟨[], s', .refl s', hl⟩
    · obtain ⟨k, rfl⟩ := Nat.le.dest hle
      obtain ⟨l₁, l₂, s₁, h₁, h₂, rfl⟩ := hm.split
      obtain ⟨rfl, rfl⟩ := hn.inj h₁
      exact ⟨l₂, s'', ⟨k, h₂⟩, hl⟩
  · rintro ⟨l', s'', hrun, hl⟩
    exact ⟨l', s'', h.trans hrun, hl⟩

theorem Ends.after {s'' : σ} (h : t.Ends s' l s'') (hrun : t.Run s [] s') : t.Ends s l s'' :=
  ⟨hrun.trans h.1, h.2⟩

/-- A system that ends does so after the steps that it begins with. -/
theorem Ends.of_run {s'' : σ} (h : t.Ends s l s'') (hrun : t.Run s [] s') : t.Ends s' l s'' := by
  obtain ⟨⟨m, hm⟩, hend⟩ := h
  obtain ⟨n, hn⟩ := hrun
  refine ⟨?_, hend⟩
  rcases Nat.le_total n m with hle | hle
  · obtain ⟨k, rfl⟩ := Nat.le.dest hle
    obtain ⟨l₁, l₂, s₁, h₁, h₂, rfl⟩ := hm.split
    obtain ⟨rfl, rfl⟩ := hn.inj h₁
    exact ⟨k, h₂⟩
  · -- it has halted before
    obtain ⟨k, rfl⟩ := Nat.le.dest hle
    obtain ⟨l₁, l₂, s₁, h₁, h₂, hl⟩ := hn.split
    obtain ⟨rfl, rfl⟩ := hm.inj h₁
    obtain ⟨rfl, rfl⟩ := h₂.of_halted hend
    obtain ⟨rfl, -⟩ := List.append_eq_nil_iff.mp hl.symm
    exact .refl _

/-- When `u` ends, `t` does. -/
theorem Simulation.ends_back (h : Simulation t u R μ) (hR : R s x) (hu : u.Ends x l x') :
    ∃ s', t.Ends s l s' ∧ R s' x' := by
  obtain ⟨⟨m, hx⟩, hhalt⟩ := hu
  obtain ⟨l₁, s', m', x₁, ht, hu', -, hend⟩ := h.catchUp hR (m + 1)
  have hdone : t s' = none := by
    refine hend.resolve_left fun hle => ?_
    -- `u` cannot make more than `m` steps
    obtain ⟨k, rfl⟩ := Nat.le.dest (Nat.le_trans (Nat.le_succ m) hle)
    obtain ⟨l₂, l₃, x₂, h₂, h₃, -⟩ := hu'.split
    obtain ⟨-, rfl⟩ := hx.inj h₂
    cases h₃ with
    | refl => omega
    | step hs _ =>
      rw [hhalt] at hs
      cases hs
  obtain ⟨x₂, hx₂, hR₂⟩ := h.ends hR ⟨ht, hdone⟩
  obtain ⟨rfl, rfl⟩ := Ends.unique ⟨⟨m, hx⟩, hhalt⟩ hx₂
  exact ⟨s', ⟨ht, hdone⟩, hR₂⟩

end

end System

end Ncc
