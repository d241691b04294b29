import Mathlib

/-! A source that is drained item by item.

    `step` takes the next item off a state: it fails, finds the end, or gives an item and the state
    behind it. `drain` repeats it, and keeps the items that came before a failure. Two sources whose
    steps agree along a relation give the same items (`drain_sim`). -/

namespace Ncc

section
variable {σ τ ε : Type*}

/-- The items of a source, and the failure that ended them. Fuel bounds their number. -/
def drain (step : σ → Except ε (Option (τ × σ))) : Nat → σ → List τ × Option ε
  | 0, _ => ([], none)
  | fuel + 1, s =>
    match step s with
    | .error e => ([], some e)
    | .ok none => ([], none)
    | .ok (some (t, s')) => (t :: (drain step fuel s').1, (drain step fuel s').2)

attribute [grind =] drain

variable {step : σ → Except ε (Option (τ × σ))}

theorem drain_error {s : σ} {e : ε} (h : step s = .error e) (n : Nat) :
    drain step (n + 1) s = ([], some e) := by
  rw [drain, h]

theorem drain_end {s : σ} (h : step s = .ok none) (n : Nat) :
    drain step (n + 1) s = ([], none) := by
  rw [drain, h]

theorem drain_item {s s' : σ} {t : τ} (h : step s = .ok (some (t, s'))) (n : Nat) :
    drain step (n + 1) s = (t :: (drain step n s').1, (drain step n s').2) := by
  rw [drain, h]

/-- Fuel beyond what is left of the source changes nothing. -/
theorem drain_fuel {μ : σ → Nat} (hμ : ∀ s t s', step s = .ok (some (t, s')) → μ s' < μ s) :
    ∀ {n m : Nat} {s : σ}, μ s < n → μ s < m → drain step n s = drain step m s
  | 0, _, _, h, _ => absurd h (Nat.not_lt_zero _)
  | _ + 1, 0, _, _, h => absurd h (Nat.not_lt_zero _)
  | n + 1, m + 1, s, hn, hm => by
    cases h : step s with
    | error e => rw [drain_error h, drain_error h]
    | ok o =>
      obtain _ | ⟨t, s'⟩ := o
      · rw [drain_end h, drain_end h]
      · have hs := hμ s t s' h
        rw [drain_item h, drain_item h, drain_fuel hμ (n := n) (m := m) (by omega) (by omega)]

variable {σ' : Type*} {step' : σ' → Except ε (Option (τ × σ'))}

/-- The two steps fail alike, end together, or give the same item and related states. -/
def StepsAgree (R : σ → σ' → Prop) (a : Except ε (Option (τ × σ)))
    (b : Except ε (Option (τ × σ'))) : Prop :=
  (∃ e, a = .error e ∧ b = .error e) ∨ (a = .ok none ∧ b = .ok none) ∨
    ∃ t s s', a = .ok (some (t, s)) ∧ b = .ok (some (t, s')) ∧ R s s'

theorem drain_sim {R : σ → σ' → Prop} (hR : ∀ s s', R s s' → StepsAgree R (step s) (step' s')) :
    ∀ (n : Nat) {s : σ} {s' : σ'}, R s s' → drain step n s = drain step' n s'
  | 0, _, _, _ => rfl
  | n + 1, s, s', h => by
    rcases hR s s' h with ⟨e, ha, hb⟩ | ⟨ha, hb⟩ | ⟨t, u, u', ha, hb, h'⟩
    · rw [drain_error ha, drain_error hb]
    · rw [drain_end ha, drain_end hb]
    · rw [drain_item ha, drain_item hb, drain_sim hR n h']

end

/-! ### Sources that fail differently -/

section
variable {ε ε' α β α' β' : Type*}

/-- Both fail, with related failures, or both give a result, and these are related. -/
def Related (E : ε → ε' → Prop) (Q : α → β → Prop) : Except ε α → Except ε' β → Prop
  | .error e, .error e' => E e e'
  | .ok x, .ok y => Q x y
  | _, _ => False

attribute [grind =] Related

variable {E : ε → ε' → Prop} {Q : α → β → Prop} {Q' : α' → β' → Prop}

theorem Related.bind {a : Except ε α} {b : Except ε' β} {f : α → Except ε α'}
    {g : β → Except ε' β'} (h : Related E Q a b)
    (hfg : ∀ x y, Q x y → Related E Q' (f x) (g y)) : Related E Q' (a.bind f) (b.bind g) := by
  cases a with
  | error e =>
    cases b with
    | error e' => exact h
    | ok y => exact h.elim
  | ok x =>
    cases b with
    | error e' => exact h.elim
    | ok y => exact hfg x y h

theorem Related.map {a : Except ε α} {b : Except ε' β} {f : α → α'} {g : β → β'}
    (h : Related E Q a b) (hfg : ∀ x y, Q x y → Q' (f x) (g y)) :
    Related E Q' (a.map f) (b.map g) := by
  cases a with
  | error e =>
    cases b with
    | error e' => exact h
    | ok y => exact h.elim
  | ok x =>
    cases b with
    | error e' => exact h.elim
    | ok y => exact hfg x y h

theorem Related.imp_ok {Q₂ : α → β → Prop} {a : Except ε α} {b : Except ε' β}
    (h : Related E Q a b) (hQ : ∀ x y, b = .ok y → Q x y → Q₂ x y) : Related E Q₂ a b := by
  cases a with
  | error e =>
    cases b with
    | error e' => exact h
    | ok y => exact h.elim
  | ok x =>
    cases b with
    | error e' => exact h.elim
    | ok y => exact hQ x y rfl h

/-- The same item, and related states behind it. -/
def SameItem {τ σ σ' : Type*} (R : σ → σ' → Prop) (p : τ × σ) (q : τ × σ') : Prop :=
  p.1 = q.1 ∧ R p.2 q.2

/-- Sources whose steps give the same items, along a relation of their states, and fail together. -/
theorem drain_related {σ σ' τ : Type*} {step : σ → Except ε (Option (τ × σ))}
    {step' : σ' → Except ε' (Option (τ × σ'))} {R : σ → σ' → Prop}
    (hR : ∀ s s', R s s' → Related E (Option.Rel (SameItem R)) (step s) (step' s')) :
    ∀ (n : Nat) {s : σ} {s' : σ'}, R s s' →
      (drain step n s).1 = (drain step' n s').1 ∧
        Option.Rel E (drain step n s).2 (drain step' n s').2
  | 0, _, _, _ => ⟨rfl, .none⟩
  | n + 1, s, s', h => by
    have hs := hR s s' h
    cases ha : step s with
    | error e =>
      cases hb : step' s' with
      | error e' =>
        rw [ha, hb] at hs
        rw [drain_error ha, drain_error hb]
        exact ⟨rfl, .some hs⟩
      | ok o' =>
        rw [ha, hb] at hs
        exact hs.elim
    | ok o =>
      cases hb : step' s' with
      | error e' =>
        rw [ha, hb] at hs
        exact hs.elim
      | ok o' =>
        rw [ha, hb] at hs
        cases hs with
        | none =>
          rw [drain_end ha, drain_end hb]
          exact ⟨rfl, .none⟩
        | @some p q hpq =>
          obtain ⟨t, u⟩ := p
          obtain ⟨t', u'⟩ := q
          obtain ⟨rfl, hu⟩ := hpq
          rw [drain_item ha, drain_item hb]
          have ih := drain_related hR n hu
          exact ⟨congrArg (t :: ·) ih.1, ih.2⟩

end

end Ncc
