import Mathlib

/-! Iteration over the nodes of a graph until nothing changes.

    `pass` applies a step to every node in order, `iterate` repeats passes as long as some step of
    the last one reported a change. `iterate_inv` and `iterate_stable` say what holds when it ends;
    `iterate_ends` says that it ends, when reported changes make a bounded measure grow. -/

namespace Ncc

variable {ν σ : Type*}

/-- Apply the step to every node in order; was there a change? -/
def pass (step : ν → σ → σ × Bool) : List ν → σ → σ × Bool
  | [], st => (st, false)
  | b :: nodes, st =>
    let x := step b st
    let rest := pass step nodes x.1
    (rest.1, x.2 || rest.2)

/-- Pass over the nodes until there is no change, at most `n` times. -/
def iterate (step : ν → σ → σ × Bool) (nodes : List ν) : ℕ → σ → Option σ
  | 0, _ => none
  | n + 1, st =>
    let x := pass step nodes st
    if x.2 then iterate step nodes n x.1 else some x.1

section
variable {step : ν → σ → σ × Bool} {P : σ → Prop} {nodes : List ν}

theorem pass_inv : ∀ {l : List ν} {st : σ}, (∀ b ∈ l, ∀ st, P st → P (step b st).1) → P st →
    P (pass step l st).1
  | [], _, _, h => h
  | b :: l, st, hstep, h =>
    pass_inv (l := l) (fun c hc => hstep c (List.mem_cons_of_mem _ hc))
      (hstep b (List.mem_cons_self ..) st h)

/-- What every step keeps holds at the end. -/
theorem iterate_inv (hstep : ∀ b ∈ nodes, ∀ st, P st → P (step b st).1) :
    ∀ {n : ℕ} {st st' : σ}, iterate step nodes n st = some st' → P st → P st'
  | 0, _, _, h, _ => nomatch h
  | n + 1, st, st', h, hP => by
      rw [iterate] at h
      have hpass : P (pass step nodes st).1 := pass_inv hstep hP
      cases hc : (pass step nodes st).2 with
      | true => simp only [hc, if_true] at h; exact iterate_inv hstep h hpass
      | false =>
        simp only [hc, Bool.false_eq_true, if_false] at h
        rwa [← Option.some.inj h]

/-- A pass without change did nothing. -/
theorem pass_stable (hstep : ∀ b st, (step b st).2 = false → (step b st).1 = st) :
    ∀ {l : List ν} {st : σ}, (pass step l st).2 = false →
      (pass step l st).1 = st ∧ ∀ b ∈ l, (step b st).2 = false
  | [], _, _ => ⟨rfl, by simp⟩
  | b :: l, st, h => by
      obtain ⟨hb, hl⟩ : (step b st).2 = false ∧ (pass step l (step b st).1).2 = false := by
        simpa [pass] using h
      have hst := hstep b st hb
      rw [hst] at hl
      obtain ⟨heq, hall⟩ := pass_stable hstep hl
      refine ⟨by rw [pass, hst]; exact heq, fun c hc => ?_⟩
      rcases List.mem_cons.mp hc with rfl | hc
      · exact hb
      · exact hall c hc

/-- When the iteration ends, no step changes anything. -/
theorem iterate_stable (hstep : ∀ b st, (step b st).2 = false → (step b st).1 = st) :
    ∀ {n : ℕ} {st st' : σ}, iterate step nodes n st = some st' →
      ∀ b ∈ nodes, (step b st').2 = false
  | 0, _, _, h => nomatch h
  | n + 1, st, st', h => by
      rw [iterate] at h
      cases hc : (pass step nodes st).2 with
      | true => simp only [hc, if_true] at h; exact iterate_stable hstep h
      | false =>
        simp only [hc, Bool.false_eq_true, if_false] at h
        obtain ⟨heq, hall⟩ := pass_stable hstep hc
        rwa [← Option.some.inj h, heq]

/-- What a step without change leaves behind at its node, and other steps without change keep, holds
    at every node after a pass without change. -/
theorem pass_settles {Q : ν → σ → Prop} (hpost : ∀ b st, (step b st).2 = false → Q b (step b st).1)
    (hkeep : ∀ b c st, (step c st).2 = false → Q b st → Q b (step c st).1) :
    ∀ {l : List ν} {st : σ}, (pass step l st).2 = false →
      (∀ b, Q b st → Q b (pass step l st).1) ∧ ∀ b ∈ l, Q b (pass step l st).1
  | [], _, _ => ⟨fun _ h => h, by simp⟩
  | c :: l, st, h => by
      obtain ⟨hc, hl⟩ : (step c st).2 = false ∧ (pass step l (step c st).1).2 = false := by
        simpa [pass] using h
      obtain ⟨hrest, hall⟩ := pass_settles hpost hkeep hl
      refine ⟨fun b hb => hrest b (hkeep b c st hc hb), fun b hb => ?_⟩
      rcases List.mem_cons.mp hb with rfl | hb
      · exact hrest b (hpost b st hc)
      · exact hall b hb

/-- When the iteration ends, so it does at every node. -/
theorem iterate_settles {Q : ν → σ → Prop}
    (hpost : ∀ b st, (step b st).2 = false → Q b (step b st).1)
    (hkeep : ∀ b c st, (step c st).2 = false → Q b st → Q b (step c st).1) :
    ∀ {n : ℕ} {st st' : σ}, iterate step nodes n st = some st' → ∀ b ∈ nodes, Q b st'
  | 0, _, _, h => nomatch h
  | n + 1, st, st', h => by
      rw [iterate] at h
      cases hc : (pass step nodes st).2 with
      | true => simp only [hc, if_true] at h; exact iterate_settles hpost hkeep h
      | false =>
        simp only [hc, Bool.false_eq_true, if_false] at h
        rw [← Option.some.inj h]
        exact (pass_settles hpost hkeep hc).2

/-- A measure that no step decreases, and a change increases, does so over a pass. -/
theorem pass_measure {μ : σ → ℕ} (hP : ∀ b ∈ nodes, ∀ st, P st → P (step b st).1)
    (hle : ∀ b ∈ nodes, ∀ st, P st → μ st ≤ μ (step b st).1)
    (hlt : ∀ b ∈ nodes, ∀ st, P st → (step b st).2 = true → μ st < μ (step b st).1) :
    ∀ {l : List ν} {st : σ}, l ⊆ nodes → P st →
      μ st ≤ μ (pass step l st).1 ∧
        ((pass step l st).2 = true → μ st < μ (pass step l st).1)
  | [], _, _, _ => ⟨le_rfl, fun h => absurd h (by simp [pass])⟩
  | b :: l, st, hl, h => by
      have hb : b ∈ nodes := hl (List.mem_cons_self ..)
      obtain ⟨hle', hlt'⟩ := pass_measure hP hle hlt
        (fun c hc => hl (List.mem_cons_of_mem _ hc)) (hP b hb st h)
      refine ⟨(hle b hb st h).trans hle', fun hc => ?_⟩
      rcases (Bool.or_eq_true ..).mp hc with hc | hc
      · exact (hlt b hb st h hc).trans_le hle'
      · exact (hle b hb st h).trans_lt (hlt' hc)

/-- A bounded measure that every change increases ends the iteration. -/
theorem iterate_ends {μ : σ → ℕ} {N : ℕ} (hP : ∀ b ∈ nodes, ∀ st, P st → P (step b st).1)
    (hle : ∀ b ∈ nodes, ∀ st, P st → μ st ≤ μ (step b st).1)
    (hlt : ∀ b ∈ nodes, ∀ st, P st → (step b st).2 = true → μ st < μ (step b st).1)
    (hN : ∀ st, P st → μ st ≤ N) :
    ∀ {n : ℕ} {st : σ}, P st → N < μ st + n → ∃ st', iterate step nodes n st = some st'
  | 0, st, h, hn => absurd (hN st h) (by omega)
  | n + 1, st, h, hn => by
      obtain ⟨_, hgrow⟩ := pass_measure hP hle hlt (List.Subset.refl nodes) h
      rw [iterate]
      cases hc : (pass step nodes st).2 with
      | true =>
        simp only [if_true]
        exact iterate_ends hP hle hlt hN (pass_inv hP h) (by have := hgrow hc; omega)
      | false => exact ⟨_, rfl⟩

/-- More fuel does not change the result. -/
theorem iterate_mono : ∀ {m n : ℕ} {st st' : σ}, m ≤ n → iterate step nodes m st = some st' →
    iterate step nodes n st = some st'
  | 0, _, _, _, _, h => nomatch h
  | m + 1, 0, _, _, hle, _ => absurd hle (by omega)
  | m + 1, n + 1, st, st', hle, h => by
      rw [iterate] at h ⊢
      cases hc : (pass step nodes st).2 with
      | true =>
        simp only [hc, if_true] at h ⊢
        exact iterate_mono (by omega) h
      | false =>
        simp only [hc, Bool.false_eq_true, if_false] at h ⊢
        exact h

end

end Ncc
