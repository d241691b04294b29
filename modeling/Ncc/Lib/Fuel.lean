import Mathlib

/-! Functions that recurse on fuel.

    A program that is not structurally recursive is a function of an amount of fuel, its first
    argument. `Yields f r` says that it does return `r`: with any fuel from some amount on. Results
    compose like function calls, so a proof about such a program never counts fuel. -/

namespace Ncc

section
variable {α β : Type*}

/-- With enough fuel the function returns `r`. -/
def Yields (f : Nat → α) (r : α) : Prop := ∃ n, ∀ m, n ≤ m → f m = r

theorem Yields.const (r : α) : Yields (fun _ => r) r := ⟨0, fun _ _ => rfl⟩

theorem Yields.of_eq {f : Nat → α} {r : α} (h : ∀ n, f n = r) : Yields f r := ⟨0, fun m _ => h m⟩

/-- One unit of fuel for the call itself. -/
theorem Yields.succ {f : Nat → α} {r : α} (h : Yields (fun n => f (n + 1)) r) : Yields f r := by
  obtain ⟨n, hn⟩ := h
  refine ⟨n + 1, fun m hm => ?_⟩
  obtain ⟨k, rfl⟩ : ∃ k, m = k + 1 := ⟨m - 1, by omega⟩
  exact hn k (by omega)

theorem Yields.pred {f : Nat → α} {r : α} (h : Yields f r) : Yields (fun n => f (n + 1)) r := by
  obtain ⟨n, hn⟩ := h
  exact ⟨n, fun m hm => hn (m + 1) (by omega)⟩

/-- A call that goes on with the result of another one. -/
theorem Yields.comp {f : Nat → α} {g : Nat → α → β} {a : α} {r : β} (hf : Yields f a)
    (hg : Yields (fun n => g n a) r) : Yields (fun n => g n (f n)) r := by
  obtain ⟨n, hn⟩ := hf
  obtain ⟨k, hk⟩ := hg
  refine ⟨max n k, fun m hm => ?_⟩
  change g m (f m) = r
  rw [hn m (le_trans (le_max_left n k) hm)]
  exact hk m (le_trans (le_max_right n k) hm)

/-- The fallible call: an error is passed on, and a result is gone on with. -/
theorem Yields.bind.{u, v} {ε : Type u} {α β : Type v} {f : Nat → Except ε α} {k : Nat → α → Except ε β}
    {x : Except ε α} {r : Except ε β} (hf : Yields f x) (he : ∀ m, x = .error m → r = .error m)
    (hk : ∀ a, x = .ok a → Yields (fun n => k n a) r) : Yields (fun n => f n >>= k n) r := by
  refine hf.comp (g := fun n x => x >>= k n) ?_
  cases x with
  | error m => rw [he m rfl]; exact Yields.const _
  | ok a => exact hk a rfl

theorem Yields.unique {f : Nat → α} {a b : α} (ha : Yields f a) (hb : Yields f b) : a = b := by
  obtain ⟨n, hn⟩ := ha
  obtain ⟨k, hk⟩ := hb
  rw [← hn (max n k) (le_max_left n k), hk (max n k) (le_max_right n k)]

end

end Ncc
