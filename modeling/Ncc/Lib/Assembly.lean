import Mathlib

/-! Assembly text, executed line by line.

    A text is a list of labels, insns and branches to labels. Control starts at a label and runs down
    the lines that follow it (`Machine.run`) until it arrives at the next label, by a branch or by
    falling through; until an insn returns; or until it falls past the end of the text. `after`
    repeats it from label to label. -/

namespace Ncc

/-- A line of text: `ι` are the insns, `κ` the conditions of branches and `β` the labels. -/
inductive Line (ι κ β : Type*) where
  | label (l : β)
  | insn (i : ι)
  | branch (c : κ) (l : β)
  | comment

/-- What executes insns and decides branches, on states `σ`. -/
structure Machine (ι κ σ : Type*) where
  exec : ι → σ → σ
  returns : ι → Bool
  taken : κ → σ → Bool

/-- Where control gets to. -/
inductive Arrival (β σ : Type*) where
  | arrives (l : β) (s : σ)
  | returned (s : σ)
  | off
  deriving DecidableEq

variable {ι κ β σ : Type*}

/-- The text after a label. -/
def fromLabel [DecidableEq β] (l : β) : List (Line ι κ β) → Option (List (Line ι κ β))
  | [] => none
  | .label l' :: t => if l' = l then some t else fromLabel l t
  | _ :: t => fromLabel l t

namespace Machine
variable (m : Machine ι κ σ)

/-- The effect of a straight run of insns. -/
def execs (is : List ι) (s : σ) : σ := is.foldl (fun s i => m.exec i s) s

/-- Run down the lines of a text. -/
def run : List (Line ι κ β) → σ → Arrival β σ
  | [], _ => .off
  | .label l :: _, s => .arrives l s
  | .insn i :: t, s => if m.returns i then .returned (m.exec i s) else run t (m.exec i s)
  | .branch c l :: t, s => if m.taken c s then .arrives l s else run t s
  | .comment :: t, s => run t s

variable [DecidableEq β]

/-- Run on from a label. -/
def enter (t : List (Line ι κ β)) (l : β) (s : σ) : Arrival β σ :=
  match fromLabel l t with
  | some t' => m.run t' s
  | none => .off

/-- Where control is, `n` labels later. -/
def after (t : List (Line ι κ β)) : Nat → Arrival β σ → Arrival β σ
  | 0, a => a
  | n + 1, a =>
    match after t n a with
    | .arrives l s => m.enter t l s
    | a => a

end Machine

section
variable {m : Machine ι κ σ} {t t' : List (Line ι κ β)} {is : List ι} {s : σ}

/-- Insns that do not return are executed in order. -/
theorem run_insns (h : ∀ i ∈ is, m.returns i = false) :
    m.run (is.map .insn ++ t) s = m.run t (m.execs is s) := by
  induction is generalizing s with
  | nil => rfl
  | cons i is ih =>
    rw [List.map_cons, List.cons_append, Machine.run, h i (List.mem_cons_self ..)]
    exact ih fun j hj => h j (List.mem_cons_of_mem _ hj)

/-- Insns of which the last returns. -/
theorem run_returns {i : ι} (h : ∀ j ∈ is, m.returns j = false) (hi : m.returns i = true) :
    m.run ((is ++ [i]).map .insn ++ t) s = .returned (m.execs (is ++ [i]) s) := by
  have hlast : m.execs (is ++ [i]) s = m.exec i (m.execs is s) := by
    simp [Machine.execs]
  rw [List.map_append, List.append_assoc, run_insns h, hlast]
  exact if_pos hi

variable [DecidableEq β] {l : β}

/-- A text in which the label does not occur is skipped. -/
theorem fromLabel_skip (h : .label l ∉ t) : fromLabel l (t ++ t') = fromLabel l t' := by
  induction t with
  | nil => rfl
  | cons x t ih =>
    obtain ⟨hx, ht⟩ := not_or.mp fun hm => h (List.mem_cons.mpr hm)
    cases x with
    | label l' =>
      have hne : l' ≠ l := fun he => hx (he ▸ rfl)
      rw [List.cons_append, fromLabel, if_neg hne]
      exact ih ht
    | insn i => exact ih ht
    | branch c l' => exact ih ht
    | comment => exact ih ht

theorem fromLabel_self : fromLabel l (.label l :: t) = some t := if_pos rfl

end

end Ncc
