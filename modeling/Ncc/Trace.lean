import Ncc.Run

/-! What can be seen of an execution: the accesses that some of the insns make, in order, and the way
    control takes.

    `after` follows control from block to block and `trace` collects the accesses on the way; a pass
    that keeps both for every number of blocks keeps what the function does. -/

namespace Ncc

/-- An insn as it is executed: its op, its types and the values of the operands it reads. -/
structure Access where
  op : InsnOp
  tsDst : TypeBits
  tsSrc : TypeBits
  used : List Word
  text : String
  input : List (PseudoReg × Word)
  deriving DecidableEq

/-- The words an insn reads: dst, if it USEs it, and the sources. -/
def usedWords (env : Env) (s : State) (i : Insn) : List Word :=
  (if i.op.useDst then [readOpt env s.regs i.dst] else []) ++
    [readOpt env s.regs i.src1, readOpt env s.regs i.src2]

/-- The access an insn makes. -/
def access (env : Env) (s : State) (i : Insn) : Access where
  op := i.op
  tsDst := tsOpt i.dst
  tsSrc := tsOpt i.src1
  used := usedWords env s i
  text := i.iasm.text
  input := if i.op = .asm then i.iasm.read s.regs else []

/-- The accesses of the insns that `p` selects. -/
def accesses (env : Env) (p : Insn → Bool) : List Insn → State → List Access
  | [], _ => []
  | i :: l, s => (if p i then [access env s i] else []) ++ accesses env p l (exec env i s)

@[simp] theorem accesses_append (env : Env) (p : Insn → Bool) : ∀ (l₁ l₂ : List Insn) (s : State),
    accesses env p (l₁ ++ l₂) s = accesses env p l₁ s ++ accesses env p l₂ (execs env l₁ s)
  | [], _, _ => rfl
  | i :: l₁, l₂, s => by
      rw [List.cons_append, accesses, accesses_append env p l₁ l₂, accesses, List.append_assoc,
        execs_cons]

section
variable (env : Env) (f : Func) (s₀ : State)

/-- Where control is after `n` blocks, if it has not left the function. -/
def after : Nat → Option (BlockId × State)
  | 0 => some (f.entry, s₀)
  | n + 1 =>
    match after n with
    | some (b, s) =>
      (flow env (f.block b) s).map fun c => (c, execs env (f.block b).insns s)
    | none => none

/-- The accesses made in the first `n` blocks. -/
def trace (p : Insn → Bool) : Nat → List Access
  | 0 => []
  | n + 1 => trace p n ++
    match after env f s₀ n with
    | some (b, s) => accesses env p (f.block b).insns s
    | none => []

end

section
variable {env : Env} {f : Func} {s₀ : State}

/-- Control is somewhere after `n` blocks exactly if it arrives there. -/
theorem after_eq_some {n : Nat} {b : BlockId} {s : State} :
    after env f s₀ n = some (b, s) ↔ ∃ path, path.length = n ∧ Reach env f s₀ path b s := by
  induction n generalizing b s with
  | zero =>
    constructor
    · intro h
      obtain ⟨rfl, rfl⟩ := Prod.mk.inj (Option.some.inj h)
      exact ⟨[], rfl, .entry⟩
    · rintro ⟨path, hlen, hr⟩
      cases hr with
      | entry => rfl
      | step => exact absurd hlen (by simp)
  | succ n ih =>
    constructor
    · intro h
      rw [after] at h
      cases ha : after env f s₀ n with
      | none => rw [ha] at h; exact nomatch h
      | some x =>
        obtain ⟨c, s'⟩ := x
        rw [ha] at h
        obtain ⟨d, hd, heq⟩ := Option.map_eq_some_iff.mp h
        obtain ⟨rfl, rfl⟩ := Prod.mk.inj heq
        obtain ⟨path, hlen, hr⟩ := ih.mp ha
        exact ⟨c :: path, by rw [List.length_cons, hlen], hr.step hd⟩
    · rintro ⟨path, hlen, hr⟩
      cases hr with
      | entry => exact absurd hlen (by simp)
      | @step path c _ s hr hgo =>
        have ha := ih.mpr ⟨path, Nat.succ.inj hlen, hr⟩
        have hflow : flow env (f.block c) s = some b := hgo
        rw [after, ha]
        simp only [hflow, Option.map_some]

end

/-- The state as it can be seen from outside: memory, the arguments passed and the value returned. -/
def State.visible (s : State) : Mem × List Arg × Option Word := (s.mem, s.args, s.ret)

/-- The two functions do the same: after any number of blocks they made the same accesses, control is
    at the same block, and memory is the same. -/
def SameRuns (env : Env) (p : Insn → Bool) (f f' : Func) (s₀ : State) : Prop :=
  ∀ n, trace env f' s₀ p n = trace env f s₀ p n ∧
    (after env f' s₀ n).map (fun x => (x.1, x.2.visible)) =
      (after env f s₀ n).map (fun x => (x.1, x.2.visible))

theorem SameRuns.refl (env : Env) (p : Insn → Bool) (f : Func) (s₀ : State) :
    SameRuns env p f f s₀ := fun _ => ⟨rfl, rfl⟩

theorem SameRuns.trans {env : Env} {p : Insn → Bool} {f f' f'' : Func} {s₀ : State}
    (h : SameRuns env p f f' s₀) (h' : SameRuns env p f' f'' s₀) : SameRuns env p f f'' s₀ :=
  fun n => ⟨(h' n).1.trans (h n).1, (h' n).2.trans (h n).2⟩

/-- Simulation block by block: states that are related at the start of a block make the same accesses
    in it, look the same, and go on to related states. -/
theorem sameRuns_of_sim {env : Env} {p : Insn → Bool} {f f' : Func} {s₀ : State}
    (Sim : BlockId → State → State → Prop) (hentry : f'.entry = f.entry)
    (h₀ : Sim f.entry s₀ s₀) (hvis : ∀ b s s', Sim b s s' → s'.visible = s.visible)
    (hstep : ∀ b s s', Sim b s s' →
      accesses env p (f'.block b).insns s' = accesses env p (f.block b).insns s ∧
      flow env (f'.block b) s' = flow env (f.block b) s ∧
      ∀ c, flow env (f.block b) s = some c →
        Sim c (execs env (f.block b).insns s) (execs env (f'.block b).insns s')) :
    SameRuns env p f f' s₀ := by
  have hsim : ∀ n, (after env f s₀ n = none ∧ after env f' s₀ n = none) ∨ ∃ b s s',
      after env f s₀ n = some (b, s) ∧ after env f' s₀ n = some (b, s') ∧ Sim b s s' := by
    intro n
    induction n with
    | zero => exact .inr ⟨_, _, _, rfl, by rw [after, hentry], h₀⟩
    | succ n ih =>
      rcases ih with ⟨h, h'⟩ | ⟨b, s, s', h, h', hs⟩
      · exact .inl ⟨by rw [after, h], by rw [after, h']⟩
      · obtain ⟨_, hflow, hnext⟩ := hstep b s s' hs
        rw [after, after, h, h']
        simp only [hflow]
        cases hc : flow env (f.block b) s with
        | none => exact .inl ⟨rfl, rfl⟩
        | some c => exact .inr ⟨c, _, _, rfl, rfl, hnext c hc⟩
  have htrace : ∀ n, trace env f' s₀ p n = trace env f s₀ p n := by
    intro n
    induction n with
    | zero => rfl
    | succ n ih =>
      rw [trace, trace, ih]
      rcases hsim n with ⟨h, h'⟩ | ⟨b, s, s', h, h', hs⟩
      · rw [h, h']
      · rw [h, h']; simp only [(hstep b s s' hs).1]
  refine fun n => ⟨htrace n, ?_⟩
  rcases hsim n with ⟨h, h'⟩ | ⟨b, s, s', h, h', hs⟩
  · rw [h, h']
  · rw [h, h']; simp only [Option.map_some, hvis b s s' hs]

end Ncc
