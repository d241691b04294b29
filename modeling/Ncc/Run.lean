import Ncc.Block

/-! How control flows through a function.

    `Reach` is the set of states in which control arrives at a block. Passes that work on extended
    basic blocks inherit what they know from a sole predecessor; `Ebb` is the same run with the
    insns executed since the extended basic block was entered. Passes that rewrite insns in place are
    compared with `Along`, insn by insn. -/

namespace Ncc

/-- The block control is transferred to when the insns of `x` have left the state `s`. -/
def branch (env : Env) (x : Block) (s : State) : Option BlockId :=
  match x.control with
  | some o => blockSwitchLookup x (o.read env s.regs)
  | none => (x.successors.find? fun c => decide (c.cc = .always) || decide (c.cc ∈ s.ccs)).map
      Cessor.b

theorem blockSwitchLookup_mem {x : Block} {u : Word} {c : BlockId}
    (h : blockSwitchLookup x u = some c) : c ∈ x.succs := by
  unfold blockSwitchLookup at h
  unfold Block.succs
  split at h
  · exact absurd h (by simp)
  · rename_i dflt cases hx
    rw [hx]
    split at h
    · rename_i succ hs
      exact List.mem_map.mpr ⟨succ, List.mem_cons_of_mem _ (List.mem_of_find?_eq_some hs),
        Option.some.inj h⟩
    · exact List.mem_map.mpr ⟨dflt, List.mem_cons_self .., Option.some.inj h⟩

/-- Control goes to a successor. -/
theorem branch_mem {env : Env} {x : Block} {s : State} {c : BlockId}
    (h : branch env x s = some c) : c ∈ x.succs := by
  unfold branch at h
  split at h
  · exact blockSwitchLookup_mem h
  · obtain ⟨succ, hs, rfl⟩ := Option.map_eq_some_iff.mp h
    exact List.mem_map.mpr ⟨succ, List.mem_of_find?_eq_some hs, rfl⟩

/-- The block control is transferred to when `x` is executed in the state `s`. -/
def flow (env : Env) (x : Block) (s : State) : Option BlockId := branch env x (execs env x.insns s)

/-- What matters of a block when it is executed. -/
def Block.core (x : Block) : List Insn × Option Operand × List Cessor :=
  (x.insns, x.control, x.successors)

theorem flow_congr {env : Env} {x x' : Block} (h : x'.core = x.core) (s : State) :
    flow env x' s = flow env x s := by
  simp only [Block.core, Prod.mk.injEq] at h
  unfold flow branch blockSwitchLookup
  rw [h.1, h.2.1, h.2.2]

section
variable {f : Func} {b x : BlockId} {l : List Insn} {o : Option Operand} {cs : List Cessor}

theorem core_appendInsn (h : (f.block b).core = (l, o, cs)) (i : Insn) :
    ((blockAppendInsn f b i).block b).core = (l ++ [i], o, cs) := by
  simp only [Block.core, Prod.mk.injEq] at h
  rw [blockAppendInsn, Func.setInsns_block, if_pos rfl, ← h.1, ← h.2.1, ← h.2.2]
  rfl

theorem core_appendInsn_ne (h : x ≠ b) (i : Insn) :
    ((blockAppendInsn f b i).block x).core = (f.block x).core := by
  rw [blockAppendInsn, Func.setInsns_block, if_neg h]

theorem core_addSuccessor (h : (f.block b).core = (l, o, cs)) (cc : ConditionCode)
    (c : BlockId) (lo hi : Word) :
    ((blockAddSuccessor f b cc c lo hi).block b).core = (l, o, cs ++ [⟨cc, c, lo, hi⟩]) := by
  simp only [Block.core, Prod.mk.injEq] at h ⊢
  refine ⟨(Blocks.insns_addSuccessor ..).trans h.1, (Blocks.control_addSuccessor ..).trans h.2.1, ?_⟩
  rw [blockAddSuccessor, Blocks.succs_addSuccessor, if_pos rfl, h.2.2]

theorem core_addSuccessor_ne (h : x ≠ b) (cc : ConditionCode) (c : BlockId) (lo hi : Word) :
    ((blockAddSuccessor f b cc c lo hi).block x).core = (f.block x).core := by
  simp only [Block.core, blockAddSuccessor, Blocks.insns_addSuccessor, Blocks.control_addSuccessor,
    Blocks.succs_addSuccessor, if_neg h, List.append_nil]

end

section
variable (env : Env) (f : Func) (s₀ : State)

/-- Executing block `b` in state `s` transfers control to `c`. -/
def Goes (b : BlockId) (s : State) (c : BlockId) : Prop := flow env (f.block b) s = some c

/-- Control runs through blocks of `R`, until it leaves them. -/
inductive Leads (R : BlockId → Prop) : BlockId → State → BlockId → State → Prop
  | leave {t : BlockId} {s : State} : ¬ R t → Leads R t s t s
  | step {b c t : BlockId} {s s' : State} : R b → Goes env f b s c →
      Leads R c (execs env (f.block b).insns s) t s' → Leads R b s t s'

/-- Control arrives at a block in a state, after the blocks of `path` (most recent first). -/
inductive Reach : List BlockId → BlockId → State → Prop
  | entry : Reach [] f.entry s₀
  | step {path : List BlockId} {b c : BlockId} {s : State} :
      Reach path b s → Goes env f b s c → Reach (b :: path) c (execs env (f.block b).insns s)

/-- Control arrives at a block in a state `s`; its extended basic block was entered in state `s₁`,
    and the insns of `trace` were executed since. The entry block is entered from outside, too. -/
inductive Ebb : State → List Insn → BlockId → State → Prop
  | entry : Ebb s₀ [] f.entry s₀
  | extend {s₁ : State} {trace : List Insn} {b c : BlockId} {s : State} :
      Ebb s₁ trace b s → Goes env f b s c → blockSolePredecessor (f.block c) = some b →
      c ≠ f.entry → Ebb s₁ (trace ++ (f.block b).insns) c (execs env (f.block b).insns s)
  | join {s₁ : State} {trace : List Insn} {b c : BlockId} {s : State} :
      Ebb s₁ trace b s → Goes env f b s c →
      (c ≠ f.entry → blockSolePredecessor (f.block c) ≠ some b) →
      Ebb (execs env (f.block b).insns s) [] c (execs env (f.block b).insns s)

end

section
variable {env : Env} {f : Func} {s₀ : State}

theorem Ebb.execs_eq {s₁ s : State} {trace : List Insn} {b : BlockId}
    (h : Ebb env f s₀ s₁ trace b s) : execs env trace s₁ = s := by
  induction h with
  | entry => rfl
  | extend _ _ _ _ ih => rw [execs_append, ih]
  | join _ _ _ _ => rfl

/-- Every state control arrives in belongs to an extended basic block. -/
theorem Reach.ebb {path : List BlockId} {b : BlockId} {s : State} (h : Reach env f s₀ path b s) :
    ∃ s₁ trace, Ebb env f s₀ s₁ trace b s := by
  induction h with
  | entry => exact ⟨_, _, Ebb.entry⟩
  | @step path b c s _ hgo ih =>
    obtain ⟨s₁, trace, hebb⟩ := ih
    by_cases hp : blockSolePredecessor (f.block c) = some b ∧ c ≠ f.entry
    · exact ⟨_, _, hebb.extend hgo hp.1 hp.2⟩
    · exact ⟨_, _, hebb.join hgo fun hc hp' => hp ⟨hp', hc⟩⟩

end

/-- A function of one block. -/
def straight (insns : List Insn) : Func where
  entry := 0
  exit := 1
  blocks := [0, 1]
  block := fun b => if b = 0 then { insns := insns } else {}
  lastLabel := 1
  linked := by intro b c; by_cases hb : b = 0 <;> by_cases hc : c = 0 <;> simp [hb, hc, Block.succs]

theorem succs_straight (insns : List Insn) (b : BlockId) : ((straight insns).block b).succs = [] := by
  by_cases hb : b = 0 <;> simp [straight, Block.succs, hb]

theorem closed_straight (insns : List Insn) : (straight insns).Closed := by
  refine ⟨List.mem_cons_self .., fun b _ c hc => ?_⟩
  have hc : c ∈ ((straight insns).block b).succs := hc
  rw [succs_straight] at hc
  exact absurd hc List.not_mem_nil

theorem ebb_straight {env : Env} {insns : List Insn} {s₀ s₁ s : State} {trace : List Insn}
    {b : BlockId} (h : Ebb env (straight insns) s₀ s₁ trace b s) : s₁ = s₀ ∧ trace = [] ∧ b = 0 := by
  have hgo : ∀ {b c s}, ¬ Goes env (straight insns) b s c := by
    intro b c s hgo
    have hc := branch_mem hgo
    rw [succs_straight] at hc
    exact absurd hc List.not_mem_nil
  cases h with
  | entry => exact ⟨rfl, rfl, rfl⟩
  | extend _ h _ _ => exact absurd h hgo
  | join _ h _ => exact absurd h hgo

/-! ### Insns rewritten in place -/

/-- The insns `l` and what they were rewritten into are related at every point of the execution of
    `l`. -/
def Along (env : Env) (R : State → Insn → Insn → Prop) : List Insn → List Insn → State → Prop
  | [], [], _ => True
  | i :: l, i' :: l', s => R s i i' ∧ Along env R l l' (exec env i s)
  | _, _, _ => False

/-- Both insns have the same effect. -/
def SameEffect (env : Env) (s : State) (i i' : Insn) : Prop := exec env i' s = exec env i s

theorem along_append {env : Env} {R : State → Insn → Insn → Prop} : ∀ {l₁ l₁' l₂ l₂' : List Insn}
    {s : State}, Along env R l₁ l₁' s → Along env R l₂ l₂' (execs env l₁ s) →
      Along env R (l₁ ++ l₂) (l₁' ++ l₂') s
  | [], [], _, _, _, _, h₂ => h₂
  | _ :: _, _ :: _, _, _, _, h₁, h₂ => ⟨h₁.1, along_append h₁.2 h₂⟩
  | [], _ :: _, _, _, _, h₁, _ => h₁.elim
  | _ :: _, [], _, _, _, h₁, _ => h₁.elim

theorem Along.mono {env : Env} {R R' : State → Insn → Insn → Prop}
    (hR : ∀ s i i', R s i i' → R' s i i') : ∀ {l l' : List Insn} {s : State},
      Along env R l l' s → Along env R' l l' s
  | [], [], _, _ => trivial
  | _ :: _, _ :: _, _, h => ⟨hR _ _ _ h.1, Along.mono hR h.2⟩
  | [], _ :: _, _, h => h.elim
  | _ :: _, [], _, h => h.elim

/-- Insns with the same effects at every point end in the same state. -/
theorem Along.execs_eq {env : Env} : ∀ {l l' : List Insn} {s : State},
    Along env (SameEffect env) l l' s → execs env l' s = execs env l s
  | [], [], _, _ => rfl
  | i :: l, i' :: l', s, h => by
      have hi : exec env i' s = exec env i s := h.1
      rw [execs_cons, execs_cons, hi, h.2.execs_eq]
  | [], _ :: _, _, h => h.elim
  | _ :: _, [], _, h => h.elim

/-- The two functions differ in the insns of their blocks at most. -/
structure SameGraph (f f' : Func) : Prop where
  entry : f'.entry = f.entry
  successors : ∀ b, (f'.block b).successors = (f.block b).successors
  predecessors : ∀ b, (f'.block b).predecessors = (f.block b).predecessors
  control : ∀ b, (f'.block b).control = (f.block b).control

namespace SameGraph
variable {f f' : Func}

theorem refl (f : Func) : SameGraph f f := ⟨rfl, fun _ => rfl, fun _ => rfl, fun _ => rfl⟩

theorem trans {f'' : Func} (h : SameGraph f f') (h' : SameGraph f' f'') : SameGraph f f'' :=
  ⟨h'.1.trans h.1, fun b => (h'.2 b).trans (h.2 b), fun b => (h'.3 b).trans (h.3 b),
    fun b => (h'.4 b).trans (h.4 b)⟩

theorem setInsns (f : Func) (b : BlockId) (l : List Insn) : SameGraph f (f.setInsns b l) := by
  refine ⟨rfl, fun x => ?_, fun x => ?_, fun x => ?_⟩ <;> rw [Func.setInsns_block] <;>
    split <;> rfl

theorem solePredecessor (h : SameGraph f f') (b : BlockId) :
    blockSolePredecessor (f'.block b) = blockSolePredecessor (f.block b) := by
  unfold blockSolePredecessor; rw [h.predecessors]

theorem branch_eq (h : SameGraph f f') (env : Env) (b : BlockId) (s : State) :
    branch env (f'.block b) s = branch env (f.block b) s := by
  unfold branch blockSwitchLookup; rw [h.control, h.successors]

theorem goes (h : SameGraph f f') {env : Env} {b c : BlockId} {s : State}
    (he : execs env (f'.block b).insns s = execs env (f.block b).insns s) :
    Goes env f' b s c ↔ Goes env f b s c := by
  unfold Goes flow; rw [h.branch_eq, he]

/-- When every block has the same effect wherever control arrives at it, the runs are the same. -/
theorem reach_iff (h : SameGraph f f') {env : Env} {s₀ : State}
    (he : ∀ path b s, Reach env f s₀ path b s →
      execs env (f'.block b).insns s = execs env (f.block b).insns s)
    {path : List BlockId} {b : BlockId} {s : State} :
    Reach env f' s₀ path b s ↔ Reach env f s₀ path b s := by
  constructor
  · intro hr
    induction hr with
    | entry => rw [h.entry]; exact Reach.entry
    | step _ hgo ih =>
      have heq := he _ _ _ ih
      rw [heq]
      exact ih.step ((h.goes heq).mp hgo)
  · intro hr
    induction hr with
    | entry => rw [← h.entry]; exact Reach.entry
    | step hr hgo ih =>
      have heq := he _ _ _ hr
      rw [← heq]
      exact ih.step ((h.goes heq).mpr hgo)

end SameGraph

end Ncc
