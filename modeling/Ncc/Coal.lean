import Ncc.Run

/-! Coalescing straight-line blocks, and the other uses of `block_dup_successors` (opt.c, block.c,
    prop.c).

    Copies of successors have lost their ranges: every CC_SWITCH of the copy is the range from 0 to
    0. Copies of other successors are as good as the originals. `dupSuccessors_flow_iff` says for
    which control values the copy of a switch block goes where the original goes. -/

namespace Ncc.Coal

/-- What `coal0` does to a block and its always successor. -/
def coalesce (f : Func) (b succ : BlockId) : Func :=
  let f := (f.setInsns b ((f.block b).insns ++ (f.block succ).insns)).setInsns succ []
  blockFree (blockDupSuccessors f b succ) succ

/-- `coal0`: the function after the blocks were coalesced, if they were. -/
def coal0 (f : Func) (b : BlockId) : Option Func :=
  match blockAlwaysSuccessor (f.block b) with
  | some succ =>
    if b ≠ f.entry ∧ succ.b ≠ b ∧ succ.b ≠ f.exit ∧ (f.block succ.b).predecessors.length = 1 then
      some (coalesce f b succ.b)
    else none
  | none => none

/-- Coalesce at the first block of the list where `coal0` applies, and start over. -/
def coalLoop : Nat → Func → Func
  | 0, f => f
  | n + 1, f =>
    match f.blocks.findSome? (coal0 f) with
    | some f' => coalLoop n f'
    | none => f

/-- `coal`. Every turn frees a block. -/
def coal (f : Func) : Func := coalLoop f.blocks.length f

/-- `lookahead0` of prop.c: hoist the comparison and the branches of an always successor. `out` is
    `conps_value` of the table at the exit of the block. -/
def lookahead0 (out : PseudoReg → Option Operand) (f : Func) (b : BlockId) : Option Func :=
  match blockAlwaysSuccessor (f.block b) with
  | some succ =>
    match (f.block succ.b).insns with
    | [insn] =>
      match insnTestCon insn with
      | some dst =>
        match out dst with
        | some value =>
          if succ.b ≠ b ∧ operandPureCon (some value) then
            some (blockDupSuccessors (blockAppendInsn f b (insnSubstituteCon insn dst value)) b
              succ.b)
          else none
        | none => none
      | none => none
    | _ => none
  | none => none

/-- A switch block goes where it would go if all its ranges were the range from 0 to 0. -/
def RangesUnused (env : Env) (x : Block) (s : State) : Prop :=
  ∀ o dflt c cs, x.control = some o → x.successors = dflt :: c :: cs →
    (o.read env s.regs = 0 → blockSwitchLookup x 0 = some c.b) ∧
      (o.read env s.regs ≠ 0 → blockSwitchLookup x (o.read env s.regs) = some dflt.b)

section
variable (env : Env)

/-- A copy of the successors and the control of a block. -/
structure IsDup (x x' : Block) : Prop where
  control : x'.control = x.control
  successors : x'.successors = x.successors.map Cessor.dup

/-- The value 0 is in the range of every copied case, other values are in none. -/
theorem lookup_dup {x' : Block} {dflt c : Cessor} {cs : List Cessor} (u : Word)
    (h : x'.successors = (dflt :: c :: cs).map Cessor.dup) :
    blockSwitchLookup x' u = some (if u = 0 then c.b else dflt.b) := by
  rw [blockSwitchLookup, h]
  simp only [List.map_cons, List.find?_cons]
  by_cases hu : u = 0
  · subst hu; simp [Cessor.dup]
  · have hnot : ∀ d : Cessor, (decide (d.dup.min ≤ u) && decide (u ≤ d.dup.max)) = false := by
      intro d
      rw [Bool.and_eq_false_iff]
      exact Or.inr (by simpa [Cessor.dup] using hu)
    have hcs : (cs.map Cessor.dup).find?
        (fun d => decide (d.min ≤ u) && decide (u ≤ d.max)) = none := by
      rw [List.find?_eq_none]
      rintro _ hd
      obtain ⟨d, _, rfl⟩ := List.mem_map.mp hd
      simp [hnot d]
    rw [hnot c, hcs, if_neg hu]
    rfl

/-- A block with copied successors branches like the original exactly when the ranges do not
    matter. -/
theorem branch_dup_iff {x x' : Block} (h : IsDup x x') (s : State) :
    branch env x' s = branch env x s ↔ RangesUnused env x s := by
  unfold branch RangesUnused
  rw [h.control]
  cases hc : x.control with
  | none =>
    have hb : Cessor.b ∘ Cessor.dup = Cessor.b := rfl
    simp only [h.successors, List.find?_map, Option.map_map, hb]
    simp only [Function.comp_def, Cessor.dup, reduceCtorEq, false_implies, implies_true, iff_true]
    rfl
  | some o =>
    rcases hs : x.successors with _ | ⟨dflt, _ | ⟨c, cs⟩⟩
    · simp [blockSwitchLookup, h.successors, hs]
    · simp [blockSwitchLookup, h.successors, hs, Cessor.dup]
    · have hx' : x'.successors = (dflt :: c :: cs).map Cessor.dup := by rw [h.successors, hs]
      simp only [lookup_dup _ hx', Option.some.injEq, List.cons.injEq]
      constructor
      · rintro hl _ _ _ _ rfl ⟨rfl, rfl, rfl⟩
        by_cases hu : o.read env s.regs = 0
        · rw [if_pos hu, hu] at hl
          exact ⟨fun _ => hl.symm, fun hne => absurd hu hne⟩
        · rw [if_neg hu] at hl
          exact ⟨fun he => absurd he hu, fun _ => hl.symm⟩
      · intro hr
        obtain ⟨h0, hne⟩ := hr o dflt c cs rfl ⟨rfl, rfl, rfl⟩
        by_cases hu : o.read env s.regs = 0
        · rw [if_pos hu, hu, h0 hu]
        · rw [if_neg hu, hne hu]

end

/-! ### Coalescing -/

section
variable {f f' : Func} {b : BlockId}

/-- What `coal0` leaves behind when it coalesces `b` with `s`. -/
structure Coalesced (f f' : Func) (b s : BlockId) : Prop where
  always : ∃ succ, blockAlwaysSuccessor (f.block b) = some succ ∧ succ.b = s
  sole : (f.block s).predecessors = [b]
  merged : (f'.block b).insns = (f.block b).insns ++ (f.block s).insns ∧
    IsDup (f.block s) (f'.block b)
  freed : (f'.block s).successors = []
  other : ∀ x, x ≠ b → x ≠ s → (f'.block x).insns = (f.block x).insns ∧
    (f'.block x).control = (f.block x).control ∧ (f'.block x).successors = (f.block x).successors
  ne : b ≠ s
  blocks : f'.blocks = f.blocks.erase s

theorem alwaysSuccessor_mem {x : Block} {succ : Cessor} (h : blockAlwaysSuccessor x = some succ) :
    succ ∈ x.successors := by
  unfold blockAlwaysSuccessor at h
  split at h
  · rename_i hx
    split at h
    · rw [hx, ← Option.some.inj h]; exact List.mem_cons_self ..
    · exact absurd h (by simp)
  · exact absurd h (by simp)

theorem insns_coalesce {s : BlockId} (x : BlockId) : ((coalesce f b s).block x).insns =
    if x = s then [] else if x = b then (f.block b).insns ++ (f.block s).insns
      else (f.block x).insns := by
  simp only [coalesce, blockFree, Func.insns_setInsns, insns_blockRemoveSuccessors,
    insns_blockDupSuccessors]
  split <;> rfl

theorem control_coalesce {s : BlockId} (hne : s ≠ b) (x : BlockId) :
    ((coalesce f b s).block x).control =
      if x = s then none else if x = b then (f.block s).control else (f.block x).control := by
  simp only [coalesce, blockFree, Func.control_setInsns, control_blockRemoveSuccessors,
    control_blockDupSuccessors _ hne]

theorem succs_coalesce {s : BlockId} (hne : s ≠ b) (x : BlockId) :
    ((coalesce f b s).block x).successors =
      if x = s then [] else if x = b then (f.block s).successors.map Cessor.dup
        else (f.block x).successors := by
  simp only [coalesce, blockFree, Func.succs_setInsns, succs_blockRemoveSuccessors,
    succs_blockDupSuccessors _ hne]

theorem coal0_spec (h : coal0 f b = some f') : ∃ s, Coalesced f f' b s := by
  unfold coal0 at h
  split at h
  · rename_i succ hsucc
    split_ifs at h with hc
    obtain ⟨_, hne, _, hlen⟩ := hc
    obtain rfl := Option.some.inj h
    have hmem : b ∈ (f.block succ.b).predecessors :=
      Func.mem_preds.mpr (List.mem_map.mpr ⟨succ, alwaysSuccessor_mem hsucc, rfl⟩)
    have hsole : (f.block succ.b).predecessors = [b] := by
      obtain ⟨p, hp⟩ := List.length_eq_one_iff.mp hlen
      rw [hp, List.mem_singleton] at hmem
      rw [hp, hmem]
    refine ⟨succ.b, ⟨succ, hsucc, rfl⟩, hsole, ⟨?_, ?_, ?_⟩, ?_, fun x hb hs => ?_, Ne.symm hne,
      ?_⟩
    · rw [insns_coalesce, if_neg (Ne.symm hne), if_pos rfl]
    · rw [control_coalesce hne, if_neg (Ne.symm hne), if_pos rfl]
    · rw [succs_coalesce hne, if_neg (Ne.symm hne), if_pos rfl]
    · rw [succs_coalesce hne, if_pos rfl]
    · rw [insns_coalesce, control_coalesce hne, succs_coalesce hne]
      simp [hb, hs]
    · exact congrArg (List.erase · succ.b) (.trans (sameBlocks_blockRemoveSuccessors ..).blocks
        (sameBlocks_blockDupSuccessors ..).blocks)
  · exact absurd h (by simp)

end

/-- `t` is reached from `b` through always successors; `insns` is executed on the way, that of `b`
    and `t` included. -/
inductive Chain (f : Func) : BlockId → BlockId → List Insn → Prop
  | refl (b : BlockId) : Chain f b b (f.block b).insns
  | step {b t : BlockId} {succ : Cessor} {insns : List Insn} :
      blockAlwaysSuccessor (f.block b) = some succ → Chain f succ.b t insns →
      Chain f b t ((f.block b).insns ++ insns)

/-- The block has no edges any more. -/
def Gone (f : Func) (b : BlockId) : Prop :=
  (f.block b).successors = [] ∧ (f.block b).predecessors = []

/-- Block `b` was made of the chain from `b` to `t` by coalescing. -/
structure Made (f₀ f : Func) (b t : BlockId) : Prop where
  chain : Chain f₀ b t (f.block b).insns
  dup : IsDup (f₀.block t) (f.block b)

/-- The block is as it was. -/
structure Same (f₀ f : Func) (b : BlockId) : Prop where
  insns : (f.block b).insns = (f₀.block b).insns
  control : (f.block b).control = (f₀.block b).control
  successors : (f.block b).successors = (f₀.block b).successors

section
variable {f₀ f f' : Func} {b s t : BlockId}

theorem Chain.trans {u : BlockId} {l l' : List Insn} {succ : Cessor} (h : Chain f b t l)
    (hs : blockAlwaysSuccessor (f.block t) = some succ) (h' : Chain f succ.b u l') :
    Chain f b u (l ++ l') := by
  induction h with
  | refl b => exact Chain.step hs h'
  | step hb _ ih => rw [List.append_assoc]; exact Chain.step hb (ih hs)

theorem not_gone_of_mem {x : BlockId} (h : x ∈ f.succs b) : ¬ Gone f b ∧ ¬ Gone f x := by
  constructor
  · rintro ⟨hs, _⟩
    simp [Func.succs, Block.succs, hs] at h
  · rintro ⟨_, hp⟩
    have := Func.mem_preds.mpr h
    simp [hp] at this

/-- The always successor of a copy is that of the original. -/
theorem always_of_dup {x x' : Block} (h : IsDup x x') {succ : Cessor}
    (hs : blockAlwaysSuccessor x' = some succ) :
    ∃ succ₀, blockAlwaysSuccessor x = some succ₀ ∧ succ₀.b = succ.b := by
  unfold blockAlwaysSuccessor at hs ⊢
  rw [h.successors] at hs
  cases hx : x.successors with
  | nil => simp [hx] at hs
  | cons c cs =>
    simp only [hx, List.map_cons] at hs ⊢
    split_ifs at hs with hc
    refine ⟨c, if_pos hc, ?_⟩
    rw [← Option.some.inj hs]
    rfl

/-- A copy of a copy is a copy. -/
theorem IsDup.trans {x x' x'' : Block} (h : IsDup x x') (h' : IsDup x' x'') : IsDup x x'' :=
  ⟨h'.control.trans h.control, by
    rw [h'.successors, h.successors, List.map_map]; rfl⟩

/-- The edges that are left when `b` is coalesced with `s`. -/
theorem Coalesced.succs (h : Coalesced f f' b s) {x y : BlockId} (hy : y ∈ f'.succs x) :
    y ≠ s ∧ x ≠ s ∧ ∃ x', y ∈ f.succs x' := by
  have hsole : ∀ z, s ∈ f.succs z → z = b := by
    intro z hz
    have := Func.mem_preds.mpr hz
    rwa [h.sole, List.mem_singleton] at this
  by_cases hxs : x = s
  · subst hxs
    simp [Func.succs, Block.succs, h.freed] at hy
  · refine ⟨?_, hxs, ?_⟩ <;> by_cases hxb : x = b
    · subst hxb
      rw [Func.succs, Block.succs, h.merged.2.successors, List.map_map] at hy
      rintro rfl
      exact h.ne (hsole y hy).symm
    · rw [Func.succs, Block.succs, (h.other x hxb hxs).2.2] at hy
      rintro rfl
      exact hxb (hsole x hy)
    · subst hxb
      rw [Func.succs, Block.succs, h.merged.2.successors, List.map_map] at hy
      exact ⟨s, hy⟩
    · rw [Func.succs, Block.succs, (h.other x hxb hxs).2.2] at hy
      exact ⟨x, hy⟩

theorem gone_iff {x : BlockId} : Gone f x ↔ ∀ y, x ∉ f.succs y ∧ y ∉ f.succs x := by
  constructor
  · intro h y
    exact ⟨fun hy => (not_gone_of_mem hy).2 h, fun hy => (not_gone_of_mem hy).1 h⟩
  · intro h
    constructor
    · rw [← List.map_eq_nil_iff, List.eq_nil_iff_forall_not_mem]
      exact fun y => (h y).2
    · rw [List.eq_nil_iff_forall_not_mem]
      exact fun y hy => (h y).1 (Func.mem_preds.mp hy)

/-- Coalescing keeps every block what it was, or the outcome of coalescing a chain. -/
theorem Coalesced.step (h : Coalesced f f' b s)
    (hf : ∀ x, Gone f x ∨ Same f₀ f x ∨ ∃ t, Made f₀ f x t) (x : BlockId) :
    Gone f' x ∨ Same f₀ f' x ∨ ∃ t, Made f₀ f' x t := by
  by_cases hxs : x = s
  · subst hxs
    exact Or.inl (gone_iff.mpr fun y => ⟨fun hy => (h.succs hy).1 rfl, fun hy => (h.succs hy).2.1 rfl⟩)
  by_cases hxb : x = b
  · subst hxb
    obtain ⟨succ, hsucc, rfl⟩ := h.always
    have hmem : succ.b ∈ f.succs x := List.mem_map.mpr ⟨succ, alwaysSuccessor_mem hsucc, rfl⟩
    obtain ⟨hgx, hgs⟩ := not_gone_of_mem hmem
    obtain ⟨hinsns, hdup⟩ := h.merged
    -- where the chain of the successor ends
    have hs : ∃ t, Chain f₀ succ.b t (f.block succ.b).insns ∧ IsDup (f₀.block t) (f'.block x) := by
      rcases (hf succ.b).resolve_left hgs with hsame | ⟨t, hmade⟩
      · refine ⟨succ.b, ?_, ?_, ?_⟩
        · rw [hsame.insns]; exact Chain.refl _
        · rw [hdup.control, hsame.control]
        · rw [hdup.successors, hsame.successors]
      · exact ⟨t, hmade.chain, hmade.dup.trans hdup⟩
    obtain ⟨t, hchain, hdup'⟩ := hs
    refine Or.inr (Or.inr ⟨t, ?_, hdup'⟩)
    rw [hinsns]
    rcases (hf x).resolve_left hgx with hsame | ⟨u, hmade⟩
    · rw [hsame.insns]
      refine Chain.step ?_ hchain
      unfold blockAlwaysSuccessor
      rw [← hsame.successors]
      exact hsucc
    · obtain ⟨succ₀, hs₀, hb₀⟩ := always_of_dup hmade.dup hsucc
      exact hmade.chain.trans hs₀ (hb₀ ▸ hchain)
  · obtain ⟨hi, hc, hs⟩ := h.other x hxb hxs
    rcases hf x with hg | hsame | ⟨t, hmade⟩
    · refine Or.inl (gone_iff.mpr fun y => ⟨fun hy => ?_, fun hy => ?_⟩)
      · obtain ⟨_, _, z, hz⟩ := h.succs hy
        exact (not_gone_of_mem hz).2 hg
      · rw [Func.succs, Block.succs, hs, hg.1] at hy
        exact absurd hy List.not_mem_nil
    · exact Or.inr (Or.inl ⟨hi.trans hsame.insns, hc.trans hsame.control,
        hs.trans hsame.successors⟩)
    · exact Or.inr (Or.inr ⟨t, hi ▸ hmade.chain, hc.trans hmade.dup.control,
        hs.trans hmade.dup.successors⟩)

end

theorem coalLoop_blocks (f₀ : Func) : ∀ (n : Nat) (f : Func),
    (∀ x, Gone f x ∨ Same f₀ f x ∨ ∃ t, Made f₀ f x t) →
      ∀ x, Gone (coalLoop n f) x ∨ Same f₀ (coalLoop n f) x ∨ ∃ t, Made f₀ (coalLoop n f) x t
  | 0, _, hf => hf
  | n + 1, f, hf => by
      unfold coalLoop
      split
      · rename_i f' hsome
        obtain ⟨b, _, hb⟩ := List.exists_of_findSome?_eq_some hsome
        obtain ⟨s, hco⟩ := coal0_spec hb
        exact coalLoop_blocks f₀ n f' (hco.step hf)
      · exact hf

/-- After `coal` every block that still has an edge is as it was, or was made of a chain. -/
theorem coal_blocks (f : Func) (x : BlockId) :
    Gone (coal f) x ∨ Same f (coal f) x ∨ ∃ t, Made f (coal f) x t :=
  coalLoop_blocks f _ f (fun _ => Or.inr (Or.inl ⟨rfl, rfl, rfl⟩)) x

/-- `coal` stops when there is nothing left to coalesce. -/
theorem coal_done {f : Func} (h : ∀ b, ∀ c ∈ f.succs b, c ∈ f.blocks) :
    ∀ b ∈ (coal f).blocks, coal0 (coal f) b = none := by
  have hloop : ∀ (n : Nat) (f : Func), (∀ b, ∀ c ∈ f.succs b, c ∈ f.blocks) →
      f.blocks.length ≤ n → ∀ b ∈ (coalLoop n f).blocks, coal0 (coalLoop n f) b = none := by
    intro n
    induction n with
    | zero =>
      intro f _ hn b hb
      rw [coalLoop, List.length_eq_zero_iff.mp (Nat.le_zero.mp hn)] at hb
      exact absurd hb List.not_mem_nil
    | succ n ih =>
      intro f hf hn
      unfold coalLoop
      split
      · rename_i f' hsome
        obtain ⟨b, _, hb⟩ := List.exists_of_findSome?_eq_some hsome
        obtain ⟨s, hco⟩ := coal0_spec hb
        have hmem : s ∈ f.blocks := by
          obtain ⟨succ, hsucc, rfl⟩ := hco.always
          exact hf b _ (List.mem_map.mpr ⟨succ, alwaysSuccessor_mem hsucc, rfl⟩)
        refine ih f' (fun x y hy => ?_) ?_
        · obtain ⟨hys, _, z, hz⟩ := hco.succs hy
          rw [hco.blocks]
          exact (List.mem_erase_of_ne hys).mpr (hf z y hz)
        · rw [hco.blocks, List.length_erase_of_mem hmem]
          omega
      · rename_i hnone
        intro b hb
        exact List.findSome?_eq_none_iff.mp hnone b hb
  exact hloop _ f h le_rfl

/-! ### Splitting a block, and lookahead -/

/-- The two halves of a block that was split. -/
structure Split (f f' : Func) (b new : BlockId) (idx : Nat) : Prop where
  fst_insns : (f'.block b).insns = (f.block b).insns.take idx
  fst_control : (f'.block b).control = none
  fst_successors : (f'.block b).successors = [{ cc := .always, b := new }]
  snd_insns : (f'.block new).insns = (f.block b).insns.drop idx
  snd_dup : IsDup (f.block b) (f'.block new)

theorem blockSplit_spec {f : Func} {b : BlockId} (hb : b ≤ f.lastLabel) (idx : Nat) :
    Split f (blockSplit f b idx).2 b (blockSplit f b idx).1 idx := by
  have hne : b ≠ f.lastLabel + 1 := Nat.ne_of_lt (Nat.lt_succ_of_le hb)
  refine ⟨?_, ?_, ?_, ?_, ?_, ?_⟩
  · simp only [blockSplit, Func.insns_setInsns, blockAddSuccessor, blockNew,
      Blocks.insns_addSuccessor, insns_blockRemoveSuccessors, insns_blockDupSuccessors, if_true]
  · simp only [blockSplit, Func.control_setInsns, blockAddSuccessor, Blocks.control_addSuccessor,
      control_blockRemoveSuccessors, if_true]
  · simp only [blockSplit, Func.succs_setInsns, blockAddSuccessor, Blocks.succs_addSuccessor,
      succs_blockRemoveSuccessors, if_true]
    rfl
  · simp only [blockSplit, Func.insns_setInsns, blockAddSuccessor, blockNew,
      Blocks.insns_addSuccessor, insns_blockRemoveSuccessors, insns_blockDupSuccessors,
      if_neg (Ne.symm hne), if_true]
  · simp only [blockSplit, Func.control_setInsns, blockAddSuccessor, blockNew,
      Blocks.control_addSuccessor, control_blockRemoveSuccessors, control_blockDupSuccessors _ hne,
      if_neg (Ne.symm hne), if_true]
  · simp only [blockSplit, Func.succs_setInsns, blockAddSuccessor, blockNew,
      Blocks.succs_addSuccessor, succs_blockRemoveSuccessors, succs_blockDupSuccessors _ hne,
      if_neg (Ne.symm hne), if_true, List.append_nil]

/-- What `lookahead0` does: `insn` is the sole insn of the always successor. -/
structure Hoisted (out : PseudoReg → Option Operand) (f f' : Func) (b : BlockId) (succ : Cessor)
    (insn : Insn) (dst : PseudoReg) (value : Operand) : Prop where
  always : blockAlwaysSuccessor (f.block b) = some succ
  succ_insns : (f.block succ.b).insns = [insn]
  test : insnTestCon insn = some dst
  con : out dst = some value
  insns : (f'.block b).insns = (f.block b).insns ++ [insnSubstituteCon insn dst value]
  dup : IsDup (f.block succ.b) (f'.block b)

theorem lookahead0_spec {out : PseudoReg → Option Operand} {f f' : Func} {b : BlockId}
    (h : lookahead0 out f b = some f') :
    ∃ succ insn dst value, Hoisted out f f' b succ insn dst value := by
  unfold lookahead0 at h
  cases hsucc : blockAlwaysSuccessor (f.block b) with
  | none => simp [hsucc] at h
  | some succ =>
  rcases hinsn : (f.block succ.b).insns with _ | ⟨insn, _ | ⟨_, _⟩⟩ <;>
    simp only [hsucc, hinsn, reduceCtorEq] at h
  cases hdst : insnTestCon insn with
  | none => simp [hdst] at h
  | some dst =>
  cases hvalue : out dst with
  | none => simp [hdst, hvalue] at h
  | some value =>
  simp only [hdst, hvalue] at h
  split_ifs at h with hc
  obtain rfl := Option.some.inj h
  refine ⟨succ, insn, dst, value, hsucc, hinsn, hdst, hvalue, ?_, ?_, ?_⟩
  · rw [insns_blockDupSuccessors, blockAppendInsn, Func.insns_setInsns, if_pos rfl]
  · rw [control_blockDupSuccessors _ hc.1, if_pos rfl, blockAppendInsn, Func.control_setInsns]
  · rw [succs_blockDupSuccessors _ hc.1, if_pos rfl, blockAppendInsn, Func.succs_setInsns]

/-! ### Where the copies go -/

/-- A block with copied successors goes where the original block goes from the same state, exactly
    when the ranges of the original do not matter there: for the blocks `coal0` coalesces, for the
    blocks that are left after `coal`, for the second half of a block that is split, and for a
    hoisted branch whose comparison with the constant has the effect of the original comparison. -/
theorem dupSuccessors_flow_iff (env : Env) (st : State) :
    (∀ f b f', coal0 f b = some f' →
      ∃ succ, blockAlwaysSuccessor (f.block b) = some succ ∧
        (flow env (f'.block b) st =
            flow env (f.block succ.b) (execs env (f.block b).insns st) ↔
          RangesUnused env (f.block succ.b)
            (execs env ((f.block b).insns ++ (f.block succ.b).insns) st))) ∧
    (∀ f b, Gone (coal f) b ∨ Same f (coal f) b ∨ ∃ t l, Chain f b t l ∧
      (flow env ((coal f).block b) st = branch env (f.block t) (execs env l st) ↔
        RangesUnused env (f.block t) (execs env l st))) ∧
    (∀ f b idx, b ≤ f.lastLabel →
      flow env ((blockSplit f b idx).2.block b) st = some (blockSplit f b idx).1 ∧
        (flow env ((blockSplit f b idx).2.block (blockSplit f b idx).1)
            (execs env ((blockSplit f b idx).2.block b).insns st) = flow env (f.block b) st ↔
          RangesUnused env (f.block b) (execs env (f.block b).insns st))) ∧
    (∀ out f b f', lookahead0 out f b = some f' →
      ∃ succ insn dst value, Hoisted out f f' b succ insn dst value ∧
        (SameEffect env (execs env (f.block b).insns st) insn (insnSubstituteCon insn dst value) →
          (flow env (f'.block b) st =
              flow env (f.block succ.b) (execs env (f.block b).insns st) ↔
            RangesUnused env (f.block succ.b) (execs env ((f.block b).insns ++ [insn]) st)))) := by
  refine ⟨fun f b f' h => ?_, fun f b => ?_, fun f b idx hb => ?_, fun out f b f' h => ?_⟩
  · obtain ⟨s, hco⟩ := coal0_spec h
    obtain ⟨succ, hsucc, rfl⟩ := hco.always
    refine ⟨succ, hsucc, ?_⟩
    rw [← branch_dup_iff env hco.merged.2, flow, flow, hco.merged.1, execs_append]
  · refine (coal_blocks f b).imp_right (Or.imp_right ?_)
    rintro ⟨t, hmade⟩
    exact ⟨t, _, hmade.chain, branch_dup_iff env hmade.dup _⟩
  · have hs := blockSplit_spec hb idx
    constructor
    · simp [flow, branch, hs.fst_control, hs.fst_successors]
    · rw [← branch_dup_iff env hs.snd_dup, flow, flow, hs.fst_insns, hs.snd_insns, ← execs_append,
        List.take_append_drop]
  · obtain ⟨succ, insn, dst, value, hh⟩ := lookahead0_spec h
    refine ⟨succ, insn, dst, value, hh, fun hsame => ?_⟩
    have hexec : exec env (insnSubstituteCon insn dst value) (execs env (f.block b).insns st) =
        exec env insn (execs env (f.block b).insns st) := hsame
    rw [← branch_dup_iff env hh.dup, flow, flow, hh.insns, hh.succ_insns]
    simp only [execs_append, execs_cons, execs_nil, hexec]

/-- `switch (r1) { case 5: .. }` after a block that does nothing. -/
def switchFunc : Func :=
  let f : Func := ⟨0, 5, [0, 1, 2, 3, 4, 5], fun _ => {}, 5, Blocks.linked_empty⟩
  let f := blockAddSuccessor f 0 .always 1
  let f := blockAddSuccessor f 1 .always 2
  let f := blockAddSuccessor f 2 .default 3
  let f := blockAddSuccessor f 2 .switch 4 5 5
  f.setControl 2 (some (operandReg .int 1))

theorem dupSuccessors_flow_iff_switch : ∃ f', coal0 switchFunc 1 = some f' ∧
    ∃ succ, blockAlwaysSuccessor (switchFunc.block 1) = some succ ∧
      (flow default (f'.block 1) default =
          flow default (switchFunc.block succ.b) (execs default (switchFunc.block 1).insns default) ↔
        RangesUnused default (switchFunc.block succ.b)
          (execs default ((switchFunc.block 1).insns ++ (switchFunc.block succ.b).insns)
            default)) :=
  ⟨(coal0 switchFunc 1).get (by decide), (Option.some_get _).symm,
    (dupSuccessors_flow_iff default default).1 _ _ _ (Option.some_get _).symm⟩

/-- In the block that was coalesced, `case 5` is a case for 0: the value 5 goes to the default. -/
theorem coal_loses_case : ¬ ∀ (env : Env) (f : Func) (b : BlockId) (f' : Func) (succ : Cessor)
    (st : State), coal0 f b = some f' → blockAlwaysSuccessor (f.block b) = some succ →
      flow env (f'.block b) st = flow env (f.block succ.b) (execs env (f.block b).insns st) := by
  intro h
  have hs := h default switchFunc 1 ((coal0 switchFunc 1).get (by decide)) { cc := .always, b := 2 }
    { (default : State) with regs := fun _ => 5 } (Option.some_get _).symm (by decide)
  revert hs
  decide

end Ncc.Coal
