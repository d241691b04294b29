import Ncc.Exec

/-! Basic blocks and the control flow graph of a function (block.h, block.c).

    Successors and predecessors are both tracked: `blockAddSuccessor` and `blockRemoveSuccessor`
    update the two ends of an edge together, and that they agree is a field of `Func`, so a pass
    that inspects the predecessors of a block may rely on it. -/

namespace Ncc

/-- A `struct block *`: the label `block_new` gives a block. -/
abbrev BlockId := Nat

/-- `struct cessor` of a successor; `min` and `max` bound a CC_SWITCH, inclusive. -/
structure Cessor where
  cc : ConditionCode
  b : BlockId
  min : Word := 0
  max : Word := 0
  deriving DecidableEq

/-- `struct block`. The condition code of a predecessor is meaningless, so only its block is kept. -/
structure Block where
  insns : List Insn := []
  control : Option Operand := none
  successors : List Cessor := []
  predecessors : List BlockId := []
  deriving DecidableEq, Inhabited

/-- The blocks a block can transfer control to, an entry for each cessor. -/
def Block.succs (x : Block) : List BlockId := x.successors.map Cessor.b

/-- BLOCK_SWITCH. -/
def blockSwitchP (x : Block) : Bool := x.control.isSome

/-- BLOCK_EMPTY. -/
def blockEmpty (x : Block) : Bool := x.insns.isEmpty && !blockSwitchP x

/-- `block_conditional`: does the block end in a conditional branch? -/
def blockConditional (x : Block) : Bool :=
  match x.successors with
  | succ :: _ => succ.cc.conditional
  | [] => false

/-- The condition codes used by the conditional branch that ends the block. -/
def blockCcs (x : Block) : CcSet :=
  x.successors.foldl (fun ccs succ => if succ.cc.conditional then insert succ.cc ccs else ccs) ∅

/-- The successor linked by a condition code. -/
def blockCcSuccessor (x : Block) (cc : ConditionCode) : Option Cessor :=
  x.successors.find? (fun succ => succ.cc = cc)

/-- The CC_ALWAYS successor. -/
def blockAlwaysSuccessor (x : Block) : Option Cessor :=
  match x.successors with
  | succ :: _ => if succ.cc = .always then some succ else none
  | [] => none

/-- The sole predecessor, if there is but one. -/
def blockSolePredecessor (x : Block) : Option BlockId :=
  match x.predecessors with
  | [pred] => some pred
  | _ => none

/-- The block a switch transfers control to for the given value: the first successor is the
    CC_DEFAULT, the others are searched for a range that holds the value. -/
def blockSwitchLookup (x : Block) (u : Word) : Option BlockId :=
  match x.successors with
  | [] => none
  | dflt :: cases =>
    match cases.find? (fun c => decide (c.min ≤ u) && decide (u ≤ c.max)) with
    | some c => some c.b
    | none => some dflt.b

/-- All blocks, by label. -/
abbrev Blocks := BlockId → Block

namespace Blocks

/-- The two ends of every edge agree. -/
def Linked (B : Blocks) : Prop := ∀ b c, (B c).predecessors.count b = (B b).succs.count c

/-- Change one block. -/
def modify (B : Blocks) (b : BlockId) (g : Block → Block) : Blocks :=
  fun x => if x = b then g (B x) else B x

/-- `block_add_successor`. -/
def addSuccessor (B : Blocks) (b : BlockId) (cc : ConditionCode) (succ : BlockId)
    (min max : Word := 0) : Blocks :=
  (B.modify b fun x => { x with successors := x.successors ++ [⟨cc, succ, min, max⟩] }).modify succ
    fun x => { x with predecessors := x.predecessors ++ [b] }

/-- `block_remove_successor` of the cessor at a position. -/
def removeSuccessor (B : Blocks) (b : BlockId) (n : Nat) : Blocks :=
  match (B b).successors[n]? with
  | none => B
  | some succ =>
    (B.modify b fun x => { x with successors := x.successors.eraseIdx n }).modify succ.b
      fun x => { x with predecessors := x.predecessors.erase b }

section
variable {B : Blocks}

theorem linked_empty : Linked fun _ => {} := fun _ _ => rfl

theorem linked_modify (h : B.Linked) {b : BlockId} {g : Block → Block}
    (hs : ∀ x, (g x).successors = x.successors) (hp : ∀ x, (g x).predecessors = x.predecessors) :
    (B.modify b g).Linked := by
  intro c d
  have hsucc : ∀ e, (B.modify b g e).succs = (B e).succs := by
    intro e; unfold modify Block.succs; split <;> simp [hs]
  have hpred : ∀ e, (B.modify b g e).predecessors = (B e).predecessors := by
    intro e; unfold modify; split <;> simp [hp]
  rw [hsucc, hpred, h]

theorem succs_addSuccessor (b : BlockId) (cc : ConditionCode) (s : BlockId) (lo hi : Word)
    (x : BlockId) : (B.addSuccessor b cc s lo hi x).successors =
      (B x).successors ++ if x = b then [⟨cc, s, lo, hi⟩] else [] := by
  unfold addSuccessor modify
  split_ifs <;> simp_all

theorem preds_addSuccessor (b : BlockId) (cc : ConditionCode) (s : BlockId) (lo hi : Word)
    (x : BlockId) : (B.addSuccessor b cc s lo hi x).predecessors =
      (B x).predecessors ++ if x = s then [b] else [] := by
  unfold addSuccessor modify
  split_ifs <;> simp_all

@[simp] theorem insns_addSuccessor (b : BlockId) (cc : ConditionCode) (s : BlockId) (lo hi : Word)
    (x : BlockId) : (B.addSuccessor b cc s lo hi x).insns = (B x).insns := by
  unfold addSuccessor modify
  split_ifs <;> rfl

@[simp] theorem control_addSuccessor (b : BlockId) (cc : ConditionCode) (s : BlockId)
    (lo hi : Word) (x : BlockId) :
    (B.addSuccessor b cc s lo hi x).control = (B x).control := by
  unfold addSuccessor modify
  split_ifs <;> rfl

theorem linked_addSuccessor (h : B.Linked) (b : BlockId) (cc : ConditionCode) (s : BlockId)
    (lo hi : Word) : (B.addSuccessor b cc s lo hi).Linked := by
  intro c d
  have hcd := h c d
  rw [Block.succs] at hcd
  rw [Block.succs, succs_addSuccessor, preds_addSuccessor]
  by_cases hc : c = b <;> by_cases hd : d = s <;> simp [hc, hd, hcd, List.count_append, Ne.symm]
  all_goals grind

theorem succs_removeSuccessor (b : BlockId) (n : Nat) (x : BlockId) :
    (B.removeSuccessor b n x).successors =
      if x = b then (B x).successors.eraseIdx n else (B x).successors := by
  unfold removeSuccessor modify
  cases hn : (B b).successors[n]? with
  | none =>
    split_ifs with hx
    · subst hx; exact (List.eraseIdx_of_length_le (by simpa using hn)).symm
    · rfl
  | some succ => simp only []; split_ifs <;> simp_all

theorem preds_removeSuccessor {b : BlockId} {n : Nat} {succ : Cessor}
    (hn : (B b).successors[n]? = some succ) (x : BlockId) :
    (B.removeSuccessor b n x).predecessors =
      if x = succ.b then (B x).predecessors.erase b else (B x).predecessors := by
  unfold removeSuccessor modify
  simp only [hn]
  split_ifs <;> simp_all

@[simp] theorem insns_removeSuccessor (b : BlockId) (n : Nat) (x : BlockId) :
    (B.removeSuccessor b n x).insns = (B x).insns := by
  unfold removeSuccessor modify
  cases (B b).successors[n]? with
  | none => rfl
  | some succ => simp only []; split_ifs <;> rfl

@[simp] theorem control_removeSuccessor (b : BlockId) (n : Nat) (x : BlockId) :
    (B.removeSuccessor b n x).control = (B x).control := by
  unfold removeSuccessor modify
  cases (B b).successors[n]? with
  | none => rfl
  | some succ => simp only []; split_ifs <;> rfl

/-- Taking one cessor out of a list takes one out of the count of its block. -/
theorem count_eraseIdx {l : List Cessor} {n : Nat} {succ : Cessor} (hn : l[n]? = some succ)
    (d : BlockId) : (l.map Cessor.b).count d =
      ((l.eraseIdx n).map Cessor.b).count d + if d = succ.b then 1 else 0 := by
  obtain ⟨hlt, rfl⟩ := List.getElem?_eq_some_iff.mp hn
  rw [List.eraseIdx_eq_take_drop_succ]
  conv_lhs => rw [← List.take_append_drop n l, List.drop_eq_getElem_cons hlt]
  simp only [List.map_append, List.map_cons, List.count_append, List.count_cons, beq_iff_eq]
  grind

theorem linked_removeSuccessor (h : B.Linked) (b : BlockId) (n : Nat) :
    (B.removeSuccessor b n).Linked := by
  cases hn : (B b).successors[n]? with
  | none => rw [removeSuccessor, hn]; exact h
  | some succ =>
    intro c d
    have hcd := h c d
    rw [Block.succs] at hcd
    rw [Block.succs, succs_removeSuccessor, preds_removeSuccessor hn]
    by_cases hc : c = b
    · subst hc
      rw [count_eraseIdx hn] at hcd
      rw [if_pos rfl]
      by_cases hd : d = succ.b
      · rw [if_pos hd] at hcd ⊢
        rw [List.count_erase_self]
        omega
      · rw [if_neg hd] at hcd ⊢
        exact hcd
    · rw [if_neg hc]
      by_cases hd : d = succ.b
      · rw [if_pos hd, List.count_erase_of_ne hc]; exact hcd
      · rw [if_neg hd]; exact hcd

end

end Blocks

/-- A function: the all-blocks list, and the last label `block_new` gave. -/
structure Func where
  entry : BlockId
  exit : BlockId
  blocks : List BlockId
  block : Blocks
  lastLabel : Nat
  linked : block.Linked

namespace Func

/-- Labels that were not given yet belong to no block. -/
def Fresh (f : Func) : Prop := ∀ b, f.lastLabel < b → f.block b = {}

/-- Control stays in the blocks of the all-blocks list. -/
def Closed (f : Func) : Prop :=
  f.entry ∈ f.blocks ∧ ∀ b ∈ f.blocks, ∀ c ∈ (f.block b).succs, c ∈ f.blocks

/-- The blocks a block can transfer control to. -/
def succs (f : Func) (b : BlockId) : List BlockId := (f.block b).succs

/-- Replace the insns of a block. -/
def setInsns (f : Func) (b : BlockId) (insns : List Insn) : Func :=
  { f with
    block := f.block.modify b fun x => { x with insns := insns }
    linked := Blocks.linked_modify f.linked (fun _ => rfl) fun _ => rfl }

/-- Replace the control operand of a block. -/
def setControl (f : Func) (b : BlockId) (control : Option Operand) : Func :=
  { f with
    block := f.block.modify b fun x => { x with control := control }
    linked := Blocks.linked_modify f.linked (fun _ => rfl) fun _ => rfl }

theorem setInsns_block (f : Func) (b : BlockId) (l : List Insn) (x : BlockId) :
    (f.setInsns b l).block x = if x = b then { f.block x with insns := l } else f.block x := rfl

theorem insns_setInsns (f : Func) (b : BlockId) (l : List Insn) (x : BlockId) :
    ((f.setInsns b l).block x).insns = if x = b then l else (f.block x).insns := by
  rw [setInsns_block]; split <;> rfl

@[simp] theorem control_setInsns (f : Func) (b : BlockId) (l : List Insn) (x : BlockId) :
    ((f.setInsns b l).block x).control = (f.block x).control := by
  rw [setInsns_block]; split <;> rfl

@[simp] theorem succs_setInsns (f : Func) (b : BlockId) (l : List Insn) (x : BlockId) :
    ((f.setInsns b l).block x).successors = (f.block x).successors := by
  rw [setInsns_block]; split <;> rfl

theorem setControl_block (f : Func) (b : BlockId) (o : Option Operand) (x : BlockId) :
    (f.setControl b o).block x = if x = b then { f.block x with control := o } else f.block x :=
  rfl

/-- An edge of the graph enters its target from one of its predecessors. -/
theorem mem_preds {f : Func} {b c : BlockId} :
    b ∈ (f.block c).predecessors ↔ c ∈ f.succs b := by
  rw [← List.count_pos_iff, f.linked, List.count_pos_iff, succs]

/-- A block that can transfer control to a block with a sole predecessor is that predecessor. -/
theorem eq_of_solePredecessor {f : Func} {b c p : BlockId} (h : c ∈ f.succs b)
    (hp : blockSolePredecessor (f.block c) = some p) : p = b := by
  have hb := mem_preds.mpr h
  unfold blockSolePredecessor at hp
  split at hp
  · rename_i q hq
    rw [hq, List.mem_singleton] at hb
    rw [hb, ← Option.some.inj hp]
  · exact absurd hp (by simp)

end Func

/-! ### Operations on blocks -/

/-- Generate a new basic block. -/
def blockNew (f : Func) : BlockId × Func :=
  (f.lastLabel + 1, { f with
    lastLabel := f.lastLabel + 1
    blocks := f.blocks ++ [f.lastLabel + 1] })

/-- Append an insn to a block (BLOCK_APPEND_INSN). -/
def blockAppendInsn (f : Func) (b : BlockId) (insn : Insn) : Func :=
  f.setInsns b ((f.block b).insns ++ [insn])

/-- Add a new successor to a block. -/
def blockAddSuccessor (f : Func) (b : BlockId) (cc : ConditionCode) (succ : BlockId)
    (min max : Word := 0) : Func :=
  { f with
    block := f.block.addSuccessor b cc succ min max
    linked := Blocks.linked_addSuccessor f.linked b cc succ min max }

/-- Remove a successor from a block. -/
def blockRemoveSuccessor (f : Func) (b : BlockId) (n : Nat) : Func :=
  { f with
    block := f.block.removeSuccessor b n
    linked := Blocks.linked_removeSuccessor f.linked b n }

/-- The loop of `block_remove_successors`: remove the first successor `n` times. -/
def removeSuccessors (b : BlockId) : Nat → Func → Func
  | 0, f => f
  | n + 1, f => removeSuccessors b n (blockRemoveSuccessor f b 0)

/-- Remove all successors from a block; it is no switch block any more. -/
def blockRemoveSuccessors (f : Func) (b : BlockId) : Func :=
  (removeSuccessors b (f.block b).successors.length f).setControl b none

/-- Add copies of successors. A copy has the code and the block of its original, but not its
    range. -/
def addSuccessors (dst : BlockId) (f : Func) : List Cessor → Func
  | [] => f
  | succ :: succs => addSuccessors dst (blockAddSuccessor f dst succ.cc succ.b) succs

/-- Set the control operand, if there is one. -/
def dupControl (f : Func) (dst : BlockId) : Option Operand → Func
  | some o => f.setControl dst (some o)
  | none => f

/-- Remove all of dst's successors, and replace them with copies of the successors of src. -/
def blockDupSuccessors (f : Func) (dst src : BlockId) : Func :=
  let f := blockRemoveSuccessors f dst
  dupControl (addSuccessors dst f (f.block src).successors) dst (f.block src).control

/-- Free a block. Its label is not used again. -/
def blockFree (f : Func) (b : BlockId) : Func :=
  let f := (blockRemoveSuccessors f b).setInsns b []
  { f with blocks := f.blocks.erase b }

/-- Split a block in two; `idx` is the index of the first insn that moves to the new block. -/
def blockSplit (f : Func) (b : BlockId) (idx : Nat) : BlockId × Func :=
  let (new, f) := blockNew f
  let f := blockDupSuccessors f new b
  let f := blockRemoveSuccessors f b
  let f := blockAddSuccessor f b .always new
  (new, (f.setInsns new ((f.block b).insns.drop idx)).setInsns b ((f.block b).insns.take idx))

/-! ### What the operations leave behind -/

/-- The two functions differ in their graph at most: no block was added or freed. -/
structure SameBlocks (f f' : Func) : Prop where
  entry : f'.entry = f.entry
  exit : f'.exit = f.exit
  blocks : f'.blocks = f.blocks
  lastLabel : f'.lastLabel = f.lastLabel

theorem SameBlocks.trans {f f' f'' : Func} (h : SameBlocks f f') (h' : SameBlocks f' f'') :
    SameBlocks f f'' :=
  ⟨h'.1.trans h.1, h'.2.trans h.2, h'.3.trans h.3, h'.4.trans h.4⟩

theorem sameBlocks_removeSuccessors (b : BlockId) : ∀ (n : Nat) (f : Func),
    SameBlocks f (removeSuccessors b n f)
  | 0, _ => ⟨rfl, rfl, rfl, rfl⟩
  | n + 1, f => by
      have h : SameBlocks f (blockRemoveSuccessor f b 0) := ⟨rfl, rfl, rfl, rfl⟩
      exact h.trans (sameBlocks_removeSuccessors b n _)

theorem sameBlocks_blockRemoveSuccessors (f : Func) (b : BlockId) :
    SameBlocks f (blockRemoveSuccessors f b) :=
  (sameBlocks_removeSuccessors b _ f).trans ⟨rfl, rfl, rfl, rfl⟩

theorem sameBlocks_addSuccessors (dst : BlockId) : ∀ (l : List Cessor) (f : Func),
    SameBlocks f (addSuccessors dst f l)
  | [], _ => ⟨rfl, rfl, rfl, rfl⟩
  | c :: l, f => by
      have h : SameBlocks f (blockAddSuccessor f dst c.cc c.b) := ⟨rfl, rfl, rfl, rfl⟩
      exact h.trans (sameBlocks_addSuccessors dst l _)

theorem sameBlocks_dupControl (f : Func) (dst : BlockId) : ∀ o : Option Operand,
    SameBlocks f (dupControl f dst o)
  | none => ⟨rfl, rfl, rfl, rfl⟩
  | some _ => ⟨rfl, rfl, rfl, rfl⟩

theorem sameBlocks_blockDupSuccessors (f : Func) (dst src : BlockId) :
    SameBlocks f (blockDupSuccessors f dst src) := by
  have h := (sameBlocks_blockRemoveSuccessors f dst).trans (sameBlocks_addSuccessors dst
    ((blockRemoveSuccessors f dst).block src).successors _)
  exact h.trans (sameBlocks_dupControl _ dst _)

section
variable (f : Func)

theorem removeSuccessors_block (b : BlockId) : ∀ (n : Nat) (f : Func) (x : BlockId),
    ((removeSuccessors b n f).block x).insns = (f.block x).insns ∧
      ((removeSuccessors b n f).block x).control = (f.block x).control ∧
      ((removeSuccessors b n f).block x).successors =
        if x = b then (f.block x).successors.drop n else (f.block x).successors
  | 0, f, x => by simp [removeSuccessors]
  | n + 1, f, x => by
      obtain ⟨hi, hc, hs⟩ := removeSuccessors_block b n (blockRemoveSuccessor f b 0) x
      refine ⟨hi.trans (Blocks.insns_removeSuccessor ..),
        hc.trans (Blocks.control_removeSuccessor ..), ?_⟩
      rw [removeSuccessors, hs]
      simp only [blockRemoveSuccessor, Blocks.succs_removeSuccessor]
      split
      · rw [List.eraseIdx_zero, ← List.drop_one, List.drop_drop, Nat.add_comm]
      · rfl

@[simp] theorem insns_blockRemoveSuccessors (b x : BlockId) :
    ((blockRemoveSuccessors f b).block x).insns = (f.block x).insns := by
  rw [blockRemoveSuccessors, Func.setControl_block]
  split <;> exact (removeSuccessors_block ..).1

theorem control_blockRemoveSuccessors (b x : BlockId) :
    ((blockRemoveSuccessors f b).block x).control = if x = b then none else (f.block x).control := by
  rw [blockRemoveSuccessors, Func.setControl_block]
  split
  · rfl
  · exact (removeSuccessors_block ..).2.1

theorem succs_blockRemoveSuccessors (b x : BlockId) :
    ((blockRemoveSuccessors f b).block x).successors =
      if x = b then [] else (f.block x).successors := by
  have h := (removeSuccessors_block b (f.block b).successors.length f x).2.2
  rw [blockRemoveSuccessors, Func.setControl_block]
  split
  · rename_i hx
    subst hx
    rw [if_pos rfl, List.drop_length] at h
    exact h
  · rename_i hx
    rw [if_neg hx] at h
    exact h

/-- The copy of a cessor that `block_dup_successors` makes. -/
def Cessor.dup (c : Cessor) : Cessor := { cc := c.cc, b := c.b }

theorem addSuccessors_block (dst : BlockId) : ∀ (l : List Cessor) (f : Func) (x : BlockId),
    ((addSuccessors dst f l).block x).insns = (f.block x).insns ∧
      ((addSuccessors dst f l).block x).control = (f.block x).control ∧
      ((addSuccessors dst f l).block x).successors =
        (f.block x).successors ++ if x = dst then l.map Cessor.dup else []
  | [], f, x => by simp [addSuccessors]
  | c :: l, f, x => by
      obtain ⟨hi, hc, hs⟩ := addSuccessors_block dst l (blockAddSuccessor f dst c.cc c.b) x
      refine ⟨hi.trans (Blocks.insns_addSuccessor ..), hc.trans (Blocks.control_addSuccessor ..), ?_⟩
      rw [addSuccessors, hs]
      simp only [blockAddSuccessor, Blocks.succs_addSuccessor]
      split <;> simp [Cessor.dup]

theorem dupControl_block (dst : BlockId) (o : Option Operand) (x : BlockId) :
    ((dupControl f dst o).block x).insns = (f.block x).insns ∧
      ((dupControl f dst o).block x).successors = (f.block x).successors ∧
      ((dupControl f dst o).block x).control =
        if x = dst ∧ o.isSome then o else (f.block x).control := by
  cases o with
  | none => simp [dupControl]
  | some o =>
    rw [dupControl, Func.setControl_block]
    by_cases hx : x = dst <;> simp [hx]

variable {dst src : BlockId}

@[simp] theorem insns_blockDupSuccessors (x : BlockId) :
    ((blockDupSuccessors f dst src).block x).insns = (f.block x).insns := by
  rw [blockDupSuccessors, (dupControl_block ..).1, (addSuccessors_block ..).1,
    insns_blockRemoveSuccessors]

theorem succs_blockDupSuccessors (hne : src ≠ dst) (x : BlockId) :
    ((blockDupSuccessors f dst src).block x).successors =
      if x = dst then (f.block src).successors.map Cessor.dup else (f.block x).successors := by
  rw [blockDupSuccessors, (dupControl_block ..).2.1, (addSuccessors_block ..).2.2,
    succs_blockRemoveSuccessors, succs_blockRemoveSuccessors, if_neg hne]
  split <;> simp

theorem control_blockDupSuccessors (hne : src ≠ dst) (x : BlockId) :
    ((blockDupSuccessors f dst src).block x).control =
      if x = dst then (f.block src).control else (f.block x).control := by
  rw [blockDupSuccessors, (dupControl_block ..).2.2, (addSuccessors_block ..).2.1,
    control_blockRemoveSuccessors, control_blockRemoveSuccessors, if_neg hne]
  cases (f.block src).control <;> by_cases hx : x = dst <;> simp [hx]

end

end Ncc
