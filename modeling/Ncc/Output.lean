import Ncc.Block
import Ncc.Lib.Assembly
import Ncc.Lib.Walk

/-! The blocks of a function are put in order and written as text (block.c: `blocks_sequence`;
    output.c: `output_func`; amd64.c: `amd64_insn_branch`).

    A branch to the block that comes next is left out, whichever of the successors it is for. Because
    the codes of the successors are exclusive and exhaustive, control then takes the same edges in the
    text as in the graph. What an insn does is up to the target: `Cpu` is a parameter. -/

namespace Ncc.Output

/-- The flags that conditional jumps look at. -/
structure Flags where
  zf : Bool
  sf : Bool
  cf : Bool
  of : Bool
  deriving DecidableEq

/-- When a condition code holds: `z` is equality, `g` to `l` are signed and `a` to `b` unsigned
    comparisons. -/
def holds (f : Flags) : ConditionCode → Bool
  | .z => f.zf
  | .nz => !f.zf
  | .g => !f.zf && f.sf == f.of
  | .le => f.zf || f.sf != f.of
  | .ge => f.sf == f.of
  | .l => f.sf != f.of
  | .a => !f.cf && !f.zf
  | .be => f.cf || f.zf
  | .ae => !f.cf
  | .b => f.cf
  | .always => true
  | .never | .switch | .default => false

/-- The jumps of the assembler. -/
inductive Jump where
  | jz | jnz | jg | jle | jge | jl | ja | jbe | jae | jb | jmp
  deriving DecidableEq

/-- When the CPU takes a jump. -/
def Jump.taken : Jump → Flags → Bool
  | jz, f => f.zf
  | jnz, f => !f.zf
  | jg, f => !(f.zf || f.sf != f.of)
  | jle, f => f.zf || f.sf != f.of
  | jge, f => f.sf == f.of
  | jl, f => f.sf != f.of
  | ja, f => !(f.cf || f.zf)
  | jbe, f => f.cf || f.zf
  | jae, f => !f.cf
  | jb, f => f.cf
  | jmp, _ => true

/-- CC_INDEX. -/
def ccIndex : ConditionCode → Nat
  | .z => 0
  | .nz => 1
  | .g => 2
  | .le => 3
  | .ge => 4
  | .l => 5
  | .a => 6
  | .be => 7
  | .ae => 8
  | .b => 9
  | .always => 10
  | .never => 11
  | .switch => 12
  | .default => 13

/-- The table of `amd64_insn_branch`. -/
def ccs : List Jump := [.jz, .jnz, .jg, .jle, .jge, .jl, .ja, .jbe, .jae, .jb, .jmp]

/-- The labels of the text: that of the function, and those of its blocks. -/
inductive Label where
  | func
  | block (b : BlockId)
  deriving DecidableEq

/-- A function when it is output: its blocks have the insns of the target. -/
structure Code (ι : Type*) where
  entry : BlockId
  exit : BlockId
  blocks : List BlockId
  insns : BlockId → List ι
  successors : BlockId → List Cessor

/-- The CPU of the target. -/
structure Cpu (ι σ : Type*) where
  exec : ι → σ → σ
  returns : ι → Bool
  flags : σ → Flags

variable {ι σ : Type*}

/-- The CPU executes the text. -/
def Cpu.machine (u : Cpu ι σ) : Machine ι Jump σ where
  exec := u.exec
  returns := u.returns
  taken j s := j.taken (u.flags s)

/-! ### `blocks_sequence` -/

/-- The blocks a block can transfer control to. -/
def Code.succs (c : Code ι) (b : BlockId) : List BlockId := (c.successors b).map Cessor.b

/-- `sequence0`. -/
def sequence0 (b : BlockId) (blocks : List BlockId) : List BlockId := b :: blocks.erase b

/-- `blocks_sequence`. -/
def blocksSequence (c : Code ι) : Code ι :=
  { c with blocks := (walk c.succs (fun _ l => l) sequence0 c.blocks c.entry c.blocks).2 }

/-! ### `output_func` -/

/-- `amd64_insn_branch`; the table has no entry for the codes of switches. -/
def insnBranch (cc : ConditionCode) (b : BlockId) : Option (Line ι Jump Label) :=
  (ccs[ccIndex cc]?).map fun j => .branch j (.block b)

/-- The lines for one successor. -/
def outputSuccessor (next : Option BlockId) (succ : Cessor) : List (Line ι Jump Label) :=
  match succ.cc with
  | .switch => [.comment]
  | .default => [.comment, .comment]
  | cc => if some succ.b ≠ next then (insnBranch cc succ.b).toList else []

/-- The loop of `output_func`. -/
def outputBlocks (c : Code ι) : List BlockId → List (Line ι Jump Label)
  | [] => []
  | b :: l =>
    .label (.block b) :: ((c.insns b).map .insn ++
      ((c.successors b).flatMap (outputSuccessor l.head?) ++ outputBlocks c l))

/-- `output_func`. -/
def outputFunc (c : Code ι) : List (Line ι Jump Label) :=
  .label .func :: outputBlocks c (c.blocks.dropWhile (· ≠ c.entry))

/-- What `opt_post` and `output_func` write. -/
def text (c : Code ι) : List (Line ι Jump Label) := outputFunc (blocksSequence c)

/-! ### The graph -/

section
variable (c : Code ι) (u : Cpu ι σ)

/-- The state at the end of a block. -/
def Code.leave (b : BlockId) (s : σ) : σ := u.machine.execs (c.insns b) s

/-- The code of an edge holds at the end of a block. -/
def Code.Chosen (b : BlockId) (s : σ) (x : Cessor) : Prop :=
  holds (u.flags (c.leave u b s)) x.cc = true

/-- The graph is well formed; `may b s` says that control may enter `b` in the state `s`. The
    all-blocks list has every block once, and what they can transfer control to. The codes of the
    successors of a block are real, exclusive and exhaustive; the exit block has none and its last insn
    returns, as no other does. -/
structure Code.WellFormed (may : BlockId → σ → Prop) : Prop where
  nodup : c.blocks.Nodup
  entry : c.entry ∈ c.blocks
  closed : ∀ b ∈ c.blocks, ∀ d ∈ c.succs b, d ∈ c.blocks
  real : ∀ b ∈ c.blocks, ∀ x ∈ c.successors b, x.cc.conditional = true ∨ x.cc = .always
  exclusive : ∀ b ∈ c.blocks, ∀ s, may b s →
    (c.successors b).Pairwise fun x y => ¬ (c.Chosen u b s x ∧ c.Chosen u b s y)
  exhaustive : ∀ b ∈ c.blocks, b ≠ c.exit → ∀ s, may b s → ∃ x ∈ c.successors b, c.Chosen u b s x
  goes : ∀ b ∈ c.blocks, ∀ s, may b s → ∀ x ∈ c.successors b, c.Chosen u b s x →
    may x.b (c.leave u b s)
  straight : ∀ b ∈ c.blocks, b ≠ c.exit → ∀ i ∈ c.insns b, u.returns i = false
  ret : c.exit ∈ c.blocks → c.successors c.exit = [] ∧
    ∃ is i, c.insns c.exit = is ++ [i] ∧ (∀ j ∈ is, u.returns j = false) ∧ u.returns i = true

/-- Where control goes from a block that is entered in the state `s`: along an edge whose code holds
    at its end, or, from the exit block, out of the function. -/
inductive Code.Goes : BlockId → σ → Arrival Label σ → Prop
  | edge {b : BlockId} {s : σ} {x : Cessor} (hx : x ∈ c.successors b) (hcc : c.Chosen u b s x) :
      Goes b s (.arrives (.block x.b) (c.leave u b s))
  | exit {s : σ} : Goes c.exit s (.returned (c.leave u c.exit s))

/-- Where control is after `n` blocks. -/
inductive Code.Path (s₀ : σ) : Nat → Arrival Label σ → Prop
  | start : Path s₀ 0 (.arrives (.block c.entry) s₀)
  | step {n : Nat} {b : BlockId} {s : σ} {a : Arrival Label σ}
      (before : Path s₀ n (.arrives (.block b) s)) (goes : c.Goes u b s a) : Path s₀ (n + 1) a
  | stay {n : Nat} {s : σ} (before : Path s₀ n (.returned s)) : Path s₀ (n + 1) (.returned s)

end

/-! ### The order of the blocks -/

section
variable {c : Code ι} {u : Cpu ι σ} {may : BlockId → σ → Prop}

/-- The walk permutes the all-blocks list, and posts the entry block last. -/
theorem blocksSequence_spec (hw : c.WellFormed u may) :
    (∃ l, (blocksSequence c).blocks = c.entry :: l) ∧
      (blocksSequence c).blocks.Perm c.blocks := by
  have hroot : (blocksSequence c).blocks = sequence0 c.entry _ :=
    @walk_root _ _ _ c.succs (fun _ l => l) sequence0 c.blocks c.entry c.blocks
  refine ⟨⟨_, hroot⟩, ?_⟩
  refine (@walk_induct _ _ _ c.succs (fun _ l => l) sequence0 c.blocks c.entry c.blocks
    (fun vis l => (∀ b ∈ vis, b ∈ c.blocks) ∧ l.Perm c.blocks) ⟨by simp, .refl _⟩ ?_ ?_).2
  · rintro vis l b ⟨hvis, hl⟩ - hcall
    refine ⟨fun d hd => ?_, hl⟩
    rcases List.mem_cons.mp hd with rfl | hd
    · rcases hcall with rfl | ⟨e, he, hd⟩
      · exact hw.entry
      · exact hw.closed e (hvis e he) d hd
    · exact hvis d hd
  · rintro vis l b hb ⟨hvis, hl⟩
    exact ⟨hvis, (List.perm_cons_erase (hl.mem_iff.mpr (hvis b hb))).symm.trans hl⟩

/-! ### The lines of a block -/

/-- The table has a jump for every real code, and the CPU takes it when the code holds. -/
theorem insnBranch_real {cc : ConditionCode} (hcc : cc.conditional = true ∨ cc = .always)
    (b : BlockId) : ∃ j : Jump, (insnBranch cc b : Option (Line ι Jump Label)) =
      some (.branch j (.block b)) ∧ ∀ f, j.taken f = holds f cc := by
  cases cc <;> first
    | exact absurd hcc (by decide)
    | exact ⟨_, rfl, by rintro ⟨_ | _, _ | _, _ | _, _ | _⟩ <;> rfl⟩

/-- What the lines of one successor do. -/
theorem run_successor {x : Cessor} (hx : x.cc.conditional = true ∨ x.cc = .always)
    (next : Option BlockId) (t : List (Line ι Jump Label)) (s : σ) :
    u.machine.run (outputSuccessor next x ++ t) s =
      if some x.b ≠ next ∧ holds (u.flags s) x.cc = true then .arrives (.block x.b) s
      else u.machine.run t s := by
  obtain ⟨j, hj, htaken⟩ : ∃ j : Jump, (insnBranch x.cc x.b : Option (Line ι Jump Label)) =
      some (.branch j (.block x.b)) ∧ ∀ f, j.taken f = holds f x.cc := insnBranch_real hx x.b
  have hout : (outputSuccessor next x : List (Line ι Jump Label)) =
      if some x.b ≠ next then [.branch j (.block x.b)] else [] := by
    unfold outputSuccessor
    split
    · rename_i hcc
      exact absurd hx (by rw [hcc]; decide)
    · rename_i hcc
      exact absurd hx (by rw [hcc]; decide)
    · rw [hj]
      rfl
  rw [hout]
  by_cases hnext : some x.b ≠ next
  · rw [if_pos hnext, List.singleton_append, Machine.run]
    have hm : u.machine.taken j s = holds (u.flags s) x.cc := htaken _
    rw [hm]
    simp only [hnext, ne_eq, not_false_eq_true, true_and]
  · rw [if_neg hnext, List.nil_append, if_neg fun h => hnext h.1]

/-- When no code holds, control passes all branches. -/
theorem run_successors_pass {next : Option BlockId} {t : List (Line ι Jump Label)} {s : σ}
    {succs : List Cessor} (hreal : ∀ x ∈ succs, x.cc.conditional = true ∨ x.cc = .always)
    (hno : ∀ x ∈ succs, holds (u.flags s) x.cc ≠ true) :
    u.machine.run (succs.flatMap (outputSuccessor next) ++ t) s = u.machine.run t s := by
  induction succs with
  | nil => rfl
  | cons x l ih =>
    rw [List.flatMap_cons, List.append_assoc, run_successor (hreal x (List.mem_cons_self ..)),
      if_neg fun h => hno x (List.mem_cons_self ..) h.2]
    exact ih (fun y hy => hreal y (List.mem_cons_of_mem _ hy))
      fun y hy => hno y (List.mem_cons_of_mem _ hy)

/-- The branch whose code holds is taken; if it was left out, control falls through to what follows. -/
theorem run_successors {next : Option BlockId} {t : List (Line ι Jump Label)} {s : σ}
    {succs : List Cessor} (hreal : ∀ x ∈ succs, x.cc.conditional = true ∨ x.cc = .always)
    (hex : succs.Pairwise fun x y =>
      ¬ (holds (u.flags s) x.cc = true ∧ holds (u.flags s) y.cc = true))
    {x : Cessor} (hx : x ∈ succs) (hcc : holds (u.flags s) x.cc = true) :
    u.machine.run (succs.flatMap (outputSuccessor next) ++ t) s =
      if some x.b ≠ next then .arrives (.block x.b) s else u.machine.run t s := by
  induction succs with
  | nil => cases hx
  | cons y l ih =>
    have hreal' : ∀ z ∈ l, z.cc.conditional = true ∨ z.cc = .always :=
      fun z hz => hreal z (List.mem_cons_of_mem _ hz)
    obtain ⟨hy, hex'⟩ := List.pairwise_cons.mp hex
    rw [List.flatMap_cons, List.append_assoc, run_successor (hreal y (List.mem_cons_self ..))]
    rcases List.mem_cons.mp hx with rfl | hx
    · by_cases hnext : some x.b ≠ next
      · rw [if_pos ⟨hnext, hcc⟩, if_pos hnext]
      · rw [if_neg fun h => hnext h.1, if_neg hnext]
        exact run_successors_pass hreal' fun z hz hz' => hy z hz ⟨hcc, hz'⟩
    · rw [if_neg fun h => hy x hx ⟨h.2, hcc⟩]
      exact ih hreal' hex' hx

theorem label_notMem_successors {next : Option BlockId} {succs : List Cessor} {l : Label} :
    (.label l : Line ι Jump Label) ∉ succs.flatMap (outputSuccessor next) := by
  intro hm
  obtain ⟨x, -, hx⟩ := List.mem_flatMap.mp hm
  unfold outputSuccessor insnBranch at hx
  split at hx
  · simp at hx
  · simp at hx
  · split at hx
    · obtain ⟨j, -, hj⟩ := Option.map_eq_some_iff.mp (Option.mem_toList.mp hx)
      cases hj
    · cases hx

theorem label_notMem_insns {is : List ι} {l : Label} :
    (.label l : Line ι Jump Label) ∉ is.map Line.insn := by
  intro hm
  obtain ⟨i, -, hi⟩ := List.mem_map.mp hm
  cases hi

/-- The text after the label of a block. -/
theorem fromLabel_blocks {pre post : List BlockId} {b : BlockId} (hb : b ∉ pre) :
    fromLabel (.block b) (outputBlocks c (pre ++ b :: post)) = some ((c.insns b).map .insn ++
      ((c.successors b).flatMap (outputSuccessor post.head?) ++ outputBlocks c post)) := by
  induction pre with
  | nil => exact fromLabel_self
  | cons d pre ih =>
    obtain ⟨hd, hpre⟩ := not_or.mp fun hm => hb (List.mem_cons.mpr hm)
    have hne : Label.block d ≠ .block b := fun he => hd (Label.block.inj he).symm
    rw [List.cons_append, outputBlocks, fromLabel, if_neg hne, fromLabel_skip label_notMem_insns,
      fromLabel_skip label_notMem_successors]
    exact ih hpre

/-! ### The text and the graph -/

theorem outputBlocks_sequence (l : List BlockId) :
    outputBlocks (blocksSequence c) l = outputBlocks c l := by
  induction l with
  | nil => rfl
  | cons b l ih =>
    rw [outputBlocks, outputBlocks, ih]
    rfl

/-- The text of a well-formed graph begins with its entry block, and has every block. -/
theorem text_spec (hw : c.WellFormed u may) : text c =
    .label .func :: outputBlocks c (blocksSequence c).blocks := by
  obtain ⟨⟨l, hl⟩, -⟩ := blocksSequence_spec hw
  have hdrop : (blocksSequence c).blocks.dropWhile (· ≠ (blocksSequence c).entry) =
      (blocksSequence c).blocks := by
    rw [hl]
    exact List.dropWhile_cons_of_neg (by simp [blocksSequence])
  rw [text, outputFunc, hdrop, outputBlocks_sequence]

/-- Entering a block of the text. -/
theorem enter_block (hw : c.WellFormed u may) {b : BlockId} (hb : b ∈ c.blocks) (s : σ) :
    ∃ post, u.machine.enter (text c) (.block b) s = u.machine.run ((c.insns b).map .insn ++
      ((c.successors b).flatMap (outputSuccessor post.head?) ++ outputBlocks c post)) s := by
  obtain ⟨-, hperm⟩ := blocksSequence_spec hw
  obtain ⟨pre, post, hl⟩ := List.append_of_mem (hperm.mem_iff.mpr hb)
  have hnodup : (pre ++ b :: post).Nodup := hl ▸ hperm.nodup_iff.mpr hw.nodup
  have hpre : b ∉ pre := fun h =>
    (List.nodup_append'.mp hnodup).2.2 h (List.mem_cons_self ..)
  refine ⟨post, ?_⟩
  have hfind : fromLabel (.block b) (text c) = some ((c.insns b).map .insn ++
      ((c.successors b).flatMap (outputSuccessor post.head?) ++ outputBlocks c post)) := by
    rw [text_spec hw, hl]
    exact fromLabel_blocks hpre
  rw [Machine.enter, hfind]

/-- Falling through to the next block. -/
theorem run_next {post : List BlockId} {b : BlockId} (h : post.head? = some b) (s : σ) :
    u.machine.run (outputBlocks c post) s = .arrives (.block b) s := by
  obtain ⟨l, rfl⟩ := List.head?_eq_some_iff.mp h
  rfl

/-- The edge whose code holds is taken. -/
theorem enter_edge (hw : c.WellFormed u may) {b : BlockId} (hb : b ∈ c.blocks) {s : σ}
    (hs : may b s) {x : Cessor} (hx : x ∈ c.successors b) (hcc : c.Chosen u b s x) :
    u.machine.enter (text c) (.block b) s = .arrives (.block x.b) (c.leave u b s) := by
  have hexit : b ≠ c.exit := by
    rintro rfl
    rw [(hw.ret hb).1] at hx
    cases hx
  obtain ⟨post, hpost⟩ := enter_block hw hb s
  have hrun : u.machine.run ((c.successors b).flatMap (outputSuccessor post.head?) ++
      outputBlocks c post) (c.leave u b s) =
      if some x.b ≠ post.head? then .arrives (.block x.b) (c.leave u b s)
      else u.machine.run (outputBlocks c post) (c.leave u b s) :=
    run_successors (hw.real b hb) (hw.exclusive b hb s hs) hx hcc
  rw [hpost, run_insns (hw.straight b hb hexit)]
  refine hrun.trans ?_
  split
  · rfl
  · rename_i hnext
    exact run_next (not_not.mp hnext).symm _

/-- The exit block leaves the function. -/
theorem enter_exit (hw : c.WellFormed u may) (hb : c.exit ∈ c.blocks) (s : σ) :
    u.machine.enter (text c) (.block c.exit) s = .returned (c.leave u c.exit s) := by
  obtain ⟨post, hpost⟩ := enter_block hw hb s
  obtain ⟨-, is, i, hinsns, his, hi⟩ := hw.ret hb
  rw [hpost, Code.leave, hinsns]
  exact run_returns his hi

/-- In the text control takes the edges of the graph. -/
theorem enter_iff (hw : c.WellFormed u may) {b : BlockId} (hb : b ∈ c.blocks) {s : σ}
    (hs : may b s) (a : Arrival Label σ) :
    u.machine.enter (text c) (.block b) s = a ↔ c.Goes u b s a := by
  constructor
  · rintro rfl
    by_cases hexit : b = c.exit
    · subst hexit
      rw [enter_exit hw hb]
      exact .exit
    · obtain ⟨x, hx, hcc⟩ := hw.exhaustive b hb hexit s hs
      rw [enter_edge hw hb hs hx hcc]
      exact .edge hx hcc
  · rintro (⟨hx, hcc⟩ | _)
    · exact enter_edge hw hb hs hx hcc
    · exact enter_exit hw hb s

theorem enter_func (hw : c.WellFormed u may) (s : σ) :
    u.machine.enter (text c) .func s = .arrives (.block c.entry) s := by
  obtain ⟨⟨l, hl⟩, -⟩ := blocksSequence_spec hw
  rw [text_spec hw, Machine.enter, fromLabel_self, hl]
  rfl

/-- Control stays in the blocks of the graph. -/
theorem Code.Path.mem (hw : c.WellFormed u may) {s₀ : σ} (hs₀ : may c.entry s₀) {n : Nat}
    {a : Arrival Label σ} (h : c.Path u s₀ n a) :
    (∃ b ∈ c.blocks, ∃ s, may b s ∧ a = .arrives (.block b) s) ∨ ∃ s, a = .returned s := by
  induction h with
  | start => exact .inl ⟨_, hw.entry, _, hs₀, rfl⟩
  | step _ hgo ih =>
    cases hgo with
    | edge hx hcc =>
      obtain ⟨b, hb, s, hs, heq⟩ | ⟨s, heq⟩ := ih
      · cases heq
        exact .inl ⟨_, hw.closed _ hb _ (List.mem_map_of_mem hx), _, hw.goes _ hb _ hs _ hx hcc, rfl⟩
      · cases heq
    | exit => exact .inr ⟨_, rfl⟩
  | stay _ _ => exact .inr ⟨_, rfl⟩

/-- So it does for any number of blocks. -/
theorem after_iff (hw : c.WellFormed u may) {s₀ : σ} (hs₀ : may c.entry s₀) (n : Nat)
    (a : Arrival Label σ) :
    u.machine.after (text c) n (u.machine.enter (text c) .func s₀) = a ↔ c.Path u s₀ n a := by
  rw [enter_func hw]
  induction n generalizing a with
  | zero =>
    constructor
    · rintro rfl
      exact .start
    · rintro ⟨⟩
      rfl
  | succ n ih =>
    rw [Machine.after]
    constructor
    · rintro rfl
      have hpath := (ih _).mp rfl
      obtain ⟨b, hb, s, hs, heq⟩ | ⟨s, heq⟩ := hpath.mem hw hs₀
      · rw [heq] at hpath ⊢
        exact .step hpath ((enter_iff hw hb hs _).mp rfl)
      · rw [heq] at hpath ⊢
        exact .stay hpath
    · rintro (_ | ⟨hbefore, hgo⟩ | hbefore)
      · rw [(ih _).mpr hbefore]
        obtain ⟨b, hb, s, hs, heq⟩ | ⟨s, heq⟩ := hbefore.mem hw hs₀
        · cases heq
          exact (enter_iff hw hb hs _).mpr hgo
        · cases heq
      · rw [(ih _).mpr hbefore]

/-- The text is the graph: the entry block comes first, every block that can be reached occurs exactly
    once and none is lost; executed line by line, the text takes from each block the edge whose code
    holds, and control never falls past its end. -/
theorem output_refines (hw : c.WellFormed u may) :
    (∃ l, (blocksSequence c).blocks = c.entry :: l) ∧ (blocksSequence c).blocks.Perm c.blocks ∧
    (∀ b, Relation.ReflTransGen (fun d e => e ∈ c.succs d) c.entry b →
      (blocksSequence c).blocks.count b = 1) ∧
    (∀ b ∈ c.blocks, ∀ s, may b s → ∀ a,
      u.machine.enter (text c) (.block b) s = a ↔ c.Goes u b s a) ∧
    ∀ s, may c.entry s → ∀ n,
      (∀ a, u.machine.after (text c) n (u.machine.enter (text c) .func s) = a ↔ c.Path u s n a) ∧
      u.machine.after (text c) n (u.machine.enter (text c) .func s) ≠ .off := by
  obtain ⟨hentry, hperm⟩ := blocksSequence_spec hw
  refine ⟨hentry, hperm, fun b hb => ?_, fun b hb s hs a => enter_iff hw hb hs a,
    fun s hs n => ⟨after_iff hw hs n, fun hoff => ?_⟩⟩
  · have hmem : b ∈ c.blocks := by
      induction hb with
      | refl => exact hw.entry
      | tail _ he ih => exact hw.closed _ ih _ he
    exact List.count_eq_one_of_mem (hperm.nodup_iff.mpr hw.nodup) (hperm.mem_iff.mpr hmem)
  · obtain ⟨b, -, s', -, heq⟩ | ⟨s', heq⟩ := ((after_iff hw hs n _).mp hoff).mem hw hs
    · cases heq
    · cases heq

end

/-- A loop with a three-way branch, as `switch2` makes one: the insn compares, the other returns. -/
def searchCode : Code Bool where
  entry := 0
  exit := 3
  blocks := [0, 1, 2, 3]
  insns b := if b = 1 then [false] else if b = 3 then [true] else []
  successors b :=
    if b = 0 then [⟨.always, 1, 0, 0⟩]
    else if b = 1 then [⟨.z, 3, 0, 0⟩, ⟨.b, 2, 0, 0⟩, ⟨.a, 1, 0, 0⟩]
    else if b = 2 then [⟨.always, 1, 0, 0⟩]
    else []

/-- An integral comparison never says both equal and below. -/
def searchCpu : Cpu Bool Flags where
  exec i f := if i then f else { f with cf := f.cf && !f.zf }
  returns i := i
  flags f := f

theorem output_refines_search : (blocksSequence searchCode).blocks = [0, 1, 2, 3] ∧
    ∀ s n, searchCpu.machine.after (text searchCode) n
      (searchCpu.machine.enter (text searchCode) .func s) ≠ .off := by
  have hw : searchCode.WellFormed searchCpu fun _ _ => True := by
    refine ⟨by decide, by decide, by decide, by decide, ?_, ?_, fun _ _ _ _ _ _ _ => trivial,
      by decide, fun _ => ⟨rfl, [], true, rfl, by simp, rfl⟩⟩
    · rintro b hb ⟨zf, sf, cf, of⟩ -
      unfold Code.Chosen
      revert b
      cases zf <;> cases sf <;> cases cf <;> cases of <;> decide
    · rintro b hb hexit ⟨zf, sf, cf, of⟩ -
      unfold Code.Chosen
      revert b
      cases zf <;> cases sf <;> cases cf <;> cases of <;> decide
  obtain ⟨-, -, -, -, hrun⟩ := output_refines hw
  exact ⟨by decide, fun s n => (hrun s trivial n).2⟩

end Ncc.Output
