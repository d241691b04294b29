import Ncc.Preheader
import Ncc.TestzEarly

/-! Removing no-ops and empty blocks (opt.c: `nop`, `prune`).

    `prune` frees an empty block after its predecessors were redirected to its successor, which may
    turn a branch into a jump or join the cases of a switch. A branch goes where it went, but for
    the block that is freed (`Bypassed`). -/

namespace Ncc

/-! ### The passes -/

/-- The tests of `nop0`: a no-op, a copy of a register to itself, or a copy back. -/
def removable (prev : Option Insn) (insn : Insn) : Bool :=
  insn.op == .nop ||
    match insnCopy insn with
    | none => false
    | some (dst, src) => dst == src || prev.bind insnCopy == some (src, dst)

/-- The loop of `nop0`: the insns without the first that is removed, if there is one. -/
def removeFirst : Option Insn → List Insn → Option (List Insn)
  | _, [] => none
  | prev, insn :: insns =>
    if removable prev insn then some insns
    else (removeFirst (some insn) insns).map (insn :: ·)

theorem length_removeFirst : ∀ {prev : Option Insn} {insns insns' : List Insn},
    removeFirst prev insns = some insns' → insns.length = insns'.length + 1
  | _, [], _, h => nomatch h
  | prev, insn :: insns, insns', h => by
    rw [removeFirst] at h
    split_ifs at h
    · rw [← Option.some.inj h, List.length_cons]
    · obtain ⟨rest, hrest, rfl⟩ := Option.map_eq_some_iff.mp h
      rw [List.length_cons, length_removeFirst hrest, List.length_cons]

/-- `nop0` starts again with every insn that it removes. -/
def nopInsns (insns : List Insn) : List Insn :=
  match _h : removeFirst none insns with
  | some insns' => nopInsns insns'
  | none => insns
termination_by insns.length
decreasing_by
  rw [length_removeFirst _h]
  exact Nat.lt_succ_self _

/-- `nop0`, with `need_prune`. -/
def nop0 (st : Func × Bool) (b : BlockId) : Func × Bool :=
  let f := st.1.setInsns b (nopInsns (st.1.block b).insns)
  (f, st.2 || blockEmpty (f.block b))

/-- The loop of `prune0`: while the block has a predecessor, redirect it. -/
def pruneLoop (b succ : BlockId) : Nat → Func → Option Func
  | 0, _ => none
  | fuel + 1, f =>
    match (f.block b).predecessors with
    | [] => some f
    | pred :: _ => pruneLoop b succ fuel (blockRedirectSuccessors f pred b succ)

/-- `prune0`. -/
def prune0 (fuel : Nat) (f : Func) (b : BlockId) : Option Func :=
  if b ≠ f.entry ∧ blockEmpty (f.block b) = true then
    match blockAlwaysSuccessor (f.block b) with
    | some succ =>
      if succ.b ≠ b then (pruneLoop b succ.b fuel f).map fun f => blockFree f b else some f
    | none => some f
  else some f

/-- `prune`. -/
def prune (fuel : Nat) (f : Func) : Option Func := f.blocks.foldlM (prune0 fuel) f

/-- `nop`. -/
def nop (fuel : Nat) (f : Func) : Option Func :=
  let (f, needPrune) := f.blocks.foldl nop0 (f, false)
  if needPrune then prune fuel f else some f

/-! ### Blocks -/

/-- How a block ends: it leaves the function, jumps, branches on a code or its inverse, or switches. -/
inductive Shape (x : Block) : Prop
  | leaves (control : x.control = none) (successors : x.successors = [])
  | jumps (control : x.control = none) (c : Cessor) (successors : x.successors = [c])
      (always : c.cc = .always)
  | branches (control : x.control = none) (c d : Cessor) (successors : x.successors = [c, d])
      (conditional : c.cc.conditional = true) (inverse : d.cc = c.cc.invert)
  | switches (dflt : Cessor) (cases : List Cessor) (switch : Switch.SwitchBlock x dflt cases)

/-- Where control goes if not to the block that is freed. -/
def bypass (src dst c : BlockId) : BlockId := if c = src then dst else c

section
variable {env : Env} {x x' : Block} {s : State} {src dst : BlockId}

theorem redirected_b (c : Cessor) : (redirected src dst c).b = bypass src dst c.b := by
  unfold redirected bypass
  split_ifs <;> rfl

theorem redirected_cc (c : Cessor) : (redirected src dst c).cc = c.cc := by
  unfold redirected
  split_ifs <;> rfl

theorem redirected_range (c : Cessor) :
    (redirected src dst c).min = c.min ∧ (redirected src dst c).max = c.max := by
  unfold redirected
  split_ifs <;> exact ⟨rfl, rfl⟩

/-- Redirected successors are chosen as the original ones are. -/
theorem branch_redirected (hcontrol : x'.control = x.control)
    (hsuccs : x'.successors = x.successors.map (redirected src dst)) :
    branch env x' s = (branch env x s).map (bypass src dst) := by
  have hfind : ∀ (l : List Cessor) (p : Cessor → Bool), (∀ c, p (redirected src dst c) = p c) →
      ((l.map (redirected src dst)).find? p).map Cessor.b =
        ((l.find? p).map Cessor.b).map (bypass src dst) := by
    intro l p hp
    have hcomp : p ∘ redirected src dst = p := funext hp
    rw [List.find?_map, hcomp, Option.map_map, Option.map_map]
    congr 1
    funext c
    exact redirected_b c
  unfold branch
  rw [hcontrol]
  cases x.control with
  | none =>
    dsimp only
    rw [hsuccs]
    exact hfind _ _ fun c => by rw [redirected_cc]
  | some o =>
    dsimp only
    generalize o.read env s.regs = u
    cases hold : x.successors with
    | nil =>
      unfold blockSwitchLookup
      rw [hsuccs, hold]
      rfl
    | cons dflt cases =>
      have hnew : x'.successors = redirected src dst dflt :: cases.map (redirected src dst) := by
        rw [hsuccs, hold, List.map_cons]
      have hcases := hfind cases (Switch.holds u) fun c => by
        rw [Switch.holds, Switch.holds, (redirected_range c).1, (redirected_range c).2]
      rw [Switch.switchLookup_eq hold, Switch.switchLookup_eq hnew, Switch.lookup, Switch.lookup,
        hcases, redirected_b]
      cases (cases.find? (Switch.holds u)).map Cessor.b <;> rfl

/-- A block ends the same way after its successors were redirected. -/
theorem shape_redirected (h : Shape x) (hcontrol : x'.control = x.control)
    (hsuccs : x'.successors = x.successors.map (redirected src dst)) : Shape x' := by
  cases h with
  | leaves hc hs => exact .leaves (hcontrol.trans hc) (by rw [hsuccs, hs]; rfl)
  | jumps hc c hs hcc =>
    exact .jumps (hcontrol.trans hc) _ (by rw [hsuccs, hs]; rfl) ((redirected_cc c).trans hcc)
  | branches hc c d hs hcc hinv =>
    refine .branches (hcontrol.trans hc) _ _ (by rw [hsuccs, hs]; rfl) ?_ ?_
    · rwa [redirected_cc]
    · rwa [redirected_cc, redirected_cc]
  | switches dflt cases h =>
    refine .switches (redirected src dst dflt) (cases.map (redirected src dst)) ⟨?_, ?_, ?_, ?_, ?_, ?_⟩
    · rw [hcontrol]
      exact h.control
    · rw [hsuccs, h.successors, List.map_cons]
    · exact (redirected_cc dflt).trans h.dflt
    · intro c hc
      obtain ⟨d, hd, rfl⟩ := List.mem_map.mp hc
      exact (redirected_cc d).trans (h.switch d hd)
    · intro c hc
      obtain ⟨d, hd, rfl⟩ := List.mem_map.mp hc
      rw [(redirected_range d).1, (redirected_range d).2]
      exact h.range d hd
    · refine List.pairwise_map.mpr (h.disjoint.imp fun {c d} hcd u => ?_)
      rw [(redirected_range c).1, (redirected_range c).2, (redirected_range d).1,
        (redirected_range d).2]
      exact hcd u

end

/-! ### Coalescing -/

section
variable {env : Env} {f : Func} {s : State} {b : BlockId}

/-- The function after some block was rewritten: control goes where it went. -/
structure SameBranches (f f' : Func) : Prop extends SameBlocks f f' where
  insns : ∀ x, (f'.block x).insns = (f.block x).insns
  shape : ∀ x, Shape (f.block x) → Shape (f'.block x)
  branch : ∀ x env s, Shape (f.block x) → Testz.Flags s.ccs →
    branch env (f'.block x) s = branch env (f.block x) s

theorem shape_congr {x x' : Block} (h : Shape x) (hcontrol : x'.control = x.control)
    (hsuccs : x'.successors = x.successors) : Shape x' := by
  cases h with
  | leaves hc hs => exact .leaves (hcontrol.trans hc) (hsuccs.trans hs)
  | jumps hc c hs hcc => exact .jumps (hcontrol.trans hc) c (hsuccs.trans hs) hcc
  | branches hc c d hs hcc hinv =>
    exact .branches (hcontrol.trans hc) c d (hsuccs.trans hs) hcc hinv
  | switches dflt cases h =>
    refine .switches dflt cases ⟨?_, hsuccs.trans h.successors, h.dflt, h.switch, h.range, h.disjoint⟩
    rw [hcontrol]
    exact h.control

theorem branch_congr {x x' : Block} (hcontrol : x'.control = x.control)
    (hsuccs : x'.successors = x.successors) : branch env x' s = branch env x s := by
  unfold branch blockSwitchLookup
  rw [hcontrol, hsuccs]

/-- Only one block was rewritten. -/
theorem sameBranches_of_block {f f' : Func} (hsame : SameBlocks f f')
    (hinsns : ∀ x, (f'.block x).insns = (f.block x).insns)
    (hothers : ∀ x, x ≠ b → (f'.block x).control = (f.block x).control ∧
      (f'.block x).successors = (f.block x).successors)
    (hshape : Shape (f'.block b))
    (hbranch : ∀ env s, Testz.Flags s.ccs → branch env (f'.block b) s = branch env (f.block b) s) :
    SameBranches f f' := by
  refine ⟨hsame, hinsns, fun x hx => ?_, fun x env s _ hs => ?_⟩
  · by_cases h : x = b
    · exact h ▸ hshape
    · exact shape_congr hx (hothers x h).1 (hothers x h).2
  · by_cases h : x = b
    · subst h
      exact hbranch env s hs
    · exact branch_congr (hothers x h).1 (hothers x h).2

theorem disjoint_of_ascending {cases : List Cessor} (h : Switch.Ascending cases) :
    cases.Pairwise fun c d => ∀ u, ¬ (c.min ≤ u ∧ u ≤ c.max ∧ d.min ≤ u ∧ u ≤ d.max) :=
  h.ascending.imp fun {c d} hlt u hu => by
    obtain ⟨-, hmax, hmin, -⟩ := hu
    bv_omega

/-- The other blocks keep their control operands. -/
theorem control_coalesce (f : Func) {x : BlockId} (hx : x ≠ b) :
    ((Switch.blockCoalesceSuccessors f b).block x).control = (f.block x).control := by
  obtain ⟨g, hg, hspec⟩ : ∃ g : Func, (g.block x).control = (f.block x).control ∧
      Switch.blockCoalesceSuccessors f b = jumpIfSame g b := by
    refine ⟨_, ?_, rfl⟩
    split
    · exact (Switch.blockSwitchCoalesce_rewritten f b).control x
    · rfl
  rw [hspec, jumpIfSame]
  split
  · exact hg
  · split_ifs
    · exact hg
    · exact hg
    · rw [(Switch.jump_block g b _ x).2.1, if_neg hx, hg]

/-- `block_coalesce_successors` keeps where control goes. -/
theorem sameBranches_coalesce (h : Shape (f.block b)) :
    SameBranches f (Switch.blockCoalesceSuccessors f b) := by
  have hblocks := (blockCoalesceSuccessors_spec f b).1.toSameBlocks
  have hrefl : SameBranches f f :=
    ⟨⟨rfl, rfl, rfl, rfl⟩, fun _ => rfl, fun _ h => h, fun _ _ _ _ _ => rfl⟩
  cases h with
  | leaves hc hs =>
    have heq : Switch.blockCoalesceSuccessors f b = f := by
      simp [Switch.blockCoalesceSuccessors, blockSwitchP, hc, hs]
    rw [heq]
    exact hrefl
  | jumps hc c hs hcc =>
    have heq : Switch.blockCoalesceSuccessors f b = f := by
      simp [Switch.blockCoalesceSuccessors, blockSwitchP, hc, hs, hcc]
    rw [heq]
    exact hrefl
  | branches hc c d hs hcc hinv =>
    have halways : c.cc ≠ .always := fun h => by rw [h] at hcc; exact absurd hcc (by decide)
    by_cases hsame : d.b = c.b
    · -- both ways lead to one block
      have heq : Switch.blockCoalesceSuccessors f b =
          (blockAddSuccessor (blockRemoveSuccessors f b) b .always c.b).setControl b none := by
        simp [Switch.blockCoalesceSuccessors, blockSwitchP, hc, hs, halways, hsame]
      rw [heq] at hblocks ⊢
      have hjump := Switch.jump_block f b c.b
      have hb := hjump b
      simp only [if_true] at hb
      refine @sameBranches_of_block b _ _ hblocks (fun x => (hjump x).1) (fun x hx => ?_)
        (.jumps hb.2.1 _ hb.2.2 rfl) fun env s hflags => ?_
      · have hx' := hjump x
        rw [if_neg hx, if_neg hx] at hx'
        exact hx'.2
      · have hnew : branch env ((blockAddSuccessor (blockRemoveSuccessors f b) b .always
            c.b).setControl b none |>.block b) s = some c.b := by
          unfold branch
          rw [hb.2.1, hb.2.2]
          rfl
        rw [hnew, branch, hc, hs]
        have hnot : d.cc ≠ .always := fun h => by
          rw [hinv] at h
          have hcond := ConditionCode.conditional_invert c.cc
          rw [h, hcc] at hcond
          exact absurd hcond (by decide)
        by_cases hin : c.cc ∈ s.ccs
        · simp [hin]
        · have hin' : d.cc ∈ s.ccs := hinv ▸ (hflags.invert c.cc hcc).mpr hin
          simp [hin, halways, hnot, hin', hsame]
    · have heq : Switch.blockCoalesceSuccessors f b = f := by
        simp [Switch.blockCoalesceSuccessors, blockSwitchP, hc, hs, halways, hsame]
      rw [heq]
      exact hrefl
  | switches dflt cases h =>
    have hdone := Switch.done_blockCoalesceSuccessors h
    have hinsns : ∀ x, ((Switch.blockCoalesceSuccessors f b).block x).insns = (f.block x).insns := by
      intro x
      by_cases hx : x = b
      · exact hx ▸ hdone.insns
      · exact (hdone.others x hx).2.2
    obtain ⟨o, ho⟩ := Option.isSome_iff_exists.mp h.control
    refine @sameBranches_of_block b _ _ hblocks hinsns
      (fun x hx => ⟨(hdone.others x hx).2.1, (hdone.others x hx).1⟩) ?_ fun env s _ => ?_
    · rcases hdone.cases with ⟨cases', hctl, hsuccs, hasc⟩ | ⟨t, hctl, hsuccs, -⟩
      · exact .switches dflt cases' ⟨hctl ▸ h.control, hsuccs, h.dflt, hasc.switch, hasc.range,
          disjoint_of_ascending hasc⟩
      · exact .jumps hctl _ hsuccs rfl
    · rcases hdone.cases with ⟨cases', hctl, hsuccs, hasc⟩ | ⟨t, hctl, hsuccs, hall⟩
      · rw [branch, branch, hctl, ho]
        exact hdone.lookup _
      · rw [branch, branch, hctl, hsuccs, ho]
        dsimp only
        rw [hall]
        rfl

end

/-! ### Redirecting the predecessors of an empty block -/

theorem bypass_bypass {src dst : BlockId} (hne : dst ≠ src) (c : BlockId) :
    bypass src dst (bypass src dst c) = bypass src dst c := by
  unfold bypass
  split_ifs <;> rfl

theorem map_bypass_of_ne {src dst : BlockId} {o : Option BlockId} (h : o ≠ some src) :
    o.map (bypass src dst) = o := by
  cases o with
  | none => rfl
  | some c => exact congrArg some (if_neg fun hc => h (congrArg some hc))

/-- The function after predecessors of `src` were redirected to `dst`: up to where `src` leads,
    control goes where it went. -/
structure Redirected (src dst : BlockId) (f f' : Func) : Prop extends SameBlocks f f' where
  insns : ∀ x, (f'.block x).insns = (f.block x).insns
  shape : ∀ x, Shape (f.block x) → Shape (f'.block x)
  branch : ∀ x env s, Shape (f.block x) → Testz.Flags s.ccs →
    (branch env (f'.block x) s).map (bypass src dst) = (branch env (f.block x) s).map (bypass src dst)
  edge : ∀ x c, f'.Edge x c → f.Edge x c ∨ c = dst ∧ f.Edge x src
  kept : ∀ x, ¬ f.Edge x src → (f'.block x).successors = (f.block x).successors ∧
    (f'.block x).control = (f.block x).control

section
variable {f f' f'' : Func} {src dst b : BlockId}

theorem Redirected.refl (src dst : BlockId) (f : Func) : Redirected src dst f f :=
  ⟨⟨rfl, rfl, rfl, rfl⟩, fun _ => rfl, fun _ h => h, fun _ _ _ _ _ => rfl, fun _ _ h => .inl h,
    fun _ _ => ⟨rfl, rfl⟩⟩

theorem Redirected.trans (hne : dst ≠ src) (h : Redirected src dst f f')
    (h' : Redirected src dst f' f'') : Redirected src dst f f'' where
  toSameBlocks := h.toSameBlocks.trans h'.toSameBlocks
  insns x := (h'.insns x).trans (h.insns x)
  shape x hx := h'.shape x (h.shape x hx)
  branch x env s hx hs := (h'.branch x env s (h.shape x hx) hs).trans (h.branch x env s hx hs)
  edge x c hc := by
    rcases h'.edge x c hc with hc | ⟨rfl, hc⟩
    · exact h.edge x c hc
    · rcases h.edge x src hc with hc | ⟨heq, -⟩
      · exact .inr ⟨rfl, hc⟩
      · exact absurd heq.symm hne
  kept x hx := by
    have hx' : ¬ f'.Edge x src := fun hc => by
      rcases h.edge x src hc with hc | ⟨heq, -⟩
      · exact hx hc
      · exact hne heq.symm
    exact ⟨(h'.kept x hx').1.trans (h.kept x hx).1, (h'.kept x hx').2.trans (h.kept x hx).2⟩

/-- One predecessor is redirected. -/
theorem redirected_block (hne : dst ≠ src) (hb : f.Edge b src) (hshape : Shape (f.block b)) :
    Redirected src dst f (blockRedirectSuccessors f b src dst) := by
  obtain ⟨hat, hmem⟩ := blockRedirectSuccessors_spec f b src dst
  obtain ⟨hloop, -⟩ := @redirect_loop b src dst (f.block b).successors f [] rfl
  rw [List.length_nil, ← List.range_eq_range', List.nil_append] at hloop
  have hsame := @sameBranches_coalesce
    ((List.range (f.block b).successors.length).foldl (redirectAt b src dst) f) b
    (shape_redirected hshape (hloop.control b) hloop.successors)
  have hothers : ∀ x, x ≠ b →
      Shape (f.block x) → Shape (((List.range (f.block b).successors.length).foldl
        (redirectAt b src dst) f).block x) :=
    fun x hx h => shape_congr h (hloop.control x) (hloop.others x hx)
  refine ⟨hat.toSameBlocks, fun x => (hsame.insns x).trans (hloop.insns x), fun x hx => ?_,
    fun x env s hx hs => ?_, fun x c hc => ?_, fun x hx => ?_⟩
  · by_cases hxb : x = b
    · subst hxb
      exact hsame.shape x (shape_redirected hx (hloop.control x) hloop.successors)
    · exact hsame.shape x (hothers x hxb hx)
  · by_cases hxb : x = b
    · subst hxb
      have hnew := shape_redirected hx (hloop.control x) hloop.successors
      rw [blockRedirectSuccessors, hsame.branch x env s hnew hs,
        branch_redirected (hloop.control x) hloop.successors, Option.map_map]
      congr 1
      funext c
      exact bypass_bypass hne c
    · rw [blockRedirectSuccessors, hsame.branch x env s (hothers x hxb hx) hs,
        branch_congr (hloop.control x) (hloop.others x hxb)]
  · by_cases hxb : x = b
    · subst hxb
      rcases (hmem c).mp hc with ⟨hc, -⟩ | hc
      · exact .inl hc
      · exact .inr hc
    · exact .inl ((edge_of_successors (hat.others x hxb) c).mp hc)
  · have hxb : x ≠ b := by
      rintro rfl
      exact hx hb
    refine ⟨hat.others x hxb, ?_⟩
    exact (control_coalesce _ hxb).trans (hloop.control x)

/-- A redirected block is no predecessor any more. -/
theorem length_preds_redirect (hne : dst ≠ src) (hb : f.Edge b src) :
    ((blockRedirectSuccessors f b src dst).block src).predecessors.length <
      (f.block src).predecessors.length := by
  obtain ⟨hat, hmem⟩ := blockRedirectSuccessors_spec f b src dst
  have hnot : src ∉ (blockRedirectSuccessors f b src dst).succs b := fun h => by
    rcases (hmem src).mp h with h | h
    · exact h.2 rfl
    · exact hne h.1.symm
  have hperm : ((blockRedirectSuccessors f b src dst).block src).predecessors.Perm
      ((f.block src).predecessors.filter fun x => x ≠ b) := by
    refine List.perm_iff_count.mpr fun x => ?_
    by_cases hx : x = b
    · subst hx
      have hfilter : x ∉ (f.block src).predecessors.filter fun y => y ≠ x := by simp
      rw [Func.linked, List.count_eq_zero.mpr hfilter]
      exact List.count_eq_zero.mpr hnot
    · rw [List.count_filter (by simpa using hx), Func.linked, f.linked x src, Block.succs,
        Block.succs, hat.others x hx]
  rw [hperm.length_eq]
  exact List.length_filter_lt_length_iff_exists.mpr ⟨b, Func.mem_preds.mpr hb, by simp⟩

/-- The loop of `prune0` ends when no predecessor is left. -/
theorem pruneLoop_spec (hne : dst ≠ src) : ∀ (n : Nat) (f : Func),
    (f.block src).predecessors.length ≤ n → (∀ x, f.Edge x src → Shape (f.block x)) →
      ∃ f', (∀ m, n < m → pruneLoop src dst m f = some f') ∧ Redirected src dst f f' ∧
        (f'.block src).predecessors = [] := by
  intro n
  induction n with
  | zero =>
    intro f hlen _
    have hnil := List.length_eq_zero_iff.mp (Nat.le_zero.mp hlen)
    refine ⟨f, fun m hm => ?_, .refl src dst f, hnil⟩
    obtain ⟨m, rfl⟩ := Nat.exists_eq_succ_of_ne_zero hm.ne'
    rw [pruneLoop, hnil]
  | succ n ih =>
    intro f hlen hshape
    cases hpreds : (f.block src).predecessors with
    | nil =>
      refine ⟨f, fun m hm => ?_, .refl src dst f, hpreds⟩
      obtain ⟨m, rfl⟩ := Nat.exists_eq_succ_of_ne_zero (Nat.ne_of_gt (Nat.zero_lt_of_lt hm))
      rw [pruneLoop, hpreds]
    | cons pred preds =>
      have hedge : f.Edge pred src :=
        Func.mem_preds.mp (hpreds ▸ List.mem_cons_self)
      have hred := redirected_block hne hedge (hshape pred hedge)
      have hlt := length_preds_redirect hne hedge
      obtain ⟨f', hloop, hred', hnil⟩ := ih (blockRedirectSuccessors f pred src dst) (by omega)
        fun x hx => by
          rcases hred.edge x src hx with hx | ⟨heq, -⟩
          · exact hred.shape x (hshape x hx)
          · exact absurd heq.symm hne
      refine ⟨f', fun m hm => ?_, hred.trans hne hred', hnil⟩
      obtain ⟨m, rfl⟩ := Nat.exists_eq_succ_of_ne_zero (Nat.ne_of_gt (Nat.zero_lt_of_lt hm))
      rw [pruneLoop, hpreds]
      exact hloop m (Nat.lt_of_succ_lt_succ hm)

end

/-! ### Freeing an empty block -/

theorem core_blockFree (f : Func) {b x : BlockId} (hx : x ≠ b) :
    ((blockFree f b).block x).core = (f.block x).core := by
  simp only [Block.core, blockFree, Func.insns_setInsns, Func.control_setInsns,
    Func.succs_setInsns, insns_blockRemoveSuccessors, control_blockRemoveSuccessors,
    succs_blockRemoveSuccessors, if_neg hx]

theorem core_blockFree_self (f : Func) (b : BlockId) :
    ((blockFree f b).block b).core = ([], none, []) := by
  simp only [Block.core, blockFree, Func.insns_setInsns, Func.control_setInsns,
    Func.succs_setInsns, control_blockRemoveSuccessors, succs_blockRemoveSuccessors, if_true]

theorem blocks_blockFree (f : Func) (b : BlockId) : (blockFree f b).blocks = f.blocks.erase b := by
  rw [blockFree]
  exact congrArg (List.erase · b) (sameBlocks_blockRemoveSuccessors f b).blocks

/-- The graph as the parser and the passes keep it: edges run between blocks that are listed, once
    each; nothing follows the exit block; and every block ends in one of the ways there are. -/
structure Func.Shaped (f : Func) : Prop where
  listed : f.Listed
  nodup : f.blocks.Nodup
  exit : ∀ c, ¬ f.Edge f.exit c
  shape : ∀ b ∈ f.blocks, Shape (f.block b)

/-- The function after an empty block was freed: control goes where the block led to. -/
structure Bypassed (src dst : BlockId) (f f' : Func) : Prop where
  entry : f'.entry = f.entry
  exit : f'.exit = f.exit
  blocks : f'.blocks = f.blocks.erase src
  notEntry : src ≠ f.entry
  empty : (f.block src).insns = []
  leads : ∀ env s, branch env (f.block src) s = some dst
  ne : dst ≠ src
  insns : ∀ x, x ≠ src → (f'.block x).insns = (f.block x).insns
  shape : ∀ x, x ≠ src → Shape (f.block x) → Shape (f'.block x)
  branch : ∀ x env s, x ≠ src → Shape (f.block x) → Testz.Flags s.ccs →
    branch env (f'.block x) s = (branch env (f.block x) s).map (bypass src dst)
  edge : ∀ x c, f'.Edge x c → x ≠ src ∧ c ≠ src ∧ (f.Edge x c ∨ c = dst ∧ f.Edge x src)

section
variable {f f' : Func} {src dst b : BlockId}

/-- The blocks that are left are shaped as they were. -/
theorem Bypassed.shaped (h : Bypassed src dst f f') (hf : f.Shaped) : f'.Shaped := by
  have hdst : f.Edge src dst := branch_mem (h.leads default default)
  have hkept : ∀ x, x ≠ src → x ∈ f.blocks → x ∈ f'.blocks := fun x hx hmem => by
    rw [h.blocks]
    exact (List.mem_erase_of_ne hx).mpr hmem
  refine ⟨⟨?_, fun x c hxc => ?_⟩, ?_, fun c hc => ?_, fun x hx => ?_⟩
  · rw [h.entry]
    exact hkept f.entry h.notEntry.symm hf.listed.1
  · obtain ⟨hx, hc, hxc | ⟨rfl, hxs⟩⟩ := h.edge x c hxc
    · exact ⟨hkept x hx (hf.listed.2 x c hxc).1, hkept c hc (hf.listed.2 x c hxc).2⟩
    · exact ⟨hkept x hx (hf.listed.2 x src hxs).1, hkept c hc (hf.listed.2 src c hdst).2⟩
  · rw [h.blocks]
    exact hf.nodup.erase src
  · rw [h.exit] at hc
    obtain ⟨-, -, hc | ⟨-, hc⟩⟩ := h.edge f.exit c hc
    · exact hf.exit c hc
    · exact hf.exit src hc
  · rw [h.blocks, hf.nodup.mem_erase_iff] at hx
    exact h.shape x hx.1 (hf.shape x hx.2)

/-- A block that `prune0` takes for empty jumps to its only successor. -/
theorem jumps_of_always (h : Shape (f.block b)) {succ : Cessor}
    (halways : blockAlwaysSuccessor (f.block b) = some succ) :
    (f.block b).control = none ∧ (f.block b).successors = [succ] ∧ succ.cc = .always := by
  unfold blockAlwaysSuccessor at halways
  cases h with
  | leaves hc hs =>
    rw [hs] at halways
    exact nomatch halways
  | jumps hc c hs hcc =>
    rw [hs] at halways
    simp only [hcc, if_true, Option.some.injEq] at halways
    exact halways ▸ ⟨hc, hs, hcc⟩
  | branches hc c d hs hcc hinv =>
    rw [hs] at halways
    have hne : c.cc ≠ .always := fun h => by rw [h] at hcc; exact absurd hcc (by decide)
    simp only [hne, if_false] at halways
    exact nomatch halways
  | switches dflt cases h =>
    rw [h.successors] at halways
    simp only [h.dflt, reduceCtorEq, if_false] at halways

/-- `prune0` leaves a block alone or frees it. -/
theorem prune0_spec (hf : f.Shaped) (hb : b ∈ f.blocks) : ∃ n f',
    (∀ m, n ≤ m → prune0 m f b = some f') ∧ (f' = f ∨ ∃ dst, Bypassed b dst f f') := by
  by_cases hcond : b ≠ f.entry ∧ blockEmpty (f.block b) = true
  swap
  · exact ⟨0, f, fun m _ => by rw [prune0, if_neg hcond], .inl rfl⟩
  cases halways : blockAlwaysSuccessor (f.block b) with
  | none => exact ⟨0, f, fun m _ => by rw [prune0, if_pos hcond, halways], .inl rfl⟩
  | some succ =>
    by_cases hne : succ.b ≠ b
    swap
    · exact ⟨0, f, fun m _ => by rw [prune0, if_pos hcond, halways]; exact if_neg hne, .inl rfl⟩
    obtain ⟨hctl, hsuccs, hcc⟩ := jumps_of_always (hf.shape b hb) halways
    obtain ⟨g, hloop, hred, hnil⟩ := pruneLoop_spec hne (f.block b).predecessors.length f le_rfl
      fun x hx => hf.shape x (hf.listed.2 x b hx).1
    have hself : ¬ f.Edge b b := fun h => by
      rw [Func.Edge, Func.succs, Block.succs, hsuccs] at h
      exact hne (List.mem_singleton.mp h).symm
    have hnone : ∀ x, ¬ g.Edge x b := fun x hx => by
      have hmem := Func.mem_preds.mpr hx
      rw [hnil] at hmem
      exact List.not_mem_nil hmem
    have hcore : ∀ x, x ≠ b → ((blockFree g b).block x).insns = (g.block x).insns ∧
        ((blockFree g b).block x).control = (g.block x).control ∧
        ((blockFree g b).block x).successors = (g.block x).successors := fun x hx => by
      have h := core_blockFree g hx
      simp only [Block.core, Prod.mk.injEq] at h
      exact h
    refine ⟨(f.block b).predecessors.length + 1, blockFree g b, fun m hm => ?_, .inr ⟨succ.b, ?_⟩⟩
    · rw [prune0, if_pos hcond, halways]
      dsimp only
      rw [if_pos hne, hloop m hm, Option.map_some]
    · have hsame := sameBlocks_blockRemoveSuccessors g b
      refine ⟨hsame.entry.trans hred.entry, hsame.exit.trans hred.exit, ?_, hcond.1, ?_,
        fun env s => ?_, hne, fun x hx => (hcore x hx).1.trans (hred.insns x), fun x hx h => ?_,
        fun x env s hx h hs => ?_, fun x c hxc => ?_⟩
      · rw [blocks_blockFree, hred.blocks]
      · have hempty := hcond.2
        simp only [blockEmpty, Bool.and_eq_true, List.isEmpty_iff] at hempty
        exact hempty.1
      · rw [branch, hctl, hsuccs]
        simp [hcc]
      · exact shape_congr (hred.shape x h) (hcore x hx).2.1 (hcore x hx).2.2
      · rw [branch_congr (hcore x hx).2.1 (hcore x hx).2.2, ← hred.branch x env s h hs,
          map_bypass_of_ne fun hgo => hnone x (branch_mem hgo)]
      · have hxb : x ≠ b := by
          rintro rfl
          have hself' := core_blockFree_self g x
          simp only [Block.core, Prod.mk.injEq] at hself'
          rw [Func.Edge, Func.succs, Block.succs, hself'.2.2] at hxc
          exact List.not_mem_nil hxc
        have hxc' : g.Edge x c := (edge_of_successors (hcore x hxb).2.2 c).mp hxc
        refine ⟨hxb, ?_, hred.edge x c hxc'⟩
        rintro rfl
        exact hnone x hxc'

end

end Ncc
