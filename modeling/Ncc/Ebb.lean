import Ncc.Run
import Ncc.Lib.Walk

/-! Passes over extended basic blocks.

    Such a pass walks the blocks in preorder. It keeps data with each block, starts from the data of
    the sole predecessor if there is one, rewrites the insns of the block one by one and leaves its
    data for the successors. `Walked` says what the walk leaves behind, and `Walked.sound` turns
    soundness of one block into soundness of the pass. -/

namespace Ncc

/-- `blocks_walk`: depth-first from the entry block. -/
def blocksWalk {σ : Type*} (f : Func) (pre post : BlockId → σ → σ) (st : σ) : σ :=
  (walk f.succs pre post f.blocks f.entry st).2

/-- What the walk threads: data of the pass as a whole, data kept with each block, and the function
    rewritten so far. -/
structure EbbState (γ σ : Type*) where
  shared : γ
  data : BlockId → σ
  func : Func

section
variable {γ σ : Type*}

/-- The data a block starts from: a copy of its sole predecessor's, or its own, still initial. -/
def ebbStart (inherit : σ → σ) (x : EbbState γ σ) (b : BlockId) : σ :=
  match blockSolePredecessor (x.func.block b) with
  | some pred => inherit (x.data pred)
  | none => x.data b

/-- One block of the walk. -/
def ebb0 (inherit : σ → σ) (tr : γ → σ → List Insn → γ × σ × List Insn) (b : BlockId)
    (x : EbbState γ σ) : EbbState γ σ :=
  let (g, d, insns) := tr x.shared (ebbStart inherit x b) (x.func.block b).insns
  ⟨g, Function.update x.data b d, x.func.setInsns b insns⟩

/-- What a block starts from: what its sole predecessor, one of `among`, left, or initial data. The
    entry block is visited first. -/
def Starts (f : Func) (init : σ) (inherit : σ → σ) (x : EbbState γ σ) (among : BlockId → Prop)
    (b : BlockId) (start : σ) : Prop :=
  (b = f.entry ∨ blockSolePredecessor (f.block b) = none) ∧ start = init ∨
    b ≠ f.entry ∧ ∃ p, among p ∧ blockSolePredecessor (f.block b) = some p ∧
      start = inherit (x.data p)

/-- The block was rewritten by `tr`. -/
def Rewritten (f : Func) (init : σ) (inherit : σ → σ)
    (tr : γ → σ → List Insn → γ × σ × List Insn) (I : γ → σ → Prop) (x : EbbState γ σ)
    (among : BlockId → Prop) (b : BlockId) : Prop :=
  ∃ g start, I g start ∧ Starts f init inherit x among b start ∧
    x.data b = (tr g start (f.block b).insns).2.1 ∧
    (x.func.block b).insns = (tr g start (f.block b).insns).2.2

/-- The block was not visited. -/
def Untouched (f : Func) (init : σ) (x : EbbState γ σ) (b : BlockId) : Prop :=
  x.data b = init ∧ (x.func.block b).insns = (f.block b).insns

/-- What a walk of `f` leaves behind, with the blocks of `vis` visited. -/
structure Walked (f : Func) (init : σ) (inherit : σ → σ)
    (tr : γ → σ → List Insn → γ × σ × List Insn) (I : γ → σ → Prop) (vis : List BlockId)
    (x : EbbState γ σ) : Prop where
  graph : SameGraph f x.func
  fresh : ∀ b, b ∉ vis → Untouched f init x b
  done : ∀ b ∈ vis, Rewritten f init inherit tr I x (· ∈ vis) b

variable {f : Func} {init : σ} {inherit : σ → σ} {tr : γ → σ → List Insn → γ × σ × List Insn}

/-- What holds in the middle of the walk, with the blocks of `vis` visited. -/
structure Walking (f : Func) (init : σ) (inherit : σ → σ)
    (tr : γ → σ → List Insn → γ × σ × List Insn) (I : γ → σ → Prop) (vis : List BlockId)
    (x : EbbState γ σ) : Prop extends Walked f init inherit tr I vis x where
  inv : ∀ b, I x.shared (x.data b)
  entry : vis ≠ [] → f.entry ∈ vis

section
variable {I : γ → σ → Prop} {vis : List BlockId} {x : EbbState γ σ} {b : BlockId}

theorem ebb0_data (h : Untouched f init x b) (c : BlockId) : (ebb0 inherit tr b x).data c =
    if c = b then (tr x.shared (ebbStart inherit x b) (f.block b).insns).2.1 else x.data c := by
  simp only [ebb0, Function.update_apply, h.2]

theorem ebb0_insns (h : Untouched f init x b) (c : BlockId) :
    ((ebb0 inherit tr b x).func.block c).insns =
      if c = b then (tr x.shared (ebbStart inherit x b) (f.block b).insns).2.2
      else (x.func.block c).insns := by
  simp only [ebb0, Func.setInsns_block, h.2]
  split <;> rfl

/-- A block that is visited for the first time starts from what is known of its predecessor. -/
theorem Walking.starts (h : Walking f init inherit tr I vis x) (hb : b ∉ vis)
    (hinherit : inherit init = init) (hcall : Called f.succs f.entry vis b) :
    Starts f init inherit x (· ∈ vis) b (ebbStart inherit x b) := by
  unfold ebbStart
  rw [h.graph.solePredecessor]
  cases hp : blockSolePredecessor (f.block b) with
  | none => exact Or.inl ⟨Or.inr hp, (h.fresh b hb).1⟩
  | some p =>
    by_cases hbe : b = f.entry
    · have hpv : p ∉ vis := fun hpv => hb (hbe ▸ h.entry (List.ne_nil_of_mem hpv))
      exact Or.inl ⟨Or.inl hbe, (congrArg inherit (h.fresh p hpv).1).trans hinherit⟩
    · obtain ⟨c, hc, hbc⟩ := hcall.resolve_left hbe
      obtain rfl := Func.eq_of_solePredecessor hbc hp
      exact Or.inr ⟨hbe, p, hc, hp, rfl⟩

/-- Data of visited blocks stays when another block is visited. -/
theorem Starts.visit {x : EbbState γ σ} (hu : Untouched f init x b) (hb : b ∉ vis) {c : BlockId}
    {start : σ} (h : Starts f init inherit x (· ∈ vis) c start) :
    Starts f init inherit (ebb0 inherit tr b x) (· ∈ b :: vis) c start := by
  refine h.imp_right ?_
  rintro ⟨hc, p, hpv, hp, rfl⟩
  have hpb : p ≠ b := fun he => hb (he ▸ hpv)
  exact ⟨hc, p, List.mem_cons_of_mem _ hpv, hp, by rw [ebb0_data hu, if_neg hpb]⟩

theorem Walking.visit (h : Walking f init inherit tr I vis x) (hb : b ∉ vis)
    (hinit : inherit init = init) (hinherit : ∀ g d, I g d → I g (inherit d))
    (htr : ∀ g d, I g d →
      I (tr g d (f.block b).insns).1 (tr g d (f.block b).insns).2.1)
    (hothers : ∀ g d d', I g d → I g d' → I (tr g d (f.block b).insns).1 d')
    (hcall : Called f.succs f.entry vis b) :
    Walking f init inherit tr I (b :: vis) (ebb0 inherit tr b x) := by
  have hu := h.fresh b hb
  have hstart : I x.shared (ebbStart inherit x b) := by
    unfold ebbStart; split
    · exact hinherit _ _ (h.inv _)
    · exact h.inv b
  have hshared : (ebb0 inherit tr b x).shared =
      (tr x.shared (ebbStart inherit x b) (f.block b).insns).1 := by
    simp only [ebb0, hu.2]
  refine ⟨⟨h.graph.trans (SameGraph.setInsns ..), fun c hc => ?_, fun c hc => ?_⟩, fun c => ?_,
    fun _ => ?_⟩
  · obtain ⟨hcb, hcv⟩ := not_or.mp (mt List.mem_cons.mpr hc)
    rw [Untouched, ebb0_data hu, ebb0_insns hu, if_neg hcb, if_neg hcb]
    exact h.fresh c hcv
  · by_cases hcb : c = b
    · subst hcb
      exact ⟨x.shared, _, hstart, (h.starts hb hinit hcall).visit hu hb,
        by rw [ebb0_data hu, if_pos rfl], by rw [ebb0_insns hu, if_pos rfl]⟩
    · obtain ⟨g, start, hI, hs, hd, hl⟩ := h.done c ((List.mem_cons.mp hc).resolve_left hcb)
      exact ⟨g, start, hI, hs.visit hu hb, by rw [ebb0_data hu, if_neg hcb]; exact hd,
        by rw [ebb0_insns hu, if_neg hcb]; exact hl⟩
  · rw [hshared, ebb0_data hu]
    split
    · exact htr _ _ hstart
    · exact hothers _ _ _ hstart (h.inv c)
  · by_cases hv : vis = []
    · subst hv
      rcases hcall with rfl | ⟨c, hc, _⟩
      · exact List.mem_cons_self ..
      · exact absurd hc List.not_mem_nil
    · exact List.mem_cons_of_mem _ (h.entry hv)

end

/-- The walk of the whole function. The invariant `I` relates the shared data to the data of every
    block; `tr` keeps it on the blocks of the function, for the block at hand and for the others. -/
theorem walked_blocks (I : γ → σ → Prop) {g₀ : γ} (h₀ : I g₀ init) (hinit : inherit init = init)
    (hinherit : ∀ g d, I g d → I g (inherit d))
    (htr : ∀ b g d, I g d → I (tr g d (f.block b).insns).1 (tr g d (f.block b).insns).2.1)
    (hothers : ∀ b g d d', I g d → I g d' → I (tr g d (f.block b).insns).1 d') :
    ∃ vis, Walking f init inherit tr I vis (blocksWalk f (ebb0 inherit tr) (fun _ x => x)
      ⟨g₀, fun _ => init, f⟩) := by
  have hstart : Walking f init inherit tr I [] ⟨g₀, fun _ => init, f⟩ :=
    ⟨⟨SameGraph.refl f, fun _ _ => ⟨rfl, rfl⟩, by simp⟩, fun _ => h₀, fun h => absurd rfl h⟩
  exact ⟨_, walk_induct (Walking f init inherit tr I) hstart
    (fun _ _ b h hb hcall => h.visit hb hinit hinherit (htr b) (hothers b) hcall)
    fun _ _ _ _ h => h⟩

/-- The walk of the whole function, if `tr` keeps the invariant on all insns. -/
theorem walked (I : γ → σ → Prop) {g₀ : γ} (h₀ : I g₀ init) (hinit : inherit init = init)
    (hinherit : ∀ g d, I g d → I g (inherit d))
    (htr : ∀ g d l, I g d → I (tr g d l).1 (tr g d l).2.1)
    (hothers : ∀ g d l d', I g d → I g d' → I (tr g d l).1 d') :
    ∃ vis, Walked f init inherit tr I vis (blocksWalk f (ebb0 inherit tr) (fun _ x => x)
      ⟨g₀, fun _ => init, f⟩) := by
  obtain ⟨vis, h⟩ := walked_blocks I h₀ hinit hinherit (fun _ g d => htr g d _)
    fun _ g d => hothers g d _
  exact ⟨vis, h.toWalked⟩

section
variable {env : Env} {I : γ → σ → Prop} {vis : List BlockId} {x : EbbState γ σ}
variable {s₀ : State} {R : State → Insn → Insn → Prop} {H : σ → State → List Insn → Prop}
variable {C : State → List Insn → List Insn → Prop}

/-- Soundness of a pass, from soundness of a block. `H d s₁ trace` says that the data `d` is
    right after executing `trace` from `s₁`; `C s₁ trace insns` is what the block `insns` is
    asked for there. -/
theorem Walked.sound (hw : Walked f init inherit tr I vis x) (hrefl : ∀ s i, R s i i)
    (hinit : ∀ s₁, H init s₁ [])
    (hinherit : ∀ d s₁ trace, H d s₁ trace → H (inherit d) s₁ trace)
    (hblock : ∀ g d s₁ trace l, I g d → H d s₁ trace → C s₁ trace l →
      H (tr g d l).2.1 s₁ (trace ++ l) ∧ Along env R l (tr g d l).2.2 (execs env trace s₁))
    (hcond : ∀ s₁ trace b s, Ebb env f s₀ s₁ trace b s → C s₁ trace (f.block b).insns)
    {s₁ : State} {trace : List Insn} {b : BlockId} {s : State}
    (hebb : Ebb env f s₀ s₁ trace b s) :
    Along env R (f.block b).insns (x.func.block b).insns s := by
  -- what a block starts from is right whenever control arrives there
  have hstart : ∀ {s₁ trace b s}, Ebb env f s₀ s₁ trace b s →
      ∀ start, Starts f init inherit x (· ∈ vis) b start → H start s₁ trace := by
    intro s₁ trace b s h
    induction h with
    | entry =>
      rintro start (⟨_, rfl⟩ | ⟨hne, _⟩)
      · exact hinit _
      · exact absurd rfl hne
    | @extend s₁ trace b c s hb hgo hp hc ih =>
      rintro start (⟨hno, _⟩ | ⟨_, p, hpv, hp', rfl⟩)
      · exact absurd (hno.resolve_left hc) (by rw [hp]; simp)
      · obtain rfl : b = p := Option.some.inj (hp.symm.trans hp')
        refine hinherit _ _ _ ?_
        obtain ⟨g, d, hI, hs, hd, _⟩ := hw.done b hpv
        rw [hd]
        exact (hblock g d _ _ _ hI (ih d hs) (hcond _ _ _ _ hb)).1
    | @join s₁ trace b c s _ hgo hp _ =>
      rintro start (⟨_, rfl⟩ | ⟨hc, p, _, hp', rfl⟩)
      · exact hinit _
      · exact absurd (Func.eq_of_solePredecessor (branch_mem hgo) hp' ▸ hp') (hp hc)
  by_cases hb : b ∈ vis
  · obtain ⟨g, d, hI, hs, _, hl⟩ := hw.done b hb
    rw [hl, ← hebb.execs_eq]
    exact (hblock g d _ _ _ hI (hstart hebb d hs) (hcond _ _ _ _ hebb)).2
  · rw [(hw.fresh b hb).2]
    clear hebb hstart
    induction (f.block b).insns generalizing s with
    | nil => trivial
    | cons i l ih => exact ⟨hrefl _ _, ih⟩

end

end

end Ncc
