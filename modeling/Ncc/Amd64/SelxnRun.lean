import Ncc.Amd64.SelxnSound

/-! What the address-mode cache promises while the generated code runs.

    The generator walks the blocks in preorder, and a block inherits the cache of its sole
    predecessor. `materialize_sound` is about every point of every run. -/

namespace Ncc.Amd64

/-! ### Soundness of a block -/

/-- An execution of a list of insns. -/
inductive Runs (env : Env) (R : Registers) : List Insn → State → State → Prop
  | nil (s : State) : Runs env R [] s s
  | cons {insn : Insn} {insns : List Insn} {s s₁ s' : State} : Executes env R insn s s₁ →
      Runs env R insns s₁ s' → Runs env R (insn :: insns) s s'

/-- The cache `x.2.1` is right after the code `x.2.2`, if `c` is right before it. -/
structure Lowers (env : Env) (R : Registers) (c : Selxns) (x : Supply × Selxns × List Insn) :
    Prop where
  cached : Cached R x.1.temps x.2.1
  sound : ∀ s s', Sound env R c s.regs → Runs env R x.2.2 s s' → Sound env R x.2.1 s'.regs

section
variable {env : Env} {R : Registers} {c : Selxns} {g g' : Supply} {insn : Insn} {st : SelxnState}
variable {s s' : State} {constant : TypeBits → Word → Symbol} {made : Selxns → Insn → Nat}
variable {l l₁ l₂ done : List Insn}

theorem runs_append : Runs env R (l₁ ++ l₂) s s' ↔
    ∃ s₁, Runs env R l₁ s s₁ ∧ Runs env R l₂ s₁ s' := by
  induction l₁ generalizing s with
  | nil =>
    refine ⟨fun h => ⟨s, .nil s, h⟩, ?_⟩
    rintro ⟨s₁, h₁, h⟩
    cases h₁
    exact h
  | cons i l₁ ih =>
    constructor
    · intro h
      cases h with
      | cons hi h =>
        obtain ⟨s₁, h₁, h₂⟩ := ih.mp h
        exact ⟨s₁, .cons hi h₁, h₂⟩
    · rintro ⟨s₁, h₁, h₂⟩
      cases h₁ with
      | cons hi h₁ => exact .cons hi (ih.mpr ⟨s₁, h₁, h₂⟩)

theorem runs_singleton (h : Runs env R [insn] s s') : Executes env R insn s s' := by
  cases h with
  | cons hi h =>
    cases h
    exact hi

/-- The code for an insn is the insn. -/
theorem Makes.lowers (hn : g.temps ≤ R.count) (hc : Cached R g.temps c)
    (h : Makes env R g.temps c insn st) (hg : g'.temps = g.temps) :
    Lowers env R c (g', (invalidate insn st).selxns, [insn]) :=
  ⟨by rw [hg]; exact h.cached hc, fun _ _ hs hrun => h.sound hn hc hs (runs_singleton hrun)⟩

/-- A constant is moved to a new temporary first. -/
theorem Makes.lowers_temp {ts : TypeBits} {src : Ncc.Operand} (hn : g.temps < R.count)
    (hc : Cached R g.temps c) (h : Makes env R (g.temps + 1) c insn st)
    (hg : g'.temps = g.temps + 1) :
    Lowers env R c (g', (invalidate insn st).selxns,
      [insnNew .move (some (Ncc.operandReg ts (R.temp g.temps))) (some src) none] ++ [insn]) := by
  have hc' := hc.mono (Nat.le_succ g.temps)
  refine ⟨by rw [hg]; exact h.cached hc', fun s s' hs hrun => ?_⟩
  obtain ⟨s₁, hmove, hrun⟩ := runs_append.mp hrun
  refine h.sound hn hc' (hs.congr hc fun r hr => ?_) (runs_singleton hrun)
  refine (runs_singleton hmove).held r (hr.mono hn.le) fun hd => hr.ne_temp hn ?_
  simpa [insnDefsRegs, insnNew, InsnOp.useDst, operandRegs, Ncc.operandReg] using hd

theorem decon_reg {temp : Nat → PseudoReg} {src : Ncc.Operand} {ts : TypeBits} {q : PseudoReg}
    {age : Nat} : decon temp g src (operandReg ts q age) = (g, src, operandReg ts q age, []) :=
  if_neg nofun

theorem decon_con {temp : Nat → PseudoReg} {src : Ncc.Operand} {ts : TypeBits} {w : Word}
    {sym : Option Symbol} {age : Nat} : decon temp g src (operandCon ts w sym age) =
      (⟨g.age + 1, g.temps + 1⟩, Ncc.operandReg ts (temp g.temps),
        operandReg ts (temp g.temps) g.age,
        [insnNew .move (some (Ncc.operandReg ts (temp g.temps))) (some src) none]) :=
  if_pos rfl

theorem temps_decon_le (temp : Nat → PseudoReg) (g : Supply) (src : Ncc.Operand) (o : Operand) :
    g.temps ≤ (decon temp g src o).1.temps := by
  unfold decon
  split
  · exact Nat.le_succ _
  · exact le_rfl

theorem temps_select_le (constant : TypeBits → Word → Symbol) (temp : Nat → PseudoReg)
    (g : Supply) (c : Selxns) (insn : Insn) :
    g.temps ≤ (select constant temp g c insn).1.temps := by
  unfold select
  split
  · exact le_rfl
  · exact le_rfl
  · exact le_rfl
  · exact temps_decon_le temp ⟨g.age + 3, g.temps⟩ _ _
  · exact le_rfl

/-- An insn as it is selected. -/
theorem select_lowers (h : R.Selectable insn) (hc : Cached R g.temps c)
    (hn : (select constant R.temp g c insn).1.temps ≤ R.count) :
    Lowers env R c ((select constant R.temp g c insn).1,
      (invalidate insn (select constant R.temp g c insn).2.1).selxns,
      (select constant R.temp g c insn).2.2) := by
  have hg : g.temps ≤ R.count := (temps_select_le constant R.temp g c insn).trans hn
  unfold select at hn ⊢
  split at hn
  · next hop hd hs₁ => exact (frame_makes h hop hd hs₁).lowers hg hc rfl
  · next hop hd hs₁ hs₂ => exact (add_makes h hop hc hd hs₁ hs₂).lowers hg hc rfl
  · next hop hd hs₁ hs₂ => exact (sub_makes h hop hc hd hs₁ hs₂).lowers hg hc rfl
  · next dst src1 src2 hop hd hs₁ hs₂ =>
    have hcaches : caches insn.op = true := by rw [hop]; rfl
    obtain ⟨ts, r, k, hdst, hown, hts⟩ := h.dst hcaches
    have hint := h.integral (.inr hop)
    have hsource := h.src1 hcaches hint src1 hs₁
    obtain rfl : dst = ⟨ts, .reg r, k⟩ := Option.some.inj (hd.symm.trans hdst)
    rw [hdst] at hint hsource
    rcases operandImport_integral constant (g.age + 1) hsource.integral with
      ⟨q, hv, he⟩ | ⟨w, sym, hv, he⟩
    · obtain ⟨ts₁, val₁, k₁⟩ := src1
      obtain rfl : val₁ = .reg q := hv
      have hown₁ := (hsource.reg q rfl).1
      rw [he, decon_reg]
      have hmakes := @shl_makes env R c g.temps ts r { insn with src1 := some ⟨ts₁, .reg q, k₁⟩ }
        constant src2 (g.age + 1) (g.age + 2) g.age ts₁ q k k₁ (g.age + 3) hop hdst hown hts hint
        rfl hs₂ hsource.wide (R.own_ne q hown₁).1 (.inl hown₁)
      exact hmakes.lowers hg hc rfl
    · rw [he, decon_con] at hn ⊢
      have hmakes := @shl_makes env R c (g.temps + 1) ts r
        { insn with src1 := some (Ncc.operandReg src1.ts (R.temp g.temps)) } constant src2
        (g.age + 3) (g.age + 2) g.age src1.ts (R.temp g.temps) k 0 (g.age + 4) hop hdst hown hts
        hint rfl hs₂ hsource.wide (R.temp_ne _ hn).1
        (.inr (.inr ⟨g.temps, Nat.lt_succ_self _, rfl⟩))
      exact hmakes.lowers_temp hn hc rfl
  · have hnone : Makes env R g.temps c insn ⟨c, none⟩ := .inl rfl
    exact hnone.lowers hg hc rfl

theorem Registers.Selectable.normalize (h : R.Selectable insn) :
    R.Selectable (insnNormalize insn) := by
  rcases insnNormalize_cases insn with he | ⟨hswap, he⟩
  · rwa [he]
  · -- of the insns that make entries, only I_ADD is commutative
    have hop : caches insn.op = true → insn.op = .add := by
      intro hcaches
      cases hop : insn.op with
      | add => rfl
      | mul | xor | or | and => rw [hop] at hcaches; cases hcaches
      | _ => rw [hop] at hswap; cases hswap
    rw [he]
    refine ⟨h.dst, h.integral, fun hcaches hint o ho => ?_, fun hadd hint o ho => ?_,
      fun hframe => ?_⟩
    · exact h.src2 (.inl (hop hcaches)) hint o ho
    · have hcaches : caches insn.op = true := by
        rcases hadd with hadd | hadd <;> rw [show insn.op = _ from hadd] <;> rfl
      exact h.src1 hcaches hint o ho
    · rw [show insn.op = .frame from hframe] at hswap
      cases hswap

theorem temps_genInsn_le (temp : Nat → PseudoReg) (g : Supply) (c : Selxns) (insn : Insn) :
    g.temps ≤ (genInsn constant temp made g c insn).1.temps :=
  temps_select_le constant temp g c (insnNormalize insn)

theorem genInsn_lowers (h : R.Selectable insn) (hc : Cached R g.temps c)
    (hn : (genInsn constant R.temp made g c insn).1.temps ≤ R.count) :
    Lowers env R c (genInsn constant R.temp made g c insn) := by
  obtain ⟨hcached, hsound⟩ := @select_lowers env R c g _ constant h.normalize hc hn
  exact ⟨hcached, hsound⟩

theorem temps_genInsns_le (temp : Nat → PseudoReg) :
    ∀ (l : List Insn) (g : Supply) (c : Selxns) (done : List Insn),
      g.temps ≤ (genInsns constant temp made g c done l).1.temps
  | [], _, _, _ => le_rfl
  | insn :: l, g, c, _ => (temps_genInsn_le temp g c insn).trans (temps_genInsns_le temp l ..)

theorem temps_genInsns (temp : Nat → PseudoReg) :
    ∀ (l : List Insn) (g : Supply) (c : Selxns) (done : List Insn),
      (genInsns constant temp made g c done l).2.1.temps =
        (genInsns constant temp made g c done l).1.temps
  | [], _, _, _ => rfl
  | _ :: l, _, _, _ => temps_genInsns temp l ..

/-- The insns of a block, and every point where `materialize` is offered a cache. -/
structure LowersAll (env : Env) (R : Registers) (c : Selxns) (done : List Insn)
    (x : Supply × BlockSelxns × List Insn) : Prop where
  lowers : Lowers env R c (x.1, x.2.1.selxns, x.2.2)
  points : ∀ p ∈ x.2.1.points, ∃ code rest, p.1 = done ++ code ∧ x.2.2 = code ++ rest ∧
    Cached R R.count p.2 ∧
    ∀ s s', Sound env R c s.regs → Runs env R code s s' → Sound env R p.2 s'.regs

theorem genInsns_lowers {l : List Insn} {done : List Insn} {g : Supply} {c : Selxns}
    (h : ∀ insn ∈ l, R.Selectable insn) (hc : Cached R g.temps c)
    (hn : (genInsns constant R.temp made g c done l).1.temps ≤ R.count) :
    LowersAll env R c done (genInsns constant R.temp made g c done l) := by
  induction l generalizing g c done with
  | nil =>
    refine ⟨⟨hc, fun s s' hs hrun => ?_⟩, fun p hp => absurd hp List.not_mem_nil⟩
    cases hrun
    exact hs
  | cons insn l ih =>
    have hle : (genInsn constant R.temp made g c insn).1.temps ≤
        (genInsns constant R.temp made g c done (insn :: l)).1.temps :=
      temps_genInsns_le R.temp l ..
    have hinsn : Lowers env R c (genInsn constant R.temp made g c insn) :=
      genInsn_lowers (h insn (List.mem_cons_self ..)) hc (hle.trans hn)
    obtain ⟨⟨hcached, hsound⟩, hpoints⟩ := ih (fun i hi => h i (List.mem_cons_of_mem _ hi))
      hinsn.cached hn
    refine ⟨⟨hcached, fun s s' hs hrun => ?_⟩, fun p hp => ?_⟩
    · obtain ⟨s₁, hrun₁, hrun₂⟩ := runs_append.mp hrun
      exact hsound s₁ s' (hinsn.sound s s₁ hs hrun₁) hrun₂
    · rcases List.mem_cons.mp hp with rfl | hp
      · refine ⟨[], _, (List.append_nil _).symm, rfl,
          hc.mono ((temps_genInsn_le R.temp g c insn).trans (hle.trans hn)), fun s s' hs hrun => ?_⟩
        cases hrun
        exact hs
      · obtain ⟨code, rest, hp₁, hcode, hpc, hps⟩ := hpoints p hp
        refine ⟨(genInsn constant R.temp made g c insn).2.2 ++ code, rest, ?_, ?_, hpc,
          fun s s' hs hrun => ?_⟩
        · exact hp₁.trans (List.append_assoc ..)
        · rw [List.append_assoc, ← hcode]
          rfl
        · obtain ⟨s₁, hrun₁, hrun₂⟩ := runs_append.mp hrun
          exact hps s₁ s' (hinsn.sound s s₁ hs hrun₁) hrun₂

end

/-! ### Soundness of a function -/

/-- Control arrives at a block of the generated code in a state; every branch may be taken. -/
inductive Arrives (env : Env) (R : Registers) (f : Func) (s₀ : State) : BlockId → State → Prop
  | entry : Arrives env R f s₀ f.entry s₀
  | step {b c : BlockId} {s s' : State} : Arrives env R f s₀ b s →
      Runs env R (f.block b).insns s s' → c ∈ f.succs b → Arrives env R f s₀ c s'

section
variable {constant : TypeBits → Word → Symbol} {R : Registers} {made : Selxns → Insn → Nat}
variable {f : Func} {env : Env} {s₀ s s₁ s₂ : State} {b : BlockId}

/-- The walk's invariant: as long as the temporaries are new, the caches of all blocks are right. -/
def Kept (R : Registers) (g : Supply) (d : BlockSelxns) : Prop :=
  d.temps ≤ g.temps ∧ (g.temps ≤ R.count → Cached R g.temps d.selxns)

theorem kept_gen0 {l : List Insn} {g : Supply} {d : BlockSelxns}
    (h : ∀ insn ∈ l, R.Selectable insn) (hk : Kept R g d) :
    Kept R (gen0 constant R.temp made g d l).1 (gen0 constant R.temp made g d l).2.1 := by
  refine ⟨(temps_genInsns R.temp l g d.selxns []).le, fun hn => ?_⟩
  have hle := (temps_genInsns_le R.temp l g d.selxns []).trans hn
  exact (@genInsns_lowers default R constant made l [] g d.selxns h (hk.2 hle) hn).lowers.cached

theorem kept_others {l : List Insn} {g : Supply} {d d' : BlockSelxns} (hk : Kept R g d') :
    Kept R (gen0 constant R.temp made g d l).1 d' := by
  have hle : g.temps ≤ (gen0 constant R.temp made g d l).1.temps :=
    temps_genInsns_le R.temp l g d.selxns []
  exact ⟨hk.1.trans hle, fun hn => (hk.2 (hle.trans hn)).mono hle⟩

theorem Sound.dup {c : Selxns} {regs : PseudoReg → Word} (h : Sound env R c regs) :
    Sound env R c.dup regs := fun e he => h e (Assoc.mem_dup.mp he)

/-- What the walk leaves behind. -/
theorem gen_walking (constant : TypeBits → Word → Symbol) (made : Selxns → Insn → Nat)
    (hf : ∀ b, ∀ insn ∈ (f.block b).insns, R.Selectable insn) :
    ∃ vis, Walking f ⟨.empty, [], 0⟩ inherit (gen0 constant R.temp made) (Kept R) vis
      (gen constant R.temp made f) := by
  refine walked_blocks (Kept R) ⟨le_rfl, fun _ => cached_empty⟩ rfl (fun g d hd => ?_)
    (fun b g d hd => kept_gen0 (hf b) hd) fun b g d d' _ hd' => kept_others hd'
  exact ⟨hd.1, fun hn => ⟨fun e he => (hd.2 hn).own e (Assoc.mem_dup.mp he),
    fun e he => (hd.2 hn).combined e (Assoc.mem_dup.mp he),
    fun e he => (hd.2 hn).known e (Assoc.mem_dup.mp he)⟩⟩

/-- The generated code of a block that was visited. -/
theorem gen_block (env : Env) {vis : List BlockId}
    (hf : ∀ b, ∀ insn ∈ (f.block b).insns, R.Selectable insn)
    (hn : (gen constant R.temp made f).shared.temps ≤ R.count)
    (hw : Walking f ⟨.empty, [], 0⟩ inherit (gen0 constant R.temp made) (Kept R) vis
      (gen constant R.temp made f)) (hb : b ∈ vis) :
    ∃ start, Starts f ⟨.empty, [], 0⟩ inherit (gen constant R.temp made f) (· ∈ vis) b start ∧
      ∃ g, LowersAll env R start.selxns [] (g, (gen constant R.temp made f).data b,
        ((gen constant R.temp made f).func.block b).insns) := by
  obtain ⟨g, start, hI, hstart, hdata, hinsns⟩ := hw.done b hb
  refine ⟨start, hstart, (gen0 constant R.temp made g start (f.block b).insns).1, ?_⟩
  have hle : (gen0 constant R.temp made g start (f.block b).insns).1.temps ≤ R.count := by
    refine le_trans ?_ ((hw.inv b).1.trans hn)
    rw [hdata]
    exact (temps_genInsns R.temp (f.block b).insns g start.selxns []).ge
  have hg : g.temps ≤ R.count := (temps_genInsns_le R.temp _ g start.selxns []).trans hle
  rw [hdata, hinsns]
  exact genInsns_lowers (hf b) (hI.2 hg) hle

/-- What a block starts from is right whenever control arrives there. -/
theorem Arrives.start {vis : List BlockId}
    (hf : ∀ b, ∀ insn ∈ (f.block b).insns, R.Selectable insn)
    (hn : (gen constant R.temp made f).shared.temps ≤ R.count)
    (hw : Walking f ⟨.empty, [], 0⟩ inherit (gen0 constant R.temp made) (Kept R) vis
      (gen constant R.temp made f))
    (h : Arrives env R (gen constant R.temp made f).func s₀ b s) :
    ∀ start, Starts f ⟨.empty, [], 0⟩ inherit (gen constant R.temp made f) (· ∈ vis) b start →
      Sound env R start.selxns s.regs := by
  induction h with
  | entry =>
    rintro start (⟨_, rfl⟩ | ⟨hne, _⟩)
    · exact sound_empty
    · exact absurd hw.graph.entry hne
  | @step b c s s' _ hrun hc ih =>
    rintro start (⟨_, rfl⟩ | ⟨-, p, hp, hsole, rfl⟩)
    · exact sound_empty
    · have hbc : c ∈ f.succs b := by
        rw [Func.succs, Block.succs, hw.graph.successors] at hc
        exact hc
      obtain rfl : p = b := Func.eq_of_solePredecessor hbc hsole
      obtain ⟨start, hstart, g, hall⟩ := gen_block env hf hn hw hp
      exact (hall.lowers.sound s s' (ih start hstart) hrun).dup

/-- An insn with an entry may be computed by an LEA of that: it makes no difference. -/
theorem executes_lea {n : Nat} {c : Selxns} {insn : Insn} {r : PseudoReg} {x : Operand}
    (hx : Entry env R n c insn r x) (hs : Sound env R c s.regs)
    (hheld : ∀ q, R.Held q → q ∉ insnDefsRegs insn → s₁.regs q = s.regs q)
    (hlea : Low (R.typeOf r) (s₁.regs r) (x.address env s.regs)) : Executes env R insn s s₁ := by
  refine ⟨hheld, fun ts q k hd _ => ?_⟩
  obtain ⟨ts', k', hd', hts⟩ := hx.dst
  cases hd.symm.trans hd'
  exact (hlea.trans (hx.value s hs).symm).of_sizeof hts.symm

end

/-- The cache is sound: whenever `materialize` is offered a register of the function, in the block
    that made its entry or in one that inherited it, and whatever the code of the insn at hand has
    done to registers of its own, the register holds what the entry stands for, up to its type. And
    `invalidate0` ends, and drops every entry that depends on the register. -/
theorem materialize_sound (constant : TypeBits → Word → Symbol) (R : Registers)
    (made : Selxns → Insn → Nat) (f : Func)
    (hf : ∀ b, ∀ insn ∈ (f.block b).insns, R.Selectable insn)
    (hn : (gen constant R.temp made f).shared.temps ≤ R.count) (env : Env) (s₀ : State) :
    (∀ b s, Arrives env R (gen constant R.temp made f).func s₀ b s →
      ∀ p ∈ ((gen constant R.temp made f).data b).points,
        p.1 <+: ((gen constant R.temp made f).func.block b).insns ∧
        ∀ s₁ s₂ : State, Runs env R p.1 s s₁ → (∀ r, R.Held r → s₂.regs r = s₁.regs r) →
          ∀ r ts age, R.own r → Low (R.typeOf r) (s₂.regs r)
            ((materialize p.2 (operandReg ts r age)).address env s₂.regs)) ∧
      ∀ st reg n, st.size < n → invalidate0 n reg st = some (invalidateReg st reg) ∧
        ∀ k, Depends st.selxns reg k → ∀ o, (k, o) ∉ (invalidateReg st reg).selxns := by
  obtain ⟨vis, hw⟩ := gen_walking constant made hf
  refine ⟨fun b s hb p hp => ?_, fun st reg n hn => ?_⟩
  · have hvis : b ∈ vis := by
      by_contra hvis
      rw [(hw.fresh b hvis).1] at hp
      cases hp
    obtain ⟨start, hstart, g, hall⟩ := gen_block env hf hn hw hvis
    obtain ⟨code, rest, hp₁, hcode, hcached, hsound⟩ := hall.points p hp
    rw [List.nil_append] at hp₁
    refine ⟨⟨rest, by rw [hp₁]; exact hcode.symm⟩, fun s₁ s₂ hrun heq r ts age hr => ?_⟩
    rw [hp₁] at hrun
    have hs := (hsound s s₁ (hb.start hf hn hw start hstart) hrun).congr hcached heq
    rcases materialize_cases p.2 (operandReg ts r age) with hm | ⟨-, hm⟩
    · rw [hm, address_operandReg, regWord, if_neg (R.own_ne r hr).1]
      exact Low.refl _ _
    · exact hs _ hm
  · obtain ⟨hsome, hinv⟩ := invalidate0_spec reg hn
    exact ⟨hsome, hinv.dependent⟩

/-- Sixteen registers of type long, and eight temporaries. -/
def longRegisters : Registers where
  own := fun r => 16 ≤ r.toNat ∧ r.toNat < 32
  typeOf := fun _ => .long
  temp := fun n => BitVec.ofNat 32 (32 + n)
  count := 8
  own_ne := by
    rintro r ⟨hlo, hhi⟩
    constructor <;> rintro rfl
    · exact absurd hhi (by decide)
    · exact absurd hlo (by decide)
  temp_ne := by decide
  temp_new := by decide
  temp_inj := by decide

/-- `&a[5]` for an array at the bottom of the frame: the index is shifted though it is constant. -/
def elementBlock : List Insn :=
  [insnNew .frame (some (Ncc.operandReg .long 16)) (some (operandI .long (-48) none)) none,
    insnNew .shl (some (Ncc.operandReg .long 17)) (some (operandI .long 5 none))
      (some (operandI .long 2 none)),
    insnNew .add (some (Ncc.operandReg .long 18)) (some (Ncc.operandReg .long 16))
      (some (Ncc.operandReg .long 17)),
    insnNew .load (some (Ncc.operandReg .long 19)) (some (Ncc.operandReg .long 18)) none]

theorem selectable_elementBlock (b : BlockId) :
    ∀ insn ∈ ((straight elementBlock).block b).insns, longRegisters.Selectable insn := by
  intro insn hi
  have hi : insn ∈ elementBlock := by
    by_cases hb : b = 0
    · simpa [straight, hb] using hi
    · simp [straight, hb] at hi
  have hreg : ∀ r : PseudoReg, 16 ≤ r.toNat ∧ r.toNat < 32 →
      longRegisters.Source .long (Ncc.operandReg .long r) := by
    intro r hr
    refine ⟨rfl, le_rfl, fun q hq => ?_⟩
    cases hq
    exact ⟨hr, le_rfl⟩
  have hcon : ∀ i : Word, longRegisters.Source .long (operandI .long i none) :=
    fun i => ⟨rfl, le_rfl, by rintro q ⟨⟩⟩
  simp only [elementBlock, List.mem_cons, List.not_mem_nil, or_false] at hi
  rcases hi with rfl | rfl | rfl | rfl
  · refine ⟨fun _ => ⟨.long, 16, 0, rfl, ⟨by decide, by decide⟩, rfl⟩, fun _ => rfl,
      fun _ _ o ho => ?_, ?_, fun _ => ⟨.long, -48, 0, rfl, by decide⟩⟩
    · cases ho
      exact hcon _
    · rintro (h | h) <;> cases h
  · refine ⟨fun _ => ⟨.long, 17, 0, rfl, ⟨by decide, by decide⟩, rfl⟩, fun _ => rfl,
      fun _ _ o ho => ?_, ?_, by rintro ⟨⟩⟩
    · cases ho
      exact hcon _
    · rintro (h | h) <;> cases h
  · refine ⟨fun _ => ⟨.long, 18, 0, rfl, ⟨by decide, by decide⟩, rfl⟩, fun _ => rfl,
      fun _ _ o ho => ?_, fun _ _ o ho => ?_, by rintro ⟨⟩⟩
    · cases ho
      exact hreg 16 (by decide)
    · cases ho
      exact hreg 17 (by decide)
  · refine ⟨by rintro ⟨⟩, ?_, by rintro ⟨⟩, ?_, by rintro ⟨⟩⟩
    · rintro (h | h) <;> cases h
    · rintro (h | h) <;> cases h

/-- The load's address is `-48(%rbp, %r32, 4)`, and that is right in every run. -/
theorem materialize_sound_element :
    ((((gen (fun _ _ => 0) longRegisters.temp (fun _ _ => 0) (straight elementBlock)).data
      0).points.getLast?).map fun p => materialize p.2 (operandReg .long 18 0)) =
        some { operandNew .eff .ulong 2 with reg := rbp, idx := 32, scale := 4, i := -48 } ∧
    ∀ p ∈ ((gen (fun _ _ => 0) longRegisters.temp (fun _ _ => 0) (straight elementBlock)).data
      0).points, ∀ s₁, Runs default longRegisters p.1 default s₁ →
        Low .long (s₁.regs 18)
          ((materialize p.2 (operandReg .long 18 0)).address default s₁.regs) := by
  refine ⟨by decide, fun p hp s₁ hrun => ?_⟩
  have h := (materialize_sound (fun _ _ => 0) longRegisters (fun _ _ => 0) (straight elementBlock)
    selectable_elementBlock (by decide) default default).1 0 default .entry p hp
  exact h.2 s₁ s₁ hrun (fun _ _ => rfl) 18 .long 0 ⟨by decide, by decide⟩

end Ncc.Amd64
