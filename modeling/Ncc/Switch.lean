import Ncc.Run

/-! Switch code generation (switch.c).

    A switch block hands over to generated blocks that compare the control with the bounds of the
    cases: in order when there are few of them, by binary search otherwise. The search assumes that
    the cases are sorted as unsigned 64-bit words, while the comparisons are made at the width of the
    control; `ult_normalized` is why the two agree. -/

namespace Ncc.Switch

section
variable (control : Operand) (dflt : BlockId)

/-- The comparison of the control with the bound of a case. -/
def cmpInsn (bound : Word) : Insn := insnNew .cmp none control (operandI control.ts bound none)

end

/-- The codes of the successors of a comparison block. -/
def splits : List (List ConditionCode) := [[.z, .nz], [.z, .b, .a], [.b, .ae], [.ae, .b], [.be, .a]]

section
variable (control : Operand) (B : Blocks) (last : BlockId)

/-- The block does nothing yet. -/
def Blank (x : Block) : Prop := x.core = ([], none, [])

/-- The block transfers control to another. -/
def Jumps (x : Block) (c : BlockId) : Prop := x.core = ([], none, [⟨.always, c, 0, 0⟩])

/-- The block compares the control with a bound. -/
def Compares (x : Block) (bound : Word) (succs : List Cessor) : Prop :=
  x.core = ([cmpInsn control bound], none, succs) ∧ succs.map Cessor.cc ∈ splits

/-- A generated block. -/
def Generated (x : Block) : Prop := (∃ c, Jumps x c) ∨ ∃ bound succs, Compares control x bound succs

/-- The blocks after `last` send the word `u` from one block to another. -/
inductive Sends (u : Word) : BlockId → BlockId → Prop
  | leave {t : BlockId} : t ≤ last → Sends u t t
  | jump {b c t : BlockId} : last < b → Jumps (B b) c → Sends u c t → Sends u b t
  | test {b t : BlockId} {bound : Word} {succs : List Cessor} {c : Cessor} :
      last < b → Compares control (B b) bound succs → conNormalize control.ts bound = bound →
      c ∈ succs → cmpHolds u bound c.cc = true → Sends u c.b t → Sends u b t

end

section
variable {n : Nat} {x y : BitVec n}

end

/-- Exactly one of the codes that split the successors of a block holds. -/
theorem countP_split {n : Nat} {codes : List ConditionCode} (h : codes ∈ splits)
    (x y : BitVec n) : codes.countP (cmpHolds x y) = 1 := by
  simp only [splits, List.mem_cons, List.not_mem_nil, or_false] at h
  rcases lt_trichotomy x.toNat y.toNat with hlt | he | hgt
  · have hne : x ≠ y := fun he => hlt.ne (congrArg _ he)
    have hge := hlt.le
    rcases h with rfl | rfl | rfl | rfl | rfl <;>
      simp [List.countP_cons, cmpHolds, BitVec.ult, hne, hlt, hge]
  · obtain rfl := BitVec.eq_of_toNat_eq he
    rcases h with rfl | rfl | rfl | rfl | rfl <;> simp [cmpHolds, BitVec.ult]
  · have hne : x ≠ y := fun he => hgt.ne' (congrArg _ he)
    have hge := hgt.le
    rcases h with rfl | rfl | rfl | rfl | rfl <;>
      simp [List.countP_cons, cmpHolds, BitVec.ult, hne, hgt, hge]

/-- A code that a comparison block tests comes out as on 64-bit words. -/
theorem cmpHolds_normalized {ts : TypeBits} (hts : ts.integral = true) {u v : Word}
    (hu : conNormalize ts u = u) (hv : conNormalize ts v = v) {codes : List ConditionCode}
    (h : codes ∈ splits) {cc : ConditionCode} (hcc : cc ∈ codes) :
    cmpHolds (u.setWidth (8 * ts.sizeof)) (v.setWidth (8 * ts.sizeof)) cc = cmpHolds u v cc := by
  have hlt : ∀ {a b : Word}, conNormalize ts a = a → conNormalize ts b = b →
      (a.setWidth (8 * ts.sizeof)).ult (b.setWidth (8 * ts.sizeof)) = a.ult b := by
    intro a b ha hb
    rw [BitVec.ult_eq_decide, BitVec.ult_eq_decide, decide_eq_decide]
    exact ult_normalized hts ha hb
  have heq : (u.setWidth (8 * ts.sizeof) == v.setWidth (8 * ts.sizeof)) = (u == v) := by
    have huv := ult_normalized hts hu hv
    have hvu := ult_normalized hts hv hu
    rw [beq_eq_decide, beq_eq_decide, decide_eq_decide]
    simp only [BitVec.lt_def, BitVec.toNat_eq] at *
    omega
  have hsplits : ∀ codes ∈ splits, ∀ cc ∈ codes,
      cc ∈ [ConditionCode.z, .nz, .b, .a, .ae, .be] := by decide
  have hcc' := hsplits codes h cc hcc
  simp only [List.mem_cons, List.not_mem_nil, or_false] at hcc'
  rcases hcc' with rfl | rfl | rfl | rfl | rfl | rfl <;>
    simp only [cmpHolds, heq, bne, hlt hu hv, hlt hv hu]

section
variable {control : Operand} {B : Blocks} {last : BlockId} {u : Word}

/-- Comparison blocks that are kept send words as before. -/
theorem Sends.mono {B' : Blocks} (hkeep : ∀ b, last < b → Generated control (B b) →
    (B' b).core = (B b).core) {b t : BlockId} (h : Sends control B last u b t) :
    Sends control B' last u b t := by
  induction h with
  | leave ht => exact .leave ht
  | jump hb hj _ ih => exact .jump hb ((hkeep _ hb (.inl ⟨_, hj⟩)).trans hj) ih
  | test hb hc hv hm hh _ ih =>
    exact .test hb ⟨(hkeep _ hb (.inr ⟨_, _, hc⟩)).trans hc.1, hc.2⟩ hv hm hh ih

/-- Where a word ends up does not depend on which of the blocks passed through are the last. -/
theorem Sends.of_le {last' : BlockId} (hle : last' ≤ last) {b t : BlockId}
    (h : Sends control B last u b t) (ht : t ≤ last') : Sends control B last' u b t := by
  induction h with
  | leave _ => exact .leave ht
  | jump hb hj _ ih => exact .jump (lt_of_le_of_lt hle hb) hj (ih ht)
  | test hb hc hv hm hh _ ih => exact .test (lt_of_le_of_lt hle hb) hc hv hm hh (ih ht)

end

/-! ### Comparison blocks on the machine -/

section
variable {env : Env} {control : Operand} {x : Block} {bound : Word} {succs : List Cessor}

/-- The successor is linked by a code that holds. -/
def taken (s : State) (c : Cessor) : Bool := decide (c.cc = .always) || decide (c.cc ∈ s.ccs)

/-- The successors of the block are mutually exclusive and exhaustive: whenever it is executed, the
    code of exactly one of them holds. -/
def Exclusive (env : Env) (x : Block) : Prop :=
  x.control = none ∧ ∀ s, x.successors.countP (taken (execs env x.insns s)) = 1

theorem read_operandI {ts : TypeBits} (hts : ts.integral = true) (bound : Word)
    (regs : PseudoReg → Word) : (operandI ts bound none).read env regs = conNormalize ts bound := by
  cases ts <;> first | exact absurd hts (by decide) | simp [Operand.read, operandI, symWord]

theorem normalize_read (hts : control.ts.integral = true) (regs : PseudoReg → Word) :
    conNormalize control.ts (control.read env regs) = control.read env regs := by
  rw [← fit_of_integral hts]
  exact fit_readOpt env regs (some control)

theorem Compares.execs_eq (hts : control.ts.integral = true) (h : Compares control x bound succs)
    (s : State) : execs env x.insns s = { s with
      ccs := cmpCodes env control.ts (control.read env s.regs) (conNormalize control.ts bound) } := by
  have hi : x.insns = [cmpInsn control bound] := congrArg Prod.fst h.1
  rw [hi, execs_cons, execs_nil, ← read_operandI hts bound s.regs]
  rfl

/-- On a comparison block, the code of a successor holds as it does for the words compared. -/
theorem Compares.taken_iff (hts : control.ts.integral = true) (h : Compares control x bound succs)
    (s : State) {c : Cessor} (hc : c ∈ succs) : taken (execs env x.insns s) c =
      cmpHolds ((control.read env s.regs).setWidth (8 * control.ts.sizeof))
        ((conNormalize control.ts bound).setWidth (8 * control.ts.sizeof)) c.cc := by
  have hne : c.cc ≠ .always := by
    have hsplits : ∀ codes ∈ splits, ∀ cc ∈ codes, cc ≠ .always := by decide
    exact hsplits _ h.2 _ (List.mem_map_of_mem hc)
  have hfl : control.ts.floating = false := by
    rw [TypeBits.integral] at hts; simpa using hts
  rw [h.execs_eq hts, taken]
  simp [hne, cmpCodes, hfl]

theorem Compares.exclusive (hts : control.ts.integral = true) (h : Compares control x bound succs) :
    Exclusive env x := by
  have hs : x.successors = succs := congrArg (fun p => p.2.2) h.1
  refine ⟨congrArg (fun p => p.2.1) h.1, fun s => ?_⟩
  rw [hs, ← countP_split h.2 ((control.read env s.regs).setWidth (8 * control.ts.sizeof))
    ((conNormalize control.ts bound).setWidth (8 * control.ts.sizeof)), List.countP_map]
  refine List.countP_congr fun c hc => ?_
  rw [h.taken_iff hts s hc]
  rfl

theorem Jumps.exclusive {c : BlockId} (h : Jumps x c) : Exclusive env x := by
  simp only [Jumps, Block.core, Prod.mk.injEq] at h
  refine ⟨h.2.1, fun s => ?_⟩
  rw [h.2.2]
  simp [taken]

theorem Generated.exclusive (hts : control.ts.integral = true) (h : Generated control x) :
    Exclusive env x := by
  rcases h with ⟨_, h⟩ | ⟨_, _, h⟩
  · exact h.exclusive
  · exact h.exclusive hts

/-- Where exactly one successor's code holds, control goes there. -/
theorem Exclusive.branch_eq (h : Exclusive env x) {s : State} {c : Cessor} (hc : c ∈ x.successors)
    (ht : taken (execs env x.insns s) c = true) : flow env x s = some c.b := by
  have hone := h.2 s
  rw [List.countP_eq_length_filter, List.length_eq_one_iff] at hone
  obtain ⟨d, hd⟩ := hone
  have hcd : c ∈ x.successors.filter (taken (execs env x.insns s)) := List.mem_filter.mpr ⟨hc, ht⟩
  rw [hd, List.mem_singleton] at hcd
  have hfind : x.successors.find? (taken (execs env x.insns s)) = some c := by
    rw [← List.head?_filter, hd, hcd]; rfl
  rw [flow, branch, h.1]
  exact congrArg (Option.map Cessor.b) hfind

/-- The comparison blocks take the machine where they send the value of the control. -/
theorem Sends.leads {f : Func} {last : BlockId} (hts : control.ts.integral = true) {u : Word}
    {b t : BlockId} (h : Sends control f.block last u b t) {s : State}
    (hu : control.read env s.regs = u) :
    ∃ ccs, Leads env f (last < ·) b s t { s with ccs := ccs } := by
  induction h generalizing s with
  | leave ht => exact ⟨s.ccs, .leave (not_lt_of_ge ht)⟩
  | @jump b c t hb hj _ ih =>
    obtain ⟨ccs, hl⟩ := ih hu
    have hi : (f.block b).insns = [] := congrArg Prod.fst hj
    have hs : (f.block b).successors = [⟨.always, c, 0, 0⟩] := congrArg (fun p => p.2.2) hj
    refine ⟨ccs, .step hb (hj.exclusive.branch_eq (hs ▸ List.mem_singleton_self _) rfl) ?_⟩
    rw [hi]
    exact hl
  | @test b t bound succs c hb hc hv hm hh _ ih =>
    have hs : (f.block b).successors = succs := congrArg (fun p => p.2.2) hc.1
    have he : execs env (f.block b).insns s = _ := hc.execs_eq hts s
    obtain ⟨ccs, hl⟩ := @ih (execs env (f.block b).insns s) (by rw [he]; exact hu)
    have htaken : taken (execs env (f.block b).insns s) c = true := by
      rw [hc.taken_iff hts s hm, hv, hu, ← hh]
      exact cmpHolds_normalized hts (hu ▸ normalize_read hts s.regs) hv hc.2
        (List.mem_map_of_mem hm)
    refine ⟨ccs, .step hb ((hc.exclusive hts).branch_eq (hs ▸ hm) htaken) ?_⟩
    rw [he] at hl ⊢
    exact hl

end

/-! ### The cases -/

/-- The bounds of the case are normalized to a type. -/
def Normalized (ts : TypeBits) (c : Cessor) : Prop :=
  conNormalize ts c.min = c.min ∧ conNormalize ts c.max = c.max

/-- The cases of a switch block on a control of type `ts`. -/
structure Ranges (ts : TypeBits) (cases : List Cessor) : Prop where
  range : ∀ c ∈ cases, c.min ≤ c.max
  sorted : cases.Pairwise fun c d => c.min ≤ d.min
  disjoint : cases.Pairwise fun c d => ∀ u, ¬ (c.min ≤ u ∧ u ≤ c.max ∧ d.min ≤ u ∧ u ≤ d.max)
  normalized : ∀ c ∈ cases, Normalized ts c

/-- Does the range of the case hold the word? -/
def holds (u : Word) (c : Cessor) : Bool := decide (c.min ≤ u) && decide (u ≤ c.max)

/-- The block that a switch with these cases goes to. -/
def lookup (dflt : BlockId) (cases : List Cessor) (u : Word) : BlockId :=
  ((cases.find? (holds u)).map Cessor.b).getD dflt

theorem switchLookup_eq {x : Block} {dflt : Cessor} {cases : List Cessor}
    (h : x.successors = dflt :: cases) (u : Word) :
    blockSwitchLookup x u = some (lookup dflt.b cases u) := by
  have hf : cases.find? (fun c => decide (c.min ≤ u) && decide (u ≤ c.max)) =
      cases.find? (holds u) := rfl
  rw [blockSwitchLookup, h]
  simp only [hf, lookup]
  cases cases.find? (holds u) <;> rfl

/-- The side of a case that a word is on. -/
def side (c : Cessor) (below above : BlockId) (u : Word) : BlockId :=
  if u < c.min then below else if c.max < u then above else c.b

namespace Ranges
variable {ts : TypeBits} {l r : List Cessor} {c : Cessor}

theorem sublist (h : Ranges ts r) (hl : l.Sublist r) : Ranges ts l :=
  ⟨fun c hc => h.range c (hl.subset hc), h.sorted.sublist hl, h.disjoint.sublist hl,
    fun c hc => h.normalized c (hl.subset hc)⟩

end Ranges

/-! ### Generation -/

/-- In the middle of generation: `todo` are the new blocks that are still blank, all other new ones
    are complete, and no old one has changed. -/
structure Stage (control : Operand) (f₀ : Func) (todo : List BlockId) (f : Func) : Prop where
  le : f₀.lastLabel ≤ f.lastLabel
  nodup : todo.Nodup
  old : ∀ x ≤ f₀.lastLabel, (f.block x).core = (f₀.block x).core
  blank : ∀ x ∈ todo, f₀.lastLabel < x ∧ x ≤ f.lastLabel ∧ Blank (f.block x)
  done : ∀ x, f₀.lastLabel < x → x ≤ f.lastLabel → x ∉ todo → Generated control (f.block x)
  fresh : ∀ x, f.lastLabel < x → Blank (f.block x)
  blocks : ∃ l, f.blocks = f₀.blocks ++ l ∧ ∀ x ∈ l, f₀.lastLabel < x ∧ x ≤ f.lastLabel

/-- What was generated in `f` is in `f'` too. -/
def Keeps (control : Operand) (last : BlockId) (f f' : Func) : Prop :=
  ∀ x, last < x → Generated control (f.block x) → (f'.block x).core = (f.block x).core

section
variable {control : Operand} {f₀ f f' : Func} {todo : List BlockId}

theorem Blank.not_generated {x : Block} (h : Blank x) : ¬ Generated control x := by
  rintro (⟨c, hj⟩ | ⟨bound, succs, hc, _⟩)
  · exact absurd (h.symm.trans hj) (by simp)
  · exact absurd (h.symm.trans hc) (by simp)

theorem Generated.congr {x y : Block} (h : y.core = x.core) (hx : Generated control x) :
    Generated control y :=
  hx.imp (fun ⟨c, hj⟩ => ⟨c, h.trans hj⟩) fun ⟨v, cs, hc, hs⟩ => ⟨v, cs, h.trans hc, hs⟩

theorem Keeps.trans {last : BlockId} {f'' : Func} (h : Keeps control last f f')
    (h' : Keeps control last f' f'') : Keeps control last f f'' := fun x hx hg =>
  (h' x hx (hg.congr (h x hx hg))).trans (h x hx hg)

theorem Stage.new (h : Stage control f₀ todo f) :
    Stage control f₀ ((f.lastLabel + 1) :: todo) (blockNew f).2 := by
  have hne : f.lastLabel + 1 ∉ todo := fun hm => absurd (h.blank _ hm).2.1 (Nat.not_succ_le_self _)
  obtain ⟨l, hl, hlt⟩ := h.blocks
  refine ⟨Nat.le_succ_of_le h.le, List.nodup_cons.mpr ⟨hne, h.nodup⟩, h.old, ?_, ?_, ?_,
    l ++ [f.lastLabel + 1], ?_, ?_⟩
  · intro x hx
    rcases List.mem_cons.mp hx with rfl | hx
    · exact ⟨Nat.lt_succ_of_le h.le, le_refl _, h.fresh _ (Nat.lt_succ_self _)⟩
    · obtain ⟨hlt, hle, hb⟩ := h.blank x hx
      exact ⟨hlt, Nat.le_succ_of_le hle, hb⟩
  · intro x hlt hle hx
    obtain ⟨hne, hx⟩ := not_or.mp (mt List.mem_cons.mpr hx)
    exact h.done x hlt (Nat.le_of_lt_succ (lt_of_le_of_ne hle hne)) hx
  · exact fun x hx => h.fresh x (Nat.lt_of_succ_lt hx)
  · simp only [blockNew, hl, List.append_assoc]
  · intro x hx
    rcases List.mem_append.mp hx with hx | hx
    · exact (hlt x hx).imp_right Nat.le_succ_of_le
    · obtain rfl := List.mem_singleton.mp hx
      exact ⟨Nat.lt_succ_of_le h.le, le_refl _⟩

/-- Blocks are completed. -/
theorem Stage.finish (now : List BlockId) (h : Stage control f₀ (now ++ todo) f)
    (hsame : ∀ x, x ∉ now → (f'.block x).core = (f.block x).core)
    (hgen : ∀ x ∈ now, Generated control (f'.block x)) (hlast : f'.lastLabel = f.lastLabel)
    (hblocks : f'.blocks = f.blocks) :
    Stage control f₀ todo f' ∧ Keeps control f₀.lastLabel f f' := by
  have hnew : ∀ x ∈ now, f₀.lastLabel < x ∧ x ≤ f.lastLabel ∧ Blank (f.block x) :=
    fun x hx => h.blank x (List.mem_append_left _ hx)
  obtain ⟨_, hnodup, hdisj⟩ := List.nodup_append.mp h.nodup
  refine ⟨⟨hlast ▸ h.le, hnodup, ?_, ?_, ?_, ?_, ?_⟩, ?_⟩
  · intro x hx
    rw [hsame x fun hm => absurd (hnew x hm).1 (not_lt_of_ge hx)]
    exact h.old x hx
  · intro x hx
    obtain ⟨hlt, hle, hb⟩ := h.blank x (List.mem_append_right _ hx)
    exact ⟨hlt, hlast ▸ hle, (hsame x fun hm => hdisj x hm x hx rfl).trans hb⟩
  · intro x hlt hle hx
    by_cases hm : x ∈ now
    · exact hgen x hm
    · refine (h.done x hlt (hlast ▸ hle) ?_).congr (hsame x hm)
      rw [List.mem_append]
      exact not_or.mpr ⟨hm, hx⟩
  · intro x hx
    have hm : x ∉ now := fun hm => absurd (hnew x hm).2.1 (not_le_of_gt (hlast ▸ hx))
    exact (hsame x hm).trans (h.fresh x (hlast ▸ hx))
  · rw [hblocks, hlast]
    exact h.blocks
  · exact fun x _ hg => hsame x fun hm => (hnew x hm).2.2.not_generated hg

variable {last cur below above : BlockId} {c : Cessor} {succs : List Cessor}

section
variable {cc₁ cc₂ : ConditionCode} {s₁ s₂ : BlockId} {bound : Word}

end

theorem Stage.perm {todo' : List BlockId} (h : Stage control f₀ todo f) (hp : todo.Perm todo') :
    Stage control f₀ todo' f :=
  ⟨h.le, hp.nodup_iff.mp h.nodup, h.old, fun x hx => h.blank x (hp.mem_iff.mpr hx),
    fun x hlt hle hx => h.done x hlt hle (mt hp.mem_iff.mp hx), h.fresh, h.blocks⟩

/-- A search for the case of the control starts at `cur`. -/
def Searches (control : Operand) (last : BlockId) (f : Func) (cur dflt : BlockId)
    (cases : List Cessor) : Prop :=
  dflt ≤ last → Ranges control.ts cases → (∀ c ∈ cases, c.b ≤ last) →
    ∀ u, Sends control f.block last u cur (lookup dflt cases u)

end

/-! ### The loop over the switch blocks -/

section
variable {control : Operand} {f f' : Func} {b : BlockId}

theorem Generated.control_none {x : Block} (h : Generated control x) : x.control = none := by
  rcases h with ⟨_, h⟩ | ⟨_, _, h, _⟩
  · exact congrArg (fun p => p.2.1) h
  · exact congrArg (fun p => p.2.1) h

theorem Blank.control_none {x : Block} (h : Blank x) : x.control = none :=
  congrArg (fun p => p.2.1) h

/-- What `switch0` leaves behind when it replaces the switch in `b`. -/
structure Lowered (f f' : Func) (b : BlockId) (control : Operand) (dflt : BlockId)
    (cases : List Cessor) : Prop where
  le : f.lastLabel ≤ f'.lastLabel
  other : ∀ x ≤ f.lastLabel, x ≠ b → (f'.block x).core = (f.block x).core
  block : (f'.block b).core =
    ((f.block b).insns, none, [⟨.always, f.lastLabel + 1, 0, 0⟩])
  made : ∀ x, f.lastLabel < x → x ≤ f'.lastLabel → Generated control (f'.block x)
  fresh : ∀ x, f'.lastLabel < x → Blank (f'.block x)
  blocks : ∃ l, f'.blocks = f.blocks ++ l ∧ ∀ x ∈ l, f.lastLabel < x ∧ x ≤ f'.lastLabel
  searches : Searches control f.lastLabel f' (f.lastLabel + 1) dflt cases

theorem le_of_control (hfresh : ∀ x, f.lastLabel < x → Blank (f.block x))
    (hc : (f.block b).control = some control) : b ≤ f.lastLabel := by
  by_contra hlt
  rw [(hfresh b (Nat.lt_of_not_le hlt)).control_none] at hc
  exact Option.some_ne_none _ hc.symm

/-- What the loop leaves behind. -/
structure Lowerings (f f' : Func) : Prop where
  le : f.lastLabel ≤ f'.lastLabel
  other : ∀ x ≤ f.lastLabel, (f.block x).control = none → (f'.block x).core = (f.block x).core
  made : ∀ x, f.lastLabel < x → x ≤ f'.lastLabel →
    ∃ b control, (f.block b).control = some control ∧ Generated control (f'.block x)
  switch : ∀ b ∈ f.blocks, ∀ control dflt cases, (f.block b).control = some control →
    (f.block b).successors = dflt :: cases → ∃ new,
      (f'.block b).core = ((f.block b).insns, none, [⟨.always, new, 0, 0⟩]) ∧
      Searches control f.lastLabel f' new dflt.b cases

theorem lookup_le {dflt last : BlockId} {cases : List Cessor} (hd : dflt ≤ last)
    (hc : ∀ c ∈ cases, c.b ≤ last) (u : Word) : lookup dflt cases u ≤ last := by
  rw [lookup]
  cases hf : cases.find? (holds u) with
  | none => exact hd
  | some c => exact hc c (List.mem_of_find?_eq_some hf)

/-- One more switch block is lowered. -/
theorem Lowered.trans {f₁ : Func} {control : Operand} {dflt : Cessor} {cases : List Cessor}
    (h : Lowered f f₁ b control dflt.b cases) (h' : Lowerings f₁ f')
    (hc : (f.block b).control = some control) (hs : (f.block b).successors = dflt :: cases)
    (hfresh : ∀ x, f.lastLabel < x → Blank (f.block x)) : Lowerings f f' := by
  have hb := le_of_control hfresh hc
  obtain ⟨l, hl, _⟩ := h.blocks
  have hkeep : Keeps control f.lastLabel f₁ f' := by
    intro x _ hg
    by_cases hle : x ≤ f₁.lastLabel
    · exact h'.other x hle hg.control_none
    · exact absurd hg (h.fresh x (Nat.lt_of_not_le hle)).not_generated
  have hb₁ : (f₁.block b).control = none := congrArg (fun p => p.2.1) h.block
  refine ⟨h.le.trans h'.le, ?_, ?_, ?_⟩
  · intro x hx hn
    have hxb : x ≠ b := by rintro rfl; exact absurd (hn.symm.trans hc) (by simp)
    have hsame := h.other x hx hxb
    have hn₁ : (f₁.block x).control = none := (congrArg (fun p => p.2.1) hsame).trans hn
    exact (h'.other x (hx.trans h.le) hn₁).trans hsame
  · intro x hlt hle
    by_cases hx : x ≤ f₁.lastLabel
    · have hg := h.made x hlt hx
      exact ⟨b, control, hc, hg.congr (hkeep x hlt hg)⟩
    · obtain ⟨b', control', hc', hg⟩ := h'.made x (Nat.lt_of_not_le hx) hle
      have hle' : b' ≤ f.lastLabel := by
        by_contra hlt'
        have hn := (h.made b' (Nat.lt_of_not_le hlt') (le_of_control h.fresh hc')).control_none
        exact absurd (hn.symm.trans hc') (by simp)
      have hne : b' ≠ b := by rintro rfl; exact absurd (hb₁.symm.trans hc') (by simp)
      have hsame : (f₁.block b').control = (f.block b').control :=
        congrArg (fun p => p.2.1) (h.other b' hle' hne)
      exact ⟨b', control', hsame.symm.trans hc', hg⟩
  · intro b' hb' control' dflt' cases' hc' hs'
    by_cases he : b' = b
    · subst he
      obtain rfl := Option.some.inj (hc'.symm.trans hc)
      obtain ⟨rfl, rfl⟩ := List.cons.inj (hs'.symm.trans hs)
      exact ⟨_, (h'.other b' (hb.trans h.le) hb₁).trans h.block,
        fun hd hr ht u => (h.searches hd hr ht u).mono hkeep⟩
    · have hsame := h.other b' (le_of_control hfresh hc') he
      simp only [Block.core, Prod.mk.injEq] at hsame
      obtain ⟨new, hcore, hsearch⟩ := h'.switch b' (hl ▸ List.mem_append_left l hb') control' dflt'
        cases' (hsame.2.1.trans hc') (hsame.2.2.trans hs')
      refine ⟨new, hsame.1 ▸ hcore, fun hd hr ht u => ?_⟩
      exact (hsearch (hd.trans h.le) hr (fun c hc => (ht c hc).trans h.le) u).of_le h.le
        (lookup_le hd ht u)

end

/-- `switch (x) { case 3: ... case 5: ... default: ... }` -/
def caseFunc : Func :=
  let f : Func := ⟨0, 4, [0, 1, 2, 3, 4], fun _ => {}, 4, Blocks.linked_empty⟩
  let f := blockAddSuccessor f 0 .default 1
  let f := blockAddSuccessor f 0 .switch 2 3 3
  let f := blockAddSuccessor f 0 .switch 3 5 5
  f.setControl 0 (some (operandReg .int 1))

end Ncc.Switch
