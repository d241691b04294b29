import Ncc.Ebb

/-! Value numbering (slvn.c).

    The pass associates registers with insns: two registers that point at the same insn have the
    same value, whose number is recorded in the dst of that insn. An insn that repeats an insn of
    the table becomes a move from the register that insn was computed into. Other registers may
    point at the insn too, so it can be found when that register holds something else by now;
    and the registers that inline assembly writes keep pointing at what they held before it.
    `slvn_sound` says what the steps of the pass must avoid. -/

namespace Ncc.Slvn

/-- `struct lvns`. -/
abbrev Lvns := Assoc PseudoReg Insn

/-- The value number of an operand, VALUE_NUMBER_NONE (0) if it has none. -/
def operandNumber : Option Operand → ValueNumber
  | some o => o.number
  | none => 0

/-- The value number of an operand that is a register. -/
def regNumber : Option Operand → ValueNumber
  | some ⟨_, .reg _, n⟩ => n
  | _ => 0

/-- The value number recorded in the dst of an insn. -/
def dstNumber (insn : Insn) : ValueNumber := operandNumber insn.dst

/-- If the operand is a register, determine its value number, or allocate a new one. `last` is
    `last_value_number`. -/
def assign (last : ValueNumber) (lvns : Lvns) (o : Option Operand) :
    ValueNumber × Lvns × Option Operand :=
  match o with
  | some ⟨ts, .reg r, _⟩ =>
    match lvns.lookup r with
    | some insn => (last, lvns, some ⟨ts, .reg r, dstNumber insn⟩)
    | none =>
      (last + 1, lvns.update r (insnNew .number (some ⟨ts, .reg r, last + 1⟩)),
        some ⟨ts, .reg r, last + 1⟩)
  | o => (last, lvns, o)

/-- MATCH_OPERAND. -/
def matchOperand : Option Operand → Option Operand → Bool
  | none, none => true
  | some ⟨ts₁, .reg _, n₁⟩, some ⟨ts₂, .reg _, n₂⟩ => n₁ == n₂ && ts₁ == ts₂
  | some ⟨ts₁, .con c₁ s₁, n₁⟩, some ⟨ts₂, .con c₂ s₂, n₂⟩ =>
    operandIsSame (some ⟨ts₁, .con c₁ s₁, n₁⟩) (some ⟨ts₂, .con c₂ s₂, n₂⟩)
  | _, _ => false

/-- Does `insn` compute what the insn of an entry computed? -/
def repeats (insn entry : Insn) : Bool :=
  entry.op == insn.op && tsOpt entry.dst == tsOpt insn.dst && matchOperand entry.src1 insn.src1 &&
    matchOperand entry.src2 insn.src2

/-- `match`: the first entry with a matching expression. -/
def lvnsMatch (lvns : Lvns) (insn : Insn) : Option Insn :=
  (lvns.entries.find? fun e => repeats insn e.2).map Prod.snd

/-- Remove every entry that references an I_LOAD. -/
def lvnsInvalidateMem (lvns : Lvns) : Lvns := lvns.filter fun e => e.2.op != .load

/-- Is the insn subject to value numbering? -/
def numberable (insn : Insn) : Bool := insn.op.slvn && !insn.isVolatile

/-- Number both sources of an insn. -/
def assignSrcs (last : ValueNumber) (lvns : Lvns) (insn : Insn) : ValueNumber × Lvns × Insn :=
  let (last, lvns, src1) := assign last lvns insn.src1
  let (last, lvns, src2) := assign last lvns insn.src2
  (last, lvns, { insn with src1 := src1, src2 := src2 })

/-- The registers that an insn not subject to value numbering purges from the table. -/
def purge (lvns : Lvns) (insn : Insn) : Lvns :=
  let lvns :=
    match insn.dst with
    | some ⟨_, .reg r, _⟩ => if insn.op.useDst then lvns else lvns.unset r
    | _ => lvns
  if insnDefsMem insn then lvnsInvalidateMem lvns else lvns

/-- One turn of the loop in `slvn0`. -/
def slvnInsn (last : ValueNumber) (lvns : Lvns) (insn : Insn) : ValueNumber × Lvns × Insn :=
  match numberable insn, insn.dst with
  | true, some ⟨ts, .reg r, _⟩ =>
    let (last, lvns, insn) := assignSrcs last lvns insn
    match lvnsMatch lvns insn with
    | some m => (last, lvns.update r m, insnNew .move (some ⟨ts, .reg r, dstNumber m⟩) m.dst)
    | none =>
      let insn := { insn with dst := some ⟨ts, .reg r, last + 1⟩ }
      (last + 1, lvns.update r insn, insn)
  | _, _ => (last, purge lvns insn, insn)

/-- The loop in `slvn0`. -/
def slvnInsns (last : ValueNumber) (lvns : Lvns) : List Insn → ValueNumber × Lvns × List Insn
  | [] => (last, lvns, [])
  | insn :: insns =>
    let x := slvnInsn last lvns insn
    let rest := slvnInsns x.1 x.2.1 insns
    (rest.1, rest.2.1, x.2.2 :: rest.2.2)

/-- `slvn0`: a block starts with a copy of the table its sole predecessor left. -/
def slvn0 : BlockId → EbbState ValueNumber Lvns → EbbState ValueNumber Lvns :=
  ebb0 Assoc.dup slvnInsns

/-- The function after `slvn`. -/
def slvn (f : Func) : Func :=
  (blocksWalk f slvn0 (fun _ x => x) ⟨0, fun _ => .empty, f⟩).func

/-! ### What the steps must avoid -/

/-- The table mentions no value number above `last`, and an insn of it has a register to move its
    value from. -/
def Bounded (last : ValueNumber) (lvns : Lvns) : Prop :=
  ∀ e ∈ lvns, (∃ ts r n, e.2.dst = some ⟨ts, .reg r, n⟩) ∧ dstNumber e.2 ≤ last ∧
    regNumber e.2.src1 ≤ last ∧ regNumber e.2.src2 ≤ last

/-- The tables the pass builds along the insns of an extended basic block. -/
inductive Built : List Insn → Lvns → Prop
  | start : Built [] .empty
  | dup {trace : List Insn} {lvns : Lvns} : Built trace lvns → Built trace lvns.dup
  | insn {trace : List Insn} {lvns : Lvns} {last : ValueNumber} (i : Insn) :
      Built trace lvns → Bounded last lvns → Built (trace ++ [i]) (slvnInsn last lvns i).2.1

/-- Constant operands have the same bits. -/
def SameCon (o₁ o₂ : Option Operand) : Prop :=
  operandCon o₁ = true → o₁.map Operand.val = o₂.map Operand.val

/-- The insn that `insn` repeats, if it is numbered and repeats one. -/
def repeated (last : ValueNumber) (lvns : Lvns) (insn : Insn) : Option Insn :=
  if numberable insn then
    lvnsMatch (assignSrcs last lvns insn).2.1 (assignSrcs last lvns insn).2.2
  else none

/-- A step that does not go wrong: when an insn repeats another, the register that one was computed
    into still points at it, and no constant of the two is a zero of another sign; and inline
    assembly writes no register of the table. -/
structure Harmless (last : ValueNumber) (lvns : Lvns) (insn : Insn) : Prop where
  current : ∀ m, repeated last lvns insn = some m → ∀ r ∈ operandRegs m.dst, lvns.lookup r = some m
  constants : ∀ m, repeated last lvns insn = some m →
    SameCon m.src1 insn.src1 ∧ SameCon m.src2 insn.src2
  asm : insn.op = .asm → ∀ r ∈ insn.iasm.defs, lvns.lookup r = none

/-- Along a block that is executed after executing `trace`, all steps are harmless. -/
def AllHarmless (trace insns : List Insn) : Prop :=
  ∀ l₁ i l₂, insns = l₁ ++ i :: l₂ → ∀ last lvns, Built (trace ++ l₁) lvns → Bounded last lvns →
    Harmless last lvns i

section
variable (env : Env)

/-- The value of the expression an insn computes, at the type of its dst. -/
def computed (s : State) (i : Insn) : Word :=
  fit (tsOpt i.dst) (exprValue env i.op (tsOpt i.dst) (tsOpt i.src1) (readOpt env s.regs i.src1)
    (readOpt env s.regs i.src2) s.mem)

/-- An operand without its number. -/
def unnumbered (o : Option Operand) : Option Operand := o.map fun o => { o with number := 0 }

/-- The insns are the same but for value numbers. -/
def SameInsn (i i' : Insn) : Prop :=
  i'.op = i.op ∧ unnumbered i'.dst = unnumbered i.dst ∧ unnumbered i'.src1 = unnumbered i.src1 ∧
    unnumbered i'.src2 = unnumbered i.src2 ∧ i'.isVolatile = i.isVolatile ∧ i'.iasm = i.iasm

/-- What value numbering promises of an insn and its replacement: the effect is the same, and an insn
    that was replaced is a move from a register that holds the value of its expression. -/
def Numbered (s : State) (i i' : Insn) : Prop :=
  SameEffect env s i i' ∧ (SameInsn i i' ∨ ∃ d v, i' = insnNew .move d v ∧
    unnumbered d = unnumbered i.dst ∧ readOpt env s.regs v = computed env s i)

end

/-! ### Value numbers stand for values -/

section
variable {env : Env} {ν ν' : ValueNumber → Word} {s : State} {last last' : ValueNumber}
variable {lvns lvns' : Lvns} {o o' : Option Operand} {i m : Insn}

/-- The value of a numbered operand when `ν` gives the values of the numbers. -/
def numberedValue (env : Env) (ν : ValueNumber → Word) : Option Operand → Word
  | some ⟨ts, .reg _, n⟩ => fit ts (ν n)
  | o => readOpt env (fun _ => 0) o

/-- The number of the insn stands for the value of its expression. -/
def Computes (env : Env) (ν : ValueNumber → Word) (mem : Mem) (i : Insn) : Prop :=
  i.op ≠ .number → fit (tsOpt i.dst) (exprValue env i.op (tsOpt i.dst) (tsOpt i.src1)
    (numberedValue env ν i.src1) (numberedValue env ν i.src2) mem) = ν (dstNumber i)

/-- Every register of the table holds the value that the number of its insn stands for. -/
def Valid (env : Env) (ν : ValueNumber → Word) (s : State) (lvns : Lvns) : Prop :=
  ∀ e ∈ lvns, s.regs e.1 = ν (dstNumber e.2) ∧ Computes env ν s.mem e.2

theorem numberedValue_congr (h : ν' (regNumber o) = ν (regNumber o)) :
    numberedValue env ν' o = numberedValue env ν o := by
  rcases o with _ | ⟨ts, _ | r, n⟩
  · rfl
  · rfl
  · exact congrArg (fit ts) h

/-- Numbers above those of the table can be given any value. -/
theorem Valid.congr (hb : Bounded last lvns) (h : Valid env ν s lvns)
    (hν : ∀ n ≤ last, ν' n = ν n) : Valid env ν' s lvns := by
  intro e he
  obtain ⟨hreg, hcomp⟩ := h e he
  obtain ⟨_, hd, h₁, h₂⟩ := hb e he
  refine ⟨hreg.trans (hν _ hd).symm, fun hop => ?_⟩
  rw [numberedValue_congr (hν _ h₁), numberedValue_congr (hν _ h₂), hν _ hd]
  exact hcomp hop

theorem Bounded.mono (h : Bounded last lvns) (hle : last ≤ last') : Bounded last' lvns :=
  fun e he => ⟨(h e he).1, (h e he).2.1.trans hle, (h e he).2.2.1.trans hle,
    (h e he).2.2.2.trans hle⟩

theorem Bounded.update (h : Bounded last lvns) {r : PseudoReg}
    (hi : (∃ ts r n, i.dst = some ⟨ts, .reg r, n⟩) ∧ dstNumber i ≤ last ∧
      regNumber i.src1 ≤ last ∧ regNumber i.src2 ≤ last) :
    Bounded last (lvns.update r i) := by
  intro e he
  rcases Assoc.mem_update.mp he with rfl | ⟨_, he⟩
  · exact hi
  · exact h e he

/-- What numbering an operand does. -/
structure Assigned (last : ValueNumber) (lvns : Lvns) (o : Option Operand) (last' : ValueNumber)
    (lvns' : Lvns) (o' : Option Operand) : Prop where
  le : last ≤ last'
  bounded : Bounded last' lvns'
  number : regNumber o' ≤ last'
  unnumbered : unnumbered o' = unnumbered o
  keep : ∀ r m, lvns.lookup r = some m → lvns'.lookup r = some m
  valued : ∀ (env : Env) ν s, Valid env ν s lvns → ∃ ν' : ValueNumber → Word,
    (∀ n ≤ last, ν' n = ν n) ∧ Valid env ν' s lvns' ∧
      numberedValue env ν' o' = readOpt env s.regs o

theorem assign_spec (hb : Bounded last lvns) (o : Option Operand) : Assigned last lvns o
    (assign last lvns o).1 (assign last lvns o).2.1 (assign last lvns o).2.2 := by
  rcases o with _ | ⟨ts, c | r, n⟩
  · exact ⟨le_refl _, hb, Nat.zero_le _, rfl, fun _ _ h => h,
      fun _ ν _ hv => ⟨ν, fun _ _ => rfl, hv, rfl⟩⟩
  · exact ⟨le_refl _, hb, Nat.zero_le _, rfl, fun _ _ h => h,
      fun _ ν _ hv => ⟨ν, fun _ _ => rfl, hv, rfl⟩⟩
  · rw [assign]
    cases hl : lvns.lookup r with
    | some m =>
      have hm := Assoc.lookup_eq_some.mp hl
      exact ⟨le_refl _, hb, (hb _ hm).2.1, rfl, fun _ _ h => h,
        fun _ ν _ hv => ⟨ν, fun _ _ => rfl, hv, congrArg (fit ts) (hv _ hm).1.symm⟩⟩
    | none =>
      refine ⟨Nat.le_succ _, ?_, le_refl _, rfl, ?_, ?_⟩
      · exact (hb.mono (Nat.le_succ _)).update
          ⟨⟨_, _, _, rfl⟩, le_refl _, Nat.zero_le _, Nat.zero_le _⟩
      · intro r' m hm
        rw [Assoc.lookup_eq_some, Assoc.mem_update]
        refine .inr ⟨?_, Assoc.lookup_eq_some.mp hm⟩
        rintro rfl
        rw [hl] at hm
        exact absurd hm (by simp)
      · intro env ν s hv
        have hsame : ∀ n ≤ last, Function.update ν (last + 1) (s.regs r) n = ν n :=
          fun n hn => Function.update_of_ne (Nat.ne_of_lt (Nat.lt_succ_of_le hn)) ..
        have hnew := Function.update_self (last + 1) (s.regs r) ν
        refine ⟨Function.update ν (last + 1) (s.regs r), hsame, fun e he => ?_,
          congrArg (fit ts) hnew⟩
        rcases Assoc.mem_update.mp he with rfl | ⟨_, he⟩
        · exact ⟨hnew.symm, fun hop => absurd rfl hop⟩
        · exact hv.congr hb hsame e he

theorem tsOpt_unnumbered (h : unnumbered o' = unnumbered o) : tsOpt o' = tsOpt o := by
  rcases o with _ | o <;> rcases o' with _ | o'
  · rfl
  · exact absurd h (by simp [unnumbered])
  · exact absurd h (by simp [unnumbered])
  · have hts : tsOpt (unnumbered (some o')) = tsOpt (unnumbered (some o)) := congrArg tsOpt h
    exact hts

theorem readOpt_unnumbered (h : unnumbered o' = unnumbered o) (regs : PseudoReg → Word) :
    readOpt env regs o' = readOpt env regs o := by
  have hread : ∀ o, readOpt env regs (unnumbered o) = readOpt env regs o := by
    rintro (_ | o) <;> rfl
  rw [← hread o', h, hread]

/-- What numbering the sources does. -/
structure AssignedSrcs (last : ValueNumber) (lvns : Lvns) (i : Insn) (last' : ValueNumber)
    (lvns' : Lvns) (src1 src2 : Option Operand) : Prop where
  le : last ≤ last'
  bounded : Bounded last' lvns'
  number₁ : regNumber src1 ≤ last'
  number₂ : regNumber src2 ≤ last'
  unnumbered₁ : unnumbered src1 = unnumbered i.src1
  unnumbered₂ : unnumbered src2 = unnumbered i.src2
  keep : ∀ r m, lvns.lookup r = some m → lvns'.lookup r = some m
  valued : ∀ (env : Env) ν s, Valid env ν s lvns → ∃ ν', Valid env ν' s lvns' ∧
    numberedValue env ν' src1 = readOpt env s.regs i.src1 ∧
    numberedValue env ν' src2 = readOpt env s.regs i.src2

theorem assignSrcs_spec (hb : Bounded last lvns) (i : Insn) : ∃ last' lvns' src1 src2,
    assignSrcs last lvns i = (last', lvns', { i with src1 := src1, src2 := src2 }) ∧
      AssignedSrcs last lvns i last' lvns' src1 src2 := by
  have h₁ := assign_spec hb i.src1
  have h₂ := assign_spec h₁.bounded i.src2
  refine ⟨_, _, _, _, rfl, h₁.le.trans h₂.le, h₂.bounded, h₁.number.trans h₂.le, h₂.number,
    h₁.unnumbered, h₂.unnumbered, fun r m hm => h₂.keep r m (h₁.keep r m hm), ?_⟩
  intro env ν s hv
  obtain ⟨ν₁, _, hv₁, hval₁⟩ := h₁.valued env ν s hv
  obtain ⟨ν₂, hsame, hv₂, hval₂⟩ := h₂.valued env ν₁ s hv₁
  exact ⟨ν₂, hv₂, (numberedValue_congr (hsame _ h₁.number)).trans hval₁, hval₂⟩

/-- An insn that is numbered writes the value of its expression to its register. -/
theorem exec_numberable (h : numberable i = true) {ts : TypeBits} {r : PseudoReg} {n : ValueNumber}
    (hd : i.dst = some ⟨ts, .reg r, n⟩) :
    exec env i s = { s with regs := Function.update s.regs r (computed env s i) } := by
  obtain ⟨op, dst, src1, src2, vol, iasm⟩ := i
  obtain rfl : dst = _ := hd
  cases op <;> first | rfl | exact absurd h (by simp [numberable, InsnOp.slvn])

theorem SameCon.unnumbered {m : Option Operand} (h : SameCon m o)
    (ho : unnumbered o' = unnumbered o) : SameCon m o' := by
  intro hm
  have hval : o'.map Operand.val = o.map Operand.val := by
    have := congrArg (Option.map Operand.val) ho
    simpa only [Slvn.unnumbered, Option.map_map, Function.comp_def] using this
  rw [h hm, hval]

/-- Operands that match have the same value. -/
theorem numberedValue_match (h : matchOperand o o' = true) (hc : SameCon o o') :
    numberedValue env ν o = numberedValue env ν o' ∧ tsOpt o = tsOpt o' := by
  rcases o with _ | ⟨ts, ⟨c, sym⟩ | r, n⟩ <;> rcases o' with _ | ⟨ts', ⟨c', sym'⟩ | r', n'⟩
  case none.none => exact ⟨rfl, rfl⟩
  case some.con.some.con =>
    have hval := Option.some.inj (hc rfl)
    have hts : ts = ts' := by
      by_contra hne
      rw [matchOperand, operandIsSame, if_pos hne] at h
      exact absurd h (by simp)
    obtain ⟨rfl, rfl⟩ := OperandVal.con.inj hval
    exact ⟨by rw [hts]; rfl, hts⟩
  case some.reg.some.reg =>
    simp only [matchOperand, Bool.and_eq_true, beq_iff_eq] at h
    obtain ⟨rfl, rfl⟩ := h
    exact ⟨rfl, rfl⟩
  all_goals exact absurd h (by simp [matchOperand])

theorem lvnsMatch_spec (h : lvnsMatch lvns i = some m) :
    (∃ r, (r, m) ∈ lvns) ∧ m.op = i.op ∧ tsOpt m.dst = tsOpt i.dst ∧
      matchOperand m.src1 i.src1 = true ∧ matchOperand m.src2 i.src2 = true := by
  obtain ⟨e, he, rfl⟩ := Option.map_eq_some_iff.mp h
  have hrep := List.find?_some he
  simp only [repeats, Bool.and_eq_true, beq_iff_eq] at hrep
  exact ⟨⟨e.1, List.mem_of_find?_eq_some he⟩, hrep.1.1.1, hrep.1.1.2, hrep.1.2, hrep.2⟩

/-- A register is made to point at an insn whose number stands for what it now holds. -/
theorem Valid.update (h : Valid env ν s lvns) {r : PseudoReg} {w : Word}
    (hw : w = ν (dstNumber m)) (hm : Computes env ν s.mem m) :
    Valid env ν { s with regs := Function.update s.regs r w } (lvns.update r m) := by
  intro e he
  rcases Assoc.mem_update.mp he with rfl | ⟨hne, he⟩
  · exact ⟨(Function.update_self ..).trans hw, hm⟩
  · exact ⟨(Function.update_of_ne hne ..).trans (h e he).1, (h e he).2⟩

theorem numberable_op (h : numberable i = true) : i.op ≠ .number := by
  intro hop
  rw [numberable, hop] at h
  exact absurd h (by simp [InsnOp.slvn])

/-- What one step makes of a table that is right. -/
def Stepped (env : Env) (s : State) (i : Insn) (x : ValueNumber × Lvns × Insn) : Prop :=
  (∃ ν, Valid env ν (exec env i s) x.2.1) ∧ Numbered env s i x.2.2

theorem numberable_spec (hb : Bounded last lvns) (hv : Valid env ν s lvns)
    (hn : numberable i = true) {ts : TypeBits} {r : PseudoReg} {n : ValueNumber}
    (hd : i.dst = some ⟨ts, .reg r, n⟩) (hh : Harmless last lvns i) :
    Stepped env s i (slvnInsn last lvns i) := by
  obtain ⟨last', lvns', src1, src2, hsrcs, h⟩ := assignSrcs_spec hb i
  obtain ⟨ν', hvalid, hval₁, hval₂⟩ := h.valued env ν s hv
  have hts₁ := tsOpt_unnumbered h.unnumbered₁
  rw [slvnInsn, hn, hd]
  simp only [hsrcs]
  have hrep : repeated last lvns i = lvnsMatch lvns' { i with src1 := src1, src2 := src2 } := by
    rw [repeated, if_pos hn, hsrcs]
  cases hm : lvnsMatch lvns' { i with src1 := src1, src2 := src2 } with
  | some m =>
    obtain ⟨⟨q, hq⟩, hop, hts, hm₁, hm₂⟩ := lvnsMatch_spec hm
    rw [hm] at hrep
    obtain ⟨hc₁, hc₂⟩ := hh.constants m hrep
    obtain ⟨hv₁, hmts₁⟩ := @numberedValue_match env ν' _ _ hm₁ (hc₁.unnumbered h.unnumbered₁)
    obtain ⟨hv₂, _⟩ := @numberedValue_match env ν' _ _ hm₂ (hc₂.unnumbered h.unnumbered₂)
    -- the number of the insn that is repeated stands for the value computed
    have hvalue : computed env s i = ν' (dstNumber m) := by
      rw [← (hvalid _ hq).2 (by rw [hop]; exact numberable_op hn), hv₁, hv₂, hval₁, hval₂,
        hmts₁, hts₁, hts, hop]
      rfl
    have hfit : fit ts (computed env s i) = computed env s i := by
      rw [computed, hd]; exact fit_fit ts _
    obtain ⟨⟨ts', p, n', hmd⟩, _⟩ := h.bounded _ hq
    have hcur : s.regs p = computed env s i := by
      have hp := h.keep p m (hh.current m hrep p (by rw [hmd]; exact List.mem_singleton_self p))
      exact (hvalid _ (Assoc.lookup_eq_some.mp hp)).1.trans hvalue.symm
    obtain rfl : ts' = ts := by rw [hmd, hd] at hts; exact hts
    have hread : readOpt env s.regs m.dst = computed env s i := by
      rw [hmd, ← hfit, ← hcur]; rfl
    refine ⟨⟨ν', ?_⟩, ?_, .inr ⟨_, _, rfl, ?_, hread⟩⟩
    · rw [exec_numberable hn hd]
      exact hvalid.update hvalue (hvalid _ hq).2
    · have hmove : exec env (insnNew .move (some ⟨ts', .reg r, dstNumber m⟩) m.dst) s =
          { s with regs := Function.update s.regs r (fit ts' (readOpt env s.regs m.dst)) } := rfl
      rw [SameEffect, hmove, exec_numberable hn hd, hread, hfit]
    · rw [hd]; rfl
  | none =>
    have hfresh : ∀ k ≤ last', Function.update ν' (last' + 1) (computed env s i) k = ν' k :=
      fun k hk => Function.update_of_ne (Nat.ne_of_lt (Nat.lt_succ_of_le hk)) ..
    have hnew : Function.update ν' (last' + 1) (computed env s i) (last' + 1) = computed env s i :=
      Function.update_self ..
    refine ⟨⟨Function.update ν' (last' + 1) (computed env s i), ?_⟩, ?_,
      .inl ⟨rfl, ?_, h.unnumbered₁, h.unnumbered₂, rfl, rfl⟩⟩
    · rw [exec_numberable hn hd]
      refine (hvalid.congr h.bounded hfresh).update hnew.symm fun _ => ?_
      refine Eq.trans ?_ hnew.symm
      rw [numberedValue_congr (hfresh _ h.number₁), numberedValue_congr (hfresh _ h.number₂),
        hval₁, hval₂, hts₁, computed, hd]
      rfl
    · have hn' : numberable { i with
          dst := some ⟨ts, .reg r, last' + 1⟩, src1 := src1, src2 := src2 } = true := hn
      rw [SameEffect, exec_numberable hn hd, exec_numberable hn' rfl, computed, computed, hts₁,
        readOpt_unnumbered h.unnumbered₁, readOpt_unnumbered h.unnumbered₂, hd]
      rfl
    · rw [hd]; rfl

theorem mem_purge {e : PseudoReg × Insn} (h : e ∈ purge lvns i) :
    e ∈ lvns ∧ (i.op.useDst = false → e.1 ∉ operandRegs i.dst) ∧
      (insnDefsMem i = true → e.2.op ≠ .load) := by
  have hdst : ∀ {l : Lvns}, (l = match i.dst with
      | some ⟨_, .reg r, _⟩ => if i.op.useDst then lvns else lvns.unset r
      | _ => lvns) → e ∈ l → e ∈ lvns ∧ (i.op.useDst = false → e.1 ∉ operandRegs i.dst) := by
    rintro l rfl he
    rcases hd : i.dst with _ | ⟨ts, _ | r, n⟩
    · rw [hd] at he; exact ⟨he, fun _ => List.not_mem_nil⟩
    · rw [hd] at he; exact ⟨he, fun _ => List.not_mem_nil⟩
    · rw [hd] at he
      cases hu : i.op.useDst with
      | true => simp only [hu, if_true] at he; exact ⟨he, fun h => absurd h (by simp)⟩
      | false =>
        simp only [hu, Bool.false_eq_true, if_false] at he
        obtain ⟨he, hne⟩ := Assoc.mem_unset.mp he
        exact ⟨he, fun _ => by simpa [operandRegs] using hne⟩
  rw [purge] at h
  cases hm : insnDefsMem i with
  | true =>
    rw [hm, if_pos rfl, lvnsInvalidateMem, Assoc.mem_filter] at h
    obtain ⟨he, hd⟩ := hdst rfl h.1
    exact ⟨he, hd, fun _ => by simpa using h.2⟩
  | false =>
    rw [hm, if_neg Bool.false_ne_true] at h
    obtain ⟨he, hd⟩ := hdst rfl h
    exact ⟨he, hd, fun h => absurd h (by simp)⟩

/-- Only a load depends on memory. -/
theorem exprValue_mem {op : InsnOp} (hop : op ≠ .load) (ts ts₁ : TypeBits) (a b : Word)
    (mem mem' : Mem) : exprValue env op ts ts₁ a b mem' = exprValue env op ts ts₁ a b mem := by
  cases op <;> first | rfl | exact absurd rfl hop

theorem Computes.congr_mem {mem mem' : Mem} (h : Computes env ν mem i) (hop : i.op ≠ .load) :
    Computes env ν mem' i := by
  intro hn
  rw [← h hn, exprValue_mem hop]

/-- An insn that is not numbered. -/
theorem purge_spec (hv : Valid env ν s lvns) (hh : Harmless last lvns i) :
    Stepped env s i (last, purge lvns i, i) := by
  refine ⟨⟨ν, fun e he => ?_⟩, rfl, .inl ⟨rfl, rfl, rfl, rfl, rfl, rfl⟩⟩
  obtain ⟨he, hdst, hmem⟩ := mem_purge he
  obtain ⟨hreg, hcomp⟩ := hv e he
  have hnot : e.1 ∉ insnDefsRegs i := by
    have hd : e.1 ∉ if i.op.useDst then [] else operandRegs i.dst := by
      cases hu : i.op.useDst with
      | true => simp
      | false => simpa [hu] using hdst hu
    rw [insnDefsRegs]
    split
    · rename_i hop
      rw [mem_regsUnion, not_or]
      exact ⟨hd, fun hr => Assoc.lookup_eq_none.mp (hh.asm hop _ hr) _ he⟩
    · exact hd
  refine ⟨(exec_regs_of_notMem env hnot).trans hreg, ?_⟩
  cases hm : insnDefsMem i with
  | true => exact hcomp.congr_mem (hmem hm)
  | false => rw [exec_mem_of_not_defsMem env hm]; exact hcomp

theorem slvnInsn_bounded (hb : Bounded last lvns) (i : Insn) :
    last ≤ (slvnInsn last lvns i).1 ∧
      Bounded (slvnInsn last lvns i).1 (slvnInsn last lvns i).2.1 := by
  have hpurge : last ≤ last ∧ Bounded last (purge lvns i) :=
    ⟨le_refl _, fun e he => hb e (mem_purge he).1⟩
  rw [slvnInsn]
  split
  · obtain ⟨last', lvns', src1, src2, hsrcs, h⟩ := assignSrcs_spec hb i
    rw [hsrcs]
    cases hm : lvnsMatch lvns' { i with src1 := src1, src2 := src2 } with
    | some m =>
      obtain ⟨⟨q, hq⟩, _⟩ := lvnsMatch_spec hm
      simp only [hm]
      exact ⟨h.le, h.bounded.update (h.bounded _ hq)⟩
    | none =>
      simp only [hm]
      exact ⟨Nat.le_succ_of_le h.le, (h.bounded.mono (Nat.le_succ _)).update ⟨⟨_, _, _, rfl⟩,
        le_refl _, Nat.le_succ_of_le h.number₁, Nat.le_succ_of_le h.number₂⟩⟩
  · exact hpurge

theorem slvnInsn_spec (hb : Bounded last lvns) (hv : Valid env ν s lvns)
    (hh : Harmless last lvns i) : Stepped env s i (slvnInsn last lvns i) := by
  cases hn : numberable i with
  | false => rw [slvnInsn, hn]; exact purge_spec hv hh
  | true =>
    rcases hd : i.dst with _ | ⟨ts, _ | r, n⟩
    · rw [slvnInsn, hn, hd]; exact purge_spec hv hh
    · rw [slvnInsn, hn, hd]; exact purge_spec hv hh
    · exact numberable_spec hb hv hn hd hh

theorem slvnInsns_bounded : ∀ {last : ValueNumber} {lvns : Lvns} (l : List Insn),
    Bounded last lvns → last ≤ (slvnInsns last lvns l).1 ∧
      Bounded (slvnInsns last lvns l).1 (slvnInsns last lvns l).2.1
  | _, _, [], hb => ⟨le_refl _, hb⟩
  | last, lvns, i :: l, hb => by
      obtain ⟨hle, hb'⟩ := slvnInsn_bounded hb i
      obtain ⟨hle', hb''⟩ := slvnInsns_bounded l hb'
      exact ⟨hle.trans hle', hb''⟩

end

/-- What is known of a table after executing `trace` from `s₁`. -/
def Right (env : Env) (lvns : Lvns) (s₁ : State) (trace : List Insn) : Prop :=
  Built trace lvns ∧ ∃ ν, Valid env ν (execs env trace s₁) lvns

theorem AllHarmless.tail {trace : List Insn} {i : Insn} {l : List Insn}
    (h : AllHarmless trace (i :: l)) : AllHarmless (trace ++ [i]) l := by
  intro l₁ j l₂ hl last lvns hbuilt
  refine h (i :: l₁) j l₂ (by rw [hl]; rfl) last lvns ?_
  rwa [List.append_assoc] at hbuilt

/-- A block whose steps are harmless. -/
theorem slvnInsns_sound (env : Env) : ∀ {l : List Insn} {last : ValueNumber} {lvns : Lvns}
    {s₁ : State} {trace : List Insn}, Bounded last lvns → Right env lvns s₁ trace →
      AllHarmless trace l → Right env (slvnInsns last lvns l).2.1 s₁ (trace ++ l) ∧
        Along env (Numbered env) l (slvnInsns last lvns l).2.2 (execs env trace s₁)
  | [], _, _, _, trace, _, hr, _ => ⟨by rw [List.append_nil]; exact hr, trivial⟩
  | i :: l, last, lvns, s₁, trace, hb, ⟨hbuilt, ν, hv⟩, hh => by
      have hi : Harmless last lvns i :=
        hh [] i l rfl last lvns (by rw [List.append_nil]; exact hbuilt) hb
      obtain ⟨hvalid, hnum⟩ := slvnInsn_spec hb hv hi
      have hr : Right env (slvnInsn last lvns i).2.1 s₁ (trace ++ [i]) := by
        refine ⟨.insn i hbuilt hb, ?_⟩
        rw [execs_append, execs_cons, execs_nil]
        exact hvalid
      obtain ⟨hrest, halong⟩ := slvnInsns_sound env (slvnInsn_bounded hb i).2 hr hh.tail
      rw [execs_append, execs_cons, execs_nil] at halong
      rw [List.append_assoc, List.singleton_append] at hrest
      exact ⟨hrest, hnum, halong⟩

theorem slvn_walked (f : Func) : ∃ vis, Walked f .empty Assoc.dup slvnInsns Bounded vis
    (blocksWalk f slvn0 (fun _ x => x) ⟨0, fun _ => .empty, f⟩) :=
  walked Bounded (fun _ he => absurd he (Assoc.notMem_empty _)) rfl
    (fun _ _ h e he => h e (Assoc.mem_dup.mp he)) (fun _ _ l h => (slvnInsns_bounded l h).2)
    fun _ _ l _ h h' => h'.mono (slvnInsns_bounded l h).1

/-- In the runs along whose extended basic blocks all steps of the pass are harmless, the program
    after the pass runs as before, and every insn that was replaced moves the value of its
    expression. -/
theorem slvn_sound (env : Env) (f : Func) (s₀ : State)
    (h : ∀ s₁ trace b s, Ebb env f s₀ s₁ trace b s → AllHarmless trace (f.block b).insns)
    (path : List BlockId) (b : BlockId) (s : State) :
    (Reach env (slvn f) s₀ path b s ↔ Reach env f s₀ path b s) ∧
      (Reach env f s₀ path b s →
        Along env (Numbered env) (f.block b).insns ((slvn f).block b).insns s) := by
  obtain ⟨vis, hw⟩ := slvn_walked f
  have halong : ∀ path b s, Reach env f s₀ path b s →
      Along env (Numbered env) (f.block b).insns ((slvn f).block b).insns s := by
    intro path b s hr
    obtain ⟨s₁, trace, hebb⟩ := hr.ebb
    refine hw.sound (H := Right env) (C := fun _ => AllHarmless) ?_ ?_ ?_ ?_ h hebb
    · exact fun _ _ => ⟨rfl, .inl ⟨rfl, rfl, rfl, rfl, rfl, rfl⟩⟩
    · exact fun _ => ⟨.start, fun _ => 0, fun _ he => absurd he (Assoc.notMem_empty _)⟩
    · rintro lvns s₁ trace ⟨hbuilt, ν, hv⟩
      exact ⟨hbuilt.dup, ν, fun e he => hv e (Assoc.mem_dup.mp he)⟩
    · exact fun _ _ _ _ _ hb hr hh => slvnInsns_sound env hb hr hh
  refine ⟨hw.graph.reach_iff fun path b s hr => ?_, halong path b s⟩
  exact ((halong path b s hr).mono fun _ _ _ h => h.1).execs_eq

/-- `x = a + b; y = a + b`. -/
def repeatBlock : List Insn :=
  [insnNew .add (operandReg .int 1) (operandReg .int 4) (operandReg .int 5),
    insnNew .add (operandReg .int 2) (operandReg .int 4) (operandReg .int 5)]

theorem built_repeatBlock {trace : List Insn} {lvns : Lvns} (h : Built trace lvns) :
    (trace = [] → lvns = .empty) ∧ ∀ i, trace = [i] → ∃ last,
      lvns = (slvnInsn last .empty i).2.1 ∨ lvns = (slvnInsn last .empty i).2.1.dup := by
  induction h with
  | start => exact ⟨fun _ => rfl, fun i h => absurd h (by simp)⟩
  | dup _ ih =>
    refine ⟨fun h => by rw [ih.1 h]; rfl, fun i h => ?_⟩
    obtain ⟨last, rfl | rfl⟩ := ih.2 i h
    · exact ⟨last, .inr rfl⟩
    · refine ⟨last, .inl ?_⟩
      simp [Assoc.dup]
  | @insn trace lvns last j _ _ ih =>
    refine ⟨fun h => absurd h (by simp), fun i h => ?_⟩
    obtain ⟨rfl, hj⟩ := List.append_eq_singleton_iff.mp h |>.resolve_right (by simp)
    obtain rfl := List.singleton_inj.mp hj
    rw [ih.1 rfl]
    exact ⟨last, .inl rfl⟩

/-- `x = a + b; y = a + b; x = c; z = a + b`: the table still knows `a + b` by `y`, and the move is
    from `x`. -/
def staleBlock : List Insn :=
  [insnNew .add (operandReg .int 1) (operandReg .int 4) (operandReg .int 5),
    insnNew .add (operandReg .int 2) (operandReg .int 4) (operandReg .int 5),
    insnNew .move (operandReg .int 1) (operandReg .int 6),
    insnNew .add (operandReg .int 3) (operandReg .int 4) (operandReg .int 5)]

theorem slvn_stale : ¬ ∀ (env : Env) (f : Func) (s₀ : State) (path : List BlockId) (b : BlockId)
    (s : State), Reach env f s₀ path b s →
      Along env (Numbered env) (f.block b).insns ((slvn f).block b).insns s := by
  intro h
  have hs := h default (straight staleBlock) { (default : State) with regs := fun r => r.setWidth 64 }
    [] 0 _ Reach.entry
  have hz := congrFun (congrArg State.regs hs.2.2.2.1.1) 3
  revert hz
  decide

theorem slvn_sound_repeat :
    (Reach default (slvn (straight repeatBlock)) default [] 0 default ↔
      Reach default (straight repeatBlock) default [] 0 default) ∧
      (Reach default (straight repeatBlock) default [] 0 default →
        Along default (Numbered default) ((straight repeatBlock).block 0).insns
          ((slvn (straight repeatBlock)).block 0).insns default) := by
  refine slvn_sound _ _ _ (fun s₁ trace b s hebb => ?_) [] 0 default
  obtain ⟨rfl, rfl, rfl⟩ := ebb_straight hebb
  intro l₁ i l₂ hl last lvns hbuilt _
  rw [List.nil_append] at hbuilt
  rcases List.cons_eq_append_iff.mp hl with ⟨rfl, hi⟩ | ⟨l, rfl, hl₁⟩
  · obtain ⟨rfl, rfl⟩ := List.cons.inj hi
    rw [(built_repeatBlock hbuilt).1 rfl]
    have hnone : repeated last .empty (insnNew .add (operandReg .int 1) (operandReg .int 4)
        (operandReg .int 5)) = none := rfl
    exact ⟨fun m hm => absurd (hnone.symm.trans hm) (by simp),
      fun m hm => absurd (hnone.symm.trans hm) (by simp), fun hop => absurd hop (by decide)⟩
  · rcases List.cons_eq_append_iff.mp hl₁ with ⟨rfl, hi⟩ | ⟨l', rfl, hl'⟩
    · obtain ⟨rfl, rfl⟩ := List.cons.inj hi
      obtain ⟨k, hk⟩ := (built_repeatBlock hbuilt).2 _ rfl
      have hfirst : lvns.lookup 1 = some ⟨.add, some ⟨.int, .reg 1, k + 3⟩,
          some ⟨.int, .reg 4, k + 1⟩, some ⟨.int, .reg 5, k + 2⟩, false, asmNew⟩ := by
        rcases hk with rfl | rfl <;> rfl
      have htable : (assignSrcs last lvns (insnNew .add (operandReg .int 2) (operandReg .int 4)
          (operandReg .int 5))).2.1 = lvns := by
        rcases hk with rfl | rfl <;> rfl
      -- the only addition in the table is the first insn
      have honly : ∀ r m, (r, m) ∈ lvns → m.op = .add → lvns.lookup 1 = some m := by
        intro r m hr hop
        have hmem : (r, m) ∈ (slvnInsn k .empty (insnNew .add (operandReg .int 1)
            (operandReg .int 4) (operandReg .int 5))).2.1 := by
          rcases hk with rfl | rfl
          · exact hr
          · exact Assoc.mem_dup.mp hr
        rw [hfirst]
        rcases List.mem_cons.mp hmem with he | hmem
        · rw [(Prod.mk.inj he).2]; rfl
        · rcases List.mem_cons.mp hmem with he | hmem
          · rw [(Prod.mk.inj he).2] at hop; exact absurd hop (by simp [insnNew])
          · rw [(Prod.mk.inj (List.mem_singleton.mp hmem)).2] at hop
            exact absurd hop (by simp [insnNew])
      have hrep : ∀ m, repeated last lvns (insnNew .add (operandReg .int 2) (operandReg .int 4)
          (operandReg .int 5)) = some m → lvns.lookup 1 = some m := by
        intro m hm
        rw [repeated, if_pos (by decide), htable] at hm
        obtain ⟨⟨r, hr⟩, hop, _⟩ := lvnsMatch_spec hm
        exact honly r m hr hop
      refine ⟨fun m hm r hr => ?_, fun m hm => ?_, fun hop => absurd hop (by decide)⟩
      · obtain rfl := Option.some.inj ((hrep m hm).symm.trans hfirst)
        obtain rfl := List.mem_singleton.mp hr
        exact hfirst
      · obtain rfl := Option.some.inj ((hrep m hm).symm.trans hfirst)
        exact ⟨fun h => absurd h (by simp [operandCon]), fun h => absurd h (by simp [operandCon])⟩
    · simp at hl'

end Ncc.Slvn
