import Ncc.Ebb

/-! Redundant load elimination (load.c).

    The pass remembers the last store of the extended basic block. A load of the same address, at
    the same type, becomes a move of what was stored. The remembered store is forgotten when memory
    is written or when one of its two registers is redefined, but a load that was replaced is not
    looked at again: when it loads into the address register, the store is remembered with an
    address operand that means something else. `load_sound` says what the runs must avoid. -/

namespace Ncc.Load

/-- Does the load retrieve what the store wrote, at the same type? -/
def reloads (insn store : Insn) : Bool :=
  insn.op == .load && operandIsSame insn.src1 store.dst && tsOpt insn.dst == tsOpt store.src1

/-- Does the insn DEF a register the store uses? -/
def redefines (insn store : Insn) : Bool :=
  (operandRegs store.dst ++ operandRegs store.src1).any (· ∈ insnDefsRegs insn)

/-- The store to remember after an insn that was not replaced. -/
def nextStore (store : Option Insn) (insn : Insn) : Option Insn :=
  if insn.op = .store then some insn
  else if insnDefsMem insn then none
  else store.filter fun st => !redefines insn st

/-- One turn of the loop in `load0`. -/
def loadInsn (store : Option Insn) (insn : Insn) : Option Insn × Insn :=
  match store with
  | some st =>
    if reloads insn st then (store, insnNew .move insn.dst st.src1)
    else (nextStore store insn, insn)
  | none => (nextStore store insn, insn)

/-- The loop in `load0`. -/
def loadInsns (store : Option Insn) : List Insn → Option Insn × List Insn
  | [] => (store, [])
  | insn :: insns =>
    let rest := loadInsns (loadInsn store insn).1 insns
    (rest.1, (loadInsn store insn).2 :: rest.2)

/-- `load0`: a block starts with the store its sole predecessor left. -/
def load0 : BlockId → EbbState Unit (Option Insn) → EbbState Unit (Option Insn) :=
  ebb0 id fun _ store insns => ((), loadInsns store insns)

/-- The function after `load`. -/
def load (f : Func) : Func :=
  (blocksWalk f load0 (fun _ x => x) ⟨(), fun _ => none, f⟩).func

/-! ### What the runs must avoid -/

/-- Along `insns` a load of what `st` stored stays a load of what `st` stored: memory is not written,
    and the registers of `st` are redefined by such loads only. -/
def Quiet (st : Insn) (insns : List Insn) : Prop :=
  ∀ i ∈ insns, insnDefsMem i = false ∧ (reloads i st = true ∨ redefines i st = false)

section
variable (env : Env)

/-- A load that names the address of the store, with nothing but quiet insns in between, loads from
    the address that was stored to. `insns` is executed after executing `trace` from `s₁`. -/
def SameAddress (s₁ : State) (trace insns : List Insn) : Prop :=
  ∀ l₁ j l₂ t₁ st t₂, insns = l₁ ++ j :: l₂ → trace ++ l₁ = t₁ ++ st :: t₂ →
    st.op = .store → reloads j st = true → Quiet st t₂ →
      readOpt env (execs env (trace ++ l₁) s₁).regs j.src1 =
        readOpt env (execs env t₁ s₁).regs st.dst

/-- The word a load reads, at the type of the load. -/
def loaded (s : State) (i : Insn) : Word :=
  fit (tsOpt i.dst) (loadWord s.mem (readOpt env s.regs i.src1) (tsOpt i.dst).sizeof)

/-- What elimination promises of an insn and its replacement: the effect is the same, and an insn
    that was replaced is a load of the value that is now moved. -/
def Eliminated (s : State) (i i' : Insn) : Prop :=
  SameEffect env s i i' ∧
    (i' ≠ i → i.op = .load ∧ ∃ v, i' = insnNew .move i.dst v ∧ readOpt env s.regs v = loaded env s i)

/-- What is known of the remembered store after executing `trace` from `s₁`: it was executed, memory
    is as it left it, and its value operand still denotes what was stored. -/
def Holds (store : Option Insn) (s₁ : State) (trace : List Insn) : Prop :=
  ∀ st, store = some st → ∃ t₁ t₂, trace = t₁ ++ st :: t₂ ∧ st.op = .store ∧ Quiet st t₂ ∧
    (execs env trace s₁).mem = (exec env st (execs env t₁ s₁)).mem ∧
    readOpt env (execs env trace s₁).regs st.src1 = readOpt env (execs env t₁ s₁).regs st.src1

end

/-! ### Soundness -/

theorem reloads_iff {insn store : Insn} : reloads insn store = true ↔
    insn.op = .load ∧ operandIsSame insn.src1 store.dst = true ∧
      tsOpt insn.dst = tsOpt store.src1 := by
  simp [reloads, and_assoc]

theorem redefines_eq_false {insn store : Insn} : redefines insn store = false ↔
    (∀ r ∈ operandRegs store.dst, r ∉ insnDefsRegs insn) ∧
      ∀ r ∈ operandRegs store.src1, r ∉ insnDefsRegs insn := by
  simp only [redefines, List.any_append, Bool.or_eq_false_iff, List.any_eq_false,
    decide_eq_true_eq]

section
variable (env : Env)

/-- A load from the address of the remembered store retrieves the value operand. -/
theorem loaded_eq {s s' : State} {st i : Insn} (hst : st.op = .store)
    (hmem : s.mem = (exec env st s').mem)
    (hval : readOpt env s.regs st.src1 = readOpt env s'.regs st.src1)
    (hts : tsOpt i.dst = tsOpt st.src1)
    (haddr : readOpt env s.regs i.src1 = readOpt env s'.regs st.dst) :
    loaded env s i = readOpt env s.regs st.src1 := by
  have hsize : (tsOpt st.src1).sizeof ≤ 8 := by cases tsOpt st.src1 <;> decide
  rw [loaded, hmem, haddr, hts, exec_store env hst, loadWord_storeWord _ _ _ hsize, fit_setWidth,
    fit_readOpt, hval]

theorem operandRegs_load {i : Insn} (h : i.op = .load) : insnDefsRegs i = operandRegs i.dst := by
  simp [insnDefsRegs, h, InsnOp.useDst]

/-- A replaced load leaves the value operand alone, even when it loads into its register. -/
theorem readOpt_exec_load {s : State} {i st : Insn} (hop : i.op = .load)
    (hts : tsOpt i.dst = tsOpt st.src1) (h : loaded env s i = readOpt env s.regs st.src1) :
    readOpt env (exec env i s).regs st.src1 = readOpt env s.regs st.src1 := by
  rcases hsrc : st.src1 with _ | ⟨ts, _ | r, n⟩
  · rfl
  · rfl
  · rw [exec_load env hop]
    rw [hsrc] at hts h
    rcases hdst : i.dst with _ | ⟨ts', _ | r', n'⟩
    · rfl
    · rfl
    · rw [hdst] at hts
      obtain rfl : ts' = ts := hts
      by_cases hr : r = r'
      · subst hr
        rw [loaded, hdst] at h
        simp only [readOpt, Operand.read, State.write, Function.update_self] at h ⊢
        rw [fit_fit]
        exact h
      · simp [readOpt, Operand.read, State.write, Function.update_of_ne hr]

/-- One insn keeps what is known of the remembered store, and is replaced rightly. -/
theorem loadInsn_sound {store : Option Insn} {s₁ : State} {trace : List Insn} {i : Insn}
    (h : Holds env store s₁ trace) (hsame : SameAddress env s₁ trace [i]) :
    Holds env (loadInsn store i).1 s₁ (trace ++ [i]) ∧
      Eliminated env (execs env trace s₁) i (loadInsn store i).2 := by
  have hkeep : ∀ st, store = some st → insnDefsMem i = false →
      (reloads i st = true ∨ redefines i st = false) →
      (reloads i st = true → loaded env (execs env trace s₁) i =
        readOpt env (execs env trace s₁).regs st.src1) →
      Holds env (some st) s₁ (trace ++ [i]) := by
    rintro st hs hm hr hl _ ⟨⟩
    obtain ⟨t₁, t₂, rfl, hst, hq, hmem, hval⟩ := h st hs
    refine ⟨t₁, t₂ ++ [i], by simp, hst, ?_, ?_, ?_⟩
    · intro j hj
      rcases List.mem_append.mp hj with hj | hj
      · exact hq j hj
      · obtain rfl := List.mem_singleton.mp hj
        exact ⟨hm, hr⟩
    · rw [execs_append, execs_cons, execs_nil, exec_mem_of_not_defsMem env hm, hmem]
    · rw [execs_append, execs_cons, execs_nil, ← hval]
      by_cases hre : reloads i st = true
      · obtain ⟨hop, _, hts⟩ := reloads_iff.mp hre
        exact readOpt_exec_load env hop hts (hl hre)
      · exact readOpt_congr env fun r hr' => exec_regs_of_notMem env
          ((redefines_eq_false.mp (hr.resolve_left hre)).2 r hr')
  have hnext : (∀ st, store = some st → reloads i st = false) →
      Holds env (nextStore store i) s₁ (trace ++ [i]) := by
    intro hno
    unfold nextStore
    split_ifs with hop hm
    · rintro _ ⟨⟩
      refine ⟨trace, [], rfl, hop, fun _ h => absurd h List.not_mem_nil, by simp, ?_⟩
      rw [execs_append, execs_cons, execs_nil, exec_store env hop]
    · exact fun _ h => nomatch h
    · cases store with
      | none => exact fun _ h => nomatch h
      | some st =>
        by_cases hr : redefines i st = true
        · simp [hr, Holds]
        · rw [Option.filter_some, if_pos (by simpa using hr)]
          exact hkeep st rfl (by simpa using hm) (Or.inr (by simpa using hr))
            fun hre => absurd hre (by simp [hno st rfl])
  cases store with
  | none => exact ⟨hnext (by simp), rfl, fun hne => absurd rfl hne⟩
  | some st =>
    by_cases hre : reloads i st = true
    · obtain ⟨t₁, t₂, htrace, hst, hq, hmem, hval⟩ := h st rfl
      obtain ⟨hop, _, hts⟩ := reloads_iff.mp hre
      have haddr := hsame [] i [] t₁ st t₂ rfl (by simpa using htrace) hst hre hq
      rw [List.append_nil] at haddr
      have hl := loaded_eq env hst hmem hval hts haddr
      have hm : insnDefsMem i = false := by simp [insnDefsMem, hop, InsnOp.defMem]
      simp only [loadInsn, if_pos hre]
      refine ⟨hkeep st rfl hm (Or.inl hre) fun _ => hl, ?_, fun _ => ⟨hop, _, rfl, hl.symm⟩⟩
      rw [SameEffect, exec_load env hop]
      refine write_congr (Eq.trans ?_ (fit_fit (tsOpt i.dst) _))
      exact congrArg _ hl.symm
    · simp only [loadInsn, if_neg hre]
      exact ⟨hnext fun st' hs => by
        obtain rfl := Option.some.inj hs; simpa using hre, rfl, fun hne => absurd rfl hne⟩

theorem sameAddress_cons {s₁ : State} {trace l : List Insn} {i : Insn}
    (h : SameAddress env s₁ trace (i :: l)) :
    SameAddress env s₁ trace [i] ∧ SameAddress env s₁ (trace ++ [i]) l := by
  constructor
  · intro l₁ j l₂ t₁ st t₂ hl
    rcases List.cons_eq_append_iff.mp hl with ⟨rfl, hl⟩ | ⟨_, _, hl⟩
    · obtain ⟨rfl, rfl⟩ := List.cons.inj hl
      exact h [] i l t₁ st t₂ rfl
    · simp at hl
  · intro l₁ j l₂ t₁ st t₂ hl
    have := h (i :: l₁) j l₂ t₁ st t₂ (by rw [hl]; rfl)
    rwa [List.append_cons] at this

/-- A block along which loads keep naming the address that was stored to. -/
theorem loadInsns_sound : ∀ {l : List Insn} {store : Option Insn} {s₁ : State} {trace : List Insn},
    Holds env store s₁ trace → SameAddress env s₁ trace l →
      Holds env (loadInsns store l).1 s₁ (trace ++ l) ∧
        Along env (Eliminated env) l (loadInsns store l).2 (execs env trace s₁)
  | [], _, _, trace, h, _ => ⟨by rw [List.append_nil]; exact h, trivial⟩
  | i :: l, store, s₁, trace, h, hsame => by
      obtain ⟨hi, hl⟩ := sameAddress_cons env hsame
      obtain ⟨hstep, helim⟩ := loadInsn_sound env h hi
      obtain ⟨hrest, halong⟩ := loadInsns_sound hstep hl
      rw [execs_append, execs_cons, execs_nil] at halong
      rw [List.append_assoc, List.singleton_append] at hrest
      exact ⟨hrest, helim, halong⟩

end

theorem load_walked (f : Func) : ∃ vis, Walked f none id
    (fun _ store l => ((), loadInsns store l)) (fun _ _ => True) vis (blocksWalk f load0 (fun _ x => x) ⟨(), fun _ => none, f⟩) :=
  walked _ trivial rfl (fun _ _ _ => trivial) (fun _ _ _ _ => trivial) fun _ _ _ _ _ _ => trivial

/-- In the runs that load from the address that was stored to, at every load that the pass matches
    with a store, the program after the pass runs as before, and every load that was replaced would
    have read the value that is moved instead. -/
theorem load_sound (env : Env) (f : Func) (s₀ : State)
    (h : ∀ s₁ trace b s, Ebb env f s₀ s₁ trace b s →
      SameAddress env s₁ trace (f.block b).insns) (path : List BlockId) (b : BlockId) (s : State) :
    (Reach env (load f) s₀ path b s ↔ Reach env f s₀ path b s) ∧
      (Reach env f s₀ path b s →
        Along env (Eliminated env) (f.block b).insns ((load f).block b).insns s) := by
  obtain ⟨vis, hw⟩ := load_walked f
  have halong : ∀ path b s, Reach env f s₀ path b s →
      Along env (Eliminated env) (f.block b).insns ((load f).block b).insns s := by
    intro path b s hr
    obtain ⟨s₁, trace, hebb⟩ := hr.ebb
    exact hw.sound (H := Holds env) (fun _ _ => ⟨rfl, fun hne => absurd rfl hne⟩)
      (fun _ _ hs => nomatch hs) (fun _ _ _ hs => hs)
      (fun _ _ _ _ _ _ => loadInsns_sound env) h hebb
  refine ⟨hw.graph.reach_iff fun path b s hr => ?_, halong path b s⟩
  exact ((halong path b s hr).mono fun _ _ _ h => h.1).execs_eq

/-- `*x = y; z = *x`. -/
def reloadBlock : List Insn :=
  [insnNew .store (operandReg .ulong 1) (operandReg .long 2),
    insnNew .load (operandReg .long 3) (operandReg .ulong 1)]

theorem load_sound_reload :
    (Reach default (load (straight reloadBlock)) default [] 0 default ↔
      Reach default (straight reloadBlock) default [] 0 default) ∧
      (Reach default (straight reloadBlock) default [] 0 default →
        Along default (Eliminated default) ((straight reloadBlock).block 0).insns
          ((load (straight reloadBlock)).block 0).insns default) := by
  refine load_sound _ _ _ (fun s₁ trace b s hebb => ?_) [] 0 default
  obtain ⟨rfl, rfl, rfl⟩ := ebb_straight hebb
  intro l₁ j l₂ t₁ st t₂ hl ht _ _ _
  rcases List.cons_eq_append_iff.mp hl with ⟨rfl, _⟩ | ⟨l, rfl, hl₁⟩
  · simp at ht
  · rcases List.cons_eq_append_iff.mp hl₁ with ⟨rfl, hj⟩ | ⟨l', rfl, hl'⟩
    · obtain ⟨rfl, rfl⟩ := List.cons.inj hj
      rcases List.cons_eq_append_iff.mp ht with ⟨rfl, hst⟩ | ⟨l, rfl, hl'⟩
      · obtain ⟨rfl, rfl⟩ := List.cons.inj hst
        rfl
      · simp at hl'
    · simp at hl'

/-- `*x = y; x = *x; z = *x`: after the first load, the address register is another. -/
def staleBlock : List Insn :=
  [insnNew .store (operandReg .ulong 1) (operandReg .ulong 2),
    insnNew .load (operandReg .ulong 1) (operandReg .ulong 1),
    insnNew .load (operandReg .ulong 3) (operandReg .ulong 1)]

/-- Register `r` holds the address `8 * r`; memory is zero. -/
def staleState : State := { (default : State) with regs := fun r => 8 * r.setWidth 64 }

theorem load_stale : ¬ ∀ (env : Env) (f : Func) (s₀ : State) (path : List BlockId) (b : BlockId)
    (s : State), Reach env f s₀ path b s →
      Along env (Eliminated env) (f.block b).insns ((load f).block b).insns s := by
  intro h
  have hs := h default (straight staleBlock) staleState [] 0 staleState Reach.entry
  have ht := congrFun (congrArg State.regs hs.2.2.1.1) 3
  revert ht
  decide

end Ncc.Load
