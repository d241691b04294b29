import Ncc.Exec

/-! Local copy propagation (copy.c).

    The pass walks a block with a map of the copies it has seen: an entry `(x, y)` says that `x` was
    copied from `y` and that neither has been redefined since. Insns that are not copies have the
    USEs of each `x` replaced by its `y`, and then the entries that mention a register they DEF are
    dropped. A copy only inserts its own entry: the entries whose value register it overwrites stay.
    `localBlock_sound_iff` says for which executions that is harmless. -/

namespace Ncc.Copy

/-- Remove all entries that use any of `regs`. -/
def regmapsInvalidate (m : Regmaps) (regs : Regs) : Regmaps :=
  regs.foldl (fun m r => m.filter fun e => e.1 ≠ r ∧ e.2 ≠ r) m

/-- Replace the USEs of every mapped register, in the order of the map. -/
def substituteAll (m : Regmaps) (insn : Insn) : Insn :=
  m.entries.foldl (fun insn e => insnSubstituteUses insn e.1 e.2) insn

/-- One turn of the loop in `local`: the map after the insn, and the insn rewritten. -/
def localInsn (m : Regmaps) (insn : Insn) : Regmaps × Insn :=
  match insnCopy insn with
  | some (dst, src) => (regmapsUpdate m dst src, insn)
  | none =>
    let insn := substituteAll m insn
    (regmapsInvalidate m (insnDefsRegs insn), insn)

/-- `local`: replacements in a block, starting from `m` and updating it along the way. -/
def localBlock (m : Regmaps) : List Insn → Regmaps × List Insn
  | [] => (m, [])
  | insn :: insns =>
    let rest := localBlock (localInsn m insn).1 insns
    (rest.1, (localInsn m insn).2 :: rest.2)

/-- Every entry relates two registers that hold the same word. -/
def Valid (m : Regmaps) (regs : PseudoReg → Word) : Prop := ∀ e ∈ m, regs e.1 = regs e.2

/-- At every point of the scan, every entry still in the map is true of the state the rewritten
    block has reached there. -/
def ValidThroughout (env : Env) : Regmaps → List Insn → State → Prop
  | m, [], s => Valid m s.regs
  | m, i :: l, s =>
    Valid m s.regs ∧ ValidThroughout env (localInsn m i).1 l (exec env (localInsn m i).2 s)

/-- What local copy propagation promises for one block, starting map and entry state. -/
def Sound (env : Env) (m : Regmaps) (l : List Insn) (s : State) : Prop :=
  ((execs env (localBlock m l).2 s).regs = (execs env l s).regs ∧
    (execs env (localBlock m l).2 s).mem = (execs env l s).mem) ∧ ValidThroughout env m l s

/-! ### When the copies of a block are harmless -/

/-- The insn leaves the copy of `y` into `x` alone: it is a copy into another register than `x`, or
    it is no copy and DEFs neither. -/
def Keeps (x y : PseudoReg) (i : Insn) : Prop :=
  match insnCopy i with
  | some (d, _) => d ≠ x
  | none => x ∉ insnDefsRegs i ∧ y ∉ insnDefsRegs i

/-- After the insns `l`, the copy of `y` into `x` is pending: it is in `l`, or an entry of the
    starting map, and every insn since keeps it. -/
def Pending (m : Regmaps) (l : List Insn) (x y : PseudoReg) : Prop :=
  ((x, y) ∈ m ∧ ∀ i ∈ l, Keeps x y i) ∨
    ∃ l₁ i l₂, l = l₁ ++ i :: l₂ ∧ insnCopy i = some (x, y) ∧ ∀ j ∈ l₂, Keeps x y j

/-- The copy into `d` from `src`, executed in state `t`, moves the whole word of `src`, and that is
    the word already held by every other register with a pending copy of `d`. -/
def Harmless (env : Env) (i : Insn) (d src : PseudoReg) (t : State) (pending : PseudoReg → Prop) :
    Prop :=
  (src ≠ d → (exec env i t).regs d = t.regs src) ∧
    ∀ x, x ≠ d → pending x → t.regs x = (exec env i t).regs d

/-- Every copy the block executes from `s` is harmless in the state before it. -/
def CopiesHarmless (env : Env) (m : Regmaps) (l : List Insn) (s : State) : Prop :=
  ∀ l₁ i l₂ d src, l = l₁ ++ i :: l₂ → insnCopy i = some (d, src) →
    Harmless env i d src (execs env l₁ s) fun x => Pending m l₁ x d

/-! ### The map after each insn -/

theorem mem_regmapsInvalidate {e : PseudoReg × PseudoReg} : ∀ {regs : Regs} {m : Regmaps},
    e ∈ regmapsInvalidate m regs ↔ e ∈ m ∧ e.1 ∉ regs ∧ e.2 ∉ regs
  | [], m => by simp [regmapsInvalidate]
  | r :: rs, m => by
      rw [regmapsInvalidate, List.foldl_cons, ← regmapsInvalidate, mem_regmapsInvalidate,
        Assoc.mem_filter]
      simp only [decide_eq_true_eq, List.mem_cons, not_or]
      tauto

theorem insnDefsRegs_substituteAll (m : Regmaps) (i : Insn) :
    insnDefsRegs (substituteAll m i) = insnDefsRegs i := by
  unfold substituteAll
  induction m.entries generalizing i with
  | nil => rfl
  | cons e es ih => rw [List.foldl_cons, ih, insnDefsRegs_substituteUses]

theorem mem_localInsn {m : Regmaps} {i : Insn} {x y : PseudoReg} :
    (x, y) ∈ (localInsn m i).1 ↔ insnCopy i = some (x, y) ∨ (Keeps x y i ∧ (x, y) ∈ m) := by
  unfold localInsn Keeps
  cases hc : insnCopy i with
  | none =>
    simp only [mem_regmapsInvalidate, insnDefsRegs_substituteAll, reduceCtorEq, false_or]
    tauto
  | some c =>
    obtain ⟨d, src⟩ := c
    simp only [regmapsUpdate, Assoc.mem_update, Prod.mk.injEq, Option.some.injEq]
    constructor
    · rintro (⟨rfl, rfl⟩ | ⟨hne, hm⟩)
      · exact Or.inl ⟨rfl, rfl⟩
      · exact Or.inr ⟨Ne.symm hne, hm⟩
    · rintro (⟨rfl, rfl⟩ | ⟨hne, hm⟩)
      · exact Or.inl ⟨rfl, rfl⟩
      · exact Or.inr ⟨Ne.symm hne, hm⟩

theorem pending_nil {m : Regmaps} {x y : PseudoReg} : Pending m [] x y ↔ (x, y) ∈ m := by
  simp [Pending]

/-- The first insn can be accounted for in the starting map. -/
theorem pending_cons {m : Regmaps} {i : Insn} {l : List Insn} {x y : PseudoReg} :
    Pending m (i :: l) x y ↔ Pending (localInsn m i).1 l x y := by
  unfold Pending
  rw [mem_localInsn]
  constructor
  · rintro (⟨hm, hk⟩ | ⟨l₁, j, l₂, hl, hc, hk⟩)
    · exact Or.inl ⟨Or.inr ⟨hk i (by simp), hm⟩, fun j hj => hk j (by simp [hj])⟩
    · rcases List.cons_eq_append_iff.mp hl with ⟨rfl, h⟩ | ⟨l₁', rfl, rfl⟩
      · obtain ⟨rfl, rfl⟩ := List.cons.inj h
        exact Or.inl ⟨Or.inl hc, hk⟩
      · exact Or.inr ⟨l₁', j, l₂, rfl, hc, hk⟩
  · rintro (⟨hc | ⟨hi, hm⟩, hk⟩ | ⟨l₁, j, l₂, rfl, hc, hk⟩)
    · exact Or.inr ⟨[], i, l, rfl, hc, hk⟩
    · refine Or.inl ⟨hm, fun j hj => ?_⟩
      rcases List.mem_cons.mp hj with rfl | hj
      · exact hi
      · exact hk j hj
    · exact Or.inr ⟨i :: l₁, j, l₂, rfl, hc, hk⟩

/-- The map in the middle of the scan holds exactly the pending copies. -/
theorem mem_localBlock {x y : PseudoReg} : ∀ {l : List Insn} {m : Regmaps},
    (x, y) ∈ (localBlock m l).1 ↔ Pending m l x y
  | [], m => pending_nil.symm
  | i :: l, m => by rw [localBlock, mem_localBlock, pending_cons]

/-! ### Soundness -/

section Soundness
variable (env : Env)

/-- Substituting along a valid map changes nothing, however long the chains in it are. -/
theorem exec_substituteAll {m : Regmaps} {s : State} (h : Valid m s.regs) (i : Insn) :
    exec env (substituteAll m i) s = exec env i s := by
  unfold substituteAll
  have hv : ∀ e ∈ m.entries, s.regs e.1 = s.regs e.2 := h
  generalize m.entries = es at hv
  induction es generalizing i with
  | nil => rfl
  | cons e es ih =>
    rw [List.foldl_cons, ih _ fun e' he' => hv e' (List.mem_cons_of_mem _ he')]
    exact exec_substituteUses env (hv e (List.mem_cons_self ..))

theorem exec_localInsn {m : Regmaps} {s : State} (h : Valid m s.regs) (i : Insn) :
    exec env (localInsn m i).2 s = exec env i s := by
  unfold localInsn
  cases insnCopy i with
  | none => exact exec_substituteAll env h i
  | some c => rfl

/-- A block along which the map stays valid is rewritten into an equivalent one. -/
theorem execs_localBlock : ∀ {l : List Insn} {m : Regmaps} {s : State},
    ValidThroughout env m l s → execs env (localBlock m l).2 s = execs env l s
  | [], _, _, _ => rfl
  | i :: l, m, s, ⟨hv, hrest⟩ => by
      simp only [localBlock, execs_cons]
      rw [execs_localBlock hrest, exec_localInsn env hv i]

theorem insnDefsRegs_of_copy {i : Insn} {d src : PseudoReg} (h : insnCopy i = some (d, src)) :
    insnDefsRegs i = [d] := by
  unfold insnCopy at h
  split at h
  · rename_i hop hdst _
    simp only [Option.some.injEq, Prod.mk.injEq] at h
    simp [insnDefsRegs, hop, hdst, InsnOp.useDst, operandRegs, h.1]
  · simp at h

/-- One insn keeps the map valid, except for a copy that is not harmless. -/
theorem valid_localInsn {m : Regmaps} {s : State} (h : Valid m s.regs) (i : Insn) :
    Valid (localInsn m i).1 (exec env i s).regs ↔
      ∀ d src, insnCopy i = some (d, src) → Harmless env i d src s fun x => (x, d) ∈ m := by
  cases hc : insnCopy i with
  | none =>
    simp only [reduceCtorEq, false_implies, implies_true, iff_true]
    rintro ⟨x, y⟩ he
    rw [mem_localInsn, Keeps, hc] at he
    obtain ⟨⟨hx, hy⟩, hm⟩ := he.resolve_left (by simp)
    simpa only [exec_regs_of_notMem env hx, exec_regs_of_notMem env hy] using h _ hm
  | some c =>
    obtain ⟨d, src⟩ := c
    have hother : ∀ r, r ≠ d → (exec env i s).regs r = s.regs r := fun r hr =>
      exec_regs_of_notMem env (by rw [insnDefsRegs_of_copy hc]; simpa using hr)
    simp only [Option.some.injEq, Prod.mk.injEq, and_imp]
    constructor
    · rintro hv _ _ rfl rfl
      refine ⟨fun hne => ?_, fun x hx hm => ?_⟩
      · have := hv (d, src) (mem_localInsn.mpr (Or.inl hc))
        rwa [hother src hne] at this
      · have := hv (x, d) (mem_localInsn.mpr (Or.inr ⟨by rw [Keeps, hc]; exact Ne.symm hx, hm⟩))
        rwa [hother x hx] at this
    · rintro hh ⟨x, y⟩ he
      obtain ⟨hsrc, hpend⟩ := hh d src rfl rfl
      rcases mem_localInsn.mp he with heq | ⟨hk, hm⟩
      · rw [hc, Option.some.injEq, Prod.mk.injEq] at heq
        obtain ⟨rfl, rfl⟩ := heq
        by_cases hne : src = d
        · rw [hne]
        · exact (hsrc hne).trans (hother src hne).symm
      · rw [Keeps, hc] at hk
        have hx : x ≠ d := Ne.symm hk
        by_cases hy : y = d
        · subst hy; exact (hother x hx).trans (hpend x hx hm)
        · exact (hother x hx).trans ((h _ hm).trans (hother y hy).symm)

theorem copiesHarmless_cons {m : Regmaps} {i : Insn} {l : List Insn} {s : State} :
    CopiesHarmless env m (i :: l) s ↔
      (∀ d src, insnCopy i = some (d, src) → Harmless env i d src s fun x => (x, d) ∈ m) ∧
        CopiesHarmless env (localInsn m i).1 l (exec env i s) := by
  unfold CopiesHarmless
  constructor
  · intro h
    refine ⟨fun d src hc => ?_, fun l₁ j l₂ d src hl hc => ?_⟩
    · simpa only [pending_nil, execs_nil] using h [] i l d src rfl hc
    · simpa only [pending_cons, execs_cons] using h (i :: l₁) j l₂ d src (by rw [hl]; rfl) hc
  · rintro ⟨hi, h⟩ l₁ j l₂ d src hl hc
    rcases List.cons_eq_append_iff.mp hl with ⟨rfl, hl'⟩ | ⟨l₁', rfl, hl'⟩
    · obtain ⟨rfl, rfl⟩ := List.cons.inj hl'
      simpa only [pending_nil, execs_nil] using hi d src hc
    · simpa only [pending_cons, execs_cons] using h l₁' j l₂ d src hl' hc

/-- The map stays valid exactly along the blocks whose copies are harmless. -/
theorem validThroughout_iff : ∀ {l : List Insn} {m : Regmaps} {s : State}, Valid m s.regs →
    (ValidThroughout env m l s ↔ CopiesHarmless env m l s)
  | [], m, s, h => by simp [ValidThroughout, CopiesHarmless, h]
  | i :: l, m, s, h => by
      rw [ValidThroughout, copiesHarmless_cons, exec_localInsn env h, ← valid_localInsn env h]
      constructor
      · rintro ⟨_, hrest⟩
        have hv : Valid (localInsn m i).1 (exec env i s).regs := by
          cases l with
          | nil => exact hrest
          | cons => exact hrest.1
        exact ⟨hv, (validThroughout_iff hv).mp hrest⟩
      · rintro ⟨hv, hrest⟩
        exact ⟨h, (validThroughout_iff hv).mpr hrest⟩

end Soundness

/-- Local copy propagation keeps its promise for a block, a valid starting map and an entry state
    exactly when every copy the block executes is harmless. -/
theorem localBlock_sound_iff (env : Env) (m : Regmaps) (l : List Insn) (s : State)
    (h : Valid m s.regs) : Sound env m l s ↔ CopiesHarmless env m l s := by
  rw [← validThroughout_iff env h]
  exact ⟨fun hs => hs.2, fun hv =>
    ⟨⟨by rw [execs_localBlock env hv], by rw [execs_localBlock env hv]⟩, hv⟩⟩

theorem localBlock_sound_iff_const :
    Sound default (regmapsUpdate .empty 1 2)
        [insnNew .add (operandReg .int 3) (operandReg .int 1) (operandI .int 1 none)]
        { (default : State) with regs := fun _ => 7 } ↔
      CopiesHarmless default (regmapsUpdate .empty 1 2)
        [insnNew .add (operandReg .int 3) (operandReg .int 1) (operandI .int 1 none)]
        { (default : State) with regs := fun _ => 7 } :=
  localBlock_sound_iff _ _ _ _ fun _ _ => rfl

/-- `x = y; y = z; t = x + 1`: the entry of `x` survives the copy into `y`, and `t` is computed
    from the new `y`. -/
def staleBlock : List Insn :=
  [insnNew .move (operandReg .int 1) (operandReg .int 2),
    insnNew .move (operandReg .int 2) (operandReg .int 3),
    insnNew .add (operandReg .int 4) (operandReg .int 1) (operandI .int 1 none)]

theorem localBlock_stale : ¬ ∀ (env : Env) (m : Regmaps) (l : List Insn) (s : State),
    Valid m s.regs → Sound env m l s := by
  intro h
  have hs := h default .empty staleBlock
    { (default : State) with regs := fun r => r.setWidth 64 } fun e he => absurd he (by simp)
  have ht := congrFun hs.1.1 4
  revert ht
  decide

end Ncc.Copy
