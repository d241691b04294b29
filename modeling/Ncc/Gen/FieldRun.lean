import Ncc.Gen.Field

/-! The insns of a bit-field (gen.c).

    What `extract`, `insert` and `gen_asg` emit runs on registers and memory: the temporaries get the
    words that `Field` tells bit by bit. A store into a field takes the low bits of the value and
    leaves the rest of the host word; it yields what a later fetch of the field will. -/

namespace Ncc.Gen

/-! ### Code -/

/-- The insns of `extract`. -/
def extractInsns (ts : TypeBits) (sym : PseudoReg) (f : Field) : List Insn :=
  let hostBits := 8 * ts.sizeof
  let leftShift := hostBits - (f.size + f.shift)
  let rightShift := hostBits - f.size
  [insnNew .shl (some (operandReg ts sym)) (some (operandReg ts sym))
      (some (operandI .int (BitVec.ofNat 64 leftShift) none)),
    insnNew .shr (some (operandReg ts sym)) (some (operandReg ts sym))
      (some (operandI .int (BitVec.ofNat 64 rightShift) none))]

/-- The insn of `gen_load`; the target of the pointer may be volatile. -/
def loadInsn (vol : Bool) (dst ptr : Operand) : Insn :=
  { insnNew .load (some dst) (some ptr) with isVolatile := vol }

/-- The insn of `gen_store`. -/
def storeInsn (vol : Bool) (ptr src : Operand) : Insn :=
  { insnNew .store (some ptr) (some src) with isVolatile := vol }

/-- The insns of `insert`, with its two temporaries. -/
def insertInsns (ts : TypeBits) (vol : Bool) (ptr value : Operand) (new shifted : PseudoReg)
    (f : Field) : List Insn :=
  let hostBits := 8 * ts.sizeof
  let maskMask := (-1 : Word) >>> (64 - hostBits)
  let mask := fieldMask f
  [insnNew .shl (some (operandReg ts shifted)) (some value)
      (some (operandI .int (BitVec.ofNat 64 f.shift) none)),
    insnNew .and (some (operandReg ts shifted)) (some (operandReg ts shifted))
      (some (operandI ts mask none)),
    loadInsn vol (operandReg ts new) ptr,
    insnNew .and (some (operandReg ts new)) (some (operandReg ts new))
      (some (operandI ts (~~~mask &&& maskMask) none)),
    insnNew .or (some (operandReg ts new)) (some (operandReg ts new))
      (some (operandReg ts shifted))]

/-- The insns of `gen_asg` through a pointer to a field, and its temporary. -/
def asgInsns (ts : TypeBits) (vol : Bool) (ptr value : Operand) (new shifted temp : PseudoReg)
    (f : Field) : List Insn :=
  insertInsns ts vol ptr value new shifted f ++
    [storeInsn vol ptr (operandReg ts new),
      insnNew .move (some (operandReg ts temp)) (some (operandReg ts new))] ++
    extractInsns ts temp f

/-- The insns of `gen_fetch` through a pointer to a field. -/
def fetchInsns (ts : TypeBits) (vol : Bool) (ptr : Operand) (temp : PseudoReg) (f : Field) :
    List Insn :=
  loadInsn vol (operandReg ts temp) ptr :: extractInsns ts temp f

/-- A value truncated to the field, and extended again as the host type says. -/
def fieldValue (ts : TypeBits) (f : Field) (v : Word) : Word :=
  if ts.signed then (v.setWidth f.size).signExtend 64 else (v.setWidth f.size).setWidth 64

/-! ### Words -/

section
variable {env : Env} {ts : TypeBits} {f : Field} {v w old : Word} {r : PseudoReg} {s : Ncc.State}

theorem getLsbD_fieldValue {j : Nat} (hsize : 1 ≤ f.size) (hj : j < 64) :
    (fieldValue ts f v).getLsbD j =
      if j < f.size then v.getLsbD j else ts.signed && v.getLsbD (f.size - 1) := by
  rw [fieldValue]
  cases ts.signed
  · simp [BitVec.getLsbD_setWidth, hj]
  · have hmsb : (v.setWidth f.size).msb = v.getLsbD (f.size - 1) := by
      rw [BitVec.msb_eq_getLsbD_last, BitVec.getLsbD_setWidth]
      simp [show f.size - 1 < f.size by omega]
    simp only [if_true, BitVec.getLsbD_signExtend, BitVec.getLsbD_setWidth, hj, decide_true,
      Bool.true_and, hmsb]
    split <;> simp_all

/-- What is extracted from a word in which a value has been inserted. -/
theorem extract_insert (h : ts.integral = true) (hsize : 1 ≤ f.size)
    (hf : f.size + f.shift ≤ 8 * ts.sizeof) :
    extract env ts f (insert env ts f old v) = fieldValue ts f v := by
  have hle := hostBits_le ts
  have hbit : ∀ j < 8 * ts.sizeof, (extract env ts f (insert env ts f old v)).getLsbD j =
      if j < f.size then v.getLsbD j else ts.signed && v.getLsbD (f.size - 1) := by
    intro j hj
    rw [getLsbD_extract h hsize hf hj]
    split
    · rw [getLsbD_insert h hsize hf (by omega), if_pos (by omega), Nat.add_sub_cancel]
    · rw [getLsbD_insert h hsize hf (by omega), if_pos (by omega)]
      congr 2
      omega
  apply BitVec.eq_of_getLsbD_eq
  intro j hj
  rw [getLsbD_fieldValue hsize hj, ← extract_fits h, getLsbD_conNormalize h hj]
  by_cases hj' : j < 8 * ts.sizeof
  · rw [if_pos hj', hbit j hj']
  · -- the sign of the field is the sign of the host word
    rw [if_neg hj', hbit _ (by omega), if_neg (show ¬ j < f.size by omega)]
    split
    · have hlast : 8 * ts.sizeof - 1 = f.size - 1 := by omega
      rw [hlast]
    · rw [← Bool.and_assoc, Bool.and_self]

/-! ### Runs -/

/-- An arithmetic insn at the type of its destination. -/
theorem exec_arith {op : InsnOp} (hop : op ∈ [.and, .or, .shl, .shr]) (o₁ o₂ : Operand) :
    exec env.toEnv (insnNew op (some (operandReg ts r)) (some o₁) (some o₂)) s =
      { s with
        regs := Function.update s.regs r
          (arithWord env op ts (o₁.read env.toEnv s.regs) (o₂.read env.toEnv s.regs)) } := by
  simp only [List.mem_cons, List.not_mem_nil, or_false] at hop
  rcases hop with rfl | rfl | rfl | rfl <;> rfl

theorem read_reg (h : ts.integral = true) (regs : PseudoReg → Word) (r : PseudoReg) :
    (operandReg ts r).read env.toEnv regs = conNormalize ts (regs r) := fit_of_integral h _

theorem read_int {n : Nat} (hn : n < 64) (regs : PseudoReg → Word) :
    (operandI .int (BitVec.ofNat 64 n) none).read env.toEnv regs = BitVec.ofNat 64 n := by
  have hall : ∀ n : Fin 64, conNormalize .int (BitVec.ofNat 64 n.1) = BitVec.ofNat 64 n.1 := by
    decide
  show conNormalize .int (0 + BitVec.ofNat 64 n) = _
  rw [zero_add]
  exact hall ⟨n, hn⟩

theorem read_mask (h : ts.integral = true) (w : Word) (regs : PseudoReg → Word) :
    (operandI ts w none).read env.toEnv regs = conNormalize ts w := by
  have hread : (operandI ts w none).read env.toEnv regs = conNormalize ts (0 + w) := by
    cases ts <;> first | rfl | exact nomatch h
  rw [hread, zero_add]

/-- `extract` leaves the field in its register. -/
theorem execs_extract (h : ts.integral = true) (hsize : 1 ≤ f.size)
    (hf : f.size + f.shift ≤ 8 * ts.sizeof) :
    execs env.toEnv (extractInsns ts r f) s =
      { s with
        regs := Function.update s.regs r (extract env ts f (conNormalize ts (s.regs r))) } := by
  have hle := hostBits_le ts
  rw [extractInsns, execs_cons, execs_cons, execs_nil, exec_arith (by simp), exec_arith (by simp)]
  dsimp only
  rw [read_reg h, read_int (by omega), read_reg h, read_int (by omega), Function.update_self,
    Function.update_idem, arithWord_fits h]
  rfl

/-- The host word at an address. -/
def hostAt (ts : TypeBits) (s : Ncc.State) (a : Word) : Word :=
  conNormalize ts (loadWord s.mem a ts.sizeof)

/-- The temporaries of a field assignment are new: they are not in the operands, nor is one of them
    another. -/
structure NewTemps (ptr value : Operand) (new shifted temp : PseudoReg) : Prop where
  ptr : ∀ r ∈ operandRegs (some ptr), r ≠ new ∧ r ≠ shifted ∧ r ≠ temp
  value : ∀ r ∈ operandRegs (some value), r ≠ new ∧ r ≠ shifted ∧ r ≠ temp
  distinct : new ≠ shifted ∧ new ≠ temp ∧ shifted ≠ temp

theorem exec_loadInsn (h : ts.integral = true) (vol : Bool) (ptr : Operand) :
    exec env.toEnv (loadInsn vol (operandReg ts r) ptr) s =
      { s with
        regs := Function.update s.regs r (hostAt ts s (ptr.read env.toEnv s.regs)) } := by
  rw [exec_load env.toEnv rfl]
  show { s with regs := Function.update s.regs r (fit ts _) } = _
  rw [fit_of_integral h]
  rfl

variable {ptr value : Operand} {new shifted temp dst : PseudoReg} {vol : Bool}

/-- `insert` leaves the new host word in its temporary. -/
theorem execs_insert (h : ts.integral = true) (hf : f.size + f.shift ≤ 8 * ts.sizeof)
    (hsize : 1 ≤ f.size) (ht : NewTemps ptr value new shifted temp) :
    let s' := execs env.toEnv (insertInsns ts vol ptr value new shifted f) s
    s'.regs new = insert env ts f (hostAt ts s (ptr.read env.toEnv s.regs))
        (value.read env.toEnv s.regs) ∧
      s'.mem = s.mem ∧ ∀ r, r ≠ new → r ≠ shifted → s'.regs r = s.regs r := by
  have hle := hostBits_le ts
  obtain ⟨hne, -, -⟩ := ht.distinct
  have hptr : ∀ regs w, (ptr.read env.toEnv (Function.update regs shifted w)) =
      ptr.read env.toEnv regs := fun regs w =>
    readOpt_congr env.toEnv fun r hr => Function.update_of_ne (ht.ptr r hr).2.1 ..
  rw [insertInsns]
  simp only [execs_cons, execs_nil, exec_loadInsn h]
  rw [exec_arith (by simp), exec_arith (by simp), exec_arith (by simp), exec_arith (by simp)]
  dsimp only
  refine ⟨?_, rfl, fun r hr hr' => ?_⟩
  · have hhost : conNormalize ts (hostAt ts s (ptr.read env.toEnv s.regs)) =
        hostAt ts s (ptr.read env.toEnv s.regs) := conNormalize_self ts _
    simp only [read_reg h, read_mask h, read_int (show f.shift < 64 by omega), hptr,
      Function.update_self, Function.update_of_ne hne.symm, arithWord_fits h]
    show arithWord env .or ts (arithWord env .and ts (conNormalize ts (hostAt ts s _)) _) _ = _
    rw [hhost]
    rfl
  · simp [Function.update_of_ne, hr, hr']

/-- A fetch of the field. -/
theorem execs_fetch (h : ts.integral = true) (hsize : 1 ≤ f.size)
    (hf : f.size + f.shift ≤ 8 * ts.sizeof) :
    (execs env.toEnv (fetchInsns ts vol ptr dst f) s).regs dst =
      extract env ts f (hostAt ts s (ptr.read env.toEnv s.regs)) := by
  rw [fetchInsns, execs_cons, execs_extract h hsize hf, exec_loadInsn h]
  dsimp only
  rw [Function.update_self, Function.update_self, hostAt, conNormalize_self]

/-- A word that has been stored is read back. -/
theorem hostAt_storeWord (hw : conNormalize ts w = w) (h : ts.integral = true) (a : Word)
    {m : Mem} (hmem : s.mem = storeWord m a ts.sizeof w) : hostAt ts s a = w := by
  rw [hostAt, hmem, loadWord_storeWord _ _ _ (sizeof_pos ts).2, ← fit_of_integral h,
    fit_setWidth, fit_of_integral h, hw]

end

/-- What an assignment to a field owes: in the host word the bits of the field are the low bits of
    the value and the others stay, nothing else changes in memory, and it yields the value truncated
    to the field and extended again, which is what a fetch finds there. -/
structure FieldStored (env : Env) (ts : TypeBits) (f : Field) (vol : Bool) (ptr value : Operand)
    (temp dst : PseudoReg) (s s' : Ncc.State) : Prop where
  bits : ∀ j < 8 * ts.sizeof, (hostAt ts s' (ptr.read env.toEnv s.regs)).getLsbD j =
    if f.shift ≤ j ∧ j < f.size + f.shift then
      (value.read env.toEnv s.regs).getLsbD (j - f.shift)
    else (hostAt ts s (ptr.read env.toEnv s.regs)).getLsbD j
  mem : s'.mem = storeWord s.mem (ptr.read env.toEnv s.regs) ts.sizeof
    (hostAt ts s' (ptr.read env.toEnv s.regs))
  yields : s'.regs temp = fieldValue ts f (value.read env.toEnv s.regs)
  fetched : (execs env.toEnv (fetchInsns ts vol ptr dst f) s').regs dst =
    fieldValue ts f (value.read env.toEnv s.regs)

/-- To store into a field and to fetch from it are inverse, for every host type, place in the host
    word and value. -/
theorem field_store_fetch (env : Env) (ts : TypeBits) (h : ts.integral = true) (f : Field)
    (hsize : 1 ≤ f.size) (hf : f.size + f.shift ≤ 8 * ts.sizeof) (vol : Bool)
    (ptr value : Operand) (new shifted temp dst : PseudoReg)
    (ht : NewTemps ptr value new shifted temp) (s : Ncc.State) :
    FieldStored env ts f vol ptr value temp dst s
      (execs env.toEnv (asgInsns ts vol ptr value new shifted temp f) s) := by
  set s' := execs env.toEnv (asgInsns ts vol ptr value new shifted temp f) s with hs₂def
  set a := ptr.read env.toEnv s.regs with ha
  set v := value.read env.toEnv s.regs with hv
  obtain ⟨hnew, hmem, hregs⟩ := @execs_insert env ts f s ptr value new shifted temp vol h hf hsize ht
  set s₁ := execs env.toEnv (insertInsns ts vol ptr value new shifted f) s with hs₁
  have hptr : ∀ regs : PseudoReg → Word, (∀ r, r ≠ new → r ≠ shifted → r ≠ temp →
      regs r = s.regs r) → ptr.read env.toEnv regs = a := fun regs hr =>
    readOpt_congr env.toEnv fun r hmem =>
      hr r (ht.ptr r hmem).1 (ht.ptr r hmem).2.1 (ht.ptr r hmem).2.2
  set w := insert env ts f (hostAt ts s a) v with hw
  have hfits : conNormalize ts w = w := insert_fits h
  have hs' : s' = { s₁ with
      mem := storeWord s.mem a ts.sizeof w
      regs := Function.update s₁.regs temp (fieldValue ts f v) } := by
    have hread : (operandReg ts new).read env.toEnv s₁.regs = w := by rw [read_reg h, hnew, hfits]
    have hstore : exec env.toEnv (storeInsn vol ptr (operandReg ts new)) s₁ =
        { s₁ with mem := storeWord s.mem a ts.sizeof w } := by
      rw [exec_store env.toEnv rfl]
      show { s₁ with
        mem := storeWord s₁.mem (ptr.read env.toEnv s₁.regs) ts.sizeof
          ((operandReg ts new).read env.toEnv s₁.regs) } = _
      rw [hptr _ fun r hr hr' _ => hregs r hr hr', hread, hmem]
    have hmove : ∀ s₂ : Ncc.State, s₂.regs = s₁.regs →
        exec env.toEnv (insnNew .move (some (operandReg ts temp)) (some (operandReg ts new))) s₂ =
          { s₂ with regs := Function.update s₂.regs temp w } := by
      intro s₂ hs₂
      show { s₂ with
        regs := Function.update s₂.regs temp
          (fit ts ((operandReg ts new).read env.toEnv s₂.regs)) } = _
      rw [hs₂, hread, fit_of_integral h, hfits]
    rw [hs₂def, asgInsns, execs_append, execs_append, ← hs₁, execs_extract h hsize hf, execs_cons,
      execs_cons, execs_nil, hstore, hmove { s₁ with mem := storeWord s.mem a ts.sizeof w } rfl]
    dsimp only
    rw [Function.update_self, Function.update_idem, hfits, hw, extract_insert h hsize hf]
  have hhost : hostAt ts s' a = w := hostAt_storeWord hfits h a (by rw [hs'])
  refine ⟨fun j hj => ?_, ?_, ?_, ?_⟩
  · rw [hhost]
    exact getLsbD_insert h hsize hf hj
  · rw [hhost, hs']
  · rw [hs']
    exact Function.update_self ..
  · rw [execs_fetch h hsize hf, hptr, hhost]
    · exact extract_insert h hsize hf
    · intro r hr hr' hr''
      rw [hs']
      exact (Function.update_of_ne hr'' ..).trans (hregs r hr hr')

/-- A signed field of three bits at bit 29 of an int. -/
theorem field_store_fetch_int :
    FieldStored default .int ⟨3, 29⟩ false (operandReg .ulong 64) (operandReg .int 65) 68 69 default
      (execs (default : Env).toEnv
        (asgInsns .int false (operandReg .ulong 64) (operandReg .int 65) 66 67 68 ⟨3, 29⟩)
        default) :=
  field_store_fetch default .int rfl ⟨3, 29⟩ (by decide) (by decide) false (operandReg .ulong 64)
    (operandReg .int 65) 66 67 68 69 ⟨by simp [operandRegs, operandReg], by simp [operandRegs, operandReg], by decide⟩ default

end Ncc.Gen
