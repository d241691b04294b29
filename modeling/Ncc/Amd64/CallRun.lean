import Ncc.Amd64.Call
import Ncc.Amd64.SelxnSound

/-! What the code of a call does.

    An argument is a sequence of bytes, from a register, a constant or memory (`Actual.byte`). Each
    turn of `call1` puts one below the stack pointer (`Pushed`) and leaves the registers that later
    arguments are read from (`Stable`). -/

namespace Ncc.Amd64

/-! ### Bytes of operands -/

section
variable (env : Env)

/-- Byte `k` of what an operand stands for. -/
def Machine.byte (s : Machine) (o : Operand) (k : Nat) : BitVec 8 :=
  if o.cls = .mem then s.mem (o.address env s.regs + BitVec.ofNat 64 k)
  else wordByte (s.value env o 8) k

end

section
variable {env : Env} {callee : Word → Machine → Machine} {s s' : Machine} {o src : Operand}
variable {n k : Nat} {r : PseudoReg} {ts : TypeBits}

theorem wordByte_value (hk : k < n) (hn : n ≤ 8) :
    wordByte (s.value env o n) k = s.byte env o k := by
  unfold Machine.byte Machine.value
  split <;> simp_all [wordByte_loadWord _ _ hn hk]

theorem sizeof_le_moveSize (ts : TypeBits) :
    ts.sizeof ≤ (moveOp ts).moveSize ∧ (moveOp ts).moveSize ≤ 8 := by
  cases ts <;> decide

theorem moveSize_storeOp (ts : TypeBits) : (storeOp ts).moveSize = ts.sizeof := by
  cases ts <;> rfl

theorem exec_moveOp (ts : TypeBits) (o₁ o₂ : Operand) :
    Code.exec env callee ⟨moveOp ts, [o₁, o₂]⟩ s = s.move env (moveOp ts) o₁ o₂ := by
  cases ts <;> rfl

theorem exec_storeOp (ts : TypeBits) (o₁ o₂ : Operand) :
    Code.exec env callee ⟨storeOp ts, [o₁, o₂]⟩ s = s.move env (storeOp ts) o₁ o₂ := by
  cases ts <;> rfl

/-- A small constant fits in the low half of a word. -/
theorem insertLow_small (h : operandSmall o = true) :
    insertLow 4 0 (s.value env o 4) = s.value env o 8 := by
  simp only [operandSmall, Bool.and_eq_true, decide_eq_true_eq, Option.isNone_iff_eq_none] at h
  obtain ⟨⟨hcls, hi⟩, hsym⟩ := h
  have hmask : (0xFFFFFFFF : Word) = (BitVec.allOnes 32).setWidth 64 := by decide
  have hhigh : ∀ j, 32 ≤ j → o.i.getLsbD j = false := by
    intro j hj
    have hbit := congrArg (fun w : Word => w.getLsbD j) hi
    simp only [hmask, BitVec.getLsbD_and, BitVec.getLsbD_setWidth, BitVec.getLsbD_allOnes] at hbit
    simpa [show ¬ j < 32 by omega] using hbit.symm
  simp only [Machine.value, hcls, hsym, symWord, insertLow]
  apply BitVec.eq_of_getLsbD_eq
  intro j hj
  by_cases h32 : j < 32
  · simp [h32, hj]
  · have hbit := hhigh j (by omega)
    rw [BitVec.getLsbD_eq_getElem hj] at hbit
    simp [h32, hj, hbit]

variable (env callee) in
/-- `move` into a register: it holds the bytes of the source. -/
theorem exec_move (s : Machine) (hsrc : src.cls ≠ .eff) (ts : TypeBits) (r : PseudoReg) :
    ∃ w, (move src (operandReg ts r 0)).exec env callee s = s.setReg r w ∧
      ∀ k < ts.sizeof, wordByte w k = s.byte env src k := by
  unfold move
  rw [if_neg hsrc]
  split
  · next h =>
    simp only [Bool.and_eq_true] at h
    refine ⟨s.value env src 8, ?_, fun k hk => ?_⟩
    · exact congrArg (s.setReg r) (insertLow_small h.2)
    · exact wordByte_value (by cases ts <;> simp only [TypeBits.sizeof] at hk <;> omega) le_rfl
  · have hreg : (operandReg ts r 0).cls ≠ .mem := by simp [operandReg, operandNew]
    refine ⟨_, (exec_moveOp ts _ _).trans (by rw [Machine.move, if_neg hreg]; rfl), fun k hk => ?_⟩
    obtain ⟨hle, hle'⟩ := sizeof_le_moveSize ts
    rw [wordByte_moved _ _ (by omega), wordByte_value (by omega) hle']

variable (env callee) in
/-- The same, of a word. -/
theorem exec_move_long (s : Machine) (hcls : src.cls = .reg ∨ src.cls = .con) (hts : ts.sizeof = 8)
    (r : PseudoReg) :
    (move src (operandReg ts r 0)).exec env callee s = s.setReg r (s.value env src 8) := by
  obtain ⟨w, hw, hb⟩ := exec_move env callee s
    (show src.cls ≠ .eff by rcases hcls with h | h <;> rw [h] <;> decide) ts r
  rw [hw]
  congr 1
  apply BitVec.eq_of_getLsbD_eq
  intro j hj
  have hbyte := hb (j / 8) (by omega)
  rw [← wordByte_value (show j / 8 < 8 by omega) le_rfl] at hbyte
  have hbit := congrArg (fun b : BitVec 8 => b.getLsbD (j % 8)) hbyte
  have hj' : 8 * (j / 8) + j % 8 = j := Nat.div_add_mod j 8
  simpa [wordByte, hj', Nat.mod_lt] using hbit

end

/-! ### Registers -/

/-- Temporaries are pseudo registers, and the first `limit` are all different. -/
structure Fresh (temp : TypeBits → Nat → PseudoReg) (limit : Nat) : Prop where
  pseudo : ∀ ts n, isPhysical (temp ts n) = false
  inj : ∀ ts ts' n n', n < limit → n' < limit → temp ts n = temp ts' n' → n = n'

/-- A register that no code of a call writes, once `n` temporaries have been made: the frame pointer,
    and pseudo registers other than later temporaries. -/
def Stable (temp : TypeBits → Nat → PseudoReg) (n : Nat) (r : PseudoReg) : Prop :=
  r = rbp ∨ isPhysical r = false ∧ ∀ ts m, n ≤ m → r ≠ temp ts m

/-- The code wrote temporaries `n` to `n'` at most. -/
structure Loaded (temp : TypeBits → Nat → PseudoReg) (n n' : Nat) (s s' : Machine) : Prop where
  le : n ≤ n'
  mem : s'.mem = s.mem
  rep : s'.rep = s.rep
  regs : ∀ r, (∀ ts m, n ≤ m → m < n' → r ≠ temp ts m) → s'.regs r = s.regs r

section
variable {env : Env} {callee : Word → Machine → Machine} {s s' s'' : Machine} {o src dst : Operand}
variable {n n' n'' m k limit : Nat} {r q : PseudoReg} {ts : TypeBits}
variable {temp : TypeBits → Nat → PseudoReg} {selxns : Selxns}

theorem Stable.mono (h : Stable temp n r) (hle : n ≤ m) : Stable temp m r :=
  h.imp_right fun h => ⟨h.1, fun ts j hj => h.2 ts j (hle.trans hj)⟩

theorem ne_of_isPhysical (hr : isPhysical r = false) (hq : isPhysical q = true) : r ≠ q := by
  rintro rfl
  exact absurd (hr.symm.trans hq) (by decide)

theorem Stable.ne (h : Stable temp n r) (hq : isPhysical q = true) (hne : q ≠ rbp) : r ≠ q := by
  rcases h with rfl | ⟨hr, -⟩
  · exact hne.symm
  · exact ne_of_isPhysical hr hq

theorem Stable.ne_none (h : Stable temp n r) : r ≠ regNone := h.ne (by decide) (by decide)

theorem Fresh.mono {limit' : Nat} (h : Fresh temp limit) (hle : limit' ≤ limit) :
    Fresh temp limit' :=
  ⟨h.pseudo, fun ts ts' n n' hn hn' => h.inj ts ts' n n' (hn.trans_le hle) (hn'.trans_le hle)⟩

theorem Stable.ne_temp (hf : Fresh temp limit) (h : Stable temp n r) (hm : n ≤ m) : r ≠ temp ts m := by
  rcases h with rfl | ⟨-, h⟩
  · exact (ne_of_isPhysical (hf.pseudo ts m) (by decide)).symm
  · exact h ts m hm

theorem Loaded.refl (n : Nat) (s : Machine) : Loaded temp n n s s :=
  ⟨le_rfl, rfl, rfl, fun _ _ => rfl⟩

theorem Loaded.trans (h : Loaded temp n n' s s') (h' : Loaded temp n' n'' s' s'') :
    Loaded temp n n'' s s'' := by
  refine ⟨h.le.trans h'.le, h'.mem.trans h.mem, h'.rep.trans h.rep, fun r hr => ?_⟩
  rw [h'.regs r fun ts m hm hlt => hr ts m (h.le.trans hm) hlt,
    h.regs r fun ts m hm hlt => hr ts m hm (hlt.trans_le h'.le)]

theorem Loaded.stable (hf : Fresh temp limit) (h : Loaded temp n n' s s') (hr : Stable temp n r) :
    s'.regs r = s.regs r :=
  h.regs r fun _ _ hm _ => hr.ne_temp hf hm

theorem Loaded.physical (hf : Fresh temp limit) (h : Loaded temp n n' s s') (hr : isPhysical r = true) :
    s'.regs r = s.regs r :=
  h.regs r fun ts m _ _ => (ne_of_isPhysical (hf.pseudo ts m) hr).symm

/-- A temporary is loaded. -/
theorem loaded_setReg (n : Nat) (ts : TypeBits) (w : Word) (s : Machine) :
    Loaded temp n (n + 1) s (s.setReg (temp ts n) w) :=
  ⟨Nat.le_succ n, rfl, rfl, fun _ hr => setReg_ne (hr ts n le_rfl (Nat.lt_succ_self n))⟩

/-! ### Operands -/

theorem isReg_tmp (hf : Fresh temp limit) (n : Nat) (ts : TypeBits) : (operandTmp temp n ts).IsReg :=
  ⟨rfl, ne_of_isPhysical (hf.pseudo ts n) (by decide), rfl, rfl, rfl, rfl⟩

theorem mentions_reg {age : Nat} (h : (operandReg ts q age).mentions r = true) : q = r := by
  simp only [Operand.mentions, operandReg, operandNew, ne_eq, not_true_eq_false, decide_false,
    Bool.false_and, Bool.or_false, Bool.and_eq_true] at h
  exact of_decide_eq_true h.2

theorem byte_reg (h : o.cls = .reg) : s.byte env o k = wordByte (s.regs o.reg) k := by
  simp [Machine.byte, Machine.value, h]

/-- What an operand stands for changes with its registers and with memory. -/
theorem byte_congr (hregs : ∀ r, o.mentions r = true → s'.regs r = s.regs r)
    (hmem : o.cls = .mem → s'.mem (o.address env s.regs + BitVec.ofNat 64 k) =
      s.mem (o.address env s.regs + BitVec.ofNat 64 k))
    (hreg : o.cls = .reg → o.reg ≠ regNone) : s'.byte env o k = s.byte env o k := by
  have haddr : o.address env s'.regs = o.address env s.regs := address_congr hregs
  cases hcls : o.cls with
  | mem => rw [Machine.byte, if_pos hcls, Machine.byte, if_pos hcls, haddr, hmem hcls]
  | reg => rw [byte_reg hcls, byte_reg hcls, hregs o.reg (by simp [Operand.mentions, hreg hcls])]
  | con => simp [Machine.byte, Machine.value, hcls]
  | eff => simp [Machine.byte, Machine.value, hcls, haddr]

/-- A register or a constant is the address it stands for. -/
theorem value_address (hcls : o.cls = .con → o.reg = regNone ∧ o.idx = regNone)
    (hreg : o.cls = .reg → o.IsReg) (h : o.cls = .con ∨ o.cls = .reg) :
    s.value env o 8 = o.address env s.regs := by
  rcases h with h | h
  · simp [Machine.value, Operand.address, h, hcls h]
  · have hr := hreg h
    simp [Machine.value, Operand.address, h, hr.idx, hr.sym, hr.i, regWord, hr.reg, symWord]

theorem operandHuge_con (h : operandHuge o = true) : o.cls = .con ∧ o.ts.sizeof = 8 := by
  simp only [operandHuge, Bool.and_eq_true, decide_eq_true_eq] at h
  refine ⟨h.1.2, ?_⟩
  cases hts : o.ts <;> simp_all [isLongs, TypeBits.sizeof]

variable (env callee) in
/-- `dehuge` loads a temporary with what the operand stands for. -/
theorem dehuge_spec (n : Nat) (o : Operand) (s : Machine) :
    Loaded temp n (dehuge temp n o).1 s (execs env callee (dehuge temp n o).2.2 s) ∧
      (∀ k < 8, (execs env callee (dehuge temp n o).2.2 s).byte env (dehuge temp n o).2.1 k =
        s.byte env o k) ∧
      (dehuge temp n o).2.1.ts = o.ts ∧
      ((dehuge temp n o).2.1 = o ∨
        o.cls = .con ∧ (dehuge temp n o).2.1 = operandTmp temp n o.ts ∧
        (dehuge temp n o).1 = n + 1 ∧
        (execs env callee (dehuge temp n o).2.2 s).regs (temp o.ts n) = s.value env o 8) := by
  unfold dehuge
  split
  · next h =>
    obtain ⟨hcls, hts⟩ := operandHuge_con h
    have hmove := exec_move_long env callee s (.inr hcls) hts (temp o.ts n)
    have hexec : execs env callee [move o (operandTmp temp n o.ts)] s =
        s.setReg (temp o.ts n) (s.value env o 8) := hmove
    refine ⟨hexec ▸ loaded_setReg n o.ts _ s, fun k _ => ?_, rfl, .inr ⟨hcls, rfl, rfl, ?_⟩⟩
    · rw [hexec, byte_reg rfl]
      show wordByte ((s.setReg _ _).regs (temp o.ts n)) k = _
      rw [setReg_self, Machine.byte, if_neg (by rw [hcls]; decide)]
    · rw [hexec, setReg_self]
  · exact ⟨.refl n s, fun _ _ => rfl, rfl, .inl rfl⟩

variable (env callee) in
/-- `demem` loads a temporary with a floating constant. -/
theorem demem_spec (n : Nat) (o : Operand) (s : Machine) :
    Loaded temp n (demem temp n o).1 s (execs env callee (demem temp n o).2.2 s) ∧
      (∀ k < o.ts.sizeof,
        (execs env callee (demem temp n o).2.2 s).byte env (demem temp n o).2.1 k =
          s.byte env o k) ∧
      (demem temp n o).2.1.ts = o.ts ∧ (demem temp n o).2.1.cls ≠ .mem := by
  unfold demem
  split
  · next h =>
    obtain ⟨w, hexec, hw⟩ := exec_move env callee s
      (show o.cls ≠ .eff by rw [h]; decide) o.ts (temp o.ts n)
    have hexec' : execs env callee [move o (operandTmp temp n o.ts)] s =
        s.setReg (temp o.ts n) w := hexec
    refine ⟨hexec' ▸ loaded_setReg n o.ts _ s, fun k hk => ?_, rfl,
      by simp [operandTmp, operandReg, operandNew]⟩
    rw [hexec', byte_reg rfl, ← hw k hk]
    show wordByte ((s.setReg _ _).regs (temp o.ts n)) k = _
    rw [setReg_self]
  · next h => exact ⟨.refl n s, fun _ _ => rfl, rfl, h⟩

/-! ### Copies -/

/-- A register or a constant that is used as an address: an entry of the cache that takes its place
    stands for the same address, and is read from registers that are left alone. -/
structure IsAddress (env : Env) (temp : TypeBits → Nat → PseudoReg) (selxns : Selxns) (n : Nat)
    (s : Machine) (o : Operand) : Prop where
  imported : Imported o
  cls : o.cls = .con ∨ o.cls = .reg
  stable : ∀ r, o.mentions r = true → Stable temp n r
  sound : (materialize selxns o).address env s.regs = o.address env s.regs
  entry : ∀ r, (materialize selxns o).mentions r = true → Stable temp n r
  small : operandHuge (materialize selxns o) = true → materialize selxns o = o

theorem Imported.con (h : Imported o) (hcls : o.cls = .con) : o.reg = regNone ∧ o.idx = regNone := by
  rcases h with h | ⟨-, hr, hi, -⟩
  · exact absurd (hcls.symm.trans h.cls) (by decide)
  · exact ⟨hr, hi⟩

theorem Imported.isReg (h : Imported o) (hcls : o.cls = .reg) : o.IsReg :=
  h.resolve_right fun h => h.1 hcls

theorem IsAddress.value (h : IsAddress env temp selxns n s o) :
    s.value env o 8 = o.address env s.regs :=
  value_address h.imported.con h.imported.isReg h.cls

/-- Later code leaves an address alone. -/
theorem IsAddress.congr (h : IsAddress env temp selxns n s o)
    (hregs : ∀ r, Stable temp n r → s'.regs r = s.regs r) (hle : n ≤ m) :
    IsAddress env temp selxns m s' o ∧ o.address env s'.regs = o.address env s.regs := by
  have haddr : o.address env s'.regs = o.address env s.regs :=
    address_congr fun r hr => hregs r (h.stable r hr)
  refine ⟨⟨h.imported, h.cls, fun r hr => (h.stable r hr).mono hle, ?_,
    fun r hr => (h.entry r hr).mono hle, h.small⟩, haddr⟩
  rw [haddr, ← h.sound]
  exact address_congr fun r hr => hregs r (h.entry r hr)

/-- A register that a copy of a block does not write, if no more than `limit` temporaries are made. -/
def Untouched (temp : TypeBits → Nat → PseudoReg) (n limit : Nat) (r : PseudoReg) : Prop :=
  (r ≠ rsi ∧ r ≠ rdi ∧ r ≠ rcx) ∧ ∀ ts m, n ≤ m → m < limit → r ≠ temp ts m

theorem Stable.untouched (hf : Fresh temp limit) (h : Stable temp n r) : Untouched temp n limit r :=
  ⟨⟨h.ne (by decide) (by decide), h.ne (by decide) (by decide), h.ne (by decide) (by decide)⟩,
    fun _ _ hm _ => h.ne_temp hf hm⟩

theorem Untouched.mono (h : Untouched temp n limit r) (hle : n ≤ m) : Untouched temp m limit r :=
  ⟨h.1, fun ts j hj => h.2 ts j (hle.trans hj)⟩

theorem Loaded.untouched (h : Loaded temp n n' s s') (hlim : n' ≤ limit) (hr : Untouched temp n limit r) :
    s'.regs r = s.regs r :=
  h.regs r fun ts m hm hlt => hr.2 ts m hm (hlt.trans_le hlim)

/-- An address that a block is copied from or to: an entry of the cache that takes its place stands
    for the same address, and both are read from registers that the copy keeps. -/
structure Addressed (env : Env) (temp : TypeBits → Nat → PseudoReg) (selxns : Selxns) (n limit : Nat)
    (s : Machine) (o : Operand) : Prop where
  imported : Imported o
  cls : o.cls = .con ∨ o.cls = .reg
  kept : ∀ r, o.mentions r = true → Untouched temp n limit r
  sound : (materialize selxns o).address env s.regs = o.address env s.regs
  entry : ∀ r, (materialize selxns o).mentions r = true → Untouched temp n limit r
  small : operandHuge (materialize selxns o) = true → materialize selxns o = o

theorem IsAddress.addressed (hf : Fresh temp limit) (h : IsAddress env temp selxns n s o) :
    Addressed env temp selxns n limit s o :=
  ⟨h.imported, h.cls, fun r hr => (h.stable r hr).untouched hf, h.sound,
    fun r hr => (h.entry r hr).untouched hf, h.small⟩

theorem Addressed.value (h : Addressed env temp selxns n limit s o) :
    s.value env o 8 = o.address env s.regs :=
  value_address h.imported.con h.imported.isReg h.cls

/-- Code that keeps the registers leaves an address alone. -/
theorem Addressed.congr (h : Addressed env temp selxns n limit s o)
    (hregs : ∀ r, Untouched temp n limit r → s'.regs r = s.regs r) (hle : n ≤ m) :
    Addressed env temp selxns m limit s' o ∧ o.address env s'.regs = o.address env s.regs := by
  have haddr : o.address env s'.regs = o.address env s.regs :=
    address_congr fun r hr => hregs r (h.kept r hr)
  refine ⟨⟨h.imported, h.cls, fun r hr => (h.kept r hr).mono hle, ?_,
    fun r hr => (h.entry r hr).mono hle, h.small⟩, haddr⟩
  rw [haddr, ← h.sound]
  exact address_congr fun r hr => hregs r (h.entry r hr)

variable (env callee) in
/-- What `memorize` makes of an address. -/
theorem memorize_spec (hf : Fresh temp limit) (h : Addressed env temp selxns n limit s o)
    (hlim : (memorize temp selxns n o).1 ≤ limit) :
    Loaded temp n (memorize temp selxns n o).1 s
        (execs env callee (memorize temp selxns n o).2.2 s) ∧
      (memorize temp selxns n o).2.1.cls = .mem ∧
      (memorize temp selxns n o).2.1.address env
        (execs env callee (memorize temp selxns n o).2.2 s).regs = o.address env s.regs ∧
      ∀ r, (memorize temp selxns n o).2.1.mentions r = true → ∀ ts m,
        (memorize temp selxns n o).1 ≤ m → m < limit → r ≠ temp ts m := by
  obtain ⟨hload, -, -, hcase⟩ := @dehuge_spec env callee temp n (materialize selxns o) s
  have hle : n ≤ (memorize temp selxns n o).1 := hload.le
  refine ⟨hload, rfl, ?_, ?_⟩
  · rcases hcase with heq | ⟨hcls, heq, -, hreg⟩
    · show (dehuge temp n (materialize selxns o)).2.1.address env _ = _
      rw [heq, ← h.sound]
      exact address_congr fun r hr => hload.untouched hlim (h.entry r hr)
    · have ho : materialize selxns o = o := by
        refine h.small ?_
        by_contra hhuge
        have hsame : (dehuge temp n (materialize selxns o)).2.1 = materialize selxns o := by
          rw [dehuge, if_neg hhuge]
        rw [hsame] at heq
        rw [heq] at hcls
        exact absurd hcls (by simp [operandTmp, operandReg, operandNew])
      show (dehuge temp n (materialize selxns o)).2.1.address env _ = _
      rw [heq, operandTmp, address_operandReg, regWord,
        if_neg (ne_of_isPhysical (hf.pseudo _ _) (by decide))]
      refine hreg.trans ?_
      rw [ho]
      exact h.value
  · intro r hr ts m hm hmlim
    rcases hcase with heq | ⟨-, heq, hn, -⟩
    · have hr' : (materialize selxns o).mentions r = true := heq ▸ hr
      exact (h.entry r hr').2 ts m (hle.trans hm) hmlim
    · have hr' : (operandTmp temp n (materialize selxns o).ts).mentions r = true := heq ▸ hr
      obtain rfl : temp (materialize selxns o).ts n = r := mentions_reg hr'
      intro heq'
      have hm' : n + 1 ≤ m := hn ▸ hm
      have := hf.inj _ _ _ _ (by omega) hmlim heq'
      omega

/-- The stack pointer is not in the cache. -/
theorem materialize_rsp (h : selxns.lookup rsp = none) :
    materialize selxns rspOperand = rspOperand := by
  have hl : selxns.lookup rspOperand.reg = none := h
  rw [materialize, hl]
  exact if_pos rfl

theorem memorize_rsp (h : selxns.lookup rsp = none) (n : Nat) :
    memorize temp selxns n rspOperand = (n, { rspOperand with cls := .mem }, []) := by
  rw [memorize, materialize_rsp h]
  rfl

theorem untouched_rsp (hf : Fresh temp limit) : Untouched temp n limit rsp :=
  ⟨by decide, fun ts m _ _ => (ne_of_isPhysical (hf.pseudo ts m) (by decide)).symm⟩

/-- The stack pointer is an address. -/
theorem addressed_rsp (hf : Fresh temp limit) (h : selxns.lookup rsp = none) :
    Addressed env temp selxns n limit s rspOperand := by
  have hkept : ∀ r, rspOperand.mentions r = true → Untouched temp n limit r := by
    intro r hr
    obtain rfl : rsp = r := mentions_reg hr
    exact untouched_rsp hf
  refine ⟨.inl ⟨rfl, by decide, rfl, rfl, rfl, rfl⟩, .inr rfl, hkept, ?_, ?_, fun _ => ?_⟩
  · rw [materialize_rsp h]
  · rw [materialize_rsp h]
    exact hkept
  · exact materialize_rsp h

@[simp] theorem address_displace (o : Operand) (k : Nat) (regs : PseudoReg → Word) :
    (o.displace k).address env regs = o.address env regs + BitVec.ofNat 64 k := by
  simp only [Operand.address, Operand.displace]
  ring

/-- A memory operand that mentions no temporary from `n` on. -/
def Apart (temp : TypeBits → Nat → PseudoReg) (n limit : Nat) (o : Operand) : Prop :=
  o.cls = .mem ∧ ∀ r, o.mentions r = true → ∀ ts m, n ≤ m → m < limit → r ≠ temp ts m

theorem Apart.displace (h : Apart temp n limit o) (k : Nat) : Apart temp n limit (o.displace k) := h

theorem Apart.address (h : Apart temp n limit o)
    (hregs : ∀ r, (∀ ts m, n ≤ m → m < limit → r ≠ temp ts m) → s'.regs r = s.regs r) :
    o.address env s'.regs = o.address env s.regs :=
  address_congr fun r hr => hregs r (h.2 r hr)

/-- What a copy leaves: memory is copied, and only temporaries from `n` on are written. -/
structure Copies (temp : TypeBits → Nat → PseudoReg) (n limit : Nat) (s s' : Machine)
    (dst src : Word) (bytes : Nat) : Prop where
  copied : Copied s.mem s'.mem dst src bytes
  rep : s'.rep = s.rep
  regs : ∀ r, (∀ ts m, n ≤ m → m < limit → r ≠ temp ts m) → s'.regs r = s.regs r

/-- BLKCOPY0, of up to 8 bytes. -/
theorem blkcopy0_spec (hsrc : Apart temp n limit src) (hdst : Apart temp n limit dst)
    (hm : n ≤ m) (hlim : m < limit) (ts : TypeBits) (op : Op) (hop : op = .movq ∨ op = .movl ∨ op = .movw ∨ op = .movb) :
    Copies temp n limit s (execs env callee (blkcopy0 op src dst (operandTmp temp m ts)) s)
      (dst.address env s.regs) (src.address env s.regs) op.moveSize := by
  have hle : op.moveSize ≤ 8 := by rcases hop with rfl | rfl | rfl | rfl <;> decide
  have hexec : ∀ o₁ o₂ s, Code.exec env callee ⟨op, [o₁, o₂]⟩ s = s.move env op o₁ o₂ := by
    rcases hop with rfl | rfl | rfl | rfl <;> exact fun _ _ _ => rfl
  have hreg : (operandTmp temp m ts).cls ≠ .mem := by simp [operandTmp, operandReg, operandNew]
  obtain ⟨w, hw, hbytes⟩ : ∃ w, s.move env op src (operandTmp temp m ts) =
      s.setReg (temp ts m) w ∧
      ∀ k < op.moveSize, wordByte w k = s.mem (src.address env s.regs + BitVec.ofNat 64 k) := by
    refine ⟨_, by rw [Machine.move, if_neg hreg]; rfl, fun k hk => ?_⟩
    rw [wordByte_moved _ _ hk, wordByte_value hk hle, Machine.byte, if_pos hsrc.1]
  have hregs : ∀ r, (∀ ts m, n ≤ m → m < limit → r ≠ temp ts m) →
      (s.setReg (temp ts m) w).regs r = s.regs r := fun r hr => setReg_ne (hr ts m hm hlim)
  have hrun : execs env callee (blkcopy0 op src dst (operandTmp temp m ts)) s =
      { s.setReg (temp ts m) w with
        mem := storeWord s.mem (dst.address env s.regs) op.moveSize w } := by
    rw [blkcopy0, execs_cons, execs_cons, execs_nil, hexec, hexec, hw, Machine.move, if_pos hdst.1,
      hdst.address hregs]
    have hval : (s.setReg (temp ts m) w).value env (operandTmp temp m ts) op.moveSize = w :=
      setReg_self ..
    rw [hval]
    rfl
  rw [hrun]
  exact ⟨copied_storeWord hle hbytes, rfl, hregs⟩

/-- BLKCOPY0, of 16 bytes. -/
theorem blkcopy0_wide (hdst : Apart temp n limit dst) (hm : n ≤ m) (hlim : m < limit)
    (ts : TypeBits)
    (hd : Movable (src.address env s.regs) (dst.address env s.regs) (8 + 8)) :
    Copies temp n limit s (execs env callee (blkcopy0 .movups src dst (operandTmp temp m ts)) s)
      (dst.address env s.regs) (src.address env s.regs) 16 := by
  set a := src.address env s.regs with ha
  set b := dst.address env s.regs with hb
  have hregs : ∀ r, (∀ ts m, n ≤ m → m < limit → r ≠ temp ts m) →
      (s.setReg (temp ts m) (loadWord s.mem a 8)).regs r = s.regs r :=
    fun r hr => setReg_ne (hr ts m hm hlim)
  have hload : Code.exec env callee ⟨.movups, [src, operandTmp temp m ts]⟩ s =
      { s.setReg (temp ts m) (loadWord s.mem a 8) with
        high := Function.update s.high (temp ts m) (loadWord s.mem (a + 8) 8) } := rfl
  have hrun : execs env callee (blkcopy0 .movups src dst (operandTmp temp m ts)) s =
      { s.setReg (temp ts m) (loadWord s.mem a 8) with
        high := Function.update s.high (temp ts m) (loadWord s.mem (a + 8) 8)
        mem := storeWord (storeWord s.mem b 8 (loadWord s.mem a 8)) (b + 8) 8
          (loadWord s.mem (a + 8) 8) } := by
    rw [blkcopy0, execs_cons, execs_cons, execs_nil, hload]
    show Machine.moveWide env _ (operandTmp temp m ts) dst = _
    rw [Machine.moveWide, if_pos hdst.1]
    have hlow : (s.setReg (temp ts m) (loadWord s.mem a 8)).regs (operandTmp temp m ts).reg =
        loadWord s.mem a 8 := setReg_self ..
    have hhigh : Function.update s.high (temp ts m) (loadWord s.mem (a + 8) 8)
        (operandTmp temp m ts).reg = loadWord s.mem (a + 8) 8 := Function.update_self ..
    have haddr : dst.address env (s.setReg (temp ts m) (loadWord s.mem a 8)).regs = b :=
      hdst.address hregs
    simp only [hlow, hhigh, haddr, setReg_mem]
  rw [hrun]
  refine ⟨?_, rfl, hregs⟩
  have h₁ : Copied s.mem (storeWord s.mem b 8 (loadWord s.mem a 8)) b a 8 :=
    copied_storeWord le_rfl fun k hk => wordByte_loadWord _ _ le_rfl hk
  have h₂ : Copied (storeWord s.mem b 8 (loadWord s.mem a 8))
      (storeWord (storeWord s.mem b 8 (loadWord s.mem a 8)) (b + 8) 8 (loadWord s.mem (a + 8) 8))
      (b + 8) (a + 8) 8 := by
    refine copied_storeWord le_rfl fun k hk => ?_
    rw [wordByte_loadWord _ _ le_rfl hk]
    refine (h₁.others _ fun j hj => ?_).symm
    rw [show a + 8 + BitVec.ofNat 64 k = a + BitVec.ofNat 64 (8 + k) from
      (add_ofNat_add a 8 k).symm]
    exact hd.later (by decide) hk j (by omega)
  exact h₁.append h₂ hd (by decide)

theorem Copies.append {a b : Word} {i j : Nat} (h : Copies temp n limit s s' b a i)
    (h' : Copies temp n limit s' s'' (b + BitVec.ofNat 64 i) (a + BitVec.ofNat 64 i) j)
    (hd : Movable a b (i + j)) (hn : i + j ≤ 2 ^ 64) : Copies temp n limit s s'' b a (i + j) :=
  ⟨h.copied.append h'.copied hd hn, h'.rep.trans h.rep,
    fun r hr => (h'.regs r hr).trans (h.regs r hr)⟩

variable (env) in
/-- The address where the copy goes on. -/
theorem Copies.displace {a b : Word} {i : Nat} (h : Copies temp n limit s s' b a i) (ho : Apart temp n limit o)
    (j : Nat) : (o.displace j).address env s'.regs =
      o.address env s.regs + BitVec.ofNat 64 j := by
  rw [address_displace, ho.address h.regs]

/-- The temporary was made, or is made now. -/
theorem orTmp_spec {t : Option Operand} (hm : n ≤ m)
    (ht : ∀ o ∈ t, ∃ ts j, n ≤ j ∧ j < limit ∧ o = operandTmp temp j ts) (ts : TypeBits)
    (hlim : (orTmp temp m ts t).1 ≤ limit) :
    ∃ ts' j, n ≤ j ∧ j < limit ∧ (orTmp temp m ts t).2 = operandTmp temp j ts' := by
  rcases t with _ | o
  · exact ⟨ts, m, hm, hlim, rfl⟩
  · exact ht o rfl

theorem le_orTmp (m : Nat) (ts : TypeBits) (t : Option Operand) : m ≤ (orTmp temp m ts t).1 := by
  rcases t with _ | o
  · exact Nat.le_succ m
  · exact le_rfl

theorem le_blkcopyLoop (m : Nat) (t tXmm : Option Operand) (src dst : Operand) (k : Nat) :
    m ≤ (blkcopyLoop temp m t tXmm src dst k).1 := by
  induction k using Nat.strong_induction_on generalizing m t tXmm src dst with
  | _ k ih =>
    unfold blkcopyLoop
    split
    · exact le_rfl
    · next hk =>
      obtain ⟨hpos, hle⟩ := moveSize_blkcopyOp k hk
      split
      · exact (le_orTmp m .double tXmm).trans (ih (k - 16) (by omega) ..)
      · exact (le_orTmp m .long t).trans (ih _ (by omega) ..)

theorem blkcopyOp_cases (bytes : Nat) : blkcopyOp bytes = .movq ∨ blkcopyOp bytes = .movl ∨
    blkcopyOp bytes = .movw ∨ blkcopyOp bytes = .movb := by
  unfold blkcopyOp
  split_ifs <;> simp

/-- The loop of `blkcopy` copies the block. -/
theorem blkcopyLoop_spec (hbytes : k ≤ 2 ^ 64) {t tXmm : Option Operand} (hm : n ≤ m)
    (ht : ∀ o ∈ t, ∃ ts j, n ≤ j ∧ j < limit ∧ o = operandTmp temp j ts)
    (htXmm : ∀ o ∈ tXmm, ∃ ts j, n ≤ j ∧ j < limit ∧ o = operandTmp temp j ts)
    (hlim : (blkcopyLoop temp m t tXmm src dst k).1 ≤ limit)
    (hsrc : Apart temp n limit src) (hdst : Apart temp n limit dst)
    (hd : Movable (src.address env s.regs) (dst.address env s.regs) k) :
    Copies temp n limit s (execs env callee (blkcopyLoop temp m t tXmm src dst k).2 s)
      (dst.address env s.regs) (src.address env s.regs) k := by
  induction k using Nat.strong_induction_on generalizing m t tXmm src dst s with
  | _ k ih =>
    unfold blkcopyLoop at hlim ⊢
    split
    · next hk =>
      subst hk
      exact ⟨Copied.zero, rfl, fun _ _ => rfl⟩
    · next hk =>
      rw [dif_neg hk] at hlim
      split
      · next h16 =>
        -- 16 bytes, and the rest
        rw [if_pos h16] at hlim
        have hle := @le_orTmp temp m .double tXmm
        obtain ⟨ts, j, hj, hjlim, hr⟩ := orTmp_spec hm htXmm .double
          ((le_blkcopyLoop ..).trans hlim)
        obtain ⟨i, rfl⟩ := Nat.exists_eq_add_of_le h16
        have hfirst : Copies temp n limit s
            (execs env callee (blkcopy0 .movups src dst (operandTmp temp j ts)) s)
            (dst.address env s.regs) (src.address env s.regs) 16 :=
          blkcopy0_wide hdst hj hjlim ts hd.left
        dsimp only at hlim ⊢
        rw [hr, Nat.add_sub_cancel_left] at hlim ⊢
        have ha := hfirst.displace env hsrc 16
        have hb := hfirst.displace env hdst 16
        have hrest := ih i (by omega) (by omega) (hm.trans hle) ht
          (fun o ho => ⟨ts, j, hj, hjlim, (Option.some.inj ho).symm⟩) hlim (hsrc.displace 16)
          (hdst.displace 16) (by rw [ha, hb]; exact hd.right)
        rw [execs_append]
        rw [ha, hb] at hrest
        exact hfirst.append hrest hd hbytes
      · next h16 =>
        -- 8, 4, 2 bytes or one, and the rest
        rw [if_neg h16] at hlim
        have hle := @le_orTmp temp m .long t
        obtain ⟨ts, j, hj, hjlim, hr⟩ := orTmp_spec hm ht .long ((le_blkcopyLoop ..).trans hlim)
        obtain ⟨hpos, hop⟩ := moveSize_blkcopyOp k hk
        have hsize : (blkcopyOp k).moveSize + (k - (blkcopyOp k).moveSize) = k := by omega
        have hfirst : Copies temp n limit s
            (execs env callee (blkcopy0 (blkcopyOp k) src dst (operandTmp temp j ts)) s)
            (dst.address env s.regs) (src.address env s.regs) (blkcopyOp k).moveSize :=
          blkcopy0_spec hsrc hdst hj hjlim ts _ (blkcopyOp_cases k)
        dsimp only at hlim ⊢
        rw [hr] at hlim ⊢
        have ha := hfirst.displace env hsrc (blkcopyOp k).moveSize
        have hb := hfirst.displace env hdst (blkcopyOp k).moveSize
        rw [← hsize] at hd
        have hrest := ih (k - (blkcopyOp k).moveSize) (by omega) (by omega) (hm.trans hle)
          (fun o ho => ⟨ts, j, hj, hjlim, (Option.some.inj ho).symm⟩) htXmm hlim (hsrc.displace _)
          (hdst.displace _) (by rw [ha, hb]; exact hd.right)
        rw [execs_append]
        rw [ha, hb] at hrest
        have happ := hfirst.append hrest hd (by omega)
        rwa [hsize] at happ

/-- What REP MOVS leaves. -/
theorem repeat_spec {size : Nat} (hsize : size ≤ 8) {j : Nat} (hj : size * j ≤ 2 ^ 64)
    (hd : Movable (s.regs rsi) (s.regs rdi) (size * j)) :
    Copied s.mem (Machine.repeat size j s).mem (s.regs rdi) (s.regs rsi) (size * j) ∧
      (Machine.repeat size j s).rep = s.rep ∧
      ∀ r, r ≠ rsi → r ≠ rdi → r ≠ rcx → (Machine.repeat size j s).regs r = s.regs r := by
  induction j generalizing s with
  | zero => exact ⟨.zero, rfl, fun _ _ _ _ => rfl⟩
  | succ j ih =>
    set s₁ := (s.string size).setReg rcx (BitVec.ofNat 64 j) with hs₁
    have hrsi : s₁.regs rsi = s.regs rsi + BitVec.ofNat 64 size := rfl
    have hrdi : s₁.regs rdi = s.regs rdi + BitVec.ofNat 64 size := rfl
    have hmul : size * (j + 1) = size + size * j := by ring
    rw [hmul] at hd hj ⊢
    have hfirst : Copied s.mem s₁.mem (s.regs rdi) (s.regs rsi) size :=
      copied_storeWord hsize fun k hk => wordByte_loadWord _ _ hsize hk
    obtain ⟨hcopied, hrep, hregs⟩ := @ih s₁ (by omega) (by
      rw [hrsi, hrdi]
      exact hd.right)
    rw [hrsi, hrdi] at hcopied
    refine ⟨hfirst.append hcopied hd hj, hrep, fun r h₁ h₂ h₃ => (hregs r h₁ h₂ h₃).trans ?_⟩
    rw [hs₁, setReg_ne h₃]
    exact (setReg_ne h₂).trans (setReg_ne h₁)

variable (env callee) in
/-- The string move of a large copy takes a whole number of steps. -/
theorem stringOp_spec (bytes : Nat) : (stringOp bytes).stringSize ≤ 8 ∧
    (stringOp bytes).stringSize * (bytes / (stringOp bytes).stringSize) = bytes ∧
    ∀ s : Machine, s.rep = true → Code.exec env callee ⟨stringOp bytes, []⟩ s =
      { Machine.repeat (stringOp bytes).stringSize (s.regs rcx).toNat s with rep := false } := by
  have hexec : ∀ op : Op, op = .movsb ∨ op = .movsw ∨ op = .movsl ∨ op = .movsq →
      ∀ s : Machine, s.rep = true → Code.exec env callee ⟨op, []⟩ s =
        { Machine.repeat op.stringSize (s.regs rcx).toNat s with rep := false } := by
    rintro op (rfl | rfl | rfl | rfl) s hs <;> exact if_pos hs
  unfold stringOp
  split_ifs <;> refine ⟨by decide, ?_, hexec _ (by simp)⟩ <;> simp only [Op.stringSize] <;> omega

theorem address_rsp (regs : PseudoReg → Word) :
    ({ rspOperand with cls := .mem } : Operand).address env regs = regs rsp := by
  have hrsp : rsp ≠ regNone := by decide
  simp [Operand.address, rspOperand, operandReg, operandNew, symWord, regWord, hrsp]

/-- What is kept when code puts something at the stack pointer. -/
structure Settled (temp : TypeBits → Nat → PseudoReg) (n n' : Nat) (s s' : Machine) : Prop where
  le : n ≤ n'
  rep : s'.rep = false
  rsp : s'.regs rsp = s.regs rsp
  stable : ∀ r, Stable temp n r → s'.regs r = s.regs r

/-- The code that comes before a string move. -/
def stringSetup (src dst : Operand) (count : Word) : List Code :=
  [move src (operandReg .ulong rsi 0), move dst (operandReg .ulong rdi 0),
    move (operandCon .long count none 0) (operandReg .ulong rcx 0), ⟨.rep, []⟩]

variable (env callee) in
/-- The addresses and the count are in their registers. -/
theorem execs_stringSetup (count : Word) (hsrc : Addressed env temp selxns n limit s src)
    (hdst : Addressed env temp selxns n limit s dst) :
    execs env callee (stringSetup src dst count) s =
      { ((s.setReg rsi (src.address env s.regs)).setReg rdi (dst.address env s.regs)).setReg rcx
          count with rep := true } := by
  set s₁ := s.setReg rsi (src.address env s.regs) with hs₁
  set s₂ := s₁.setReg rdi (dst.address env s.regs) with hs₂
  have h₁ : (move src (operandReg .ulong rsi 0)).exec env callee s = s₁ := by
    rw [exec_move_long env callee s hsrc.cls.symm rfl, hsrc.value]
  have h₂ : (move dst (operandReg .ulong rdi 0)).exec env callee s₁ = s₂ := by
    have haddr : dst.address env s₁.regs = dst.address env s.regs :=
      address_congr fun r hr => setReg_ne (hdst.kept r hr).1.1
    rw [exec_move_long env callee s₁ hdst.cls.symm rfl,
      value_address hdst.imported.con hdst.imported.isReg hdst.cls, haddr]
  have h₃ : (move (operandCon .long count none 0) (operandReg .ulong rcx 0)).exec env callee s₂ =
      s₂.setReg rcx count := by
    rw [exec_move_long env callee s₂ (.inr rfl) rfl]
    simp [Machine.value, operandCon, operandNew, symWord]
  simp only [stringSetup, execs_cons, execs_nil, h₁, h₂, h₃]
  rfl

variable (env callee) in
/-- A large block is copied with REP MOVS. -/
theorem blkcopy_string (hk : k < 2 ^ 64)
    (hsrc : Addressed env temp selxns n limit s src) (hdst : Addressed env temp selxns n limit s dst)
    (hmov : Movable (src.address env s.regs) (dst.address env s.regs) k) :
    let s' := execs env callee (stringSetup src dst (BitVec.ofNat 64 (k / (stringOp k).stringSize)) ++
      [⟨stringOp k, []⟩]) s
    Copied s.mem s'.mem (dst.address env s.regs) (src.address env s.regs) k ∧ s'.rep = false ∧
      ∀ r, Untouched temp n limit r → s'.regs r = s.regs r := by
  obtain ⟨hsize, hmul, hstring⟩ := stringOp_spec env callee k
  set op := stringOp k
  set s₃ := ((s.setReg rsi (src.address env s.regs)).setReg rdi (dst.address env s.regs)).setReg rcx
    (BitVec.ofNat 64 (k / op.stringSize)) with hs₃
  have hcount : (s₃.regs rcx).toNat = k / op.stringSize := by
    rw [hs₃, setReg_self, BitVec.toNat_ofNat]
    exact Nat.mod_eq_of_lt ((Nat.div_le_self _ _).trans_lt hk)
  have hrun : execs env callee (stringSetup src dst (BitVec.ofNat 64 (k / op.stringSize)) ++
      [⟨op, []⟩]) s =
      { Machine.repeat op.stringSize (k / op.stringSize) { s₃ with rep := true } with
        rep := false } := by
    rw [execs_append, execs_stringSetup env callee _ hsrc hdst, ← hs₃, ← hcount]
    exact hstring { s₃ with rep := true } rfl
  obtain ⟨hcopied, -, hregs⟩ := @repeat_spec { s₃ with rep := true } op.stringSize hsize
    (k / op.stringSize) (by omega) (by rw [hmul]; exact hmov)
  rw [hmul] at hcopied
  dsimp only
  rw [hrun]
  refine ⟨hcopied, rfl, fun r ⟨⟨a, b, c⟩, _⟩ => (hregs r a b c).trans ?_⟩
  exact (setReg_ne c).trans ((setReg_ne b).trans (setReg_ne a))

theorem le_dehuge (n : Nat) (o : Operand) : n ≤ (dehuge temp n o).1 := by
  unfold dehuge
  split
  · exact Nat.le_succ n
  · exact le_rfl

theorem le_memorize (n : Nat) (o : Operand) : n ≤ (memorize temp selxns n o).1 :=
  le_dehuge n (materialize selxns o)

variable (env callee) in
/-- Both addresses are memorized. -/
theorem memorize_both (hf : Fresh temp limit) (hsrc : Addressed env temp selxns n limit s src)
    (hdst : Addressed env temp selxns n limit s dst)
    (hlim : (memorize temp selxns (memorize temp selxns n src).1 dst).1 ≤ limit) :
    let m₁ := memorize temp selxns n src
    let m₂ := memorize temp selxns m₁.1 dst
    let s' := execs env callee (m₁.2.2 ++ m₂.2.2) s
    Loaded temp n m₂.1 s s' ∧ Apart temp m₂.1 limit m₁.2.1 ∧ Apart temp m₂.1 limit m₂.2.1 ∧
      m₁.2.1.address env s'.regs = src.address env s.regs ∧
      m₂.2.1.address env s'.regs = dst.address env s.regs := by
  intro m₁ m₂
  have hle₁ : n ≤ m₁.1 := le_memorize n src
  have hle₂ : m₁.1 ≤ m₂.1 := le_memorize _ dst
  obtain ⟨hload₁, hcls₁, haddr₁, hapart₁⟩ := memorize_spec env callee hf hsrc (hle₂.trans hlim)
  set s₁ := execs env callee m₁.2.2 s with hs₁
  have hkept : ∀ r, Untouched temp n limit r → s₁.regs r = s.regs r :=
    fun r hr => hload₁.untouched (hle₂.trans hlim) hr
  obtain ⟨hdst', hdaddr⟩ := hdst.congr hkept hle₁
  obtain ⟨hload₂, hcls₂, haddr₂, hapart₂⟩ := memorize_spec env callee hf hdst' hlim
  dsimp only
  rw [execs_append]
  refine ⟨hload₁.trans hload₂, ⟨hcls₁, fun r hr ts m hm => hapart₁ r hr ts m (hle₂.trans hm)⟩,
    ⟨hcls₂, hapart₂⟩, ?_, haddr₂.trans hdaddr⟩
  rw [← haddr₁]
  exact address_congr fun r hr => hload₂.regs r fun ts m hm hlt =>
    hapart₁ r hr ts m hm (hlt.trans_le hlim)

variable (env callee) in
/-- A block is copied from one address to another. -/
theorem blkcopy_copies (hf : Fresh temp limit) (hrep : s.rep = false) (hk : k < 2 ^ 64)
    (hsrc : Addressed env temp selxns n limit s src) (hdst : Addressed env temp selxns n limit s dst)
    (hlim : (blkcopy temp selxns n src dst k).1 ≤ limit)
    (hmov : Movable (src.address env s.regs) (dst.address env s.regs) k) :
    n ≤ (blkcopy temp selxns n src dst k).1 ∧
      Copied s.mem (execs env callee (blkcopy temp selxns n src dst k).2 s).mem
        (dst.address env s.regs) (src.address env s.regs) k ∧
      (execs env callee (blkcopy temp selxns n src dst k).2 s).rep = false ∧
      ∀ r, Untouched temp n limit r →
        (execs env callee (blkcopy temp selxns n src dst k).2 s).regs r = s.regs r := by
  unfold blkcopy at hlim ⊢
  split
  · exact ⟨le_rfl, blkcopy_string env callee hk hsrc hdst hmov⟩
  · next hsmall =>
    -- load/store cycles
    rw [if_neg hsmall] at hlim
    dsimp only at hlim ⊢
    have hle := (le_blkcopyLoop ..).trans hlim
    obtain ⟨hload, hapart₁, hapart₂, haddr₁, haddr₂⟩ := memorize_both env callee hf hsrc hdst hle
    have hcopies : Copies temp _ limit _ (execs env callee _ (execs env callee _ s)) _ _ k :=
      blkcopyLoop_spec hk.le le_rfl (by simp) (by simp) hlim hapart₁ hapart₂
        (by rw [haddr₁, haddr₂]; exact hmov)
    rw [haddr₁, haddr₂] at hcopies
    rw [execs_append]
    refine ⟨hload.le.trans (le_blkcopyLoop ..), hload.mem ▸ hcopies.copied, ?_, fun r hr => ?_⟩
    · exact hcopies.rep.trans (hload.rep.trans hrep)
    · rw [hcopies.regs r fun ts m hm => hr.2 ts m (hload.le.trans hm), hload.untouched hle hr]

variable (env callee) in
/-- A block is copied to the stack pointer. -/
theorem blkcopy_spec (hf : Fresh temp limit) (hsel : selxns.lookup rsp = none) (hrep : s.rep = false)
    (h : IsAddress env temp selxns n s src) (hk : k ≤ maxObjectSize)
    (hlim : (blkcopy temp selxns n src rspOperand k).1 ≤ limit)
    (hd : Movable (src.address env s.regs) (s.regs rsp) k) :
    Settled temp n (blkcopy temp selxns n src rspOperand k).1 s
        (execs env callee (blkcopy temp selxns n src rspOperand k).2 s) ∧
      Copied s.mem (execs env callee (blkcopy temp selxns n src rspOperand k).2 s).mem
        (s.regs rsp) (src.address env s.regs) k := by
  have haddr : rspOperand.address env s.regs = s.regs rsp := address_rsp s.regs
  rw [← haddr] at hd
  obtain ⟨hle, hcopied, hrep', hregs⟩ := blkcopy_copies env callee hf hrep
    (hk.trans_lt (by decide)) (h.addressed hf) (addressed_rsp hf hsel) hlim hd
  rw [haddr] at hcopied
  exact ⟨⟨hle, hrep', hregs rsp (untouched_rsp hf), fun r hr => hregs r (hr.untouched hf)⟩, hcopied⟩

end

end Ncc.Amd64
