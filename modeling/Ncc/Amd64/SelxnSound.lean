import Ncc.Amd64.Selxn

/-! What the address-mode cache promises, insn by insn.

    Every entry is to stand for its register, up to the register's type. `Makes` says what an insn
    enters, and `Makes.sound` that the cache is right again once what the insn DEFs was
    invalidated. -/

namespace Ncc.Amd64

/-! ### Words that agree up to a type -/

/-- The words agree in the bits that the type keeps. -/
def Low (ts : TypeBits) (a b : Word) : Prop :=
  a.setWidth (8 * ts.sizeof) = b.setWidth (8 * ts.sizeof)

section
variable {ts ts' : TypeBits} {a b c a' b' : Word}

theorem Low.refl (ts : TypeBits) (a : Word) : Low ts a a := rfl

theorem Low.symm (h : Low ts a b) : Low ts b a := Eq.symm h

theorem Low.trans (h : Low ts a b) (h' : Low ts b c) : Low ts a c := Eq.trans h h'

theorem sizeof_le (ts : TypeBits) : 8 * ts.sizeof ≤ 64 := by cases ts <;> decide

/-- Words that agree up to a type agree up to a narrower one. -/
theorem Low.mono (hts : ts'.sizeof ≤ ts.sizeof) (h : Low ts a b) : Low ts' a b := by
  have hnarrow : ∀ w : Word, w.setWidth (8 * ts'.sizeof) =
      (w.setWidth (8 * ts.sizeof)).setWidth (8 * ts'.sizeof) :=
    fun w => (BitVec.setWidth_setWidth_of_le w (by omega)).symm
  rw [Low, hnarrow, hnarrow b, h]

theorem Low.add (ha : Low ts a a') (hb : Low ts b b') : Low ts (a + b) (a' + b') := by
  rw [Low, BitVec.setWidth_add _ _ (sizeof_le ts), BitVec.setWidth_add _ _ (sizeof_le ts), ha, hb]

theorem Low.mul (ha : Low ts a a') (hb : Low ts b b') : Low ts (a * b) (a' * b') := by
  rw [Low, BitVec.setWidth_mul _ _ (sizeof_le ts), BitVec.setWidth_mul _ _ (sizeof_le ts), ha, hb]

theorem Low.neg (h : Low ts a b) : Low ts (-a) (-b) := by
  have hneg : ∀ w : Word, -w = -1 * w := fun w => by ring
  rw [hneg a, hneg b]
  exact (Low.refl ts _).mul h

/-- What a type keeps of a word. -/
theorem low_fit (ts : TypeBits) (w : Word) : Low ts (fit ts w) w := by
  cases ts <;> simp only [Low, fit, conNormalize, TypeBits.sizeof] <;>
    first
      | exact setWidth_setWidth_setWidth (by decide) w
      | exact setWidth_signExtend_setWidth (by decide) w

end

/-! ### The winner -/

/-- Operands as they are imported: a register alone, or a constant. -/
def Imported (o : Operand) : Prop :=
  o.IsReg ∨ o.cls ≠ .reg ∧ o.reg = regNone ∧ o.idx = regNone ∧ o.scale = 1

section
variable {c : Selxns} {o o₁ o₂ w x y z : Operand} {env : Env} {regs : PseudoReg → Word}

theorem Imported.plain (h : Imported o) : o.Plain := by
  rcases h with h | ⟨-, -, hi, hs⟩
  · exact plain_of_unindexed h.idx h.scale
  · exact plain_of_unindexed hi hs

theorem Imported.not_scaled (h : Imported o) : o.scaled = false := by
  rcases h with h | ⟨-, -, hi, -⟩
  · simp [Operand.scaled, h.reg]
  · simp [Operand.scaled, hi]

/-- `materialize` returns an entry or leaves the operand alone. -/
theorem materialize_cases (c : Selxns) (o : Operand) :
    materialize c o = o ∨ o.cls = .reg ∧ (o.reg, materialize c o) ∈ c := by
  unfold materialize
  split
  · next hcls =>
    rcases hl : c.lookup o.reg with _ | p
    · exact .inl rfl
    · exact .inr ⟨hcls, Assoc.lookup_eq_some.mp hl⟩
  · exact .inl rfl

theorem plain_materialize (hc : ∀ e, e ∈ c → e.2.Combined) (h : Imported o) :
    (materialize c o).Plain := by
  rcases materialize_cases c o with he | ⟨-, he⟩
  · rw [he]; exact h.plain
  · exact (hc _ he).toPlain

/-- A scaled operand comes from the cache, in place of a register. -/
theorem scaled_materialize (hc : ∀ e, e ∈ c → e.2.Combined) (h : Imported o)
    (hs : (materialize c o).scaled = true) : o.IsReg ∧ (materialize c o).Combined := by
  rcases materialize_cases c o with he | ⟨hcls, he⟩
  · rw [he, h.not_scaled] at hs
    cases hs
  · exact ⟨h.resolve_right fun hcon => hcon.1 hcls, hc _ he⟩

theorem add0_choice : ∀ {w x : Option Operand}, add0 w x = some y → w = some y ∨ x = some y
  | w, none, h => by cases w <;> exact .inl h
  | none, some x, h => .inr h
  | some w, some x, h => by
    rw [add0] at h
    split at h
    · exact .inr h
    · exact .inl h

theorem add0_ge : ∀ {w x : Option Operand}, w = some z ∨ x = some z →
    ∃ y, add0 w x = some y ∧ operandDegree z ≤ operandDegree y
  | none, none, h => by cases h <;> contradiction
  | some w, none, h => by
    obtain rfl : w = z := by simpa using h
    exact ⟨w, rfl, le_rfl⟩
  | none, some x, h => by
    obtain rfl : x = z := by simpa using h
    exact ⟨x, rfl, le_rfl⟩
  | some w, some x, h => by
    rw [add0]
    have hz : w = z ∨ x = z := by simpa using h
    split
    · refine ⟨x, rfl, ?_⟩
      rcases hz with rfl | rfl <;> omega
    · refine ⟨w, rfl, ?_⟩
      rcases hz with rfl | rfl <;> omega

/-- The winner is one of the combinations. -/
theorem addWinner_choice {pairs : List (Operand × Operand)} {w : Option Operand}
    (h : addWinner w pairs = some y) :
    w = some y ∨ ∃ p ∈ pairs, operandsCombine p.1 p.2 = some y := by
  induction pairs generalizing w with
  | nil => exact .inl h
  | cons p pairs ih =>
    rcases ih (w := add0 w (operandsCombine p.1 p.2)) h with hw | ⟨q, hq, hy⟩
    · exact (add0_choice hw).imp_right fun hp => ⟨p, List.mem_cons_self .., hp⟩
    · exact .inr ⟨q, List.mem_cons_of_mem _ hq, hy⟩

/-- No combination has a higher degree than the winner. -/
theorem addWinner_ge {pairs : List (Operand × Operand)} {w : Option Operand}
    (h : w = some z ∨ ∃ p ∈ pairs, operandsCombine p.1 p.2 = some z) :
    ∃ y, addWinner w pairs = some y ∧ operandDegree z ≤ operandDegree y := by
  induction pairs generalizing w z with
  | nil =>
    rcases h with rfl | ⟨p, hp, -⟩
    · exact ⟨z, rfl, le_rfl⟩
    · cases hp
  | cons p pairs ih =>
    have hhead : ∀ {z}, w = some z ∨ operandsCombine p.1 p.2 = some z →
        ∃ y, addWinner w (p :: pairs) = some y ∧ operandDegree z ≤ operandDegree y := by
      intro z hz
      obtain ⟨y, hy, hzy⟩ := add0_ge hz
      obtain ⟨y', hy', hyy'⟩ := ih (.inl hy)
      exact ⟨y', hy', hzy.trans hyy'⟩
    rcases h with hw | ⟨q, hq, hz⟩
    · exact hhead (.inl hw)
    · rcases List.mem_cons.mp hq with rfl | hq
      · exact hhead (.inr hz)
      · exact ih (w := add0 w (operandsCombine p.1 p.2)) (.inr ⟨q, hq, hz⟩)

/-- The combination of two scaled operands loses one, but it never wins. -/
theorem addWinner_pair (hc : ∀ e, e ∈ c → e.2.Combined) (h₁ : Imported o₁) (h₂ : Imported o₂)
    (h : addWinner none (addPairs c o₁ o₂) = some w) :
    ∃ p ∈ addPairs c o₁ o₂, operandsCombine p.1 p.2 = some w ∧
      ¬ (p.1.scaled = true ∧ p.2.scaled = true) := by
  obtain ⟨p, hp, hw⟩ := (addWinner_choice h).resolve_left nofun
  refine ⟨p, hp, hw, fun ⟨hs₁, hs₂⟩ => ?_⟩
  have hn₁ := h₁.not_scaled
  have hn₂ := h₂.not_scaled
  simp only [addPairs, List.mem_cons, List.not_mem_nil, or_false] at hp
  rcases hp with rfl | rfl | rfl | rfl <;> simp only [hn₁, hn₂, Bool.false_eq_true] at hs₁ hs₂
  -- each of the two combines with the other's register, which keeps more
  obtain ⟨hreg₁, hm₁⟩ := scaled_materialize hc h₁ hs₁
  obtain ⟨hreg₂, hm₂⟩ := scaled_materialize hc h₂ hs₂
  have hge : ∀ q ∈ addPairs c o₁ o₂, ∀ z, operandsCombine q.1 q.2 = some z →
      operandDegree z ≤ operandDegree w := by
    intro q hq z hz
    obtain ⟨y, hy, hle⟩ := addWinner_ge (w := none) (.inr ⟨q, hq, hz⟩)
    rw [h] at hy
    cases hy
    exact hle
  have hle₁ := hge (materialize c o₁, o₂) (by simp [addPairs]) _
    (combine_scaled_reg hm₁ hs₁ hreg₂).1
  have hle₂ := hge (o₁, materialize c o₂) (by simp [addPairs]) _
    (combine_scaled_reg hm₂ hs₂ hreg₁).2
  rw [(degree_combination hs₁ hreg₂).1] at hle₁
  rw [(degree_combination hs₂ hreg₁).2] at hle₂
  have hlt := degree_scaled_scaled hs₁ hs₂
  have hcomb : w = combination (materialize c o₁) (materialize c o₂) :=
    (operandsCombine_some hw).2.2.2.2
  rw [hcomb] at hle₁ hle₂
  omega

end

/-! ### What the cache promises -/

/-- The registers of a function, with their types, and the temporaries that constants are moved
    to: as many of them as there are registers left are new. -/
structure Registers where
  own : PseudoReg → Prop
  typeOf : PseudoReg → TypeBits
  temp : Nat → PseudoReg
  count : Nat
  own_ne : ∀ r, own r → r ≠ regNone ∧ r ≠ rbp
  temp_ne : ∀ n < count, temp n ≠ regNone ∧ temp n ≠ rbp
  temp_new : ∀ n < count, ¬ own (temp n)
  temp_inj : ∀ n < count, ∀ i < n, temp i ≠ temp n

/-- The registers an entry may mention when `n` temporaries have been handed out. -/
def Registers.Known (R : Registers) (n : Nat) (r : PseudoReg) : Prop :=
  R.own r ∨ r = rbp ∨ ∃ i < n, r = R.temp i

/-- The registers that code makes no other use of. -/
def Registers.Held (R : Registers) (r : PseudoReg) : Prop := R.Known R.count r

/-- Every entry is for a register of the function, and well made. -/
structure Cached (R : Registers) (n : Nat) (c : Selxns) : Prop where
  own : ∀ e, e ∈ c → R.own e.1
  combined : ∀ e, e ∈ c → e.2.Combined
  known : ∀ e, e ∈ c → ∀ r, e.2.mentions r = true → R.Known n r

/-- Every register with an entry holds what the entry stands for, up to its type. -/
def Sound (env : Env) (R : Registers) (c : Selxns) (regs : PseudoReg → Word) : Prop :=
  ∀ e, e ∈ c → Low (R.typeOf e.1) (regs e.1) (e.2.address env regs)

/-- The word is what the operand stands for, before and after `materialize`. -/
structure Stands (env : Env) (c : Selxns) (regs : PseudoReg → Word) (ts : TypeBits) (o : Operand)
    (v : Word) : Prop where
  plain : Low ts v (o.address env regs)
  materialized : Low ts v ((materialize c o).address env regs)

section
variable {env : Env} {R : Registers} {c : Selxns} {regs regs' : PseudoReg → Word} {n m : Nat}
variable {ts : TypeBits} {o o₁ o₂ w : Operand} {v v₁ v₂ : Word} {r : PseudoReg}

theorem Registers.Known.mono (h : R.Known n r) (hnm : n ≤ m) : R.Known m r := by
  rcases h with h | h | ⟨i, hi, h⟩
  · exact .inl h
  · exact .inr (.inl h)
  · exact .inr (.inr ⟨i, by omega, h⟩)

theorem Registers.Known.ne_temp (h : R.Known n r) (hn : n < R.count) : r ≠ R.temp n := by
  rcases h with h | h | ⟨i, hi, h⟩
  · exact fun he => R.temp_new n hn (he ▸ h)
  · exact fun he => (R.temp_ne n hn).2 (he ▸ h)
  · exact fun he => R.temp_inj n hn i hi (h.symm.trans he)

theorem Cached.mono (h : Cached R n c) (hnm : n ≤ m) : Cached R m c :=
  ⟨h.own, h.combined, fun e he r hr => (h.known e he r hr).mono hnm⟩

theorem cached_empty : Cached R n .empty :=
  ⟨fun e he => absurd he (Assoc.notMem_empty e), fun e he => absurd he (Assoc.notMem_empty e),
    fun e he => absurd he (Assoc.notMem_empty e)⟩

theorem sound_empty : Sound env R .empty regs := fun e he => absurd he (Assoc.notMem_empty e)

/-- Soundness depends on the registers of the cache only. -/
theorem Sound.congr (hc : Cached R n c) (h : Sound env R c regs)
    (hregs : ∀ r, R.Known n r → regs' r = regs r) : Sound env R c regs' := by
  intro e he
  rw [hregs e.1 (.inl (hc.own e he)),
    address_congr fun r hr => hregs r (hc.known e he r hr)]
  exact h e he

theorem known_materialize (hc : Cached R n c) (ho : ∀ r, o.mentions r = true → R.Known n r) :
    ∀ r, (materialize c o).mentions r = true → R.Known n r := by
  rcases materialize_cases c o with he | ⟨-, he⟩
  · rwa [he]
  · exact hc.known _ he

/-- What `add` caches is the sum of its operands. -/
theorem add_entry (env : Env) (dst : Operand) (hc : Cached R n c) (h₁ : Imported o₁)
    (h₂ : Imported o₂)
    (hk₁ : ∀ r, o₁.mentions r = true → R.Known n r)
    (hk₂ : ∀ r, o₂.mentions r = true → R.Known n r) :
    add c o₁ o₂ dst = ⟨c, none⟩ ∨ dst.ts.floating = false ∧
      ∃ w, add c o₁ o₂ dst = update dst.reg w ⟨c, none⟩ ∧
        w.Combined ∧ (∀ r, w.mentions r = true → R.Known n r) ∧
        ∀ regs ts v₁ v₂, Stands env c regs ts o₁ v₁ → Stands env c regs ts o₂ v₂ →
          Low ts (v₁ + v₂) (w.address env regs) := by
  unfold add
  split
  · exact .inl rfl
  · next hts =>
    rcases hwin : addWinner none (addPairs c o₁ o₂) with _ | w
    · exact .inl rfl
    · obtain ⟨p, hp, hw, hs⟩ := addWinner_pair hc.combined h₁ h₂ hwin
      have hpair : (p.1 = o₁ ∨ p.1 = materialize c o₁) ∧ (p.2 = o₂ ∨ p.2 = materialize c o₂) := by
        simp only [addPairs, List.mem_cons, List.not_mem_nil, or_false] at hp
        rcases hp with rfl | rfl | rfl | rfl <;> simp
      have hpl₁ : p.1.Plain := by
        rcases hpair.1 with he | he <;> rw [he]
        · exact h₁.plain
        · exact plain_materialize hc.combined h₁
      have hpl₂ : p.2.Plain := by
        rcases hpair.2 with he | he <;> rw [he]
        · exact h₂.plain
        · exact plain_materialize hc.combined h₂
      refine .inr ⟨by simpa using hts, w, rfl, (operandsCombine_spec hpl₁ hpl₂ hw).1,
        fun r hr => ?_, fun regs ts v₁ v₂ hv₁ hv₂ => ?_⟩
      · rcases (operandsCombine_spec hpl₁ hpl₂ hw).2.1 r hr with hr | hr
        · rcases hpair.1 with he | he <;> rw [he] at hr
          · exact hk₁ r hr
          · exact known_materialize hc hk₁ r hr
        · rcases hpair.2 with he | he <;> rw [he] at hr
          · exact hk₂ r hr
          · exact known_materialize hc hk₂ r hr
      · rw [(operandsCombine_spec hpl₁ hpl₂ hw).2.2 hs]
        refine Low.add ?_ ?_
        · rcases hpair.1 with he | he <;> rw [he]
          · exact hv₁.plain
          · exact hv₁.materialized
        · rcases hpair.2 with he | he <;> rw [he]
          · exact hv₂.plain
          · exact hv₂.materialized

end

/-! ### Insns -/

/-- The insns that make entries. -/
def caches : InsnOp → Bool
  | .frame | .add | .sub | .shl => true
  | _ => false

/-- A source of an insn whose result has the type `ts`: as wide as the result, and if it is a
    register, no wider than that. -/
structure Registers.Source (R : Registers) (ts : TypeBits) (o : Ncc.Operand) : Prop where
  integral : o.ts.integral = true
  wide : ts.sizeof ≤ o.ts.sizeof
  reg : ∀ r, o.val = .reg r → R.own r ∧ o.ts.sizeof ≤ (R.typeOf r).sizeof

/-- The insns the generator is handed, as far as they make entries: a result has the type of its
    register, and integral operands are at least as wide. The offset of I_FRAME is an int. -/
structure Registers.Selectable (R : Registers) (insn : Insn) : Prop where
  dst : caches insn.op = true → ∃ ts r n, insn.dst = some ⟨ts, .reg r, n⟩ ∧ R.own r ∧
    ts.sizeof = (R.typeOf r).sizeof
  integral : insn.op = .frame ∨ insn.op = .shl → (tsOpt insn.dst).integral = true
  src1 : caches insn.op = true → (tsOpt insn.dst).integral = true →
    ∀ o, insn.src1 = some o → R.Source (tsOpt insn.dst) o
  src2 : insn.op = .add ∨ insn.op = .sub → (tsOpt insn.dst).integral = true →
    ∀ o, insn.src2 = some o → R.Source (tsOpt insn.dst) o
  offset : insn.op = .frame → ∃ ts c n, insn.src1 = some ⟨ts, .con c none, n⟩ ∧
    (c.setWidth 32).signExtend 64 = c

section
variable {env : Env} {R : Registers} {c : Selxns} {regs : PseudoReg → Word} {n age : Nat}
variable {ts : TypeBits} {o : Ncc.Operand} {v : Word} {r : PseudoReg} {insn : Insn}
variable {constant : TypeBits → Word → Symbol}

theorem isReg_operandReg (hr : r ≠ regNone) : (operandReg ts r age).IsReg :=
  ⟨rfl, hr, rfl, rfl, rfl, rfl⟩

/-- An integral operand is imported as a register alone or as a constant. -/
theorem operandImport_integral (constant : TypeBits → Word → Symbol) (age : Nat)
    (h : o.ts.integral = true) :
    (∃ r, o.val = .reg r ∧ operandImport constant o age = operandReg o.ts r age) ∨
      ∃ w sym, o.val = .con w sym ∧ operandImport constant o age = operandCon o.ts w sym age := by
  unfold operandImport
  rcases hv : o.val with ⟨w, sym⟩ | r
  · exact .inr ⟨w, sym, rfl, if_pos h⟩
  · exact .inl ⟨r, rfl, rfl⟩

theorem imported_operandImport (constant : TypeBits → Word → Symbol) (age : Nat)
    (h : R.Source ts o) : Imported (operandImport constant o age) := by
  rcases operandImport_integral constant age h.integral with
    ⟨r, hv, he⟩ | ⟨w, sym, -, he⟩ <;> rw [he]
  · exact .inl (isReg_operandReg (R.own_ne r (h.reg r hv).1).1)
  · exact .inr ⟨nofun, rfl, rfl, rfl⟩

theorem known_operandImport (constant : TypeBits → Word → Symbol) (age n : Nat)
    (h : R.Source ts o) :
    ∀ r, (operandImport constant o age).mentions r = true → R.Known n r := by
  rcases operandImport_integral constant age h.integral with
    ⟨r, hv, he⟩ | ⟨w, sym, -, he⟩ <;> rw [he]
  · intro q hq
    have hqr : q = r := by
      simp [Operand.mentions, operandReg, operandNew] at hq
      exact (of_decide_eq_true hq.2).symm
    rw [hqr]
    exact .inl (h.reg r hv).1
  · intro q hq
    simp [Operand.mentions, operandCon, operandNew] at hq

theorem read_con {w : Word} {sym : Option Symbol} (h : o.ts.integral = true)
    (hv : o.val = .con w sym) : o.read env regs = fit o.ts (symWord env sym + w) := by
  obtain ⟨ts, val, k⟩ := o
  subst hv
  cases ts <;> first | rfl | cases h

theorem read_reg (hv : o.val = .reg r) : o.read env regs = fit o.ts (regs r) := by
  obtain ⟨ts, val, k⟩ := o
  subst hv
  rfl

/-- An operand is imported as what it denotes. -/
theorem stands_operandImport (hs : Sound env R c regs) (h : R.Source ts o) :
    Stands env c regs ts (operandImport constant o age) (o.read env regs) := by
  rcases operandImport_integral constant age h.integral with
    ⟨r, hv, he⟩ | ⟨w, sym, hv, he⟩ <;> rw [he]
  · obtain ⟨hown, hwidth⟩ := h.reg r hv
    have hr := (R.own_ne r hown).1
    have hlow : Low ts (o.read env regs) (regs r) := by
      rw [read_reg hv]
      exact (low_fit _ _).mono h.wide
    refine ⟨?_, ?_⟩
    · rw [address_operandReg, regWord, if_neg hr]
      exact hlow
    · rcases materialize_cases c (operandReg o.ts r age) with hm | ⟨-, hm⟩
      · rw [hm, address_operandReg, regWord, if_neg hr]
        exact hlow
      · exact hlow.trans ((hs _ hm).mono (h.wide.trans hwidth))
  · have hlow : Low ts (o.read env regs) ((operandCon o.ts w sym age).address env regs) := by
      rw [read_con h.integral hv, address_operandCon]
      exact (low_fit _ _).mono h.wide
    exact ⟨hlow, hlow⟩

/-- The negation of a constant. -/
theorem stands_neg {x : Operand} (h : Stands env c regs ts x v) (hcls : x.cls = .con)
    (hx : x.reg = regNone ∧ x.idx = regNone) (hsym : x.sym = none) :
    Stands env c regs ts { x with i := -x.i } (-v) := by
  have haddr : x.address env regs = x.i := by simp [Operand.address, hx.1, hx.2, hsym, symWord]
  have hneg : ({ x with i := -x.i } : Operand).address env regs = -x.i := by
    simp [Operand.address, hx.1, hx.2, hsym, symWord]
  have hmat : materialize c { x with i := -x.i } = { x with i := -x.i } := by
    simp [materialize, hcls]
  have hlow := h.plain.neg
  rw [haddr] at hlow
  refine ⟨?_, ?_⟩
  · rwa [hneg]
  · rwa [hmat, hneg]

/-- What an insn that makes entries writes. -/
theorem exec_caches {E : Env} {s : State} {k : ValueNumber} (hop : caches insn.op = true)
    (hd : insn.dst = some ⟨ts, .reg r, k⟩) :
    Low ts ((exec E insn s).regs r) (exprValue E insn.op ts (tsOpt insn.src1)
      (readOpt E s.regs insn.src1) (readOpt E s.regs insn.src2) s.mem) := by
  obtain ⟨op, dst, src1, src2, vol, iasm⟩ := insn
  subst hd
  cases op with
  | frame | add | sub | shl =>
    simp only [exec, State.write, Function.update_self]
    exact low_fit _ _
  | _ => cases hop

end

/-! ### Soundness of an insn -/

/-- The insn, in a machine whose RBP points to the frame. -/
def atFrame (env : Env) (s : State) : Env := { env with frame := s.regs rbp }

/-- An entry for the insn's result: it is what the insn computes. -/
structure Entry (env : Env) (R : Registers) (n : Nat) (c : Selxns) (insn : Insn) (r : PseudoReg)
    (x : Operand) : Prop where
  dst : ∃ ts k, insn.dst = some ⟨ts, .reg r, k⟩ ∧ ts.sizeof = (R.typeOf r).sizeof
  defs : r ∈ insnDefsRegs insn
  own : R.own r
  combined : x.Combined
  known : ∀ q, x.mentions q = true → R.Known n q
  value : ∀ s, Sound env R c s.regs →
    Low (R.typeOf r) ((exec (atFrame env s) insn s).regs r) (x.address env s.regs)

/-- The cache after an insn, before what it DEFs is invalidated. -/
def Makes (env : Env) (R : Registers) (n : Nat) (c : Selxns) (insn : Insn) (st : SelxnState) :
    Prop :=
  st = ⟨c, none⟩ ∨ ∃ r x, Entry env R n c insn r x ∧ st = update r x ⟨c, none⟩

/-- An execution of the code made of an insn. Of the registers that code makes no other use of it
    changes those that the insn DEFs, and there it leaves the result, up to its type. -/
structure Executes (env : Env) (R : Registers) (insn : Insn) (s s' : State) : Prop where
  held : ∀ r, R.Held r → r ∉ insnDefsRegs insn → s'.regs r = s.regs r
  result : ∀ ts r k, insn.dst = some ⟨ts, .reg r, k⟩ → insn.op.useDst = false →
    Low ts (s'.regs r) ((exec (atFrame env s) insn s).regs r)

section
variable {env : Env} {R : Registers} {c : Selxns} {regs : PseudoReg → Word} {n : Nat}
variable {ts : TypeBits} {r : PseudoReg} {insn : Insn} {st : SelxnState} {s s' : State}
variable {constant : TypeBits → Word → Symbol} {dst src1 src2 : Ncc.Operand}
variable {age₁ age₂ age₃ : Nat}

@[simp] theorem readOpt_atFrame (s : State) (o : Option Ncc.Operand) :
    readOpt (atFrame env s) regs o = readOpt env regs o := by
  rcases o with _ | ⟨ts, _ | r, k⟩
  · rfl
  · cases ts <;> rfl
  · rfl

theorem Low.of_sizeof {ts ts' : TypeBits} {a b : Word} (hts : ts.sizeof = ts'.sizeof)
    (h : Low ts a b) : Low ts' a b := h.mono hts.ge

theorem defs_of_caches {k : ValueNumber} (hop : caches insn.op = true)
    (hd : insn.dst = some ⟨ts, .reg r, k⟩) : r ∈ insnDefsRegs insn := by
  obtain ⟨op, dst, src1, src2, vol, iasm⟩ := insn
  subst hd
  cases op with
  | frame | add | sub | shl => simp [insnDefsRegs, InsnOp.useDst, operandRegs]
  | _ => cases hop

theorem Makes.cached (hc : Cached R n c) (h : Makes env R n c insn st) :
    Cached R n (invalidate insn st).selxns := by
  have hmem : ∀ e, e ∈ (invalidate insn st).selxns →
      e ∈ c ∨ ∃ r x, Entry env R n c insn r x ∧ e = (r, x) := by
    intro e he
    have he := (invalidate_spec insn st).1 e he
    rcases h with rfl | ⟨r, x, hx, rfl⟩
    · exact .inl he
    · exact (Assoc.mem_update.mp he).elim (fun h => .inr ⟨r, x, hx, h⟩) fun h => .inl h.2
  refine ⟨fun e he => ?_, fun e he => ?_, fun e he => ?_⟩ <;>
    rcases hmem e he with he | ⟨r, x, hx, rfl⟩
  · exact hc.own e he
  · exact hx.own
  · exact hc.combined e he
  · exact hx.combined
  · exact hc.known e he
  · exact hx.known

/-- After an insn, and after what it DEFs was invalidated, the cache is right again. -/
theorem Makes.sound (hn : n ≤ R.count) (hc : Cached R n c) (hs : Sound env R c s.regs)
    (h : Makes env R n c insn st) (hrun : Executes env R insn s s') :
    Sound env R (invalidate insn st).selxns s'.regs := by
  intro e he
  obtain ⟨hsub, hdefs⟩ := invalidate_spec insn st
  -- what the entry mentions, the insn left alone
  have haddr : (∀ r, e.2.mentions r = true → R.Known n r) →
      e.2.address env s'.regs = e.2.address env s.regs := by
    intro hk
    refine address_congr fun r hr => hrun.held r ((hk r hr).mono hn) fun hd => ?_
    rw [(hdefs r hd e he).1] at hr
    cases hr
  have hold : e ∈ c → e.1 ∉ insnDefsRegs insn →
      Low (R.typeOf e.1) (s'.regs e.1) (e.2.address env s'.regs) := by
    intro hmem hd
    rw [haddr (hc.known e hmem), hrun.held e.1 (.inl (hc.own e hmem)) hd]
    exact hs e hmem
  rcases h with rfl | ⟨r, x, hx, rfl⟩
  · exact hold (hsub e he) fun hd => absurd ((hdefs e.1 hd e he).2 rfl) nofun
  · rcases Assoc.mem_update.mp (hsub e he) with rfl | ⟨hne, hmem⟩
    · obtain ⟨ts, k, hd, hts⟩ := hx.dst
      have huse : insn.op.useDst = false := by
        by_contra huse
        have hop : insn.op ≠ .asm := by
          intro hop
          rw [hop] at huse
          exact huse rfl
        have hr := hx.defs
        simp [insnDefsRegs, hop, huse] at hr
      rw [haddr hx.known]
      exact ((hrun.result ts r k hd huse).of_sizeof hts).trans (hx.value s hs)
    · exact hold hmem fun hd => hne (Option.some.inj ((hdefs e.1 hd e he).2 rfl)).symm

/-! ### The insns that make entries -/

theorem hugeCon_signExtend (x : BitVec 32) : hugeCon (x.signExtend 64) = false := by
  have hint : (x.signExtend 64).toInt = x.toInt := BitVec.toInt_signExtend_of_le (by decide)
  have hlo := BitVec.le_toInt x
  have hhi := BitVec.toInt_lt (x := x)
  have hmin : (-0x80000000 : Word).toInt = -2147483648 := by decide
  have hmax : (0x7FFFFFFF : Word).toInt = 2147483647 := by decide
  rw [hugeCon, Bool.or_eq_false_iff]
  refine ⟨?_, ?_⟩ <;> rw [BitVec.slt_eq_decide, decide_eq_false_iff_not, hint]
  · rw [hmin]; omega
  · rw [hmax]; omega

/-- I_FRAME. -/
theorem frame_makes (h : R.Selectable insn) (hop : insn.op = .frame) (hd : insn.dst = some dst)
    (hs : insn.src1 = some src1) :
    Makes env R n c insn (frame c (operandImport constant src1 age₁)
      (operandImport constant dst age₂) age₃) := by
  have hcaches : caches insn.op = true := by rw [hop]; rfl
  obtain ⟨ts, r, k, hdst, hown, hts⟩ := h.dst hcaches
  obtain ⟨ts₁, w, k₁, hsrc, hw⟩ := h.offset hop
  have hsource := h.src1 hcaches (h.integral (.inl hop)) src1 hs
  rw [hdst] at hsource
  obtain rfl : dst = ⟨ts, .reg r, k⟩ := Option.some.inj (hd.symm.trans hdst)
  obtain rfl : src1 = ⟨ts₁, .con w none, k₁⟩ := Option.some.inj (hs.symm.trans hsrc)
  refine .inr ⟨r, operandBased rbp (w.setWidth 32) age₃, ⟨⟨ts, k, hdst, hts⟩,
    defs_of_caches hcaches hdst, hown, ?_, ?_, ?_⟩, ?_⟩
  · exact ⟨plain_of_unindexed rfl rfl, nofun, hugeCon_signExtend _⟩
  · intro q hq
    simp [Operand.mentions, operandBased, operandNew] at hq
    exact .inr (.inl (of_decide_eq_true hq.2).symm)
  · intro s _
    refine Low.of_sizeof hts ((exec_caches hcaches hdst).trans ?_)
    have haddr : (operandBased rbp (w.setWidth 32) age₃).address env s.regs = s.regs rbp + w := by
      simp [Operand.address, operandBased, operandNew, regWord, symWord, hw,
        show rbp ≠ regNone by decide]
    rw [hop, hsrc, haddr, readOpt_atFrame]
    refine (Low.refl ts _).add ?_
    rw [readOpt, read_con hsource.integral rfl]
    refine ((low_fit _ _).mono hsource.wide).trans ?_
    simp [symWord, Low]
  · have hcon : (operandImport constant ⟨ts₁, .con w none, k₁⟩ age₁).i = w := by
      simp [operandImport, hsource.integral, operandCon]
    rw [frame, hcon]
    rfl

/-- I_ADD and I_SUB: `add` was handed the insn's sources, or what makes a difference a sum. -/
theorem sum_makes {o₁ o₂ : Operand} (h : R.Selectable insn) (hop : insn.op = .add ∨ insn.op = .sub)
    (hc : Cached R n c) (hd : insn.dst = some dst) (h₁ : Imported o₁) (h₂ : Imported o₂)
    (hk₁ : ∀ r, o₁.mentions r = true → R.Known n r)
    (hk₂ : ∀ r, o₂.mentions r = true → R.Known n r)
    (hv : ∀ s : State, Sound env R c s.regs → ∃ v₁ v₂,
      Stands env c s.regs dst.ts o₁ v₁ ∧ Stands env c s.regs dst.ts o₂ v₂ ∧
        aluBinary insn.op dst.ts (readOpt env s.regs insn.src1) (readOpt env s.regs insn.src2) =
          v₁ + v₂) :
    Makes env R n c insn (add c o₁ o₂ (operandImport constant dst age₁)) := by
  have hcaches : caches insn.op = true := by rcases hop with hop | hop <;> rw [hop] <;> rfl
  obtain ⟨ts, r, k, hdst, hown, hts⟩ := h.dst hcaches
  obtain rfl : dst = ⟨ts, .reg r, k⟩ := Option.some.inj (hd.symm.trans hdst)
  rcases add_entry env (operandImport constant ⟨ts, .reg r, k⟩ age₁) hc h₁ h₂ hk₁ hk₂ with
    hadd | ⟨hfl, w, hadd, hcomb, hk, hval⟩
  · exact .inl hadd
  · refine .inr ⟨r, w, ⟨⟨ts, k, hdst, hts⟩, defs_of_caches hcaches hdst, hown, hcomb, hk, ?_⟩, hadd⟩
    intro s hs
    refine Low.of_sizeof hts ((exec_caches hcaches hdst).trans ?_)
    have hfl : ts.floating = false := hfl
    obtain ⟨v₁, v₂, hv₁, hv₂, hsum⟩ := hv s hs
    have hexpr : exprValue (atFrame env s) insn.op ts (tsOpt insn.src1)
        (readOpt (atFrame env s) s.regs insn.src1)
        (readOpt (atFrame env s) s.regs insn.src2) s.mem = v₁ + v₂ := by
      rw [← hsum, readOpt_atFrame, readOpt_atFrame]
      rcases hop with hop | hop <;> rw [hop] <;> simp [exprValue, hfl]
    rw [hexpr]
    exact hval s.regs ts v₁ v₂ hv₁ hv₂

theorem ts_operandImport (h : R.Selectable insn) (hop : caches insn.op = true)
    (hd : insn.dst = some dst) :
    (operandImport constant dst age₁).ts = dst.ts := by
  obtain ⟨ts, r, k, hdst, -⟩ := h.dst hop
  obtain rfl : dst = ⟨ts, .reg r, k⟩ := Option.some.inj (hd.symm.trans hdst)
  rfl

/-- I_ADD. -/
theorem add_makes (h : R.Selectable insn) (hop : insn.op = .add) (hc : Cached R n c)
    (hd : insn.dst = some dst) (hs₁ : insn.src1 = some src1) (hs₂ : insn.src2 = some src2) :
    Makes env R n c insn (add c (operandImport constant src1 age₁)
      (operandImport constant src2 age₂) (operandImport constant dst age₃)) := by
  have hcaches : caches insn.op = true := by rw [hop]; rfl
  by_cases hfl : dst.ts.floating = true
  · exact .inl (if_pos (by rw [ts_operandImport h hcaches hd]; exact hfl))
  · have hint : (tsOpt insn.dst).integral = true := by
      rw [hd]; simpa [tsOpt, TypeBits.integral] using hfl
    have hsource₁ := h.src1 hcaches hint src1 hs₁
    have hsource₂ := h.src2 (.inl hop) hint src2 hs₂
    rw [hd] at hsource₁ hsource₂
    refine sum_makes h (.inl hop) hc hd (imported_operandImport _ _ hsource₁)
      (imported_operandImport _ _ hsource₂) (known_operandImport _ _ _ hsource₁)
      (known_operandImport _ _ _ hsource₂) fun s hs => ⟨_, _, stands_operandImport hs hsource₁,
        stands_operandImport hs hsource₂, ?_⟩
    rw [hop, hs₁, hs₂]
    rfl

/-- I_SUB of a constant. -/
theorem sub_makes (h : R.Selectable insn) (hop : insn.op = .sub) (hc : Cached R n c)
    (hd : insn.dst = some dst) (hs₁ : insn.src1 = some src1) (hs₂ : insn.src2 = some src2) :
    Makes env R n c insn (sub c (operandImport constant src1 age₁)
      (operandImport constant src2 age₂) (operandImport constant dst age₃)) := by
  have hcaches : caches insn.op = true := by rw [hop]; rfl
  unfold sub
  split
  · next hcon =>
    rw [Bool.and_eq_true, Bool.and_eq_true, ts_operandImport h hcaches hd] at hcon
    obtain ⟨⟨hint, hpure⟩, -⟩ := hcon
    have hint : (tsOpt insn.dst).integral = true := by rw [hd]; exact hint
    have hsource₁ := h.src1 hcaches hint src1 hs₁
    have hsource₂ := h.src2 (.inr hop) hint src2 hs₂
    rw [hd] at hsource₁ hsource₂
    obtain ⟨hcls, hsym⟩ : (operandImport constant src2 age₂).cls = .con ∧
        (operandImport constant src2 age₂).sym = none := by
      simpa [pureCon] using hpure
    obtain ⟨-, hregs⟩ := (imported_operandImport constant age₂ hsource₂).resolve_left fun hr => by
        have := hr.cls
        rw [hcls] at this
        cases this
    have hk₂ := known_operandImport constant age₂ n hsource₂
    refine sum_makes h (.inr hop) hc hd (imported_operandImport _ _ hsource₁) ?_
      (known_operandImport _ _ _ hsource₁) hk₂ fun s hs => ⟨_, _, stands_operandImport hs hsource₁,
        stands_neg (stands_operandImport hs hsource₂) hcls ⟨hregs.1, hregs.2.1⟩ hsym, ?_⟩
    · exact .inr ⟨by simp [hcls], hregs⟩
    · rw [hop, hs₁, hs₂]
      exact BitVec.sub_eq_add_neg _ _
  · exact .inl rfl

/-- The shifts that scale an index. -/
theorem shiftScale_cases {i : Word} (h : shiftScale i ≠ 0) :
    shiftScale i ≠ 1 ∧ ∀ a : Word, a <<< (i.toNat % 64) = a * BitVec.ofNat 64 (shiftScale i) := by
  unfold shiftScale at h ⊢
  split at h
  · next hi =>
    subst hi
    exact ⟨by decide, fun a => BitVec.shiftLeft_eq_mul_twoPow a 1⟩
  · split at h
    · next hi =>
      subst hi
      exact ⟨by decide, fun a => BitVec.shiftLeft_eq_mul_twoPow a 2⟩
    · split at h
      · next hi =>
        subst hi
        exact ⟨by decide, fun a => BitVec.shiftLeft_eq_mul_twoPow a 3⟩
      · exact absurd rfl h

theorem conNormalize_shift {i : Word} (h : shiftScale i ≠ 0) (ts : TypeBits) :
    conNormalize ts i = i := by
  have hi : i = 1 ∨ i = 2 ∨ i = 3 := by
    by_contra hno
    obtain ⟨h₁, h₂, h₃⟩ : i ≠ 1 ∧ i ≠ 2 ∧ i ≠ 3 := by simpa only [not_or] using hno
    exact h (by rw [shiftScale, if_neg h₁, if_neg h₂, if_neg h₃])
  rcases hi with rfl | rfl | rfl <;> cases ts <;> decide

/-- I_SHL of a register. -/
theorem shl_makes {ts₁ : TypeBits} {q : PseudoReg} {k k₁ : ValueNumber} {age₄ : Nat}
    (hop : insn.op = .shl) (hdst : insn.dst = some ⟨ts, .reg r, k⟩) (hown : R.own r)
    (hts : ts.sizeof = (R.typeOf r).sizeof) (hint : ts.integral = true)
    (hs₁ : insn.src1 = some ⟨ts₁, .reg q, k₁⟩) (hs₂ : insn.src2 = some src2)
    (hwide : ts.sizeof ≤ ts₁.sizeof) (hq : q ≠ regNone) (hk : R.Known n q) :
    Makes env R n c insn (shl c (operandReg ts₁ q age₁) (operandImport constant src2 age₂)
      (operandReg ts r age₃) age₄) := by
  have hcaches : caches insn.op = true := by rw [hop]; rfl
  unfold shl
  split
  · next hcon =>
    obtain ⟨-, hpure, hscale⟩ := hcon
    obtain ⟨ts₂, val₂, k₂⟩ := src2
    obtain ⟨i, hval, hi₂, himp⟩ : ∃ i, val₂ = .con i none ∧ ts₂.integral = true ∧
        (operandImport constant ⟨ts₂, val₂, k₂⟩ age₂).i = i := by
      rcases val₂ with ⟨i, sym⟩ | x
      · by_cases hi₂ : ts₂.integral = true
        · rcases sym with _ | x
          · exact ⟨i, rfl, hi₂, by simp [operandImport, hi₂, operandCon]⟩
          · simp [operandImport, hi₂, operandCon, pureCon] at hpure
        · simp [operandImport, hi₂, operandNew, pureCon] at hpure
      · exact absurd hpure (by simp [operandImport, operandReg, operandNew, pureCon])
    subst hval
    rw [himp] at hscale ⊢
    obtain ⟨hone, hmul⟩ := shiftScale_cases hscale
    refine .inr ⟨r, operandScaled ts₁ q (shiftScale i) age₄, ⟨⟨ts, k, hdst, hts⟩,
      defs_of_caches hcaches hdst, hown, ?_, ?_, ?_⟩, rfl⟩
    · exact ⟨⟨fun hno => absurd hno hq, fun _ _ => hone⟩, by rintro ⟨⟩,
        (by decide : hugeCon 0 = false)⟩
    · intro x hx
      simp [Operand.mentions, operandScaled, operandNew] at hx
      rw [← of_decide_eq_true hx.2]
      exact hk
    · intro s _
      refine Low.of_sizeof hts ((exec_caches hcaches hdst).trans ?_)
      have haddr : (operandScaled ts₁ q (shiftScale i) age₄).address env s.regs =
          s.regs q * BitVec.ofNat 64 (shiftScale i) := by
        simp [Operand.address, operandScaled, operandNew, regWord, symWord, hq]
      have hread : readOpt (atFrame env s) s.regs (some ⟨ts₂, .con i none, k₂⟩) = i := by
        rw [readOpt, read_con hi₂ rfl, fit_of_integral hi₂]
        simp [symWord, conNormalize_shift hscale]
      have hexpr : exprValue (atFrame env s) .shl ts ts₁ (fit ts₁ (s.regs q)) i s.mem =
          fit ts₁ (s.regs q) * BitVec.ofNat 64 (shiftScale i) := by
        have hfl : ts.floating = false := by simpa [TypeBits.integral] using hint
        rw [← hmul]
        simp [exprValue, hfl, aluBinary]
      rw [hop, hs₁, hs₂, haddr, hread]
      show Low ts (exprValue (atFrame env s) .shl ts ts₁ (fit ts₁ (s.regs q)) i s.mem) _
      rw [hexpr]
      exact ((low_fit _ _).mono hwide).mul (Low.refl ts _)
  · exact .inl rfl

end

end Ncc.Amd64
