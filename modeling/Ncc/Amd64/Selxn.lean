import Ncc.Amd64.Operand
import Ncc.Ebb
import Ncc.Fold

/-! The address-mode cache of the AMD64 code generator (amd64/gen.c).

    The cache maps a register to an operand that stands for its value. I_FRAME, I_ADD, I_SUB and
    I_SHL make entries, and every insn evicts the entries that what it DEFs made wrong. Only what
    concerns the cache is modelled of the generator: an insn is lowered to itself, except that a
    constant to be scaled is moved to a temporary first. -/

namespace Ncc.Amd64

/-! ### The cache -/

/-- `struct amd64_selxns`. -/
abbrev Selxns := Assoc PseudoReg Operand

/-- The current block's cache and `exempt_reg`. -/
structure SelxnState where
  selxns : Selxns
  exempt : Option PseudoReg

/-- `materialize`. -/
def materialize (c : Selxns) (o : Operand) : Operand :=
  if o.cls = .reg then (c.lookup o.reg).getD o else o

/-- `update`. -/
def update (reg : PseudoReg) (o : Operand) (st : SelxnState) : SelxnState :=
  ⟨st.selxns.update reg o, some reg⟩

/-- What `invalidate0` does to the entry of the register itself. -/
def evict (reg : PseudoReg) (st : SelxnState) : SelxnState :=
  if st.exempt = some reg then { st with exempt := none }
  else { st with selxns := st.selxns.unset reg }

/-- The loop of `invalidate0`, with its recursive call: fuel bounds the depth. -/
def scan : Nat → PseudoReg → SelxnState → Option SelxnState
  | 0, _, _ => none
  | n + 1, reg, st =>
    match st.selxns.entries.find? fun e => e.2.mentions reg with
    | none => some st
    | some e => (scan n e.1 (evict e.1 st)).bind (scan n reg)

/-- `invalidate0`. -/
def invalidate0 (n : Nat) (reg : PseudoReg) (st : SelxnState) : Option SelxnState :=
  scan n reg (evict reg st)

/-- The entries, and the exemption. -/
def SelxnState.size (st : SelxnState) : Nat :=
  st.selxns.entries.length + if st.exempt.isSome then 1 else 0

/-- `invalidate0`, with fuel enough. -/
def invalidateReg (st : SelxnState) (reg : PseudoReg) : SelxnState :=
  (invalidate0 (st.size + 1) reg st).getD st

/-- `invalidate`. -/
def invalidate (insn : Insn) (st : SelxnState) : SelxnState :=
  (insnDefsRegs insn).foldl invalidateReg st

/-- The entry of the register mentions another one, directly or through other entries. -/
inductive Depends (c : Selxns) (reg : PseudoReg) : PseudoReg → Prop
  | direct {k : PseudoReg} {o : Operand} : (k, o) ∈ c → o.mentions reg = true → Depends c reg k
  | through {k q : PseudoReg} {o : Operand} : (k, o) ∈ c → o.mentions q = true → Depends c reg q →
      Depends c reg k

section
variable {st st' : SelxnState} {reg k : PseudoReg} {o : Operand} {n : Nat}

theorem mem_of_mem_evict {e : PseudoReg × Operand} (h : e ∈ (evict reg st).selxns) :
    e ∈ st.selxns := by
  unfold evict at h
  split at h
  · exact h
  · exact (Assoc.mem_unset.mp h).1

theorem exempt_of_evict {r : PseudoReg} (h : (evict reg st).exempt = some r) :
    st.exempt = some r := by
  unfold evict at h
  split at h
  · cases h
  · exact h

/-- The exemption is used up, or the entry is gone. -/
theorem key_evict (reg : PseudoReg) (h : (k, o) ∈ st.selxns) :
    (k, o) ∈ (evict reg st).selxns ∨ k = reg ∧ st.exempt ≠ some reg := by
  unfold evict
  split
  · exact .inl h
  · next hne =>
    by_cases hk : k = reg
    · exact .inr ⟨hk, hne⟩
    · exact .inl (Assoc.mem_unset.mpr ⟨h, hk⟩)

theorem size_evict_le (reg : PseudoReg) (st : SelxnState) : (evict reg st).size ≤ st.size := by
  unfold evict SelxnState.size
  split
  · dsimp only [Option.isSome_none]
    rw [if_neg (by simp)]
    omega
  · exact Nat.add_le_add_right (List.length_filter_le _ _) _

/-- An eviction makes the state smaller, if the register has an entry. -/
theorem size_evict_lt (h : (reg, o) ∈ st.selxns) : (evict reg st).size < st.size := by
  unfold evict SelxnState.size
  split
  · next he => simp [he]
  · refine Nat.add_lt_add_right ?_ _
    exact List.length_filter_lt_length_iff_exists.mpr ⟨_, h, by simp⟩

/-- What `scan` leaves of the state: no entry mentions the register, nor any register whose entry
    was dropped. -/
structure Scanned (reg : PseudoReg) (st st' : SelxnState) : Prop where
  sub : ∀ e, e ∈ st'.selxns → e ∈ st.selxns
  size : st'.size ≤ st.size
  unmentioned : ∀ e, e ∈ st'.selxns → e.2.mentions reg = false
  dropped : ∀ e, e ∈ st.selxns → e ∈ st'.selxns ∨
    ∀ d, d ∈ st'.selxns → d.2.mentions e.1 = false
  exempt : ∀ r, st'.exempt = some r → st.exempt = some r

/-- `scan` ends, and does what it is for. -/
theorem scan_some : ∀ {n : Nat} (reg : PseudoReg) (st : SelxnState), st.size < n →
    ∃ st', scan n reg st = some st' ∧ Scanned reg st st'
  | n + 1, reg, st, hn => by
    unfold scan
    split
    · next hfind =>
      refine ⟨st, rfl, fun _ h => h, le_rfl, fun e he => ?_, fun e he => .inl he,
        fun _ h => h⟩
      simpa using List.find?_eq_none.mp hfind e he
    · next e hfind =>
      obtain ⟨k, o⟩ := e
      have hmem : (k, o) ∈ st.selxns := List.mem_of_find?_eq_some hfind
      have hlt := size_evict_lt hmem
      obtain ⟨st₁, hst₁, h₁⟩ := scan_some k (evict k st) (hlt.trans_le (Nat.le_of_lt_succ hn))
      have hlt₁ : st₁.size < n := h₁.size.trans_lt (hlt.trans_le (Nat.le_of_lt_succ hn))
      obtain ⟨st₂, hst₂, h₂⟩ := scan_some reg st₁ hlt₁
      refine ⟨st₂, by rw [hst₁]; exact hst₂, fun e he => ?_, ?_, h₂.unmentioned, fun e he => ?_,
        fun r hr => exempt_of_evict (h₁.exempt r (h₂.exempt r hr))⟩
      · exact mem_of_mem_evict (h₁.sub e (h₂.sub e he))
      · have := h₁.size
        have := h₂.size
        omega
      · rcases key_evict k he with he₁ | ⟨rfl, -⟩
        · rcases h₁.dropped e he₁ with he₂ | hno
          · exact h₂.dropped e he₂
          · exact .inr fun d hd => hno d (h₂.sub d hd)
        · exact .inr fun d hd => h₁.unmentioned d (h₂.sub d hd)

/-- More fuel changes nothing. -/
theorem scan_of_le : ∀ {n m : Nat} {reg : PseudoReg} {st st' : SelxnState}, n ≤ m →
    scan n reg st = some st' → scan m reg st = some st'
  | n + 1, m + 1, reg, st, st', hnm, h => by
    unfold scan at h ⊢
    split at h
    · exact h
    · obtain ⟨st₁, hst₁, h⟩ := Option.bind_eq_some_iff.mp h
      rw [scan_of_le (Nat.le_of_succ_le_succ hnm) hst₁]
      exact scan_of_le (Nat.le_of_succ_le_succ hnm) h

/-- What `invalidate0` leaves of the state. -/
structure Invalidated (reg : PseudoReg) (st st' : SelxnState) : Prop where
  sub : ∀ e, e ∈ st'.selxns → e ∈ st.selxns
  unmentioned : ∀ e, e ∈ st'.selxns → e.2.mentions reg = false
  own : ∀ o, (reg, o) ∈ st'.selxns → st.exempt = some reg
  dependent : ∀ k, Depends st.selxns reg k → ∀ o, (k, o) ∉ st'.selxns
  exempt : ∀ r, st'.exempt = some r → st.exempt = some r

theorem Scanned.invalidated (h : Scanned reg (evict reg st) st') : Invalidated reg st st' := by
  have hsub : ∀ e, e ∈ st'.selxns → e ∈ st.selxns := fun e he => mem_of_mem_evict (h.sub e he)
  have hdropped : ∀ e, e ∈ st.selxns → e ∈ st'.selxns ∨
      ∀ d, d ∈ st'.selxns → d.2.mentions e.1 = false := by
    intro e he
    rcases key_evict reg he with he | ⟨hk, -⟩
    · exact h.dropped e he
    · exact .inr fun d hd => hk ▸ h.unmentioned d hd
  refine ⟨hsub, h.unmentioned, fun o ho => ?_, fun k hk => ?_,
    fun r hr => exempt_of_evict (h.exempt r hr)⟩
  · by_contra hne
    have hmem := h.sub _ ho
    rw [evict, if_neg hne] at hmem
    exact (Assoc.mem_unset.mp hmem).2 rfl
  · -- an entry that is left mentions no register whose entry was dropped
    induction hk with
    | direct hmem hment =>
      intro o ho
      rw [Assoc.mem_unique (hsub _ ho) hmem] at ho
      exact absurd hment (by simp [h.unmentioned _ ho])
    | @through k q o' hmem hment hq ih =>
      intro o ho
      rw [Assoc.mem_unique (hsub _ ho) hmem] at ho
      obtain ⟨p, hp⟩ : ∃ p, (q, p) ∈ st.selxns := by cases hq <;> exact ⟨_, ‹_›⟩
      rcases hdropped _ hp with hin | hno
      · exact ih _ hin
      · exact absurd hment (by simp [hno _ ho])

/-- `invalidate0` ends, whatever the cache, and drops every entry that depends on the register. -/
theorem invalidate0_spec (reg : PseudoReg) (h : st.size < n) :
    invalidate0 n reg st = some (invalidateReg st reg) ∧
      Invalidated reg st (invalidateReg st reg) := by
  obtain ⟨st', hst', h'⟩ := scan_some reg (evict reg st)
    (Nat.lt_succ_of_le (size_evict_le reg st))
  have hreg : invalidateReg st reg = st' := by rw [invalidateReg, invalidate0, hst']; rfl
  rw [hreg]
  exact ⟨scan_of_le h hst', h'.invalidated⟩

/-- What `invalidate` leaves of the cache: no entry mentions a register that was DEFd, or is a
    DEFd register's own, unless it was made for this insn. -/
theorem invalidate_spec (insn : Insn) (st : SelxnState) :
    (∀ e, e ∈ (invalidate insn st).selxns → e ∈ st.selxns) ∧
      ∀ r ∈ insnDefsRegs insn, ∀ e, e ∈ (invalidate insn st).selxns →
        e.2.mentions r = false ∧ (e.1 = r → st.exempt = some r) := by
  unfold invalidate
  induction insnDefsRegs insn generalizing st with
  | nil => exact ⟨fun _ h => h, fun _ h => absurd h List.not_mem_nil⟩
  | cons r rs ih =>
    rw [List.foldl_cons]
    have h := (invalidate0_spec r (Nat.lt_succ_self st.size)).2
    obtain ⟨hsub, hrs⟩ := ih (invalidateReg st r)
    refine ⟨fun e he => h.sub e (hsub e he), fun q hq e he => ?_⟩
    rcases List.mem_cons.mp hq with rfl | hq
    · exact ⟨h.unmentioned e (hsub e he), fun hk => h.own e.2 (hk ▸ hsub e he)⟩
    · obtain ⟨hment, hex⟩ := hrs q hq e he
      exact ⟨hment, fun hk => h.exempt _ (hex hk)⟩

end

/-! ### What the insns put into it -/

/-- AMD64_OPERAND_PURE_CON. -/
def pureCon (o : Operand) : Bool := o.cls = .con && o.sym.isNone

/-- `frame`. -/
def frame (c : Selxns) (ofs dst : Operand) (age : Nat) : SelxnState :=
  update dst.reg (operandBased rbp (ofs.i.setWidth 32) age) ⟨c, none⟩

/-- ADD0: the winner has the highest degree, and is the oldest of that degree. -/
def add0 : Option Operand → Option Operand → Option Operand
  | winner, none => winner
  | none, some combo => some combo
  | some winner, some combo =>
    if operandDegree winner < operandDegree combo ∨
        operandDegree combo = operandDegree winner ∧ combo.age < winner.age then
      some combo
    else some winner

/-- The pairs of operands that `add` tries to combine. -/
def addPairs (c : Selxns) (src1 src2 : Operand) : List (Operand × Operand) :=
  [(src1, src2), (materialize c src1, src2), (src1, materialize c src2),
    (materialize c src1, materialize c src2)]

/-- The winner of some pairs. -/
def addWinner (winner : Option Operand) (pairs : List (Operand × Operand)) : Option Operand :=
  pairs.foldl (fun winner p => add0 winner (operandsCombine p.1 p.2)) winner

/-- `add`, which dereferences a null pointer when there is no winner. -/
def add (c : Selxns) (src1 src2 dst : Operand) : SelxnState :=
  if dst.ts.floating then ⟨c, none⟩
  else
    match addWinner none (addPairs c src1 src2) with
    | some winner => update dst.reg winner ⟨c, none⟩
    | none => ⟨c, none⟩

/-- `sub`. -/
def sub (c : Selxns) (src1 src2 dst : Operand) : SelxnState :=
  if dst.ts.integral && pureCon src2 && !hugeCon src2.i then
    add c src1 { src2 with i := -src2.i } dst
  else ⟨c, none⟩

/-- The scale of a left shift, or 0. -/
def shiftScale (i : Word) : Nat :=
  if i = 1 then 2 else if i = 2 then 4 else if i = 3 then 8 else 0

/-- `shift`, to the left. -/
def shl (c : Selxns) (src1 src2 dst : Operand) (age : Nat) : SelxnState :=
  if src1.cls = .reg ∧ pureCon src2 = true ∧ shiftScale src2.i ≠ 0 then
    update dst.reg (operandScaled src1.ts src1.reg (shiftScale src2.i) age) ⟨c, none⟩
  else ⟨c, none⟩

/-- What the generator numbers: the operands it makes, which gives them their age, and the
    temporaries that constants are moved to. -/
structure Supply where
  age : Nat
  temps : Nat

section
variable (constant : TypeBits → Word → Symbol) (temp : Nat → PseudoReg)
variable (made : Selxns → Insn → Nat)

/-- `decon`, of the operand `o` that was imported from `src`. -/
def decon (g : Supply) (src : Ncc.Operand) (o : Operand) :
    Supply × Ncc.Operand × Operand × List Insn :=
  if o.cls = .con then
    (⟨g.age + 1, g.temps + 1⟩, Ncc.operandReg o.ts (temp g.temps),
      operandReg o.ts (temp g.temps) g.age,
      [insnNew .move (some (Ncc.operandReg o.ts (temp g.temps))) (some src) none])
  else (g, src, o, [])

/-- One insn, after `insn_normalize`: the entry it makes, and what it is lowered to. -/
def select (g : Supply) (c : Selxns) (insn : Insn) : Supply × SelxnState × List Insn :=
  match insn.op, insn.dst, insn.src1, insn.src2 with
  | .frame, some dst, some src1, _ =>
    (⟨g.age + 3, g.temps⟩,
      frame c (operandImport constant src1 (g.age + 1)) (operandImport constant dst g.age)
        (g.age + 2), [insn])
  | .add, some dst, some src1, some src2 =>
    (⟨g.age + 3, g.temps⟩,
      add c (operandImport constant src1 (g.age + 1)) (operandImport constant src2 (g.age + 2))
        (operandImport constant dst g.age), [insn])
  | .sub, some dst, some src1, some src2 =>
    (⟨g.age + 3, g.temps⟩,
      sub c (operandImport constant src1 (g.age + 1)) (operandImport constant src2 (g.age + 2))
        (operandImport constant dst g.age), [insn])
  | .shl, some dst, some src1, some src2 =>
    let (g', src1, o, moves) := decon temp ⟨g.age + 3, g.temps⟩ src1
      (operandImport constant src1 (g.age + 1))
    (⟨g'.age + 1, g'.temps⟩,
      shl c o (operandImport constant src2 (g.age + 2)) (operandImport constant dst g.age) g'.age,
      moves ++ [{ insn with src1 := some src1 }])
  | _, _, _, _ => (g, ⟨c, none⟩, [insn])

/-- One insn of `gen0`; `made` counts the operands that the code made of it takes. -/
def genInsn (g : Supply) (c : Selxns) (insn : Insn) : Supply × Selxns × List Insn :=
  let (g', st, lowered) := select constant temp g c (insnNormalize insn)
  (⟨g'.age + made c insn, g'.temps⟩, (invalidate (insnNormalize insn) st).selxns, lowered)

/-- The cache of a block, with what `materialize` was offered on the way: the cache before each
    insn, and the code up to there. `temps` were handed out by its end. -/
structure BlockSelxns where
  selxns : Selxns
  points : List (List Insn × Selxns)
  temps : Nat

/-- The insns of a block, after the code `done`. -/
def genInsns : Supply → Selxns → List Insn → List Insn → Supply × BlockSelxns × List Insn
  | g, c, _, [] => (g, ⟨c, [], g.temps⟩, [])
  | g, c, done, insn :: insns =>
    let (g₁, c₁, lowered) := genInsn constant temp made g c insn
    let (g₂, d, rest) := genInsns g₁ c₁ (done ++ lowered) insns
    (g₂, ⟨d.selxns, (done, c) :: d.points, d.temps⟩, lowered ++ rest)

/-- `gen0`, after `inherit`. -/
def gen0 (g : Supply) (d : BlockSelxns) (insns : List Insn) : Supply × BlockSelxns × List Insn :=
  genInsns constant temp made g d.selxns [] insns

/-- `inherit`: only the cache is copied. -/
def inherit (d : BlockSelxns) : BlockSelxns := ⟨d.selxns.dup, [], d.temps⟩

/-- The blocks of `amd64_gen`. -/
def gen (f : Func) : EbbState Supply BlockSelxns :=
  blocksWalk f (ebb0 inherit (gen0 constant temp made)) (fun _ x => x)
    ⟨⟨0, 0⟩, fun _ => ⟨.empty, [], 0⟩, f⟩

end

end Ncc.Amd64
