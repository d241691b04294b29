import Ncc.Run
import Ncc.Tree

/-! IR constant folding (fold.c, con.c).

    Insns over constants become moves of their results. A comparison of constants is deleted, and
    what it would have told is carried, as a set of condition codes, to the I_SET_cc insns and the
    conditional branch that follow it. The operands are of integral types here. -/

namespace Ncc

/-! ### Constants (con.h, con.c) -/

/-- LONG_MIN. -/
def longMin : Word := BitVec.intMin 64

/-- CON_FOLD_BINARY_I, CON_FOLD_BINARY_ANY: an operation on 64-bit words. The host has no quotient
    for LONG_MIN / -1, where it stops the compiler. -/
def conFoldBinary (op : InsnOp) (ts : TypeBits) (a b : Word) : Option Word :=
  if (op = .div ∨ op = .mod) ∧ ts.signed = true ∧ a = longMin ∧ b = -1 then none
  else some (conNormalize ts (aluBinary op ts a b))

/-- `con_cmp`: the codes that result. Signed and unsigned codes are not told apart: all that might
    apply are set. -/
def conCmp (ts : TypeBits) (left right : Word) : CcSet :=
  let gt := if ts.signed then right.slt left else right.ult left
  if left = right then {.ae, .ge, .be, .le, .z}
  else if gt then {.a, .g, .ae, .ge, .nz}
  else {.b, .l, .be, .le, .nz}

/-! ### Insns -/

/-- I_SWAP. -/
def InsnOp.swap : InsnOp → Bool
  | .add | .mul | .xor | .or | .and => true
  | _ => false

/-- `insn_commute`. -/
def insnCommute (insn : Insn) : Insn := { insn with src1 := insn.src2, src2 := insn.src1 }

/-- `insn_normalize`. -/
def insnNormalize (insn : Insn) : Insn :=
  if insn.op.swap then
    if operandPureCon insn.src1 then insnCommute insn
    else if operandIsSame insn.dst insn.src2 then insnCommute insn
    else insn
  else insn

/-- What `fold0` finds out about an insn: its result is a constant (and a symbol), or it is a
    comparison that yields these codes, or neither; the host may also have stopped. -/
inductive Folded where
  | keep
  | con (c : Word) (sym : Option Symbol)
  | ccs (ccs : CcSet)
  | trap
  deriving DecidableEq

/-- A result, unless the host stopped. -/
def foldedCon (sym : Option Symbol) : Option Word → Folded
  | some c => .con c sym
  | none => .trap

/-- The first `switch` of `fold0`. -/
def foldUnary (insn : Insn) : Folded :=
  match insn.src1 with
  | some ⟨_, .con c none, _⟩ =>
    match insn.op with
    | .neg => .con (conNormalize (tsOpt insn.dst) (-c)) none
    | .com => .con (conNormalize (tsOpt insn.dst) (~~~c)) none
    | .cast => .con (conNormalize (tsOpt insn.dst) c) none
    | _ => .keep
  | _ => .keep

/-- The other two, on the constants of both operands and the symbol of the first one. -/
def foldWords (op : InsnOp) (ts ts₁ : TypeBits) (a : Word) (sym : Option Symbol) (b : Word) :
    Folded :=
  match op with
  | .add | .sub => foldedCon sym (conFoldBinary op ts a b)
  | .div | .mod =>
    if sym.isNone ∧ b ≠ 0 then foldedCon none (conFoldBinary op ts a b) else .keep
  | .mul | .shr | .shl | .xor | .or | .and =>
    if sym.isNone then foldedCon none (conFoldBinary op ts a b) else .keep
  | .cmp => if sym.isNone then .ccs (conCmp ts₁ a b) else .keep
  | _ => .keep

/-- Both operands are constants, and the second one is pure, or becomes so: the symbol disappears
    when a constant is subtracted from another one that refers to the same symbol. -/
def foldBinary (insn : Insn) : Folded :=
  match insn.src1, insn.src2 with
  | some ⟨ts₁, .con a sym₁, _⟩, some ⟨_, .con b sym₂, _⟩ =>
    let drop := insn.op = .sub ∧ sym₁ = sym₂
    if drop ∨ sym₂ = none then
      foldWords insn.op (tsOpt insn.dst) ts₁ a (if drop then none else sym₁) b
    else .keep
  | _, _ => .keep

/-- The fate of an insn that `insn_normalize` has seen. -/
def foldInsn (insn : Insn) : Folded :=
  match foldUnary insn with
  | .keep => foldBinary insn
  | r => r

/-- The I_MOVE that replaces an insn. -/
def insnMoveCon (insn : Insn) (c : Word) (sym : Option Symbol) : Insn :=
  insnNew .move insn.dst (some (operandI (tsOpt insn.dst) c sym))

/-- One turn of the loop of `fold0`; `known` is `ccs`, when `ccs_valid`. -/
def fold0Insn (known : Option CcSet) (insn : Insn) : Option (Insn × Option CcSet) :=
  let insn := insnNormalize insn
  match foldInsn insn with
  | .con c sym => some (insnMoveCon insn c sym, known)
  | .ccs ccs => some (insnNew .nop, some ccs)
  | .trap => none
  | .keep =>
    match insn.op, known with
    | .set cc, some ccs => some (insnMoveCon insn (if cc ∈ ccs then 1 else 0) none, known)
    | _, _ => some (insn, if insnDefsCc insn then none else known)

/-- The loop of `fold0`. -/
def fold0Insns : Option CcSet → List Insn → Option (List Insn × Option CcSet)
  | known, [] => some ([], known)
  | known, insn :: l =>
    (fold0Insn known insn).bind fun r => (fold0Insns r.2 l).map fun q => (r.1 :: q.1, q.2)

/-! ### Blocks -/

/-- The condition code of a cessor says nothing about where it leads. -/
theorem succs_modifyCc (l : List Cessor) (n : Nat) (cc : ConditionCode) :
    (l.modify n fun c => { c with cc := cc }).map Cessor.b = l.map Cessor.b := by
  apply List.ext_getElem?
  intro i
  simp only [List.getElem?_map, List.getElem?_modify]
  split <;> cases l[i]? <;> rfl

theorem linked_modifyCc {B : Blocks} (h : B.Linked) (b : BlockId) (n : Nat) (cc : ConditionCode) :
    (B.modify b fun x =>
      { x with successors := x.successors.modify n fun c => { c with cc := cc } }).Linked := by
  intro c d
  simp only [Blocks.modify]
  have hs : ∀ x : Block, ({ x with
      successors := x.successors.modify n fun c => { c with cc := cc } } : Block).succs = x.succs :=
    fun x => succs_modifyCc x.successors n cc
  split <;> split <;> first | exact h c d | (rw [hs]; exact h c d)

/-- Change the condition code of a successor. -/
def Func.setSuccessorCc (f : Func) (b : BlockId) (n : Nat) (cc : ConditionCode) : Func :=
  { f with
    block := f.block.modify b fun x =>
      { x with successors := x.successors.modify n fun c => { c with cc := cc } }
    linked := linked_modifyCc f.linked b n cc }

/-- The loop of `block_known_ccs` from the successor at position `n` on; `k` are left. -/
def knownCcs (b : BlockId) (ccs : CcSet) : Nat → Nat → Func → Func
  | 0, _, f => f
  | k + 1, n, f =>
    match (f.block b).successors[n]? with
    | none => f
    | some succ =>
      if succ.cc ∈ ccs then knownCcs b ccs k (n + 1) (f.setSuccessorCc b n .always)
      else knownCcs b ccs k n (blockRemoveSuccessor f b n)

/-- `block_known_ccs`. -/
def blockKnownCcs (f : Func) (b : BlockId) (ccs : CcSet) : Func :=
  if blockConditional (f.block b) then knownCcs b ccs (f.block b).successors.length 0 f else f

/-- `fold0`; nothing when the host stopped. -/
def fold0 (f : Func) (b : BlockId) : Option Func :=
  (fold0Insns none (f.block b).insns).map fun r =>
    let f := f.setInsns b r.1
    match r.2 with
    | some ccs => blockKnownCcs f b ccs
    | none => f

/-! ### The folded insns -/

section
variable {ts t : TypeBits} {a b c : Word}

theorem fit_conNormalize (h : ts.integral = true) (w : Word) :
    fit ts (conNormalize ts w) = conNormalize ts w := by
  rw [fit_of_integral h, conNormalize_self]

theorem low_add (a b : Word) : low ts (a + b) = low ts a + low ts b :=
  BitVec.setWidth_add a b (by have := (sizeof_pos ts).2; omega)

/-- A symbol's address may be added to an offset that has been normalized. -/
theorem conNormalize_add_right (h : ts.integral = true) (a b : Word) :
    conNormalize ts (a + conNormalize ts b) = conNormalize ts (a + b) := by
  rw [conNormalize_eq_iff h, low_add, low_add, low_conNormalize_self h]

/-- Comparison at the width of a type is comparison of the words that fit it. -/
theorem slt_normalized (h : ts.integral = true) (hs : ts.signed = true)
    (ha : conNormalize ts a = a) (hb : conNormalize ts b = b) :
    (low ts a).slt (low ts b) = a.slt b := by
  have hle : 8 * ts.sizeof ≤ 64 := by have := (sizeof_pos ts).2; omega
  rw [conNormalize_eq h, if_pos hs] at ha hb
  rw [BitVec.slt_eq_decide, BitVec.slt_eq_decide]
  conv_rhs => rw [← ha, ← hb]
  rw [BitVec.toInt_signExtend_of_le hle, BitVec.toInt_signExtend_of_le hle]

theorem eq_normalized (h : ts.integral = true) (ha : conNormalize ts a = a)
    (hb : conNormalize ts b = b) : low ts a = low ts b ↔ a = b := by
  rw [← conNormalize_eq_iff h, ha, hb]

end

/-- The comment at `con_cmp`: a code is checked after a comparison of its own kind only. -/
def ConditionCode.suits (ts : TypeBits) : ConditionCode → Bool
  | .g | .le | .ge | .l => ts.signed
  | .a | .be | .ae | .b => !ts.signed
  | _ => true

/-- One of two different words is the greater one. -/
theorem gt_or_lt {a b : Word} (h : a ≠ b) :
    (a.slt b = !b.slt a) ∧ (a.ult b = !b.ult a) := by
  have hn : a.toNat ≠ b.toNat := fun he => h (BitVec.eq_of_toNat_eq he)
  have hi : a.toInt ≠ b.toInt := fun he => h (BitVec.eq_of_toInt_eq he)
  refine ⟨?_, ?_⟩
  · rw [BitVec.slt_eq_decide, BitVec.slt_eq_decide, Bool.eq_iff_iff]
    simp only [Bool.not_eq_true', decide_eq_true_eq, decide_eq_false_iff_not]
    omega
  · rw [BitVec.ult_eq_decide, BitVec.ult_eq_decide, Bool.eq_iff_iff]
    simp only [Bool.not_eq_true', decide_eq_true_eq, decide_eq_false_iff_not]
    omega

/-- Words that fit the type compare at its width as they do themselves. -/
theorem cmpHolds_normalized {ts : TypeBits} {a b : Word} (h : ts.integral = true)
    (ha : conNormalize ts a = a) (hb : conNormalize ts b = b) {cc : ConditionCode}
    (hc : cc.suits ts = true) : cmpHolds (low ts a) (low ts b) cc = cmpHolds a b cc := by
  have heq : (low ts a == low ts b) = (a == b) := by
    rw [Bool.eq_iff_iff, beq_iff_eq, beq_iff_eq, eq_normalized h ha hb]
  have hult : ∀ {x y : Word}, conNormalize ts x = x → conNormalize ts y = y →
      (low ts x).ult (low ts y) = x.ult y := by
    intro x y hx hy
    rw [Bool.eq_iff_iff, BitVec.ult_iff_lt, BitVec.ult_iff_lt]
    exact ult_normalized h hx hy
  cases cc with
  | g | le => simp only [cmpHolds, slt_normalized h hc hb ha]
  | ge | l => simp only [cmpHolds, slt_normalized h hc ha hb]
  | a | be => simp only [cmpHolds, hult hb ha]
  | ae | b => simp only [cmpHolds, hult ha hb]
  | z => exact heq
  | nz => simp only [cmpHolds, bne, heq]
  | always | never | switch | default => rfl

/-- What `con_cmp` says of the codes that suit the type. -/
theorem mem_conCmp {ts : TypeBits} {a b : Word} {cc : ConditionCode} (hc : cc.suits ts = true) :
    cc ∈ conCmp ts a b ↔ cmpHolds a b cc = true := by
  rw [conCmp]
  by_cases hab : a = b
  · subst hab
    rw [if_pos rfl]
    cases cc <;> simp [cmpHolds, BitVec.slt_eq_decide, BitVec.ult_eq_decide]
  · obtain ⟨hslt, hult⟩ := gt_or_lt hab
    rw [if_neg hab]
    cases hs : ts.signed <;> simp only [Bool.false_eq_true, if_true, if_false] <;> split <;>
      cases cc <;> simp_all [cmpHolds, ConditionCode.suits]

/-- `con_cmp` gives the codes that I_CMP sets, as far as they suit the type. -/
theorem mem_conCmp_iff {ts : TypeBits} {a b : Word} {cc : ConditionCode} (env : Env)
    (h : ts.integral = true) (ha : conNormalize ts a = a) (hb : conNormalize ts b = b)
    (hc : cc.suits ts = true) : cc ∈ conCmp ts a b ↔ cc ∈ cmpCodes env ts a b := by
  have hf : ts.floating = false := by
    rw [TypeBits.integral, Bool.not_eq_true'] at h
    exact h
  rw [mem_conCmp hc, cmpCodes, hf, if_neg Bool.false_ne_true, Finset.mem_filter,
    ← cmpHolds_normalized h ha hb hc]
  exact (and_iff_right (Finset.mem_univ cc)).symm

/-! ### The meaning of the insns -/

/-- An insn over integral operands whose constants are normalized: an address has the size of a
    pointer, the operands of a comparison have one type, and LONG_MIN is not divided by -1. -/
structure Foldable (insn : Insn) : Prop where
  dst : (tsOpt insn.dst).integral = true
  src1 : (tsOpt insn.src1).integral = true
  src2 : (tsOpt insn.src2).integral = true
  normalized : ∀ ts c sym n, some (Operand.mk ts (.con c sym) n) = insn.src1 ∨
    some (Operand.mk ts (.con c sym) n) = insn.src2 → conNormalize ts c = c
  address : ∀ ts c x n, some (Operand.mk ts (.con c (some x)) n) = insn.src1 ∨
    some (Operand.mk ts (.con c (some x)) n) = insn.src2 → ts.sizeof = 8
  compared : insn.op = .cmp → tsOpt insn.src2 = tsOpt insn.src1
  quotient : insn.op = .div ∨ insn.op = .mod → (tsOpt insn.dst).signed = true →
    ∀ ts₁ ts₂ n₁ n₂, ¬ (insn.src1 = some ⟨ts₁, .con longMin none, n₁⟩ ∧
      insn.src2 = some ⟨ts₂, .con (-1) none, n₂⟩)

section
variable {env : Env} {insn : Insn} {s : State}

theorem TypeBits.not_floating {ts : TypeBits} (h : ts.integral = true) : ts.floating = false := by
  rw [TypeBits.integral, Bool.not_eq_true'] at h
  exact h

theorem conNormalize_pointer {ts : TypeBits} (h : ts.integral = true) (h8 : ts.sizeof = 8)
    (w : Word) : conNormalize ts w = w := by
  cases ts <;> first | rfl | exact absurd h8 (by decide)

/-- What a constant operand denotes. -/
theorem read_con {regs : PseudoReg → Word} {ts : TypeBits} {c : Word} {sym : Option Symbol}
    {n : ValueNumber} (h : ts.integral = true) (hc : conNormalize ts c = c)
    (ha : ∀ x, sym = some x → ts.sizeof = 8) :
    readOpt env regs (some ⟨ts, .con c sym, n⟩) = symWord env sym + c := by
  have hread : readOpt env regs (some ⟨ts, .con c sym, n⟩) =
      conNormalize ts (symWord env sym + c) := by
    cases ts <;> first | rfl | exact nomatch h
  rw [hread]
  cases sym with
  | none => rw [symWord, zero_add, hc]
  | some x => exact conNormalize_pointer h (ha x rfl) _

theorem Foldable.read1 (h : Foldable insn) {regs : PseudoReg → Word} {ts : TypeBits} {c : Word}
    {sym : Option Symbol} {n : ValueNumber} (hs : insn.src1 = some ⟨ts, .con c sym, n⟩) :
    readOpt env regs insn.src1 = symWord env sym + c := by
  have hts := h.src1
  rw [hs] at hts ⊢
  refine read_con hts (h.normalized ts c sym n (.inl hs.symm)) fun x hx => ?_
  subst hx
  exact h.address ts c x n (.inl hs.symm)

theorem Foldable.read2 (h : Foldable insn) {regs : PseudoReg → Word} {ts : TypeBits} {c : Word}
    {sym : Option Symbol} {n : ValueNumber} (hs : insn.src2 = some ⟨ts, .con c sym, n⟩) :
    readOpt env regs insn.src2 = symWord env sym + c := by
  have hts := h.src2
  rw [hs] at hts ⊢
  refine read_con hts (h.normalized ts c sym n (.inr hs.symm)) fun x hx => ?_
  subst hx
  exact h.address ts c x n (.inr hs.symm)

/-- The I_MOVE of a constant. -/
theorem exec_moveCon (h : (tsOpt insn.dst).integral = true) (c : Word) (sym : Option Symbol) :
    exec env (insnMoveCon insn c sym) s = s.write insn.dst (symWord env sym + c) := by
  have hread : readOpt env s.regs (some (operandI (tsOpt insn.dst) c sym)) =
      conNormalize (tsOpt insn.dst) (symWord env sym + c) := by
    cases hts : tsOpt insn.dst <;> rw [hts] at h <;> first | rfl | exact nomatch h
  have hexec : exec env (insnMoveCon insn c sym) s =
      s.write insn.dst (readOpt env s.regs (some (operandI (tsOpt insn.dst) c sym))) := rfl
  rw [hexec, hread]
  refine write_congr ?_
  rw [fit_conNormalize h, fit_of_integral h]

/-- The insns with one operand write what they compute. -/
theorem exec_unary (h : insn.op ∈ [InsnOp.cast, .neg, .com]) :
    exec env insn s = s.write insn.dst (exprValue env insn.op (tsOpt insn.dst) (tsOpt insn.src1)
      (readOpt env s.regs insn.src1) (readOpt env s.regs insn.src2) s.mem) := by
  obtain ⟨op, dst, src1, src2, vol, iasm⟩ := insn
  cases op <;> first | rfl | simp at h

theorem foldUnary_con (h : Foldable insn) {c : Word} {sym : Option Symbol}
    (hf : foldUnary insn = .con c sym) : insn.op ∈ [InsnOp.cast, .neg, .com] ∧
      exec env insn s = s.write insn.dst (symWord env sym + c) := by
  rw [foldUnary] at hf
  split at hf
  · rename_i ts c₀ n hs
    have hread : readOpt env s.regs insn.src1 = c₀ := (h.read1 hs).trans (zero_add c₀)
    have hnf := TypeBits.not_floating h.dst
    have hnf1 := TypeBits.not_floating h.src1
    have hwrite : ∀ w : Word, s.write insn.dst w =
        s.write insn.dst (symWord env none + conNormalize (tsOpt insn.dst) w) := by
      intro w
      refine write_congr ?_
      rw [symWord, zero_add, fit_conNormalize h.dst, fit_of_integral h.dst]
    split at hf
    · rename_i hop
      cases hf
      have hmem : insn.op ∈ [InsnOp.cast, .neg, .com] := by rw [hop]; decide
      refine ⟨hmem, ?_⟩
      rw [exec_unary hmem, hop, hread, exprValue, hnf, if_neg Bool.false_ne_true]
      exact hwrite _
    · rename_i hop
      cases hf
      have hmem : insn.op ∈ [InsnOp.cast, .neg, .com] := by rw [hop]; decide
      refine ⟨hmem, ?_⟩
      rw [exec_unary hmem, hop, hread, exprValue]
      exact hwrite _
    · rename_i hop
      cases hf
      have hmem : insn.op ∈ [InsnOp.cast, .neg, .com] := by rw [hop]; decide
      refine ⟨hmem, ?_⟩
      rw [exec_unary hmem, hop, hread, exprValue, hnf, hnf1, Bool.or_self,
        if_neg Bool.false_ne_true]
      exact hwrite _
    · cases hf
  · cases hf

/-- The insns with two operands and a result. -/
def InsnOp.binary : InsnOp → Bool
  | .add | .sub | .mul | .div | .mod | .shr | .shl | .xor | .or | .and => true
  | _ => false

theorem exec_binary (hop : insn.op.binary = true) (h : (tsOpt insn.dst).integral = true) :
    exec env insn s = s.write insn.dst (aluBinary insn.op (tsOpt insn.dst)
      (readOpt env s.regs insn.src1) (readOpt env s.regs insn.src2)) := by
  have hnf := TypeBits.not_floating h
  obtain ⟨op, dst, src1, src2, vol, iasm⟩ := insn
  cases op <;> first
    | (simp only [exec, exprValue, hnf, Bool.false_eq_true, if_false]; done)
    | cases hop

theorem foldedCon_eq {op : InsnOp} {ts : TypeBits} {a b c : Word} {sym sym' : Option Symbol}
    (h : foldedCon sym (conFoldBinary op ts a b) = .con c sym') :
    sym' = sym ∧ c = conNormalize ts (aluBinary op ts a b) := by
  rw [conFoldBinary] at h
  split at h
  · cases h
  · cases h
    exact ⟨rfl, rfl⟩

/-- What `foldWords` computes is what the insn computes from the words; only a sum or a difference
    has a symbol. -/
theorem foldWords_con {op : InsnOp} {ts ts₁ : TypeBits} {a b c : Word} {sym sym' : Option Symbol}
    (hf : foldWords op ts ts₁ a sym b = .con c sym') :
    op.binary = true ∧ sym' = sym ∧ c = conNormalize ts (aluBinary op ts a b) ∧
      (sym = none ∨ op = .add ∨ op = .sub) := by
  cases op with
  | add =>
    rw [foldWords] at hf
    obtain ⟨hs, hc⟩ := foldedCon_eq hf
    exact ⟨rfl, hs, hc, .inr (.inl rfl)⟩
  | sub =>
    rw [foldWords] at hf
    obtain ⟨hs, hc⟩ := foldedCon_eq hf
    exact ⟨rfl, hs, hc, .inr (.inr rfl)⟩
  | div | mod =>
    rw [foldWords] at hf
    split at hf
    · rename_i hz
      have hnone := Option.isNone_iff_eq_none.mp hz.1
      obtain ⟨hs, hc⟩ := foldedCon_eq hf
      exact ⟨rfl, hs.trans hnone.symm, hc, .inl hnone⟩
    · cases hf
  | mul | shr | shl | xor | or | and =>
    rw [foldWords] at hf
    split at hf
    · rename_i hz
      have hnone := Option.isNone_iff_eq_none.mp hz
      obtain ⟨hs, hc⟩ := foldedCon_eq hf
      exact ⟨rfl, hs.trans hnone.symm, hc, .inl hnone⟩
    · cases hf
  | cmp =>
    rw [foldWords] at hf
    split at hf <;> cases hf
  | _ => cases hf

/-- The symbol of a sum or a difference is that of the first operand. -/
theorem aluBinary_symbol {op : InsnOp} {sym : Option Symbol} (ts : TypeBits) (a b : Word)
    (h : sym = none ∨ op = .add ∨ op = .sub) :
    aluBinary op ts (symWord env sym + a) b = symWord env sym + aluBinary op ts a b := by
  obtain rfl | rfl | rfl := h
  · rw [symWord, zero_add, zero_add]
  · exact add_assoc _ a b
  · exact add_sub_assoc _ a b

theorem foldBinary_con (h : Foldable insn) {c : Word} {sym : Option Symbol}
    (hf : foldBinary insn = .con c sym) : insn.op.binary = true ∧
      exec env insn s = s.write insn.dst (symWord env sym + c) := by
  rw [foldBinary] at hf
  split at hf
  · rename_i ts₁ a sym₁ n₁ ts₂ b sym₂ n₂ hs1 hs2
    simp only [] at hf
    split at hf
    · rename_i hpure
      obtain ⟨hop, hsym, hc, haddr⟩ := foldWords_con hf
      refine ⟨hop, ?_⟩
      rw [exec_binary hop h.dst, h.read1 hs1, h.read2 hs2, hc]
      refine write_congr ?_
      rw [fit_of_integral h.dst, fit_of_integral h.dst, conNormalize_add_right h.dst, hsym]
      congr 1
      split
      · rename_i hdrop
        -- the symbol disappears from a difference
        rw [hdrop.1, hdrop.2, symWord, zero_add]
        exact add_sub_add_left_eq_sub a b _
      · rename_i hdrop
        rw [if_neg hdrop] at haddr
        rw [hpure.resolve_left hdrop, ← aluBinary_symbol _ a b haddr, symWord, zero_add]
    · cases hf
  · cases hf

theorem foldedCon_ne_ccs {sym : Option Symbol} {o : Option Word} {ccs : CcSet} :
    foldedCon sym o ≠ .ccs ccs := by
  intro h
  cases o <;> cases h

theorem foldWords_ccs {op : InsnOp} {ts ts₁ : TypeBits} {a b : Word} {sym : Option Symbol}
    {ccs : CcSet} (hf : foldWords op ts ts₁ a sym b = .ccs ccs) :
    op = .cmp ∧ sym = none ∧ ccs = conCmp ts₁ a b := by
  cases op with
  | add | sub =>
    rw [foldWords] at hf
    exact absurd hf foldedCon_ne_ccs
  | div | mod | mul | shr | shl | xor | or | and =>
    rw [foldWords] at hf
    split at hf
    · exact absurd hf foldedCon_ne_ccs
    · cases hf
  | cmp =>
    rw [foldWords] at hf
    split at hf
    · rename_i hs
      cases hf
      exact ⟨rfl, Option.isNone_iff_eq_none.mp hs, rfl⟩
    · cases hf
  | _ => cases hf

/-- A comparison of constants is deleted: what it would have set. -/
theorem foldBinary_ccs (h : Foldable insn) {ccs : CcSet} (hf : foldBinary insn = .ccs ccs) :
    insn.op = .cmp ∧ ∃ a b, conNormalize (tsOpt insn.src1) a = a ∧
      conNormalize (tsOpt insn.src1) b = b ∧ ccs = conCmp (tsOpt insn.src1) a b ∧
      exec env insn s = { s with ccs := cmpCodes env (tsOpt insn.src1) a b } := by
  rw [foldBinary] at hf
  split at hf
  · rename_i ts₁ a sym₁ n₁ ts₂ b sym₂ n₂ hs1 hs2
    simp only [] at hf
    split at hf
    · rename_i hpure
      obtain ⟨hop, hsym, hccs⟩ := foldWords_ccs hf
      have hdrop : ¬ (insn.op = .sub ∧ sym₁ = sym₂) := by
        rw [hop]
        exact fun hd => nomatch hd.1
      rw [if_neg hdrop] at hsym
      have hts1 : tsOpt insn.src1 = ts₁ := by rw [hs1]; rfl
      have hts2 : ts₂ = ts₁ := by
        rw [← hts1, ← h.compared hop, hs2]
        rfl
      have ha : readOpt env s.regs insn.src1 = symWord env sym₁ + a := h.read1 hs1
      have hb : readOpt env s.regs insn.src2 = symWord env sym₂ + b := h.read2 hs2
      rw [hsym, symWord, zero_add] at ha
      rw [hpure.resolve_left hdrop, symWord, zero_add] at hb
      refine ⟨hop, a, b, ?_, ?_, ?_, ?_⟩
      · rw [hts1]
        exact h.normalized ts₁ a sym₁ n₁ (.inl hs1.symm)
      · rw [hts1, ← hts2]
        exact h.normalized ts₂ b sym₂ n₂ (.inr hs2.symm)
      · rw [hts1]
        exact hccs
      · simp only [exec, hop, ha, hb]
    · cases hf
  · cases hf

theorem foldWords_trap {op : InsnOp} {ts ts₁ : TypeBits} {a b : Word} {sym : Option Symbol}
    (hf : foldWords op ts ts₁ a sym b = .trap) :
    (op = .div ∨ op = .mod) ∧ ts.signed = true ∧ sym = none ∧ a = longMin ∧ b = -1 := by
  have htrap : ∀ {sym₀ : Option Symbol}, foldedCon sym₀ (conFoldBinary op ts a b) = .trap →
      (op = .div ∨ op = .mod) ∧ ts.signed = true ∧ a = longMin ∧ b = -1 := by
    intro sym₀ h
    rw [conFoldBinary] at h
    split at h
    · assumption
    · cases h
  cases op with
  | add | sub =>
    rw [foldWords] at hf
    exact nomatch (htrap hf).1
  | mul | shr | shl | xor | or | and =>
    rw [foldWords] at hf
    split at hf
    · exact nomatch (htrap hf).1
    · cases hf
  | div | mod =>
    rw [foldWords] at hf
    split at hf
    · rename_i hz
      obtain ⟨hop, hts, ha, hb⟩ := htrap hf
      exact ⟨hop, hts, Option.isNone_iff_eq_none.mp hz.1, ha, hb⟩
    · cases hf
  | cmp =>
    rw [foldWords] at hf
    split at hf <;> cases hf
  | _ => cases hf

/-- The host does not stop. -/
theorem foldBinary_trap (h : Foldable insn) : foldBinary insn ≠ .trap := by
  intro hf
  rw [foldBinary] at hf
  split at hf
  · rename_i ts₁ a sym₁ n₁ ts₂ b sym₂ n₂ hs1 hs2
    simp only [] at hf
    split at hf
    · rename_i hpure
      obtain ⟨hop, hts, hsym, rfl, rfl⟩ := foldWords_trap hf
      have hdrop : ¬ (insn.op = .sub ∧ sym₁ = sym₂) := by
        rintro ⟨hsub, -⟩
        rw [hsub] at hop
        exact nomatch hop
      rw [if_neg hdrop] at hsym
      rw [hsym] at hs1
      rw [hpure.resolve_left hdrop] at hs2
      exact h.quotient hop hts ts₁ ts₂ n₁ n₂ ⟨hs1, hs2⟩
    · cases hf
  · cases hf

/-! ### insn_normalize -/

theorem insnNormalize_cases (insn : Insn) :
    insnNormalize insn = insn ∨ (insn.op.swap = true ∧ insnNormalize insn = insnCommute insn) := by
  rw [insnNormalize]
  split
  · rename_i hs
    split
    · exact .inr ⟨hs, rfl⟩
    · split
      · exact .inr ⟨hs, rfl⟩
      · exact .inl rfl
  · exact .inl rfl

theorem aluBinary_comm {op : InsnOp} (h : op.swap = true) (ts : TypeBits) (a b : Word) :
    aluBinary op ts a b = aluBinary op ts b a := by
  cases op with
  | add => exact BitVec.add_comm a b
  | mul => exact BitVec.mul_comm a b
  | xor => exact BitVec.xor_comm a b
  | or => exact BitVec.or_comm a b
  | and => exact BitVec.and_comm a b
  | _ => cases h

theorem exec_insnNormalize (h : (tsOpt insn.dst).integral = true) :
    exec env (insnNormalize insn) s = exec env insn s := by
  obtain he | ⟨hs, he⟩ := insnNormalize_cases insn
  · rw [he]
  · have hb : insn.op.binary = true := by
      cases hop : insn.op <;> rw [hop] at hs <;> first | rfl | cases hs
    have hcomm : (insnCommute insn).op.binary = true := hb
    rw [he, exec_binary hcomm h, exec_binary hb h]
    exact congrArg _ (aluBinary_comm hs _ _ _)

theorem op_insnNormalize (insn : Insn) : (insnNormalize insn).op = insn.op := by
  obtain he | ⟨-, he⟩ := insnNormalize_cases insn <;> rw [he]
  rfl

theorem dst_insnNormalize (insn : Insn) : (insnNormalize insn).dst = insn.dst := by
  obtain he | ⟨-, he⟩ := insnNormalize_cases insn <;> rw [he]
  rfl

theorem Foldable.normalize (h : Foldable insn) : Foldable (insnNormalize insn) := by
  obtain he | ⟨hs, he⟩ := insnNormalize_cases insn
  · rwa [he]
  · rw [he]
    refine ⟨h.dst, h.src2, h.src1, fun ts c sym n ho => h.normalized ts c sym n ho.symm,
      fun ts c x n ho => h.address ts c x n ho.symm, fun hop => (h.compared hop).symm,
      fun hop => ?_⟩
    have hop : insn.op = .div ∨ insn.op = .mod := hop
    obtain hop | hop := hop <;> rw [hop] at hs <;> cases hs

/-- An insn is folded to what it computes, and no such insn touches the condition codes. -/
theorem foldInsn_con (h : Foldable insn) {c : Word} {sym : Option Symbol}
    (hf : foldInsn insn = .con c sym) : insn.op ≠ .cmp ∧ insnDefsCc insn = false ∧
      exec env insn s = s.write insn.dst (symWord env sym + c) := by
  rw [foldInsn] at hf
  split at hf
  · obtain ⟨hop, hexec⟩ := foldBinary_con h hf
    rw [insnDefsCc]
    cases ho : insn.op <;> rw [ho] at hop <;> first
      | exact ⟨by rintro ⟨⟩, rfl, hexec⟩
      | cases hop
  · obtain ⟨hop, hexec⟩ := foldUnary_con h hf
    simp only [List.mem_cons, List.not_mem_nil, or_false] at hop
    rw [insnDefsCc]
    obtain ho | ho | ho := hop <;> rw [ho] <;> exact ⟨by rintro ⟨⟩, rfl, hexec⟩

theorem foldUnary_con_or_keep (insn : Insn) :
    foldUnary insn = .keep ∨ ∃ c sym, foldUnary insn = .con c sym := by
  rw [foldUnary]
  split
  · split
    · exact .inr ⟨_, _, rfl⟩
    · exact .inr ⟨_, _, rfl⟩
    · exact .inr ⟨_, _, rfl⟩
    · exact .inl rfl
  · exact .inl rfl

theorem foldInsn_ccs (h : Foldable insn) {ccs : CcSet} (hf : foldInsn insn = .ccs ccs) :
    insn.op = .cmp ∧ ∃ a b, conNormalize (tsOpt insn.src1) a = a ∧
      conNormalize (tsOpt insn.src1) b = b ∧ ccs = conCmp (tsOpt insn.src1) a b ∧
      exec env insn s = { s with ccs := cmpCodes env (tsOpt insn.src1) a b } := by
  obtain hu | ⟨c, sym, hu⟩ := foldUnary_con_or_keep insn <;> rw [foldInsn, hu] at hf
  · exact foldBinary_ccs h hf
  · cases hf

theorem foldInsn_trap (h : Foldable insn) : foldInsn insn ≠ .trap := by
  intro hf
  obtain hu | ⟨c, sym, hu⟩ := foldUnary_con_or_keep insn <;> rw [foldInsn, hu] at hf
  · exact foldBinary_trap h hf
  · cases hf

end

/-! ### The run of a block -/

section
variable {env : Env}

theorem write_setCcs (s : State) (c : CcSet) (dst : Option Operand) (v : Word) :
    State.write { s with ccs := c } dst v = { s.write dst v with ccs := c } := by
  rcases dst with _ | ⟨ts, _ | r, n⟩ <;> rfl

/-- Only I_SET_cc looks at the condition codes. -/
theorem exec_setCcs {insn : Insn} (h : ∀ cc, insn.op ≠ .set cc) (s : State) (c : CcSet) :
    exec env insn { s with ccs := c } =
      { exec env insn s with ccs := if insnDefsCc insn then (exec env insn s).ccs else c } := by
  obtain ⟨op, dst, src1, src2, vol, iasm⟩ := insn
  cases op with
  | set cc => exact absurd rfl (h cc)
  | asm => cases hd : iasm.defsCc <;> simp [exec, execAsm, insnDefsCc, hd]
  | call => simp only [exec, insnDefsCc, InsnOp.defCc, reduceCtorEq, if_false, if_true]
  | _ =>
    simp only [exec, insnDefsCc, InsnOp.defCc, reduceCtorEq, if_false, if_true, write_setCcs,
      Bool.false_eq_true]

/-- The type at which the condition codes were last compared, if they come from a comparison. -/
def compared (ty : Option TypeBits) (insn : Insn) : Option TypeBits :=
  if insn.op = .cmp then some (tsOpt insn.src1) else if insnDefsCc insn then none else ty

/-- Every code that is checked after a comparison, by an insn or at the end of the block, suits the
    type of the comparison. -/
def Matched : Option TypeBits → List Insn → CcSet → Prop
  | ty, [], codes => ∀ ts ∈ ty, ∀ cc ∈ codes, cc.suits ts = true
  | ty, insn :: l, codes =>
    (∀ ts ∈ ty, ∀ cc ∈ insnUsesCc insn, cc.suits ts = true) ∧ Matched (compared ty insn) l codes

/-- The folded block is in state `s'` when the block is in state `s`: only the condition codes may
    differ, and where they are not the same those that suit the type are known. -/
structure Known (known : Option CcSet) (ty : Option TypeBits) (s s' : State) : Prop where
  same : { s with ccs := s'.ccs } = s'
  unknown : known = none → s'.ccs = s.ccs
  known : ∀ ccs ∈ known, ∃ ts a b, ty = some ts ∧ ccs = conCmp ts a b ∧
    ∀ cc, cc.suits ts = true → (cc ∈ ccs ↔ cc ∈ s.ccs)

theorem Known.move {known : Option CcSet} {ty : Option TypeBits} {s s' : State}
    (h : Known known ty s s') {insn : Insn} (hd : (tsOpt insn.dst).integral = true) {c : Word}
    {sym : Option Symbol} (hexec : exec env insn s = s.write insn.dst (symWord env sym + c)) :
    Known known ty (exec env insn s) (exec env (insnMoveCon insn c sym) s') := by
  rw [exec_moveCon hd, hexec]
  refine ⟨?_, fun hk => ?_, fun ccs hk => ?_⟩
  · rw [write_ccs, ← write_setCcs, h.same]
  · rw [write_ccs, write_ccs, h.unknown hk]
  · rw [write_ccs]
    exact h.known ccs hk

theorem known_nop (s s' : State) {ts : TypeBits} {a b : Word}
    (h : { s with ccs := s'.ccs } = s')
    (hc : ∀ cc, cc.suits ts = true → (cc ∈ conCmp ts a b ↔ cc ∈ s.ccs)) :
    Known (some (conCmp ts a b)) (some ts) s (exec env (insnNew .nop) s') :=
  ⟨h, nofun, fun _ hk => ⟨ts, a, b, rfl, (Option.some.inj hk).symm, (Option.some.inj hk) ▸ hc⟩⟩

/-- An insn that stays, unless it is an I_SET_cc of codes that are known. -/
theorem Known.keep {known : Option CcSet} {ty : Option TypeBits} {s s' : State}
    (h : Known known ty s s') {insn : Insn} (hset : ∀ cc, insn.op = .set cc → known = none) :
    Known (if insnDefsCc insn then none else known) (compared ty insn) (exec env insn s)
      (exec env insn s') := by
  by_cases hs : ∃ cc, insn.op = .set cc
  · obtain ⟨cc, hop⟩ := hs
    have hnone := hset cc hop
    have hsame : s' = s := by
      rw [← h.same, h.unknown hnone]
    rw [hsame, hnone, ite_self]
    exact ⟨rfl, fun _ => rfl, nofun⟩
  · have hexec := @exec_setCcs env _ (fun cc hc => hs ⟨cc, hc⟩) s s'.ccs
    rw [h.same] at hexec
    rw [hexec]
    cases hd : insnDefsCc insn with
    | true => exact ⟨rfl, fun _ => rfl, nofun⟩
    | false =>
      have hcmp : insn.op ≠ .cmp := by
        intro hc
        rw [insnDefsCc, hc] at hd
        cases hd
      have hccs : (exec env insn s).ccs = s.ccs := exec_ccs_of_not_defsCc env hd
      rw [compared, if_neg hcmp, hd]
      refine ⟨rfl, fun hk => ?_, fun ccs hk => ?_⟩
      · rw [hccs]
        exact h.unknown hk
      · rw [hccs]
        exact h.known ccs hk

/-- One turn of the loop keeps track of the codes. -/
theorem fold0Insn_known {known : Option CcSet} {ty : Option TypeBits} {s s' : State} {insn : Insn}
    (hk : Known known ty s s') (h : Foldable insn)
    (hm : ∀ ts ∈ ty, ∀ cc ∈ insnUsesCc insn, cc.suits ts = true) :
    ∃ r, fold0Insn known insn = some r ∧
      Known r.2 (compared ty insn) (exec env insn s) (exec env r.1 s') := by
  have hn := h.normalize
  have hop := op_insnNormalize insn
  have hdefs : insnDefsCc (insnNormalize insn) = insnDefsCc insn := by
    obtain he | ⟨-, he⟩ := insnNormalize_cases insn <;> rw [he]
    rfl
  have hexec : ∀ s, exec env (insnNormalize insn) s = exec env insn s :=
    fun s => exec_insnNormalize h.dst
  unfold fold0Insn
  dsimp only
  cases hf : foldInsn (insnNormalize insn) with
  | con c sym =>
    obtain ⟨hcmp, hd, hwrite⟩ : _ ∧ _ ∧ exec env (insnNormalize insn) s = _ := foldInsn_con hn hf
    rw [hop] at hcmp
    rw [hdefs] at hd
    refine ⟨_, rfl, ?_⟩
    rw [compared, if_neg hcmp, hd, if_neg Bool.false_ne_true, ← hexec]
    exact hk.move hn.dst hwrite
  | ccs ccs =>
    obtain ⟨hcmp, a, b, ha, hb, hccs, hset⟩ := @foldInsn_ccs env _ s hn _ hf
    rw [hop] at hcmp
    have hsrc : (insnNormalize insn).src1 = insn.src1 := by
      obtain he | ⟨hs, he⟩ := insnNormalize_cases insn
      · rw [he]
      · rw [hcmp] at hs
        cases hs
    refine ⟨_, rfl, ?_⟩
    rw [compared, if_pos hcmp, ← hexec, hset, ← hsrc]
    rw [hccs]
    exact known_nop { s with ccs := cmpCodes env _ a b } s' hk.same fun cc hc =>
      mem_conCmp_iff env hn.src1 ha hb hc
  | trap => exact absurd hf (foldInsn_trap hn)
  | keep =>
    dsimp only
    split
    · rename_i cc ccs hset
      refine ⟨_, rfl, ?_⟩
      rw [hop] at hset
      have hcomp : compared ty insn = ty := by
        rw [compared, hset, insnDefsCc, hset]
        rfl
      obtain ⟨ts, a, b, hts, -, hccs⟩ := hk.known ccs rfl
      have hsuits : cc.suits ts = true := by
        refine hm ts hts cc ?_
        rw [insnUsesCc, hset]
        exact Finset.mem_singleton_self cc
      rw [hcomp, ← hexec]
      refine hk.move hn.dst ?_
      rw [hexec, symWord, zero_add]
      simp only [exec, hset, dst_insnNormalize, hccs cc hsuits]
    · rename_i hnot
      refine ⟨_, rfl, ?_⟩
      rw [hexec, hdefs]
      refine hk.keep fun cc hset => ?_
      exact Option.eq_none_iff_forall_ne_some.mpr fun ccs hs => hnot cc ccs (hop.trans hset) hs

/-- The type of the last comparison, after a list of insns. -/
def comparedList (ty : Option TypeBits) (l : List Insn) : Option TypeBits := l.foldl compared ty

/-- The loop keeps track of the codes. -/
theorem fold0Insns_known : ∀ (l : List Insn) {known : Option CcSet} {ty : Option TypeBits}
    {s s' : State} {codes : CcSet}, Known known ty s s' → (∀ insn ∈ l, Foldable insn) →
    Matched ty l codes → ∃ r, fold0Insns known l = some r ∧
      Known r.2 (comparedList ty l) (execs env l s) (execs env r.1 s') ∧
      ∀ ts ∈ comparedList ty l, ∀ cc ∈ codes, cc.suits ts = true
  | [], known, _, _, _, _, hk, _, hm => ⟨([], known), rfl, hk, hm⟩
  | insn :: l, _, _, _, _, _, hk, hf, hm => by
    obtain ⟨r, hr, hstep⟩ := fold0Insn_known hk (hf insn (List.mem_cons_self ..)) hm.1
    obtain ⟨q, hq, hrun, hcodes⟩ := fold0Insns_known l hstep
      (fun i hi => hf i (List.mem_cons_of_mem _ hi)) hm.2
    refine ⟨(r.1 :: q.1, q.2), ?_, hrun, hcodes⟩
    rw [fold0Insns, hr, Option.bind_some, hq]
    rfl

end

/-! ### block_known_ccs -/

section
variable {f : Func} {b : BlockId} {ccs : CcSet}

theorem setSuccessorCc_block (n : Nat) (cc : ConditionCode) :
    ((f.setSuccessorCc b n cc).block b).insns = (f.block b).insns ∧
      ((f.setSuccessorCc b n cc).block b).control = (f.block b).control ∧
      ((f.setSuccessorCc b n cc).block b).successors =
        (f.block b).successors.modify n fun c => { c with cc := cc } := by
  refine ⟨?_, ?_, ?_⟩ <;> simp only [Func.setSuccessorCc, Blocks.modify, if_true]

/-- The successors that stay. -/
def keptSuccessors (ccs : CcSet) (l : List Cessor) : List Cessor :=
  (l.filter fun c => decide (c.cc ∈ ccs)).map fun c => { c with cc := .always }

theorem modify_at_cut {α : Type} (g : α → α) (c : α) (l : List α) : ∀ pre : List α,
    (pre ++ c :: l).modify pre.length g = pre ++ g c :: l
  | [] => rfl
  | p :: pre => by
    rw [List.cons_append, List.length_cons, List.modify_succ_cons, modify_at_cut g c l pre]
    rfl

theorem knownCcs_block : ∀ (k n : Nat) (f : Func) (pre l : List Cessor),
    (f.block b).successors = pre ++ l → pre.length = n → l.length = k →
    ((knownCcs b ccs k n f).block b).insns = (f.block b).insns ∧
      ((knownCcs b ccs k n f).block b).control = (f.block b).control ∧
      ((knownCcs b ccs k n f).block b).successors = pre ++ keptSuccessors ccs l
  | 0, n, f, pre, l, hs, _, hl => by
    rw [List.length_eq_zero_iff.mp hl] at hs ⊢
    exact ⟨rfl, rfl, hs⟩
  | k + 1, n, f, pre, [], _, _, hl => nomatch hl
  | k + 1, n, f, pre, c :: l, hs, hn, hl => by
    have hget : (f.block b).successors[n]? = some c := by
      rw [hs, ← hn, List.getElem?_append_right (Nat.le_refl _), Nat.sub_self]
      rfl
    rw [knownCcs, hget]
    dsimp only
    split
    · rename_i hc
      obtain ⟨hi, hcon, hsucc⟩ := setSuccessorCc_block (f := f) (b := b) n .always
      have hmod : (pre ++ c :: l).modify n (fun c => { c with cc := .always }) =
          (pre ++ [{ c with cc := .always }]) ++ l := by
        rw [← hn, modify_at_cut, List.append_assoc]
        rfl
      rw [hs, hmod] at hsucc
      obtain ⟨hi', hcon', hs'⟩ := knownCcs_block k (n + 1) (f.setSuccessorCc b n .always)
        (pre ++ [{ c with cc := .always }]) l hsucc (by simp [hn]) (Nat.succ.inj hl)
      refine ⟨hi'.trans hi, hcon'.trans hcon, hs'.trans ?_⟩
      rw [keptSuccessors, keptSuccessors, List.filter_cons_of_pos (by simpa using hc)]
      simp
    · rename_i hc
      have hsucc : ((blockRemoveSuccessor f b n).block b).successors = pre ++ l := by
        rw [blockRemoveSuccessor, Blocks.succs_removeSuccessor, if_pos rfl, hs, ← hn,
          List.eraseIdx_append_of_length_le (Nat.le_refl _), Nat.sub_self]
        rfl
      obtain ⟨hi', hcon', hs'⟩ := knownCcs_block k n (blockRemoveSuccessor f b n) pre l hsucc hn
        (Nat.succ.inj hl)
      refine ⟨hi'.trans (Blocks.insns_removeSuccessor ..),
        hcon'.trans (Blocks.control_removeSuccessor ..), hs'.trans ?_⟩
      rw [keptSuccessors, keptSuccessors, List.filter_cons_of_neg (by simpa using hc)]

theorem blockKnownCcs_block (h : blockConditional (f.block b) = true) :
    ((blockKnownCcs f b ccs).block b).insns = (f.block b).insns ∧
      ((blockKnownCcs f b ccs).block b).control = (f.block b).control ∧
      ((blockKnownCcs f b ccs).block b).successors =
        keptSuccessors ccs (f.block b).successors := by
  rw [blockKnownCcs, if_pos h]
  exact knownCcs_block _ 0 f [] _ rfl rfl rfl

end

/-- Whatever words are compared, exactly one of the codes holds. -/
def Decides (l : List Cessor) : Prop :=
  ∀ x y : Word, (l.filter fun c => cmpHolds x y c.cc).length = 1

/-- The successors a block can have: none, one, those of a conditional branch, or those of a
    switch. -/
inductive Block.Branches (x : Block) : Prop
  | ret : x.control = none → x.successors = [] → x.Branches
  | always (c : BlockId) (lo hi : Word) :
      x.control = none → x.successors = [⟨.always, c, lo, hi⟩] → x.Branches
  | conditional : x.control = none → (∀ c ∈ x.successors, c.cc.conditional = true) →
      Decides x.successors → x.Branches
  | switch : x.control.isSome = true → blockConditional x = false → x.Branches

section
variable {env : Env} {f : Func} {b : BlockId}

theorem mem_blockCcs {x : Block} {c : Cessor} (hc : c ∈ x.successors)
    (hcond : c.cc.conditional = true) : c.cc ∈ blockCcs x := by
  have hfold : ∀ (l : List Cessor) (acc : CcSet), c.cc ∈ acc ∨ c ∈ l →
      c.cc ∈ l.foldl (fun ccs succ =>
        if succ.cc.conditional then insert succ.cc ccs else ccs) acc := by
    intro l
    induction l with
    | nil =>
      intro acc h
      exact h.resolve_right List.not_mem_nil
    | cons d l ih =>
      intro acc h
      refine ih _ ?_
      obtain h | h := h
      · left
        dsimp only
        split
        · exact Finset.mem_insert_of_mem h
        · exact h
      · obtain rfl | h := List.mem_cons.mp h
        · left
          dsimp only
          rw [if_pos hcond]
          exact Finset.mem_insert_self _ _
        · exact .inr h
  exact hfold _ _ (.inr hc)

/-- When the codes are known, one successor is left: the one that is branched to. -/
theorem keptSuccessors_branch {x : Block} {s : State} {ccs : CcSet} {ts : TypeBits} {u v : Word}
    (hx : x.control = none) (hcond : ∀ c ∈ x.successors, c.cc.conditional = true)
    (hd : Decides x.successors) (hsuits : ∀ cc ∈ blockCcs x, cc.suits ts = true)
    (hccs : ccs = conCmp ts u v)
    (hmem : ∀ cc, cc.suits ts = true → (cc ∈ ccs ↔ cc ∈ s.ccs)) :
    ∃ c lo hi, keptSuccessors ccs x.successors = [⟨.always, c, lo, hi⟩] ∧
      branch env x s = some c := by
  have hsuc : ∀ c ∈ x.successors, c.cc.suits ts = true :=
    fun c hc => hsuits _ (mem_blockCcs hc (hcond c hc))
  have hfilter : (x.successors.filter fun c => decide (c.cc ∈ ccs)) =
      x.successors.filter fun c => cmpHolds u v c.cc := by
    refine List.filter_congr fun c hc => ?_
    rw [hccs, Bool.eq_iff_iff, decide_eq_true_eq, mem_conCmp (hsuc c hc)]
  obtain ⟨d, hone⟩ := List.length_eq_one_iff.mp (hd u v)
  refine ⟨d.b, d.min, d.max, ?_, ?_⟩
  · rw [keptSuccessors, hfilter, hone]
    rfl
  · have hfind : (x.successors.find? fun c => decide (c.cc = .always) || decide (c.cc ∈ s.ccs)) =
        (x.successors.filter fun c => decide (c.cc ∈ ccs)).head? := by
      rw [List.head?_filter]
      refine List.find?_congr fun c hc => ?_
      have hna : c.cc ≠ .always := by
        intro ha
        have := hcond c hc
        rw [ha] at this
        cases this
      rw [decide_eq_false hna, Bool.false_or, Bool.eq_iff_iff, decide_eq_true_eq,
        decide_eq_true_eq, hmem _ (hsuc c hc)]
    rw [branch, hx, hfind, hfilter, hone]
    rfl

theorem conditional_of_decides {x : Block} (hcond : ∀ c ∈ x.successors, c.cc.conditional = true)
    (hd : Decides x.successors) : blockConditional x = true := by
  rw [blockConditional]
  cases hs : x.successors with
  | nil =>
    have := hd 0 0
    rw [hs] at this
    cases this
  | cons c l => exact hcond c (hs ▸ List.mem_cons_self ..)

/-- Without a conditional branch control does not depend on the codes. -/
theorem branch_of_not_conditional {x x' : Block} {s : State} {ccs : CcSet} (hb : x.Branches)
    (hn : blockConditional x = false) (hc : x'.control = x.control)
    (hs : x'.successors = x.successors) :
    branch env x' { s with ccs := ccs } = branch env x s := by
  cases hb with
  | ret hx hnil => rw [branch, branch, hc, hs, hx, hnil]; rfl
  | always c lo hi hx hone => rw [branch, branch, hc, hs, hx, hone]; rfl
  | conditional hx hcond hd =>
    rw [conditional_of_decides hcond hd] at hn
    cases hn
  | switch hx _ =>
    obtain ⟨o, ho⟩ := Option.isSome_iff_exists.mp hx
    simp only [branch, blockSwitchLookup, hc, hs, ho]

theorem branch_of_always {x : Block} {s : State} {c : BlockId} {lo hi : Word}
    (hc : x.control = none) (hs : x.successors = [⟨.always, c, lo, hi⟩]) :
    branch env x s = some c := by
  rw [branch, hc, hs]
  rfl

/-- Folding the constants of a block: the registers, the memory and the rest of the state are left
    as before, control goes to the same block, and a branch that is resolved becomes the one
    CC_ALWAYS successor to it. -/
theorem fold0_preserves (s : State) (hf : ∀ insn ∈ (f.block b).insns, Foldable insn)
    (hm : Matched none (f.block b).insns (blockCcs (f.block b))) (hb : (f.block b).Branches) :
    ∃ f', fold0 f b = some f' ∧
      { execs env (f.block b).insns s with ccs := (execs env (f'.block b).insns s).ccs } =
        execs env (f'.block b).insns s ∧
      flow env (f'.block b) s = flow env (f.block b) s ∧
      ((f'.block b).successors = (f.block b).successors ∨
        ∃ c lo hi, (f'.block b).successors = [⟨.always, c, lo, hi⟩] ∧
          flow env (f.block b) s = some c) := by
  have hinit : Known none none s s := ⟨rfl, fun _ => rfl, nofun⟩
  obtain ⟨⟨l, known⟩, hr, hk, hsuits⟩ := @fold0Insns_known env _ _ _ _ _ _ hinit hf hm
  have hinsns : ((f.setInsns b l).block b).insns = l := by rw [Func.insns_setInsns, if_pos rfl]
  have hcontrol := Func.control_setInsns f b l b
  have hsucc := Func.succs_setInsns f b l b
  rw [fold0, hr]
  dsimp only [Option.map_some]
  refine ⟨_, rfl, ?_⟩
  cases known with
  | none =>
    have hsame : execs env l s = execs env (f.block b).insns s := by
      rw [← hk.same, hk.unknown rfl]
    rw [flow, flow, hinsns, hsame]
    refine ⟨rfl, ?_, .inl hsucc⟩
    simp only [branch, blockSwitchLookup, hcontrol, hsucc]
  | some ccs =>
    have hcond : blockConditional ((f.setInsns b l).block b) = blockConditional (f.block b) := by
      rw [blockConditional, blockConditional, hsucc]
    dsimp only
    cases hbc : blockConditional (f.block b) with
    | false =>
      rw [blockKnownCcs, hcond, hbc, if_neg Bool.false_ne_true, flow, flow, hinsns]
      refine ⟨hk.same, ?_, .inl hsucc⟩
      rw [← hk.same]
      exact branch_of_not_conditional hb hbc hcontrol hsucc
    | true =>
      rw [hbc] at hcond
      obtain ⟨hi, hc, hs⟩ := @blockKnownCcs_block _ _ ccs hcond
      obtain ⟨ts, u, v, hts, hccs, hmem⟩ := hk.known ccs rfl
      have hx : (f.block b).control = none ∧
          (∀ c ∈ (f.block b).successors, c.cc.conditional = true) ∧
          Decides (f.block b).successors := by
        cases hb with
        | ret _ hnil => rw [blockConditional, hnil] at hbc; cases hbc
        | always c lo hi _ hone => rw [blockConditional, hone] at hbc; cases hbc
        | conditional hx hcond hd => exact ⟨hx, hcond, hd⟩
        | switch _ hn => rw [hbc] at hn; cases hn
      obtain ⟨c, lo, hi', hkept, hgo⟩ := @keptSuccessors_branch env _ _ _ _ _ _ hx.1
        hx.2.1 hx.2.2 (hsuits ts hts) hccs hmem
      have hone := hs.trans ((congrArg _ hsucc).trans hkept)
      rw [flow, flow, hi, hinsns, hgo]
      exact ⟨hk.same, branch_of_always (hc.trans (hcontrol.trans hx.1)) hone,
        .inr ⟨c, lo, hi', hone, rfl⟩⟩

end

/-! ### A comparison and its uses -/

/-- `r = (a > b); if (a > b) ...`, with the signed code. -/
def compareFunc (ts : TypeBits) (a b : Word) : Func :=
  let f : Func := ⟨0, 2, [0, 1, 2], fun _ => {}, 2, Blocks.linked_empty⟩
  let f := f.setInsns 0
    [insnNew .cmp none (some (operandI ts a none)) (some (operandI ts b none)),
      insnNew (.set .g) (some (operandReg .int 16))]
  blockAddSuccessor (blockAddSuccessor f 0 .g 1) 0 .le 2

theorem foldable_compareFunc {ts : TypeBits} {a b : Word} (h : ts.integral = true)
    (ha : conNormalize ts a = a) (hb : conNormalize ts b = b) :
    ∀ insn ∈ ((compareFunc ts a b).block 0).insns, Foldable insn := by
  intro insn hi
  have hi : insn ∈ [insnNew .cmp none (some (operandI ts a none)) (some (operandI ts b none)),
      insnNew (.set .g) (some (operandReg .int 16))] := hi
  simp only [List.mem_cons, List.not_mem_nil, or_false] at hi
  obtain rfl | rfl := hi
  · refine ⟨rfl, h, h, fun ts' c sym n ho => ?_, fun ts' c x n ho => ?_, fun _ => rfl, nofun⟩
    · obtain ho | ho := ho <;> cases ho <;> assumption
    · obtain ho | ho := ho <;> cases ho
  · exact ⟨rfl, rfl, rfl, fun _ _ _ _ ho => (nomatch ho), fun _ _ _ _ ho => (nomatch ho), nofun,
      nofun⟩

theorem branches_compareFunc (ts : TypeBits) (a b : Word) :
    ((compareFunc ts a b).block 0).Branches := by
  refine .conditional rfl (fun c hc => ?_) fun x y => ?_
  · have hc : c ∈ [(⟨.g, 1, 0, 0⟩ : Cessor), ⟨.le, 2, 0, 0⟩] := hc
    simp only [List.mem_cons, List.not_mem_nil, or_false] at hc
    obtain rfl | rfl := hc <;> rfl
  · have hs : ((compareFunc ts a b).block 0).successors = [⟨.g, 1, 0, 0⟩, ⟨.le, 2, 0, 0⟩] := rfl
    rw [hs]
    cases hlt : y.slt x <;> simp [cmpHolds, hlt]

/-- `5 > 3`, signed. -/
theorem fold0_preserves_int :
    ∃ f', fold0 (compareFunc .int 5 3) 0 = some f' ∧
      { execs default ((compareFunc .int 5 3).block 0).insns default with
        ccs := (execs default (f'.block 0).insns default).ccs } =
        execs default (f'.block 0).insns default ∧
      flow default (f'.block 0) default = flow default ((compareFunc .int 5 3).block 0) default ∧
      ((f'.block 0).successors = ((compareFunc .int 5 3).block 0).successors ∨
        ∃ c lo hi, (f'.block 0).successors = [⟨.always, c, lo, hi⟩] ∧
          flow default ((compareFunc .int 5 3).block 0) default = some c) := by
  refine fold0_preserves default (foldable_compareFunc rfl (by decide) (by decide)) ?_
    (branches_compareFunc _ _ _)
  refine ⟨nofun, ?_, ?_⟩
  · intro ts hts cc hcc
    cases hts
    rw [Finset.mem_singleton.mp hcc]
    rfl
  · intro ts hts cc hcc
    cases hts
    have hcc : cc ∈ ({.le, .g} : CcSet) := hcc
    simp only [Finset.mem_insert, Finset.mem_singleton] at hcc
    obtain rfl | rfl := hcc <;> rfl

/-- An unsigned comparison of 2147483648 with 1 and the signed code: the register and the branch
    are not those of the block. -/
theorem fold0_mismatch :
    (∀ insn ∈ ((compareFunc .uint 0x80000000 1).block 0).insns, Foldable insn) ∧
      ((compareFunc .uint 0x80000000 1).block 0).Branches ∧
      ∃ f', fold0 (compareFunc .uint 0x80000000 1) 0 = some f' ∧
        (execs default (f'.block 0).insns default).regs 16 ≠
          (execs default ((compareFunc .uint 0x80000000 1).block 0).insns default).regs 16 ∧
        flow default (f'.block 0) default = some 1 ∧
        flow default ((compareFunc .uint 0x80000000 1).block 0) default = some 2 := by
  refine ⟨foldable_compareFunc rfl (by decide) (by decide), branches_compareFunc _ _ _, _, rfl, ?_,
    ?_, ?_⟩
  · decide
  · decide
  · decide

end Ncc
