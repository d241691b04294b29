import Ncc.Simplify

/-! What constant folding leaves to the host (con.h, tree.c, fold.c).

    CON_FOLD_BINARY_I and CON_FOLD_BINARY_ANY apply an operator of the host to members of two
    constants, `i` of a signed type and `u` of any other. C defines the quotient when the divisor is
    not zero and the quotient fits; the folding code asks about the divisor. C defines a shift when
    the count is in 0..63; the folding code does not ask. The other operators are taken to wrap. -/

namespace Ncc

/-- An operator that the host evaluates, on the members of two constants. -/
structure HostOp where
  op : InsnOp
  ts : TypeBits
  left : Word
  right : Word
  deriving DecidableEq

namespace HostOp

/-- The value of a member: of `i`, or of `u`. -/
def member (h : HostOp) (w : Word) : Int := if h.ts.signed then w.toInt else w.toNat

/-- A `long`, or an `unsigned long`, has the value. -/
def Fits (h : HostOp) (n : Int) : Prop :=
  if h.ts.signed then -2 ^ 63 ≤ n ∧ n < 2 ^ 63 else 0 ≤ n ∧ n < 2 ^ 64

/-- C defines the operation. -/
def Defined (h : HostOp) : Prop :=
  match h.op with
  | .div | .mod => h.member h.right ≠ 0 ∧ h.Fits ((h.member h.left).tdiv (h.member h.right))
  | .shl | .shr => 0 ≤ h.member h.right ∧ h.member h.right ≤ 63
  | _ => True

end HostOp

/-- CON_FOLD_BINARY_I. -/
def hostI (op : InsnOp) (ts : TypeBits) (a b : Word) : Option HostOp := some ⟨op, ts, a, b⟩

/-- CON_FOLD_BINARY_ANY, which works on the members `f` at a floating type. -/
def hostAny (op : InsnOp) (ts : TypeBits) (a b : Word) : Option HostOp :=
  if ts.floating then none else some ⟨op, ts, a, b⟩

/-! ### simplify0 -/

/-- The last `switch` of `simplify0`: both operands are constants. -/
def hostConstants (op : BinaryOp) (ts : TypeBits) (a b : Word) : Option HostOp :=
  match op with
  | .add | .sub | .mul => op.insn.bind fun i => hostAny i ts a b
  | .div => if b = 0 then none else hostAny .div ts a b
  | .mod => if b = 0 then none else hostI .mod ts a b
  | .shl | .shr | .and | .or | .xor => op.insn.bind fun i => hostI i ts a b
  | _ => none

namespace Tree

/-- `simplify0` of a binary operator that `tree_normalize` has seen. -/
def hostBinary (op : BinaryOp) (ts : TypeBits) : Tree → Tree → Option HostOp
  | con _ a, con _ b => hostConstants op ts a b
  | _, _ => none

/-- What `simplify0` leaves to the host: the binary operator that it folds. -/
def host : Tree → Option HostOp
  | binary op ts left right =>
    if op.swap && left.isCon then hostBinary op ts right left else hostBinary op ts left right
  | _ => none

end Tree

/-! ### fold0 -/

/-- The last two `switch`es of `fold0`, on the constants of both operands and the symbol of the
    first one. -/
def hostWords (op : InsnOp) (ts : TypeBits) (a : Word) (sym : Option Symbol) (b : Word) :
    Option HostOp :=
  match op with
  | .add | .sub => hostAny op ts a b
  | .div => if sym.isNone ∧ b ≠ 0 then hostAny op ts a b else none
  | .mod => if sym.isNone ∧ b ≠ 0 then hostI op ts a b else none
  | .mul => if sym.isNone then hostAny op ts a b else none
  | .shr | .shl | .xor | .or | .and => if sym.isNone then hostI op ts a b else none
  | _ => none

/-- `fold0`, when an insn has not been folded as a unary operator. -/
def hostOperands (insn : Insn) : Option HostOp :=
  match insn.src1, insn.src2 with
  | some ⟨_, .con a sym₁, _⟩, some ⟨_, .con b sym₂, _⟩ =>
    let drop := insn.op = .sub ∧ sym₁ = sym₂
    if drop ∨ sym₂ = none then
      hostWords insn.op (tsOpt insn.dst) a (if drop then none else sym₁) b
    else none
  | _, _ => none

/-- What `fold0` leaves to the host at an insn that `insn_normalize` has seen. -/
def Insn.host (insn : Insn) : Option HostOp :=
  match foldUnary insn with
  | .keep => hostOperands insn
  | _ => none

/-- What the loop of `fold0` leaves to the host, in order; nothing after the host has stopped. -/
def fold0Hosts : List Insn → List HostOp
  | [] => []
  | insn :: l =>
    (insnNormalize insn).host.toList ++
      if foldInsn (insnNormalize insn) = .trap then [] else fold0Hosts l

/-! ### The operands that C does not define -/

/-- A quotient of constants that is one more than LONG_MAX, or a count outside 0..63. -/
def Overflows (op : InsnOp) (ts : TypeBits) (a b : Word) : Prop :=
  ((op = .div ∨ op = .mod) ∧ ts.signed = true ∧ a = longMin ∧ b = -1) ∨
    ((op = .shl ∨ op = .shr) ∧ 63 < b.toNat)

/-- The node divides, or shifts, constants so. -/
def Tree.Overflows (tree : Tree) : Prop :=
  ∃ op i ts tl tr a b, tree = binary op ts (con tl a) (con tr b) ∧
    op ∈ [.div, .mod, .shl, .shr] ∧ op.insn = some i ∧ Ncc.Overflows i ts a b

/-- The insn divides, or shifts, constants so. -/
def Insn.Overflows (insn : Insn) : Prop :=
  ∃ ts₁ n₁ ts₂ n₂ a b, insn.src1 = some ⟨ts₁, .con a none, n₁⟩ ∧
    insn.src2 = some ⟨ts₂, .con b none, n₂⟩ ∧ Ncc.Overflows insn.op (tsOpt insn.dst) a b

section
variable {h : HostOp} {op : BinaryOp} {i : InsnOp} {ts tl tr : TypeBits} {a b : Word}

/-! ### What C defines -/

/-- The only quotient of two longs that is not a long. -/
theorem tdiv_fits {x y : Int} (hx : -2 ^ 63 ≤ x ∧ x < 2 ^ 63) (hy : y ≠ 0) :
    -2 ^ 63 ≤ x.tdiv y ∧ x.tdiv y < 2 ^ 63 ↔ ¬ (x = -2 ^ 63 ∧ y = -1) := by
  constructor
  · rintro hq ⟨rfl, rfl⟩
    exact absurd hq.2 (by decide)
  · intro hne
    have habs : (x.tdiv y).natAbs ≤ x.natAbs := Int.natAbs_tdiv_le_natAbs x y
    by_cases hlt : x.natAbs < 2 ^ 63
    · omega
    have hmin : x = -2 ^ 63 := by omega
    have hone : y ≠ -1 := fun hy => hne ⟨hmin, hy⟩
    by_cases hpos : 0 < y
    · -- the quotient is not positive
      have hneg : x.tdiv y = -(-x).tdiv y := by rw [Int.neg_tdiv, Int.neg_neg]
      have hle : 0 ≤ (-x).tdiv y := Int.tdiv_nonneg (by omega) hpos.le
      omega
    · -- the divisor is at least two
      have hhalf : (x.tdiv y).natAbs ≤ x.natAbs / 2 := by
        rw [Int.natAbs_tdiv]
        exact Nat.div_le_div_left (by omega) (by decide)
      omega

theorem member_range (h : HostOp) (w : Word) : h.Fits (h.member w) := by
  unfold HostOp.Fits HostOp.member
  split
  · exact ⟨BitVec.le_toInt w, BitVec.toInt_lt⟩
  · exact ⟨by omega, by have := w.isLt; omega⟩

theorem member_eq_zero (h : HostOp) (w : Word) : h.member w = 0 ↔ w = 0 := by
  unfold HostOp.member
  split
  · rw [← BitVec.toInt_inj]
    exact Iff.rfl
  · rw [← BitVec.toNat_inj]
    exact Int.natCast_eq_zero

/-- A quotient that is defined. -/
theorem defined_div (hop : h.op = .div ∨ h.op = .mod) (hz : h.right ≠ 0) :
    h.Defined ↔ ¬ (h.ts.signed = true ∧ h.left = longMin ∧ h.right = -1) := by
  have hne : h.member h.right ≠ 0 := fun he => hz ((member_eq_zero h _).mp he)
  have hdef : h.Defined ↔ h.Fits ((h.member h.left).tdiv (h.member h.right)) := by
    rcases hop with hop | hop <;> simp only [HostOp.Defined, hop, ne_eq, hne, not_false_eq_true,
      true_and]
  rw [hdef]
  have hfits := member_range h h.left
  unfold HostOp.Fits HostOp.member at *
  by_cases hs : h.ts.signed = true
  · simp only [if_pos hs] at hne hfits ⊢
    have hmin : longMin.toInt = -2 ^ 63 := by decide
    have hone : (-1 : Word).toInt = -1 := by decide
    rw [tdiv_fits hfits hne, ← BitVec.toInt_inj , ← BitVec.toInt_inj ,
      hmin, hone]
    simp only [hs, true_and]
  · simp only [if_neg hs] at hfits ⊢
    have hle : (h.left.toNat : Int).tdiv h.right.toNat ≤ h.left.toNat :=
      Int.tdiv_le_self _ (Int.natCast_nonneg _)
    have hpos : 0 ≤ (h.left.toNat : Int).tdiv h.right.toNat :=
      Int.tdiv_nonneg (Int.natCast_nonneg _) (Int.natCast_nonneg _)
    exact ⟨fun _ hh => hs hh.1, fun _ => ⟨hpos, by omega⟩⟩

/-- A shift that is defined. -/
theorem defined_shift (hop : h.op = .shl ∨ h.op = .shr) : h.Defined ↔ ¬ 63 < h.right.toNat := by
  have hdef : h.Defined ↔ 0 ≤ h.member h.right ∧ h.member h.right ≤ 63 := by
    rcases hop with hop | hop <;> simp only [HostOp.Defined, hop]
  rw [hdef, HostOp.member]
  split
  · have hlt := h.right.isLt
    rw [BitVec.toInt_eq_toNat_cond]
    split <;> omega
  · omega

/-- The folding code asks that the divisor is not zero; what is left is `Overflows`. -/
theorem defined_iff (hz : (h.op = .div ∨ h.op = .mod) → h.right ≠ 0) :
    h.Defined ↔ ¬ Overflows h.op h.ts h.left h.right := by
  by_cases hd : h.op = .div ∨ h.op = .mod
  · have hns : ¬ (h.op = .shl ∨ h.op = .shr) := by rcases hd with hd | hd <;> simp [hd]
    rw [defined_div hd (hz hd)]
    simp only [Overflows, hd, hns, true_and, false_and, or_false]
  · by_cases hs : h.op = .shl ∨ h.op = .shr
    · rw [defined_shift hs]
      simp only [Overflows, hd, hs, true_and, false_and, false_or]
    · have hdef : h.Defined := by
        unfold HostOp.Defined
        split <;> simp_all
      simp only [Overflows, hd, hs, false_and, or_self, not_false_eq_true, hdef]

/-! ### What the folding code evaluates -/

theorem hostAny_eq : hostAny i ts a b = some h ↔ ts.floating = false ∧ h = ⟨i, ts, a, b⟩ := by
  cases hf : ts.floating <;> simp [hostAny, hf, eq_comm]

theorem hostI_eq : hostI i ts a b = some h ↔ h = ⟨i, ts, a, b⟩ := by
  simp [hostI, eq_comm]

/-- The operation on two constants; the divisor is not zero. -/
theorem hostConstants_eq (hh : hostConstants op ts a b = some h) : ∃ i, op.insn = some i ∧
    h = ⟨i, ts, a, b⟩ ∧ ((i = .div ∨ i = .mod) → b ≠ 0) ∧
    ∀ tree, Tree.foldConstants tree op ts a b = (conFoldBinary i ts a b).map (.con ts) := by
  cases op <;> simp only [hostConstants, BinaryOp.insn, Option.bind_some, reduceCtorEq] at hh
  case div | mod =>
    split at hh
    · cases hh
    · rename_i hb
      simp only [hostAny_eq, hostI_eq] at hh
      exact ⟨_, rfl, by simp [hh], fun _ => hb, fun tree => if_neg hb⟩
  all_goals
    simp only [hostAny_eq, hostI_eq] at hh
    exact ⟨_, rfl, by simp [hh], by simp, fun tree => rfl⟩

namespace Tree

/-- The constants are taken in the order in which `tree_normalize` leaves them. -/
theorem host_constants : host (binary op ts (con tl a) (con tr b)) =
    if op.swap then hostConstants op ts b a else hostConstants op ts a b := by
  cases hsw : op.swap <;> simp [host, hostBinary, isCon, hsw]

theorem hostBinary_constants {left right : Tree} (hh : hostBinary op ts left right = some h) :
    ∃ tl a tr b, left = con tl a ∧ right = con tr b := by
  unfold hostBinary at hh
  split at hh
  · exact ⟨_, _, _, _, rfl, rfl⟩
  · cases hh

/-- Only constants are folded. -/
theorem constants_of_host {tree : Tree} (hh : tree.host = some h) :
    ∃ op ts tl a tr b, tree = binary op ts (con tl a) (con tr b) := by
  unfold host at hh
  split at hh
  · split at hh <;> obtain ⟨tl, a, tr, b, rfl, rfl⟩ := hostBinary_constants hh <;>
      exact ⟨_, _, _, _, _, _, rfl⟩
  · cases hh

/-- `simplify0` folds with the operation, and stops where the host does. -/
theorem simplify0_host {tree : Tree} (hh : tree.host = some h) :
    tree.simplify0 = (conFoldBinary h.op h.ts h.left h.right).map (con h.ts) := by
  obtain ⟨op, ts, tl, a, tr, b, rfl⟩ := constants_of_host hh
  rw [host_constants] at hh
  have hbin : ∀ tl tr a b, hostConstants op ts a b = some h →
      simplifyBinary op ts (con tl a) (con tr b) =
        (conFoldBinary h.op h.ts h.left h.right).map (con h.ts) := by
    intro tl tr a b hc
    obtain ⟨i, hi, rfl, -, hfold⟩ := hostConstants_eq hc
    rw [← hfold (binary op ts (con tl a) (con tr b))]
    cases op <;> first | rfl | cases hi
  cases hsw : op.swap <;> simp only [hsw, if_true, if_false, Bool.false_eq_true] at hh <;>
    simp only [simplify0, hsw, isCon, Bool.and_true, if_true, if_false, Bool.false_eq_true] <;>
    exact hbin _ _ _ _ hh

/-- The guard on the divisor lets an operation pass that overflows. -/
theorem hostConstants_of_overflows (hop : op ∈ [.div, .mod, .shl, .shr]) (hi : op.insn = some i)
    (hov : Ncc.Overflows i ts a b) : hostConstants op ts a b = some ⟨i, ts, a, b⟩ := by
  simp only [List.mem_cons, List.not_mem_nil, or_false] at hop
  rcases hop with rfl | rfl | rfl | rfl <;> cases hi
  case inl | inr.inl =>
    obtain ⟨-, hs, -, rfl⟩ | ⟨hsh, -⟩ := hov
    · cases ts <;> first | rfl | cases hs
    · simp at hsh
  all_goals rfl

/-- C defines the other operators. -/
theorem hostConstants_other (hop : op ∉ [.div, .mod, .shl, .shr])
    (hh : hostConstants op ts a b = some h) : h.Defined := by
  obtain ⟨i, hi, rfl, -⟩ := hostConstants_eq hh
  cases op <;> cases hi <;> trivial

/-- What the host evaluates for `simplify0` is defined, unless the node overflows. -/
theorem host_defined_iff (tree : Tree) : (∀ h ∈ tree.host, h.Defined) ↔ ¬ tree.Overflows := by
  constructor
  · rintro hdef ⟨op, i, ts, tl, tr, a, b, rfl, hop, hi, hov⟩
    have hsw : op.swap = false := by
      simp only [List.mem_cons, List.not_mem_nil, or_false] at hop
      rcases hop with rfl | rfl | rfl | rfl <;> rfl
    have hh := hdef ⟨i, ts, a, b⟩ (by
      rw [host_constants, hsw]
      exact hostConstants_of_overflows hop hi hov)
    exact (defined_iff (h := ⟨i, ts, a, b⟩) (by rintro hd rfl; simp_all [Ncc.Overflows])).mp hh hov
  · intro hno h hh
    obtain ⟨op, ts, tl, a, tr, b, rfl⟩ := constants_of_host hh
    rw [host_constants] at hh
    by_cases hop : op ∈ [.div, .mod, .shl, .shr]
    · have hsw : op.swap = false := by
        simp only [List.mem_cons, List.not_mem_nil, or_false] at hop
        rcases hop with rfl | rfl | rfl | rfl <;> rfl
      rw [hsw] at hh
      obtain ⟨i, hi, rfl, hguard, -⟩ := hostConstants_eq hh
      exact (defined_iff hguard).mpr fun hov => hno ⟨op, i, ts, tl, tr, a, b, rfl, hop, hi, hov⟩
    · split at hh <;> exact hostConstants_other hop hh

end Tree

/-! ### What fold0 evaluates -/

section
variable {insn : Insn} {sym : Option Symbol}

/-- The operation on two constants; the divisor is not zero. -/
theorem hostWords_eq (hh : hostWords i ts a sym b = some h) : h = ⟨i, ts, a, b⟩ ∧
    ((i = .div ∨ i = .mod) → b ≠ 0) ∧ (i ≠ .add → i ≠ .sub → sym = none) ∧
    ∀ ts₁, foldWords i ts ts₁ a sym b = foldedCon (if i = .add ∨ i = .sub then sym else none)
      (conFoldBinary i ts a b) := by
  cases i <;> simp only [hostWords, reduceCtorEq] at hh
  case add | sub =>
    simp only [hostAny_eq] at hh
    exact ⟨hh.2, by simp, by simp, fun _ => by simp [foldWords]⟩
  case div | mod =>
    split at hh <;> simp only [hostAny_eq, hostI_eq, reduceCtorEq] at hh
    rename_i hc
    exact ⟨by simp [hh], fun _ => hc.2, fun _ _ => Option.isNone_iff_eq_none.mp hc.1,
      fun _ => if_pos hc⟩
  all_goals
    split at hh <;> simp only [hostAny_eq, hostI_eq, reduceCtorEq] at hh
    rename_i hc
    exact ⟨by simp [hh], by simp, fun _ _ => Option.isNone_iff_eq_none.mp hc,
      fun _ => by simp [foldWords, hc]⟩

/-- The guard on the divisor lets an operation pass that overflows. -/
theorem hostWords_of_overflows (hov : Ncc.Overflows i ts a b) :
    hostWords i ts a none b = some ⟨i, ts, a, b⟩ := by
  obtain ⟨rfl | rfl, hs, -, rfl⟩ | ⟨rfl | rfl, -⟩ := hov
  case inl.inl | inl.inr => cases ts <;> first | rfl | cases hs
  all_goals rfl

/-- Only constants are folded. -/
theorem hostOperands_eq (hh : hostOperands insn = some h) : ∃ ts₁ a sym₁ n₁ ts₂ b sym₂ n₂,
    insn.src1 = some ⟨ts₁, .con a sym₁, n₁⟩ ∧ insn.src2 = some ⟨ts₂, .con b sym₂, n₂⟩ ∧
    ∃ sym, hostWords insn.op (tsOpt insn.dst) a sym b = some h ∧
      foldBinary insn = foldWords insn.op (tsOpt insn.dst) ts₁ a sym b ∧
      (sym = none → insn.op ≠ .sub → sym₁ = none ∧ sym₂ = none) := by
  unfold hostOperands at hh
  split at hh
  · rename_i ts₁ a sym₁ n₁ ts₂ b sym₂ n₂ h₁ h₂
    dsimp only at hh
    split at hh
    · rename_i hc
      refine ⟨ts₁, a, sym₁, n₁, ts₂, b, sym₂, n₂, h₁, h₂, _, hh, ?_, ?_⟩
      · unfold foldBinary
        rw [h₁, h₂]
        exact if_pos hc
      · intro hn hs
        simp only [hs, false_and, if_false, false_or] at hn hc
        exact ⟨hn, hc⟩
    · cases hh
  · cases hh

/-- `fold0` folds with the operation, and stops where the host does. -/
theorem foldInsn_host (hh : insn.host = some h) : ∃ sym,
    foldInsn insn = foldedCon sym (conFoldBinary h.op h.ts h.left h.right) := by
  unfold Insn.host at hh
  split at hh
  · rename_i hk
    obtain ⟨ts₁, a, -, -, -, b, -, -, -, -, sym, hw, hf, -⟩ := hostOperands_eq hh
    obtain ⟨rfl, -, -, hfold⟩ := hostWords_eq hw
    have hbinary : foldInsn insn = foldBinary insn := by rw [foldInsn, hk]
    exact ⟨_, hbinary.trans (hf.trans (hfold ts₁))⟩
  · cases hh

/-- A division or a shift is not folded as a unary operator, nor are its operands swapped. -/
theorem normalize_of_overflows (hov : Ncc.Overflows insn.op ts a b) :
    insnNormalize insn = insn ∧ foldUnary insn = .keep ∧ insn.op ≠ .sub := by
  have hop : insn.op = .div ∨ insn.op = .mod ∨ insn.op = .shl ∨ insn.op = .shr := by
    rcases hov with ⟨hop | hop, -⟩ | ⟨hop | hop, -⟩ <;> simp [hop]
  refine ⟨?_, ?_, ?_⟩
  · rcases hop with hop | hop | hop | hop <;> simp [insnNormalize, hop, InsnOp.swap]
  · unfold foldUnary
    split
    · rcases hop with hop | hop | hop | hop <;> simp [hop]
    · rfl
  · rcases hop with hop | hop | hop | hop <;> simp [hop]

/-- What the host evaluates for `fold0` is defined, unless the insn overflows. -/
theorem insn_host_defined_iff (insn : Insn) :
    (∀ h ∈ (insnNormalize insn).host, h.Defined) ↔ ¬ insn.Overflows := by
  constructor
  · rintro hdef ⟨ts₁, n₁, ts₂, n₂, a, b, h₁, h₂, hov⟩
    obtain ⟨hnorm, hk, hns⟩ := normalize_of_overflows hov
    have hh : (insnNormalize insn).host = some ⟨insn.op, tsOpt insn.dst, a, b⟩ := by
      rw [hnorm, Insn.host, hk]
      simp only [hostOperands, h₁, h₂, hns, false_and, if_false, or_true, if_true]
      exact hostWords_of_overflows hov
    have hd := hdef _ hh
    exact (defined_iff (by rintro hd rfl; simp_all [Ncc.Overflows])).mp hd hov
  · intro hno h hh
    unfold Insn.host at hh
    split at hh
    · obtain ⟨ts₁, a, sym₁, n₁, ts₂, b, sym₂, n₂, h₁, h₂, sym, hw, -, hsyms⟩ := hostOperands_eq hh
      obtain ⟨rfl, hguard, hnone, -⟩ := hostWords_eq hw
      refine (defined_iff hguard).mpr fun hov => hno ?_
      have hnswap : insn.op.swap = false ∧ insn.op ≠ .add ∧ insn.op ≠ .sub := by
        rw [← op_insnNormalize insn]
        rcases hov with ⟨hop | hop, -⟩ | ⟨hop | hop, -⟩ <;> dsimp only at hop <;> rw [hop] <;>
          decide
      obtain ⟨hswap, hna, hns⟩ := hnswap
      obtain hnorm | ⟨hs, -⟩ := insnNormalize_cases insn
      swap
      · rw [hs] at hswap
        cases hswap
      rw [hnorm] at h₁ h₂ hsyms hnone hov
      obtain ⟨rfl, rfl⟩ := hsyms (hnone hna hns) hns
      exact ⟨ts₁, n₁, ts₂, n₂, a, b, h₁, h₂, hov⟩
    · cases hh

/-- `fold0` stops only at an insn that overflows. -/
theorem host_of_trap (ht : foldInsn insn = .trap) : ∃ h, insn.host = some h ∧ ¬ h.Defined := by
  obtain hu | ⟨c, sym, hu⟩ := foldUnary_con_or_keep insn <;> rw [foldInsn, hu] at ht
  · dsimp only at ht
    rw [foldBinary] at ht
    split at ht
    · dsimp only at ht
      split at ht
      · rename_i a sym₁ n₁ ts₂ b sym₂ n₂ h₁ h₂ hc
        obtain ⟨hop, hs, hnone, ha, hb⟩ := foldWords_trap ht
        have hov : Ncc.Overflows insn.op (tsOpt insn.dst) a b := .inl ⟨hop, hs, ha, hb⟩
        refine ⟨⟨insn.op, tsOpt insn.dst, a, b⟩, ?_, ?_⟩
        · rw [Insn.host, hu]
          dsimp only
          rw [hostOperands, h₁, h₂]
          dsimp only
          rw [if_pos hc, hnone]
          exact hostWords_of_overflows hov
        · rw [defined_iff (by rintro - rfl; exact absurd hb (by decide))]
          exact not_not.mpr hov
      · cases ht
    · cases ht
  · cases ht

/-- Every insn of a block is looked at until the host stops, and it stops at one that overflows. -/
theorem fold0Hosts_defined_iff : ∀ {insns : List Insn}, (∀ h ∈ fold0Hosts insns, h.Defined) ↔
    ∀ insn ∈ insns, ¬ insn.Overflows
  | [] => by simp [fold0Hosts]
  | insn :: l => by
    have ih := @fold0Hosts_defined_iff l
    rw [fold0Hosts, List.forall_mem_append, List.forall_mem_cons, ← insn_host_defined_iff]
    simp only [Option.mem_toList, Option.mem_def]
    refine and_congr_right fun hdef => ?_
    have hgo : foldInsn (insnNormalize insn) ≠ .trap := by
      intro ht
      obtain ⟨h, hh, hnd⟩ := host_of_trap ht
      exact hnd (hdef h hh)
    rw [if_neg hgo, ih]

end

end

/-! ### The folding code -/

/-- Folding a node, or the insns of a block, does nothing that C leaves undefined exactly when no
    node and no insn of it overflows. -/
theorem folding_defined_iff (tree : Tree) (insns : List Insn) :
    ((∀ h ∈ tree.host, h.Defined) ↔ ¬ tree.Overflows) ∧
      ((∀ h ∈ fold0Hosts insns, h.Defined) ↔ ∀ insn ∈ insns, ¬ insn.Overflows) :=
  ⟨tree.host_defined_iff, fold0Hosts_defined_iff⟩

/-- `LONG_MIN / -1` and `1 << 64`. -/
theorem folding_undefined :
    (¬ ∀ (tree : Tree), ∀ h ∈ tree.host, h.op = .div → h.Defined) ∧
    (¬ ∀ (tree : Tree), ∀ h ∈ tree.host, h.op = .shl → h.Defined) ∧
    (¬ ∀ (insns : List Insn), ∀ h ∈ fold0Hosts insns, h.op = .div → h.Defined) ∧
    ¬ ∀ (insns : List Insn), ∀ h ∈ fold0Hosts insns, h.op = .shl → h.Defined := by
  refine ⟨fun hall => ?_, fun hall => ?_, fun hall => ?_, fun hall => ?_⟩
  · exact absurd (hall (.binary .div .long (.con .long longMin) (.con .long (-1)))
      ⟨.div, .long, longMin, -1⟩ rfl rfl).2.2 (by decide)
  · exact absurd (hall (.binary .shl .int (.con .int 1) (.con .int 64))
      ⟨.shl, .int, 1, 64⟩ rfl rfl).2 (by decide)
  · exact absurd (hall [insnNew .div (operandReg .long 1) (operandI .long longMin none)
      (operandI .long (-1) none)] ⟨.div, .long, longMin, -1⟩ (by decide) rfl).2.2
      (by decide)
  · exact absurd (hall [insnNew .shl (operandReg .int 1) (operandI .int 1 none)
      (operandI .int 64 none)] ⟨.shl, .int, 1, 64⟩ (by decide) rfl).2 (by decide)

end Ncc
