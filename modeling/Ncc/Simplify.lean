import Ncc.Fold
import Ncc.Lib.IntType

/-! Constant folding of expression trees (tree.c).

    `tree_simplify` is a post-order walk that replaces operators on constants by their results and
    removes E_RVALUE barriers. A pointer is the unsigned integer of its size, as it is to
    `con_normalize`. The values that C gives to constant expressions are integers; arithmetic on
    64-bit words agrees with it when the result is brought into the type of the node. -/

namespace Ncc

/-! ### tree_simplify -/

/-- E_SWAP. -/
def BinaryOp.swap : BinaryOp → Bool
  | xor | mul | add | and | eq | neq | or => true
  | _ => false

/-- A relational operator on words: the members `i` or `u` of the constants are compared. -/
def relationalWord (op : BinaryOp) (signed : Bool) (a b : Word) : Bool :=
  match op with
  | .gt => if signed then b.slt a else b.ult a
  | .gteq => if signed then b.sle a else b.ule a
  | .lt => if signed then a.slt b else a.ult b
  | _ => if signed then a.sle b else a.ule b

namespace Tree

/-- TREE_CON. -/
def isCon : Tree → Bool
  | con _ _ => true
  | _ => false

/-- The last `switch` of `simplify0`: both operands of `tree` are constants. FOLD_RELATIONAL looks
    at the type of the node. -/
def foldConstants (tree : Tree) (op : BinaryOp) (ts : TypeBits) (a b : Word) : Option Tree :=
  match op with
  | .add | .sub | .mul | .shl | .shr | .and | .or | .xor =>
    op.insn.bind fun i => (conFoldBinary i ts a b).map (con ts)
  | .div | .mod =>
    if b = 0 then some tree else op.insn.bind fun i => (conFoldBinary i ts a b).map (con ts)
  | .eq => some (con .int (truth (a == b)))
  | .neq => some (con .int (truth (a != b)))
  | .gt | .gteq | .lt | .lteq => some (con .int (truth (relationalWord op ts.signed a b)))
  | _ => some tree

/-- `simplify0` of a binary operator that `tree_normalize` has seen. -/
def simplifyBinary (op : BinaryOp) (ts : TypeBits) (left right : Tree) : Option Tree :=
  match left with
  | con _ a =>
    match op with
    | .land => some (if a ≠ 0 then right.retype ts else con .int 0)
    | .lor => some (if a ≠ 0 then con .int 1 else right.retype ts)
    | op =>
      match right with
      | con _ b => foldConstants (binary op ts left right) op ts a b
      | _ => some (binary op ts left right)
  | _ => some (binary op ts left right)

/-- `simplify0`; nothing when the host stopped. -/
def simplify0 : Tree → Option Tree
  | unary .rvalue ts child => some (child.retype ts)
  | unary .neg ts (con _ c) => some (con ts (conNormalize ts (-c)))
  | unary .com ts (con _ c) => some (con ts (conNormalize ts (~~~c)))
  | cast ts (con _ c) => some (con ts (conNormalize ts c))
  | binary op ts left right =>
    if op.swap && left.isCon then simplifyBinary op ts right left
    else simplifyBinary op ts left right
  | quest ts (con _ c) left right => some (if c ≠ 0 then left.retype ts else right.retype ts)
  | tree => some tree

/-- `tree_simplify`. -/
def simplify : Tree → Option Tree
  | cast ts child => child.simplify.bind fun child => simplify0 (cast ts child)
  | unary op ts child => child.simplify.bind fun child => simplify0 (unary op ts child)
  | binary op ts left right =>
    left.simplify.bind fun left => right.simplify.bind fun right =>
      simplify0 (binary op ts left right)
  | quest ts test left right =>
    test.simplify.bind fun test => left.simplify.bind fun left => right.simplify.bind fun right =>
      simplify0 (quest ts test left right)
  | tree => some tree

end Tree

/-! ### Constant expressions -/

/-- The type in C. -/
abbrev TypeBits.itype (ts : TypeBits) : IntType := ⟨8 * ts.sizeof, !ts.signed⟩

/-- The value of a constant of an integral type. -/
def TypeBits.read (ts : TypeBits) (c : Word) : Int := ts.itype.value (low ts c)

/-- The operators of arithmetic. -/
def BinaryOp.arithmetic : BinaryOp → Option IntOp
  | add => some .add
  | sub => some .sub
  | mul => some .mul
  | div => some .div
  | mod => some .mod
  | and => some .and
  | or => some .or
  | xor => some .xor
  | shl => some .shl
  | shr => some .shr
  | _ => none

/-- The relational and the equality operators on values. -/
def BinaryOp.holds : BinaryOp → Int → Int → Option Bool
  | gt, x, y => some (decide (x > y))
  | gteq, x, y => some (decide (x ≥ y))
  | lt, x, y => some (decide (x < y))
  | lteq, x, y => some (decide (x ≤ y))
  | eq, x, y => some (x == y)
  | neq, x, y => some (x != y)
  | _, _, _ => none

/-- E_SHL and E_SHR, whose right operand keeps its own type. -/
def BinaryOp.shift (op : BinaryOp) : Bool := op == shl || op == shr

/-- A truth value. -/
def truthValue (b : Bool) : Int := if b then 1 else 0

/-- The value of an operator that has evaluated both operands. Arithmetic is done in the type of
    the node; the operands of a comparison have a type of their own. -/
def binaryValue (op : BinaryOp) (ts : TypeBits) (x y : Int) : Option Int :=
  match op.arithmetic, op.holds x y with
  | some o, _ => ts.itype.apply o (ts.itype.wrap x) (if op.shift then y else ts.itype.wrap y)
  | none, some b => some (truthValue b)
  | none, none => if op = .land ∨ op = .lor then some (truthValue (y != 0)) else none

namespace Tree

/-- The value of a constant expression, where C defines one. -/
def value : Tree → Option Int
  | con ts c => some (ts.read c)
  | sym _ _ | fetch _ _ _ => none
  | cast ts child => child.value.map ts.itype.wrap
  | unary .neg ts child => child.value.bind ts.itype.negate
  | unary .com ts child => child.value.map ts.itype.complement
  | unary .rvalue _ child => child.value
  | binary op ts left right =>
    left.value.bind fun x =>
      if op = .land ∧ x = 0 then some 0
      else if op = .lor ∧ x ≠ 0 then some 1
      else right.value.bind fun y => binaryValue op ts x y
  | quest _ test left right =>
    test.value.bind fun x => if x ≠ 0 then left.value else right.value

/-- What `test_expression` builds: a comparison with zero. -/
def isTest : Tree → Bool
  | binary .eq _ _ _ | binary .neq _ _ _ => true
  | _ => false

/-- The types that `map_binary` gives to an operator and its operands: the usual arithmetic
    conversions have been made; an integer that is added to a pointer has its size. Constant
    expressions have no assignment and no comma. -/
def Operands (op : BinaryOp) (ts : TypeBits) (left right : Tree) : Prop :=
  match op with
  | .add | .sub | .mul | .and | .or | .xor =>
    left.ts.sizeof = ts.sizeof ∧ right.ts.sizeof = ts.sizeof
  | .div | .mod => left.ts = ts ∧ right.ts = ts
  | .shl | .shr => left.ts = ts
  | .gt | .gteq | .lt | .lteq | .eq | .neq => ts = .int ∧ left.ts = right.ts
  | .land | .lor => ts = .int ∧ left.isTest = true ∧ right.isTest = true
  | _ => False

/-- A constant expression over integral constants that are normalized to their types. -/
def Constant : Tree → Prop
  | con ts c => ts.integral = true ∧ conNormalize ts c = c
  | sym _ _ | fetch _ _ _ => False
  | cast ts child => ts.integral = true ∧ child.Constant
  | unary _ ts child => child.ts = ts ∧ child.Constant
  | binary op ts left right =>
    ts.integral = true ∧ Operands op ts left right ∧ left.Constant ∧ right.Constant
  | quest ts test left right =>
    test.Constant ∧ (left.ts = ts ∧ left.Constant) ∧ (right.ts = ts ∧ right.Constant)

/-- The expression and its parts. -/
def subtrees : Tree → List Tree
  | con ts c => [con ts c]
  | sym ts s => [sym ts s]
  | fetch ts f l => [fetch ts f l]
  | cast ts child => cast ts child :: child.subtrees
  | unary op ts child => unary op ts child :: child.subtrees
  | binary op ts left right => binary op ts left right :: (left.subtrees ++ right.subtrees)
  | quest ts test left right =>
    quest ts test left right :: (test.subtrees ++ (left.subtrees ++ right.subtrees))

/-- `tree_simplify` yields the constant that C gives, normalized to the type. -/
def Folds (tree : Tree) : Prop :=
  ∃ c, tree.simplify = some (con tree.ts c) ∧ conNormalize tree.ts c = c ∧
    tree.value = some (tree.ts.read c)

end Tree


/-! ### Words and values -/

section
variable {ts t : TypeBits} {a b c : Word}

/-- The type of the words that hold the constants of a type. -/
abbrev TypeBits.wtype (ts : TypeBits) : IntType := ⟨64, !ts.signed⟩

theorem width_le (ts : TypeBits) : ts.itype.width ≤ 64 := by
  have := (sizeof_pos ts).2
  change 8 * ts.sizeof ≤ 64
  omega

/-- A word that fits its type has the value of the constant. -/
theorem value_word (h : ts.integral = true) (hc : conNormalize ts c = c) :
    ts.wtype.value c = ts.read c := by
  have hext : IntType.extend ts.itype ts.wtype (low ts c) = c := by
    rw [conNormalize_eq h] at hc
    conv_rhs => rw [← hc]
    rw [IntType.extend]
    cases hs : ts.signed <;> simp [TypeBits.itype, TypeBits.wtype, hs]
  conv_lhs => rw [← hext]
  exact IntType.value_extend (t := ts.itype) (u := ts.wtype) rfl (width_le ts) (low ts c)

/-- The value of any word, once it has been brought into the type. -/
theorem read_conNormalize (h : ts.integral = true) (c : Word) :
    ts.read (conNormalize ts c) = ts.itype.wrap (ts.wtype.value c) := by
  have hw : ts.itype.width ≤ ts.wtype.width := width_le ts
  rw [TypeBits.read, low_conNormalize_self h, IntType.wrap_value_of_le hw]
  rfl

/-- Conversion of a constant. -/
theorem wrap_read (hs : ts.sizeof ≤ t.sizeof) (c : Word) :
    ts.itype.wrap (t.read c) = ts.read c := by
  have hw : ts.itype.width ≤ t.itype.width := Nat.mul_le_mul_left 8 hs
  rw [TypeBits.read, IntType.wrap_value_of_le hw]
  exact congrArg ts.itype.value (low_low hs c)

theorem read_inj (h : ts.integral = true) (ha : conNormalize ts a = a)
    (hb : conNormalize ts b = b) : ts.read a = ts.read b ↔ a = b := by
  rw [← eq_normalized h ha hb]
  exact IntType.value_inj ts.itype

theorem read_eq_zero (h : ts.integral = true) (ha : conNormalize ts a = a) :
    ts.read a = 0 ↔ a = 0 := by
  have hz : conNormalize ts 0 = 0 := by
    cases ts <;> decide
  have hr : ts.read 0 = 0 := by
    cases ts <;> decide
  rw [← hr]
  exact read_inj h ha hz

end

/-! ### Arithmetic -/

section
variable {ts : TypeBits} {a b : Word} {op : BinaryOp} {o : IntOp} {i : InsnOp} {x y n : Int}

/-- Arithmetic on 64-bit words is that of the machine. -/
theorem aluBinary_machine (ho : op.arithmetic = some o) (hi : op.insn = some i)
    (ts : TypeBits) (a b : Word) : aluBinary i ts a b = ts.wtype.machine o a b := by
  have hnot : ∀ (s : Bool) (x y : Word),
      (if s = true then x else y) = if (!s) = true then y else x := by
    intro s x y
    cases s <;> rfl
  cases op <;> cases ho <;> cases hi <;> first | rfl | exact hnot _ _ _

/-- The quotient that the host cannot represent has no value in C. -/
theorem apply_longMin (hs : ts.signed = true) (ho : o = .div ∨ o = .mod) :
    ts.wtype.apply o (ts.wtype.value longMin) (ts.wtype.value (-1)) = none := by
  have hall : ∀ s : Bool, s = true →
      (∀ o, o = .div ∨ o = .mod → IntType.apply ⟨64, !s⟩ o
        (IntType.value ⟨64, !s⟩ longMin) (IntType.value ⟨64, !s⟩ (-1)) = none) := by
    rintro _ rfl o (rfl | rfl) <;> decide
  exact hall ts.signed hs o ho

/-- What C defines at the type of the node may be computed on 64-bit words. -/
theorem conFoldBinary_word (h : ts.integral = true) (ho : op.arithmetic = some o)
    (hi : op.insn = some i) {u v : BitVec ts.itype.width}
    (hn : ts.itype.apply o (ts.itype.value u) (ts.itype.value v) = some n)
    (ha : ts.wtype.value a = ts.itype.value u) (hb : ts.wtype.value b = ts.itype.value v) :
    ∃ c, conFoldBinary i ts a b = some c ∧ conNormalize ts c = c ∧ ts.read c = n := by
  have hw : ts.itype.width ≤ ts.wtype.width := width_le ts
  obtain ⟨k, hk, hwrap⟩ := IntType.apply_widen (t := ts.itype) (u := ts.wtype) rfl hw hn
  rw [← ha, ← hb] at hk
  have htrap : ¬ ((i = .div ∨ i = .mod) ∧ ts.signed = true ∧ a = longMin ∧ b = -1) := by
    rintro ⟨hd, hs, rfl, rfl⟩
    rw [apply_longMin hs (by cases op <;> cases hi <;> cases ho <;> simp_all)] at hk
    cases hk
  refine ⟨_, if_neg htrap, conNormalize_self ts _, ?_⟩
  rw [read_conNormalize h, aluBinary_machine ho hi, IntType.value_machine hk, hwrap]

end


/-! ### Operators on constants -/

section
variable {ts t tl tr : TypeBits} {a b c a' b' : Word} {op : BinaryOp} {o : IntOp} {i : InsnOp}
variable {x y n : Int}

/-- The low bits of a result depend on the low bits of the operands. -/
theorem low_aluBinary (hop : op.twos = true) (hi : op.insn = some i) (ha : low ts a = low ts a')
    (hb : low ts b = low ts b') : low ts (aluBinary i ts a b) = low ts (aluBinary i ts a' b') := by
  have hle : 8 * ts.sizeof ≤ 64 := width_le ts
  simp only [low] at ha hb ⊢
  cases op <;> cases hop <;> cases hi <;>
    simp [aluBinary, BitVec.setWidth_add _ _ hle, BitVec.setWidth_mul _ _ hle,
      BitVec.setWidth_neg_of_le hle, BitVec.sub_eq_add_neg, ha, hb]

/-- The operators that are friendly to casts accept operands of other types of the same size. -/
theorem conFoldBinary_twos (h : ts.integral = true) (hop : op.twos = true)
    (ho : op.arithmetic = some o) (hi : op.insn = some i) (hl : ts.sizeof ≤ tl.sizeof)
    (hr : ts.sizeof ≤ tr.sizeof)
    (hn : ts.itype.apply o (ts.itype.wrap (tl.read a)) (ts.itype.wrap (tr.read b)) = some n) :
    ∃ c, conFoldBinary i ts a b = some c ∧ conNormalize ts c = c ∧ ts.read c = n := by
  rw [wrap_read hl, wrap_read hr] at hn
  have hword : ∀ c, ts.wtype.value (conNormalize ts c) = ts.itype.value (low ts c) := by
    intro c
    rw [value_word h (conNormalize_self ts c), TypeBits.read, low_conNormalize_self h]
  obtain ⟨c, hc, hself, hread⟩ := conFoldBinary_word h ho hi hn (hword a) (hword b)
  have hdiv : ¬ (i = .div ∨ i = .mod) := by cases op <;> cases hop <;> cases hi <;> decide
  refine ⟨c, ?_, hself, hread⟩
  rw [← hc, conFoldBinary, conFoldBinary, if_neg (fun hh => hdiv hh.1),
    if_neg (fun hh => hdiv hh.1)]
  refine congrArg some ((conNormalize_eq_iff h).mpr ?_)
  exact low_aluBinary hop hi (low_conNormalize_self h a).symm (low_conNormalize_self h b).symm

/-- A count in range is the same word in every type. -/
theorem value_count (hr : tr.integral = true) (hb : conNormalize tr b = b)
    (hy : 0 ≤ tr.read b ∧ tr.read b < ts.itype.width) : ts.wtype.value b = tr.read b := by
  have hbp : b = ts.wtype.pattern (tr.read b) := by
    conv_lhs => rw [← tr.wtype.pattern_value b, value_word hr hb]
    rfl
  conv_lhs => rw [hbp]
  refine IntType.wrap_count (t := ts.wtype) ⟨hy.1, lt_of_lt_of_le hy.2 ?_⟩
  exact_mod_cast width_le ts

theorem conFoldBinary_shift (h : ts.integral = true) (hr : tr.integral = true)
    (ha : conNormalize ts a = a) (hb : conNormalize tr b = b) (ho : o = .shl ∨ o = .shr)
    (hoa : op.arithmetic = some o) (hi : op.insn = some i)
    (hn : ts.itype.apply o (ts.itype.wrap (ts.read a)) (tr.read b) = some n) :
    ∃ c, conFoldBinary i ts a b = some c ∧ conNormalize ts c = c ∧ ts.read c = n := by
  have hy : 0 ≤ tr.read b ∧ tr.read b < ts.itype.width := by
    obtain rfl | rfl := ho
    all_goals
      rw [IntType.apply] at hn
      split at hn
      · assumption
      · cases hn
  rw [TypeBits.read, IntType.wrap_value, ← IntType.wrap_count hy] at hn
  refine conFoldBinary_word h hoa hi hn (value_word h ha) ?_
  rw [value_count hr hb hy, ← IntType.wrap, IntType.wrap_count hy]

/-- Division folds when its operands have the type of the node. -/
theorem conFoldBinary_div (h : ts.integral = true) (ha : conNormalize ts a = a)
    (hb : conNormalize ts b = b) (ho : o = .div ∨ o = .mod) (hoa : op.arithmetic = some o)
    (hi : op.insn = some i)
    (hn : ts.itype.apply o (ts.itype.wrap (ts.read a)) (ts.itype.wrap (ts.read b)) = some n) :
    b ≠ 0 ∧ ∃ c, conFoldBinary i ts a b = some c ∧ conNormalize ts c = c ∧ ts.read c = n := by
  rw [TypeBits.read, TypeBits.read, IntType.wrap_value, IntType.wrap_value] at hn
  refine ⟨?_, conFoldBinary_word h hoa hi hn (value_word h ha) (value_word h hb)⟩
  rintro rfl
  have hz : ts.itype.value (low ts 0) = 0 := (read_eq_zero h hb).mpr rfl
  rw [hz] at hn
  obtain rfl | rfl := ho
  all_goals
    rw [IntType.apply, if_pos rfl] at hn
    cases hn

/-- The sides of an unsigned comparison have the same top bit. -/
def SameSide (x y : Int) : Prop := x < 2 ^ 63 ↔ y < 2 ^ 63

theorem slt_eq_ult_iff (a b : Word) :
    a.slt b = a.ult b ↔ SameSide a.toNat b.toNat := by
  have ha := a.isLt
  have hb := b.isLt
  rw [BitVec.slt, BitVec.ult, BitVec.toInt, BitVec.toInt, SameSide, decide_eq_decide]
  split <;> split <;> omega

theorem sle_eq_ule_iff (a b : Word) :
    a.sle b = a.ule b ↔ SameSide a.toNat b.toNat := by
  have ha := a.isLt
  have hb := b.isLt
  rw [BitVec.sle, BitVec.ule, BitVec.toInt, BitVec.toInt, SameSide, decide_eq_decide]
  split <;> split <;> omega

/-- The comparisons that FOLD_RELATIONAL makes. -/
def BinaryOp.relational : BinaryOp → Bool
  | gt | gteq | lt | lteq => true
  | _ => false

/-- What a comparison of words at a type says of the values. -/
theorem holds_relationalWord (hrel : op.relational = true) (h : ts.integral = true)
    (ha : conNormalize ts a = a) (hb : conNormalize ts b = b) :
    op.holds (ts.read a) (ts.read b) = some (relationalWord op ts.signed a b) := by
  rw [← value_word h ha, ← value_word h hb]
  cases hs : ts.signed <;> cases op <;> cases hrel <;>
    simp [BinaryOp.holds, relationalWord, IntType.value, TypeBits.wtype, hs, BitVec.slt, BitVec.sle,
      BitVec.ult, BitVec.ule]

/-- A signed comparison of unsigned values is right when both have the same top bit. -/
theorem relationalWord_signed_iff (hrel : op.relational = true) (h : ts.integral = true)
    (hs : ts.signed = false) (ha : conNormalize ts a = a) (hb : conNormalize ts b = b) :
    relationalWord op true a b = relationalWord op ts.signed a b ↔
      SameSide (ts.read a) (ts.read b) := by
  rw [← value_word h ha, ← value_word h hb]
  have hside : SameSide (ts.wtype.value a) (ts.wtype.value b) ↔ SameSide a.toNat b.toNat := by
    simp [IntType.value, TypeBits.wtype, hs]
  have hcomm : SameSide b.toNat a.toNat ↔ SameSide a.toNat b.toNat := iff_comm
  rw [hside, hs]
  cases op <;> cases hrel
  · exact (slt_eq_ult_iff b a).trans hcomm
  · exact (sle_eq_ule_iff b a).trans hcomm
  · exact slt_eq_ult_iff a b
  · exact sle_eq_ule_iff a b

end

/-! ### Trees -/

section
variable {ts t tl tr : TypeBits} {a b c : Word} {op : BinaryOp} {o : IntOp} {x y n : Int}

theorem read_truth (b : Bool) : TypeBits.int.read (truth b) = truthValue b := by
  cases b <;> decide

theorem conNormalize_truth (b : Bool) : conNormalize .int (truth b) = truth b := by
  cases b <;> decide

theorem apply_comm (hop : op.swap = true) (ho : op.arithmetic = some o) (t : IntType) (x y : Int) :
    t.apply o x y = t.apply o y x := by
  cases op <;> cases hop <;> cases ho <;>
    simp only [IntType.apply, Int.add_comm, Int.mul_comm, BitVec.and_comm, BitVec.or_comm,
      BitVec.xor_comm]

/-- Both operands of an operator of E_SWAP are treated alike. -/
theorem binaryValue_comm (hop : op.swap = true) (ts : TypeBits) (x y : Int) :
    binaryValue op ts x y = binaryValue op ts y x := by
  have hshift : op.shift = false := by cases op <;> cases hop <;> rfl
  rw [binaryValue, binaryValue, hshift]
  cases ho : op.arithmetic with
  | some o => exact apply_comm hop ho _ _ _
  | none =>
    have heq : (x == y) = (y == x) := Bool.beq_comm
    have hne : (x != y) = (y != x) := congrArg (!·) heq
    cases op <;> cases hop <;> cases ho <;> simp [BinaryOp.holds, heq, hne]

namespace Tree

variable {left right tree : Tree}

theorem Operands.comm (hop : op.swap = true) (hty : Operands op ts left right) :
    Operands op ts right left := by
  cases op <;> cases hop <;> first | exact ⟨hty.2, hty.1⟩ | exact ⟨hty.1, hty.2.symm⟩

/-- Arithmetic on constants. -/
theorem foldConstants_arithmetic (h : ts.integral = true) (hr : right.ts.integral = true)
    (ha : conNormalize left.ts a = a) (hb : conNormalize right.ts b = b)
    (hty : Operands op ts left right) (ho : op.arithmetic = some o)
    (hn : binaryValue op ts (left.ts.read a) (right.ts.read b) = some n) :
    ∃ c, foldConstants tree op ts a b = some (con ts c) ∧ conNormalize ts c = c ∧
      ts.read c = n := by
  rw [binaryValue, ho] at hn
  dsimp only at hn
  have hmap : ∀ {i : InsnOp}, op.insn = some i →
      (∃ c, conFoldBinary i ts a b = some c ∧ conNormalize ts c = c ∧ ts.read c = n) →
      ∃ c, (op.insn.bind fun i => (conFoldBinary i ts a b).map (con ts)) = some (con ts c) ∧
        conNormalize ts c = c ∧ ts.read c = n := by
    rintro i hi ⟨c, hc, hself, hread⟩
    exact ⟨c, by rw [hi, Option.bind_some, hc, Option.map_some], hself, hread⟩
  cases op
  case add | sub | mul | and | or | xor =>
    exact hmap rfl (conFoldBinary_twos h rfl ho rfl hty.1.ge hty.2.ge hn)
  case shl | shr =>
    rw [show left.ts = ts from hty] at ha hn
    exact hmap rfl (conFoldBinary_shift h hr ha hb (by cases ho; decide) ho rfl hn)
  case div | mod =>
    rw [hty.1] at ha hn
    rw [hty.2] at hb hn
    obtain ⟨hb0, hc⟩ := conFoldBinary_div h ha hb (by cases ho; decide) ho rfl hn
    rw [foldConstants, if_neg hb0]
    exact hmap rfl hc
  all_goals cases ho

/-- Equality of constants. -/
theorem foldConstants_equality (tree : Tree) (ts : TypeBits) (hop : op = .eq ∨ op = .neq)
    (hl : tl.integral = true) (ha : conNormalize tl a = a) (hb : conNormalize tl b = b) :
    ∃ r, foldConstants tree op ts a b = some (con .int (truth r)) ∧
      op.holds (tl.read a) (tl.read b) = some r := by
  have heq : (tl.read a == tl.read b) = (a == b) := by
    rw [Bool.eq_iff_iff, beq_iff_eq, beq_iff_eq, read_inj hl ha hb]
  obtain rfl | rfl := hop
  · exact ⟨a == b, rfl, congrArg some heq⟩
  · exact ⟨a != b, rfl, congrArg (fun r => some (!r)) heq⟩

/-- FOLD_RELATIONAL. -/
theorem foldConstants_relational (tree : Tree) (hrel : op.relational = true) (hts : ts = .int) :
    foldConstants tree op ts a b = some (con .int (truth (relationalWord op true a b))) := by
  rw [hts]
  cases op <;> cases hrel <;> rfl


/-- The tree that is folded: E_SWAP operators have been commuted. -/
theorem simplify_binary (hland : op ≠ .land) (hlor : op ≠ .lor)
    (hl : left.simplify = some (con tl a)) (hr : right.simplify = some (con tr b)) :
    (binary op ts left right).simplify =
      if op.swap then foldConstants (binary op ts (con tr b) (con tl a)) op ts b a
      else foldConstants (binary op ts (con tl a) (con tr b)) op ts a b := by
  rw [simplify, hl, hr, Option.bind_some, Option.bind_some, simplify0]
  cases op <;> first | rfl | contradiction

/-- The value of a binary operator, other than E_LAND and E_LOR, is that of both operands. -/
theorem value_binary (hland : op ≠ .land) (hlor : op ≠ .lor) (hl : left.value = some x)
    (hr : right.value = some y) :
    (binary op ts left right).value = binaryValue op ts x y := by
  rw [value, hl, Option.bind_some, if_neg (fun h => hland h.1), if_neg (fun h => hlor h.1), hr,
    Option.bind_some]

theorem folds_arithmetic (h : ts.integral = true) (hli : left.ts.integral = true)
    (hri : right.ts.integral = true) (hty : Operands op ts left right)
    (ho : op.arithmetic = some o) (hl : left.Folds) (hr : right.Folds)
    (hn : (binary op ts left right).value = some n) : (binary op ts left right).Folds := by
  obtain ⟨a, hsl, ha, hvl⟩ := hl
  obtain ⟨b, hsr, hb, hvr⟩ := hr
  have hland : op ≠ .land := by rintro rfl; cases ho
  have hlor : op ≠ .lor := by rintro rfl; cases ho
  have hval := hn
  rw [value_binary hland hlor hvl hvr] at hval
  rw [Folds, simplify_binary hland hlor hsl hsr, hn]
  by_cases hswap : op.swap = true
  · rw [binaryValue_comm hswap] at hval
    obtain ⟨c, hc, hself, hread⟩ :=
      foldConstants_arithmetic h hli hb ha (hty.comm hswap) ho hval
    exact ⟨c, by rw [if_pos hswap, hc]; rfl, hself, congrArg some hread.symm⟩
  · obtain ⟨c, hc, hself, hread⟩ := foldConstants_arithmetic h hri ha hb hty ho hval
    exact ⟨c, by rw [if_neg hswap, hc]; rfl, hself, congrArg some hread.symm⟩

/-- A truth value that has been folded. -/
theorem folds_truth {r : Bool} (tree : Tree) (hts : tree.ts = .int)
    (hs : tree.simplify = some (con .int (truth r))) :
    tree.Folds ↔ tree.value = some (truthValue r) := by
  rw [Folds, hs, hts]
  constructor
  · rintro ⟨c, hc, -, hv⟩
    cases hc
    rw [hv, read_truth]
  · intro hv
    exact ⟨truth r, rfl, conNormalize_truth r, by rw [hv, read_truth]⟩

theorem truthValue_inj {r r' : Bool} : truthValue r = truthValue r' ↔ r = r' := by
  cases r <;> cases r' <;> decide

theorem folds_equality (hop : op = .eq ∨ op = .neq) (hli : left.ts.integral = true)
    (hty : Operands op ts left right) (hl : left.Folds) (hr : right.Folds) :
    (binary op ts left right).Folds := by
  obtain ⟨a, hsl, ha, hvl⟩ := hl
  obtain ⟨b, hsr, hb, hvr⟩ := hr
  have hland : op ≠ .land := by rintro rfl; simp at hop
  have hlor : op ≠ .lor := by rintro rfl; simp at hop
  have hts : ts = .int ∧ left.ts = right.ts := by obtain rfl | rfl := hop <;> exact hty
  rw [← hts.2] at hsr hb hvr
  have hswap : op.swap = true := by obtain rfl | rfl := hop <;> rfl
  have hnone : op.arithmetic = none := by obtain rfl | rfl := hop <;> rfl
  obtain ⟨r, hc, hholds⟩ :=
    foldConstants_equality (binary op ts (con left.ts b) (con left.ts a)) ts hop hli hb ha
  have hsimp : (binary op ts left right).simplify = _ := simplify_binary hland hlor hsl hsr
  rw [if_pos hswap, hc] at hsimp
  rw [folds_truth (binary op ts left right) hts.1 hsimp, value_binary hland hlor hvl hvr,
    binaryValue_comm hswap, binaryValue, hnone, hholds]

/-- A relational operator folds to what C gives when its operands have a signed type, or the same
    top bit. -/
theorem folds_relational_iff (hrel : op.relational = true) (hli : left.ts.integral = true)
    (hty : Operands op ts left right) (hl : left.Folds) (hr : right.Folds) :
    (binary op ts left right).Folds ↔
      (left.ts.signed = false → ∀ x y, left.value = some x → right.value = some y →
        SameSide x y) := by
  obtain ⟨a, hsl, ha, hvl⟩ := hl
  obtain ⟨b, hsr, hb, hvr⟩ := hr
  have hland : op ≠ .land := by rintro rfl; cases hrel
  have hlor : op ≠ .lor := by rintro rfl; cases hrel
  have hts : ts = .int ∧ left.ts = right.ts := by cases op <;> cases hrel <;> exact hty
  rw [← hts.2] at hsr hb hvr
  have hswap : ¬ op.swap = true := by cases op <;> cases hrel <;> decide
  have hnone : op.arithmetic = none := by cases op <;> cases hrel <;> rfl
  have hsimp : (binary op ts left right).simplify = _ := simplify_binary hland hlor hsl hsr
  rw [if_neg hswap, foldConstants_relational _ hrel hts.1] at hsimp
  rw [folds_truth (binary op ts left right) hts.1 hsimp, value_binary hland hlor hvl hvr,
    binaryValue, hnone, holds_relationalWord hrel hli ha hb]
  dsimp only
  rw [Option.some_inj, truthValue_inj, eq_comm, hvl, hvr]
  cases hs : left.ts.signed with
  | true => simp
  | false =>
    rw [← hs, relationalWord_signed_iff hrel hli hs ha hb]
    constructor
    · rintro hside - x y ⟨⟩ ⟨⟩
      exact hside
    · intro hside
      exact hside rfl _ _ rfl rfl

end Tree
end

/-! ### Expressions -/

namespace Tree
variable {ts : TypeBits} {op : BinaryOp} {u : UnaryOp} {test left right child tree : Tree}

theorem integral_of_constant : {tree : Tree} → tree.Constant → tree.ts.integral = true
  | con _ _, h | cast _ _, h | binary _ _ _ _, h => h.1
  | unary _ _ _, h => (congrArg TypeBits.integral h.1).symm.trans (integral_of_constant h.2)
  | quest _ _ _ _, h =>
    (congrArg TypeBits.integral h.2.1.1).symm.trans (integral_of_constant h.2.1.2)

theorem mem_subtrees_self : (tree : Tree) → tree ∈ tree.subtrees
  | con _ _ | sym _ _ | fetch _ _ _ => List.mem_singleton_self _
  | cast _ _ | unary _ _ _ | binary _ _ _ _ | quest _ _ _ _ => List.mem_cons_self

theorem ts_retype (ts : TypeBits) (tree : Tree) : (tree.retype ts).ts = ts := by
  cases tree <;> rfl

/-- A test has the value 0 or 1. -/
theorem value_isTest {n : Int} (ht : tree.isTest = true) (hv : tree.value = some n) :
    n = truthValue (n != 0) := by
  have hbin : ∀ {op : BinaryOp} {ts : TypeBits} {left right : Tree}, op = .eq ∨ op = .neq →
      (binary op ts left right).value = some n → n = truthValue (n != 0) := by
    intro op ts left right hop hv
    have hland : op ≠ .land := by rintro rfl; simp at hop
    have hlor : op ≠ .lor := by rintro rfl; simp at hop
    rw [value, Option.bind_eq_some_iff] at hv
    obtain ⟨x, -, hv⟩ := hv
    rw [if_neg (fun h => hland h.1), if_neg (fun h => hlor h.1), Option.bind_eq_some_iff] at hv
    obtain ⟨y, -, hv⟩ := hv
    have hnone : op.arithmetic = none := by obtain rfl | rfl := hop <;> rfl
    obtain ⟨r, hr⟩ : ∃ r, op.holds x y = some r := by
      obtain rfl | rfl := hop <;> exact ⟨_, rfl⟩
    rw [binaryValue, hnone, hr] at hv
    obtain rfl := Option.some.inj hv
    cases r <;> decide
  match tree, ht with
  | binary .eq _ _ _, _ => exact hbin (.inl rfl) hv
  | binary .neq _ _ _, _ => exact hbin (.inr rfl) hv

theorem ts_isTest (hc : tree.Constant) (ht : tree.isTest = true) : tree.ts = .int := by
  match tree, ht with
  | binary .eq _ _ _, _ => exact hc.2.1.1
  | binary .neq _ _ _, _ => exact hc.2.1.1

theorem folds_cast (h : ts.integral = true) (hci : child.ts.integral = true)
    (hc : child.Folds) : (cast ts child).Folds := by
  obtain ⟨c, hs, hself, hv⟩ := hc
  refine ⟨conNormalize ts c, ?_, conNormalize_self ts c, ?_⟩
  · rw [simplify, hs]
    rfl
  · rw [value, hv, Option.map_some, ts_cast, read_conNormalize h, ← value_word hci hself]
    have hw : ts.itype.width ≤ child.ts.wtype.width := width_le ts
    have hw' : ts.itype.width ≤ ts.wtype.width := width_le ts
    rw [IntType.wrap_value_of_le hw, IntType.wrap_value_of_le hw']

theorem folds_unary {n : Int} (hts : child.ts = ts) (hci : child.ts.integral = true)
    (hc : child.Folds) (hn : (unary u ts child).value = some n) : (unary u ts child).Folds := by
  obtain ⟨c, hs, hself, hv⟩ := hc
  rw [hts] at hs hself hv hci
  rw [Folds, simplify, hs, Option.bind_some, hn, ts_unary]
  have hw : ts.itype.width ≤ ts.wtype.width := width_le ts
  cases u with
  | rvalue => exact ⟨c, rfl, hself, hn.symm.trans hv⟩
  | neg =>
    refine ⟨conNormalize ts (-c), rfl, conNormalize_self ts _, congrArg some ?_⟩
    rw [value, hv, Option.bind_some, ← value_word hci hself] at hn
    obtain ⟨k, hk, hwrap⟩ := IntType.result_widen (t := ts.itype) (u := ts.wtype) rfl hw hn
    rw [read_conNormalize hci, IntType.value_neg hk, hwrap]
  | com =>
    refine ⟨conNormalize ts (~~~c), rfl, conNormalize_self ts _, ?_⟩
    rw [← hn, value, hv, Option.map_some, TypeBits.read, TypeBits.read, low_conNormalize_self hci,
      IntType.complement, IntType.pattern_value]
    exact congrArg (fun b => some (ts.itype.value b)) (BitVec.setWidth_not (width_le ts)).symm

theorem folds_logical (hop : op = .land ∨ op = .lor) (hty : Operands op ts left right)
    (hcl : left.Constant) (hcr : right.Constant) (hl : left.Folds) (hr : right.Folds) :
    (binary op ts left right).Folds := by
  obtain ⟨a, hsl, ha, hvl⟩ := hl
  obtain ⟨b, hsr, hb, hvr⟩ := hr
  obtain ⟨hts, htl, htr⟩ : ts = .int ∧ left.isTest = true ∧ right.isTest = true := by
    obtain rfl | rfl := hop <;> exact hty
  have hzero : left.ts.read a = 0 ↔ a = 0 := read_eq_zero (integral_of_constant hcl) ha
  rw [ts_isTest hcr htr] at hsr hb hvr
  have hy := value_isTest htr hvr
  have htest : ∀ y, binaryValue op ts (left.ts.read a) y = some (truthValue (y != 0)) := by
    intro y
    obtain rfl | rfl := hop <;> rfl
  obtain rfl := hts
  rw [Folds, simplify, hsl, hsr, Option.bind_some, Option.bind_some, value, hvl, Option.bind_some,
    hvr, Option.bind_some, htest, ← hy, ts_binary]
  obtain rfl | rfl := hop
  · by_cases h0 : a = 0
    · refine ⟨0, ?_, conNormalize_truth false, ?_⟩
      · rw [h0]
        rfl
      · rw [if_pos ⟨rfl, hzero.mpr h0⟩]
        rfl
    · refine ⟨b, ?_, hb, ?_⟩
      · exact congrArg some (if_pos h0)
      · rw [if_neg (fun h => h0 (hzero.mp h.2)), if_neg (by simp)]
  · by_cases h0 : a = 0
    · refine ⟨b, ?_, hb, ?_⟩
      · exact congrArg some (if_neg (not_not_intro h0))
      · rw [if_neg (by simp), if_neg (fun h => h.2 (hzero.mpr h0))]
    · refine ⟨1, ?_, conNormalize_truth true, ?_⟩
      · exact congrArg some (if_pos h0)
      · rw [if_neg (by simp), if_pos ⟨rfl, fun h => h0 (hzero.mp h)⟩]
        rfl

theorem folds_quest (hlt : left.ts = ts) (hrt : right.ts = ts) (hct : test.Constant)
    (ht : test.Folds) (hl : left.Folds) (hr : right.Folds) : (quest ts test left right).Folds := by
  obtain ⟨c, hst, hc, hvt⟩ := ht
  obtain ⟨a, hsl, ha, hvl⟩ := hl
  obtain ⟨b, hsr, hb, hvr⟩ := hr
  have hzero : test.ts.read c = 0 ↔ c = 0 := read_eq_zero (integral_of_constant hct) hc
  rw [hlt] at hsl ha hvl
  rw [hrt] at hsr hb hvr
  rw [Folds, simplify, hst, hsl, hsr, Option.bind_some, Option.bind_some, Option.bind_some, value,
    hvt, Option.bind_some]
  by_cases h0 : c = 0
  · refine ⟨b, congrArg some (if_neg (not_not_intro h0)), hb, ?_⟩
    rw [if_neg (not_not_intro (hzero.mpr h0)), hvr]
    rfl
  · refine ⟨a, congrArg some (if_pos h0), ha, ?_⟩
    rw [if_pos (fun h => h0 (hzero.mp h)), hvl]
    rfl

/-- Operands of a relational operator that are compared correctly although the node is a signed
    `int`: they have a signed type, or the same top bit. -/
def Agrees : Tree → Prop
  | binary op _ left right => op.relational = true → left.ts.signed = false →
      ∀ x y, left.value = some x → right.value = some y → SameSide x y
  | _ => True

/-- A node whose parts fold. -/
theorem folds_binary_iff {n : Int} (hc : (binary op ts left right).Constant)
    (hn : (binary op ts left right).value = some n) (hl : left.Folds) (hr : right.Folds) :
    (binary op ts left right).Folds ↔ (binary op ts left right).Agrees := by
  obtain ⟨h, hty, hcl, hcr⟩ := hc
  have hli := integral_of_constant hcl
  have hri := integral_of_constant hcr
  by_cases hrel : op.relational = true
  · rw [folds_relational_iff hrel hli hty hl hr]
    exact ⟨fun h _ => h, fun h => h hrel⟩
  · refine iff_of_true ?_ (fun h => absurd h hrel)
    cases ho : op.arithmetic with
    | some o => exact folds_arithmetic h hli hri hty ho hl hr hn
    | none =>
      cases op
      case eq | neq => exact folds_equality (by decide) hli hty hl hr
      case land | lor => exact folds_logical (by decide) hty hcl hcr hl hr
      case gt | gteq | lt | lteq => exact absurd rfl hrel
      all_goals first | exact hty.elim | cases ho

/-- The parts of an expression fold to what C gives when every comparison agrees. -/
theorem simplify_folds_iff (hc : tree.Constant)
    (hv : ∀ e ∈ tree.subtrees, ∃ n, e.value = some n) :
    (∀ e ∈ tree.subtrees, e.Folds) ↔ ∀ e ∈ tree.subtrees, e.Agrees := by
  induction tree with
  | con ts c =>
    rw [subtrees, List.forall_mem_singleton, List.forall_mem_singleton]
    exact iff_of_true ⟨c, rfl, hc.2, rfl⟩ trivial
  | sym ts s => exact hc.elim
  | fetch ts f l => exact hc.elim
  | cast ts child ih =>
    rw [subtrees, List.forall_mem_cons] at hv
    rw [subtrees, List.forall_mem_cons, List.forall_mem_cons, ← ih hc.2 hv.2]
    refine ⟨fun h => ⟨trivial, h.2⟩, fun h => ⟨?_, h.2⟩⟩
    exact folds_cast hc.1 (integral_of_constant hc.2) (h.2 _ child.mem_subtrees_self)
  | unary op ts child ih =>
    rw [subtrees, List.forall_mem_cons] at hv
    rw [subtrees, List.forall_mem_cons, List.forall_mem_cons, ← ih hc.2 hv.2]
    refine ⟨fun h => ⟨trivial, h.2⟩, fun h => ⟨?_, h.2⟩⟩
    obtain ⟨n, hn⟩ := hv.1
    exact folds_unary hc.1 (integral_of_constant hc.2) (h.2 _ child.mem_subtrees_self) hn
  | binary op ts left right ihl ihr =>
    rw [subtrees, List.forall_mem_cons, List.forall_mem_append] at hv
    obtain ⟨⟨n, hn⟩, hvl, hvr⟩ := hv
    rw [subtrees, List.forall_mem_cons, List.forall_mem_cons, List.forall_mem_append,
      List.forall_mem_append, ← ihl hc.2.2.1 hvl, ← ihr hc.2.2.2 hvr]
    refine and_congr_left fun h => ?_
    exact folds_binary_iff hc hn (h.1 _ left.mem_subtrees_self) (h.2 _ right.mem_subtrees_self)
  | quest ts test left right iht ihl ihr =>
    rw [subtrees, List.forall_mem_cons, List.forall_mem_append, List.forall_mem_append] at hv
    obtain ⟨-, hvt, hvl, hvr⟩ := hv
    rw [subtrees, List.forall_mem_cons, List.forall_mem_cons, List.forall_mem_append,
      List.forall_mem_append, List.forall_mem_append, List.forall_mem_append, ← iht hc.1 hvt,
      ← ihl hc.2.1.2 hvl, ← ihr hc.2.2.2 hvr]
    refine ⟨fun h => ⟨trivial, h.2⟩, fun h => ⟨?_, h.2⟩⟩
    exact folds_quest hc.2.1.1 hc.2.2.1 hc.1 (h.2.1 _ test.mem_subtrees_self)
      (h.2.2.1 _ left.mem_subtrees_self) (h.2.2.2 _ right.mem_subtrees_self)


/-- `0xFFFFFFFFU > 1U`: no `unsigned int` has the top bit of a word. -/
def unsignedGreater : Tree := binary .gt .int (con .uint 0xFFFFFFFF) (con .uint 1)

theorem simplify_folds_unsigned : unsignedGreater.Folds := by
  have hc : unsignedGreater.Constant :=
    ⟨rfl, ⟨rfl, rfl⟩, ⟨rfl, by decide⟩, ⟨rfl, by decide⟩⟩
  have hv : ∀ e ∈ unsignedGreater.subtrees, ∃ n, e.value = some n := by
    simp only [unsignedGreater, subtrees, List.forall_mem_cons, List.forall_mem_append]
    exact ⟨⟨1, by decide⟩, ⟨⟨4294967295, by decide⟩, List.forall_mem_nil _⟩,
      ⟨1, by decide⟩, List.forall_mem_nil _⟩
  refine (simplify_folds_iff hc hv).mpr ?_ _ (mem_subtrees_self _)
  simp only [unsignedGreater, subtrees, List.forall_mem_cons, List.forall_mem_append]
  refine ⟨?_, ⟨trivial, List.forall_mem_nil _⟩, trivial, List.forall_mem_nil _⟩
  rintro - - x y hx hy
  have hx' : x = 4294967295 := Option.some.inj (hx.symm.trans (by decide))
  have hy' : y = 1 := Option.some.inj (hy.symm.trans (by decide))
  rw [hx', hy']
  exact iff_of_true (by decide) (by decide)

/-- `0x8000000000000000UL > 1UL` folds to 0, and is 1. -/
theorem simplify_unsigned_long :
    ∃ e : Tree, e = binary .gt .int (con .ulong 0x8000000000000000) (con .ulong 1) ∧ e.Constant ∧
      (∀ e' ∈ e.subtrees, ∃ n, e'.value = some n) ∧ e.simplify = some (con .int 0) ∧
      e.value = some 1 ∧ ¬ e.Folds := by
  refine ⟨_, rfl, ⟨rfl, ⟨rfl, rfl⟩, ⟨rfl, by decide⟩, ⟨rfl, by decide⟩⟩, ?_, by decide, by decide,
    ?_⟩
  · simp only [subtrees, List.forall_mem_cons, List.forall_mem_append]
    exact ⟨⟨1, by decide⟩, ⟨⟨9223372036854775808, by decide⟩, List.forall_mem_nil _⟩,
      ⟨1, by decide⟩, List.forall_mem_nil _⟩
  · rintro ⟨c, hs, -, hv⟩
    have hc : con .int 0 = con .int c := Option.some.inj (Eq.trans (by decide) hs)
    cases hc
    exact absurd hv (by decide)

end Tree
end Ncc
