import Ncc.Exec

/-! Expression trees over integral types (tree.h, tree.c).

    A tree denotes a word that is normalized to the type of its root. An operator works at the type
    of its node, whatever the types of its operands are: their bits are read at that type. -/

namespace Ncc

/-- The unary operators other than E_CAST. -/
inductive UnaryOp where
  | neg | rvalue | com
  deriving DecidableEq, Repr

/-- The binary operators, without those that build E_QUEST and block assignments. -/
inductive BinaryOp where
  | asg | mulasg | divasg | modasg | addasg | subasg | shlasg | shrasg | andasg | orasg | xorasg
  | xor | div | mul | add | sub | gt | shr | gteq | lt | shl | lteq | and | land | eq | neq | or
  | lor | mod | post | comma
  deriving DecidableEq, Repr

/-- `struct tree`. E_SYM, and E_FETCH through a pointer, stand for a value; `field` says that it is a
    bit-field that is fetched. An E_QUEST node and the E_COLON node on its right are one node. -/
inductive Tree where
  | con (ts : TypeBits) (con : Word)
  | sym (ts : TypeBits) (sym : Nat)
  | fetch (ts : TypeBits) (field : Bool) (loc : Nat)
  | cast (ts : TypeBits) (child : Tree)
  | unary (op : UnaryOp) (ts : TypeBits) (child : Tree)
  | binary (op : BinaryOp) (ts : TypeBits) (left right : Tree)
  | quest (ts : TypeBits) (test left right : Tree)
  deriving DecidableEq

/-- E_2S of a unary operator: friendly to cast elimination. -/
def UnaryOp.twos : UnaryOp → Bool
  | neg | com => true
  | rvalue => false

/-- E_2S. -/
def BinaryOp.twos : BinaryOp → Bool
  | xor | mul | add | sub | and | or => true
  | _ => false

/-- E_BIN_IDX: the insn for an operator and for its compound assignment. -/
def BinaryOp.insn : BinaryOp → Option InsnOp
  | xor | xorasg => some .xor
  | div | divasg => some .div
  | mul | mulasg => some .mul
  | add | addasg => some .add
  | sub | subasg => some .sub
  | shr | shrasg => some .shr
  | shl | shlasg => some .shl
  | and | andasg => some .and
  | or | orasg => some .or
  | mod | modasg => some .mod
  | _ => none

namespace Tree

/-- The type of the root. -/
def ts : Tree → TypeBits
  | con ts _ | sym ts _ | fetch ts _ _ | cast ts _ | unary _ ts _ | binary _ ts _ _
  | quest ts _ _ _ => ts

@[simp] theorem ts_cast (u : TypeBits) (t : Tree) : (cast u t).ts = u := rfl

@[simp] theorem ts_unary (op : UnaryOp) (u : TypeBits) (t : Tree) : (unary op u t).ts = u := rfl

@[simp] theorem ts_binary (op : BinaryOp) (u : TypeBits) (l r : Tree) :
    (binary op u l r).ts = u := rfl

/-- The same tree with another type at the root. -/
def retype (ts : TypeBits) : Tree → Tree
  | con _ c => con ts c
  | sym _ s => sym ts s
  | fetch _ f l => fetch ts f l
  | cast _ t => cast ts t
  | unary op _ t => unary op ts t
  | binary op _ l r => binary op ts l r
  | quest _ c l r => quest ts c l r

/-- TREE_FIELD_FETCH. -/
def fieldFetch : Tree → Bool
  | fetch _ field _ => field
  | _ => false

/-- The number of nodes. -/
def size : Tree → Nat
  | con _ _ | sym _ _ | fetch _ _ _ => 1
  | cast _ t | unary _ _ t => t.size + 1
  | binary _ _ l r => l.size + r.size + 1
  | quest _ c l r => c.size + l.size + r.size + 1

/-- Every node has an integral type. -/
def Integral : Tree → Prop
  | con ts _ | sym ts _ | fetch ts _ _ => ts.integral = true
  | cast ts t | unary _ ts t => ts.integral = true ∧ t.Integral
  | binary _ ts l r => ts.integral = true ∧ l.Integral ∧ r.Integral
  | quest ts c l r => ts.integral = true ∧ c.Integral ∧ l.Integral ∧ r.Integral

end Tree

/-! ### Values -/

/-- The word of a unary operator. -/
def unaryWord : UnaryOp → Word → Word
  | .neg, a => -a
  | .com, a => ~~~a
  | .rvalue, a => a

/-- Arithmetic at a type: both operands are read at it, and the count of a shift at its own. -/
def arith (op : InsnOp) (ts : TypeBits) (a b : Word) : Word :=
  match op with
  | .shr =>
    if ts.signed then (conNormalize ts a).sshiftRight (b.toNat % (8 * ts.sizeof))
    else conNormalize ts a >>> (b.toNat % (8 * ts.sizeof))
  | .shl => conNormalize ts a <<< (b.toNat % (8 * ts.sizeof))
  | op => aluBinary op ts (conNormalize ts a) (conNormalize ts b)

/-- A truth value as a word. -/
def truth (b : Bool) : Word := if b then 1 else 0

/-- The word of a binary operator at type `ts`; `tl` is the type of the left operand, at which the
    relational operators compare. -/
def binaryWord (op : BinaryOp) (ts tl : TypeBits) (a b : Word) : Word :=
  match op with
  | .asg | .comma => b
  | .post => a
  | .eq => truth (a == b)
  | .neq => truth (a != b)
  | .gt => truth (if tl.signed then b.slt a else b.ult a)
  | .lt => truth (if tl.signed then a.slt b else a.ult b)
  | .gteq => truth (if tl.signed then b.sle a else b.ule a)
  | .lteq => truth (if tl.signed then a.sle b else a.ule b)
  | .land => truth (a != 0 && b != 0)
  | .lor => truth (a != 0 || b != 0)
  | op => (op.insn.map fun i => arith i ts a b).getD 0

/-- The value of a tree, given those of E_SYM and E_FETCH. -/
def Tree.eval (env : Nat → Word) : Tree → Word
  | con ts c => conNormalize ts c
  | sym ts s => conNormalize ts (env s)
  | fetch ts _ l => conNormalize ts (env l)
  | cast ts t => conNormalize ts (t.eval env)
  | unary op ts t => conNormalize ts (unaryWord op (t.eval env))
  | binary op ts l r => conNormalize ts (binaryWord op ts l.ts (l.eval env) (r.eval env))
  | quest ts c l r => conNormalize ts (if c.eval env != 0 then l.eval env else r.eval env)

/-! ### Truncation -/

section
variable {ts t u : TypeBits} {a b : Word}

/-- The bits that a type keeps. -/
def low (ts : TypeBits) (w : Word) : BitVec (8 * ts.sizeof) := w.setWidth _

theorem sizeof_pos (ts : TypeBits) : 0 < ts.sizeof ∧ ts.sizeof ≤ 8 := by
  cases ts <;> decide

/-- `con_normalize` extends the bits that the type keeps. -/
theorem conNormalize_eq (h : ts.integral = true) (w : Word) : conNormalize ts w =
    if ts.signed then (low ts w).signExtend 64 else (low ts w).setWidth 64 := by
  cases ts with
  | float | double => exact nomatch h
  | long => simp [conNormalize, low, TypeBits.signed, TypeBits.sizeof]
  | ulong => simp [conNormalize, low, TypeBits.signed, TypeBits.sizeof]
  | _ => rfl

theorem low_conNormalize_self (h : ts.integral = true) (w : Word) :
    low ts (conNormalize ts w) = low ts w := by
  rw [conNormalize_eq h]
  have hle : 8 * ts.sizeof ≤ 64 := by have := (sizeof_pos ts).2; omega
  split
  · exact setWidth_signExtend_setWidth hle w
  · exact setWidth_setWidth_setWidth hle w

/-- What a type makes of a word depends on the bits it keeps. -/
theorem conNormalize_eq_iff (h : ts.integral = true) :
    conNormalize ts a = conNormalize ts b ↔ low ts a = low ts b := by
  constructor
  · intro he
    rw [← low_conNormalize_self h a, he, low_conNormalize_self h]
  · intro he
    rw [conNormalize_eq h, conNormalize_eq h, he]

theorem low_low (hs : t.sizeof ≤ u.sizeof) (w : Word) :
    (low u w).setWidth (8 * t.sizeof) = low t w :=
  BitVec.setWidth_setWidth_of_le w (Nat.mul_le_mul_left 8 hs)

/-- A wider type keeps the bits of a narrower one. -/
theorem low_conNormalize (h : u.integral = true) (hs : t.sizeof ≤ u.sizeof) (w : Word) :
    low t (conNormalize u w) = low t w := by
  rw [← low_low hs, low_conNormalize_self h, low_low hs]

theorem conNormalize_conNormalize (ht : t.integral = true) (hu : u.integral = true)
    (hs : t.sizeof ≤ u.sizeof) (w : Word) :
    conNormalize t (conNormalize u w) = conNormalize t w :=
  (conNormalize_eq_iff ht).mpr (low_conNormalize hu hs w)

theorem conNormalize_self (ts : TypeBits) (w : Word) :
    conNormalize ts (conNormalize ts w) = conNormalize ts w := by
  cases hi : ts.integral with
  | true => exact conNormalize_conNormalize hi hi le_rfl w
  | false => cases ts <;> first | rfl | exact nomatch hi

end

end Ncc
