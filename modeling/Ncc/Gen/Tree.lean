import Ncc.Simplify

/-! Expression trees as the code generator receives them (tree.h, tree.c).

    Unlike the trees of integral expressions, these have everything that `gen` handles: fetches
    through pointers, calls with their forests of arguments, symbols whose address is taken, and
    address constants. `tree_simplify` folds constants, floating ones as the host does. -/

namespace Ncc.Gen

/-! ### Types -/

/-- The place of a bit-field in its host word. -/
structure Field where
  size : Nat
  shift : Nat
  deriving DecidableEq, Repr

/-- What `struct type` says. The type of a bit-field is that of its host; the type of the pointer
    that it is fetched through says that it is a field, and also that the target is volatile. -/
inductive Ty where
  | void
  | strun (size : Nat)
  | scalar (ts : TypeBits)
  | pointer (volatile : Bool) (field : Option Field)
  deriving DecidableEq

namespace Ty

/-- TYPE_BITS, where the IR knows a machine type: pointers are unsigned longs. -/
def bits : Ty → TypeBits
  | scalar ts => ts
  | _ => .ulong

/-- TYPE_FLOATING. -/
def floating : Ty → Bool
  | scalar ts => ts.floating
  | _ => false

/-- TYPE_INTEGRAL. -/
def integral : Ty → Bool
  | scalar ts => ts.integral
  | _ => false

/-- TYPE_DISCRETE. -/
def discrete : Ty → Bool
  | scalar ts => ts.integral
  | pointer _ _ => true
  | _ => false

/-- TYPE_SIGNED. -/
def signed : Ty → Bool
  | scalar ts => ts.signed
  | _ => false

/-- TYPE_VOLATILE_PTR. -/
def volatilePtr : Ty → Bool
  | pointer volatile _ => volatile
  | _ => false

/-- TYPE_FIELD_PTR, with TYPE_FIELD_PTR_SIZE and TYPE_FIELD_PTR_SHIFT. -/
def fieldPtr : Ty → Option Field
  | pointer _ field => field
  | _ => none

/-- The same pointer to the host word of a field. -/
def unfield : Ty → Ty
  | pointer volatile _ => pointer volatile none
  | ty => ty

end Ty

/-! ### Trees -/

/-- `struct tree`. An E_QUEST node and the E_COLON node on its right are one node; `forest` chains
    the arguments of a call, up to E_NONE. -/
inductive Tree where
  | none
  | con (ty : Ty) (con : Word) (sym : Option Symbol)
  | sym (ty : Ty) (sym : PseudoReg)
  | call (ty : Ty) (child args : Tree)
  | cast (ty : Ty) (child : Tree)
  | fetch (ty : Ty) (child : Tree)
  | addrof (ty : Ty) (child : Tree)
  | unary (op : UnaryOp) (ty : Ty) (child : Tree)
  | binary (op : BinaryOp) (ty : Ty) (left right : Tree)
  | quest (ty : Ty) (test left right : Tree)
  | blkasg (ty : Ty) (size : Nat) (left right : Tree)
  | forest (first rest : Tree)
  deriving DecidableEq

/-- `tree_i`. -/
def treeI (ts : TypeBits) (i : Word) : Tree := .con (.scalar ts) i .none

namespace Tree

/-- The type of the root. -/
def ty : Tree → Ty
  | none | forest _ _ => .void
  | con ty _ _ | sym ty _ | call ty _ _ | cast ty _ | fetch ty _ | addrof ty _ | unary _ ty _
  | binary _ ty _ _ | quest ty _ _ _ | blkasg ty _ _ _ => ty

/-- The same tree with another type at the root, as `tree_chop_unary` and `tree_chop_binary` leave
    the tree that they keep. -/
def retype (ty : Ty) : Tree → Tree
  | none => none
  | con _ c s => con ty c s
  | sym _ s => sym ty s
  | call _ t a => call ty t a
  | cast _ t => cast ty t
  | fetch _ t => fetch ty t
  | addrof _ t => addrof ty t
  | unary op _ t => unary op ty t
  | binary op _ l r => binary op ty l r
  | quest _ c l r => quest ty c l r
  | blkasg _ n l r => blkasg ty n l r
  | forest f r => forest f r

/-- The number of nodes. -/
def size : Tree → Nat
  | none | con _ _ _ | sym _ _ => 1
  | cast _ t | fetch _ t | addrof _ t | unary _ _ t => t.size + 1
  | call _ l r | binary _ _ l r | blkasg _ _ l r | forest l r => l.size + r.size + 1
  | quest _ c l r => c.size + l.size + r.size + 1

/-- TREE_PURE_CON. -/
def pureCon : Tree → Bool
  | con _ _ .none => true
  | _ => false

/-- TREE_FIELD_FETCH. -/
def fieldFetch : Tree → Option Field
  | fetch _ child => child.ty.fieldPtr
  | _ => .none

/-- `tree_nonzero`. -/
def nonzero : Tree → Bool
  | con ty c .none => if ty.floating then !fEq c 0 else c != 0
  | _ => false

/-- `tree_zero`. -/
def zero : Tree → Bool
  | con ty c .none => if ty.floating then fEq c 0 else c == 0
  | _ => false

/-- `tree_normalize`. -/
def normalize : Tree → Tree
  | binary op ty left right =>
    if op.swap && left.pureCon then binary op ty right left else binary op ty left right
  | tree => tree

end Tree

/-! ### tree_simplify -/

/-- What the host makes of floating constants. -/
structure Host where
  neg : Word → Word
  binary : BinaryOp → Word → Word → Word
  rel : BinaryOp → Word → Word → Bool
  cast : Ty → Ty → Word → Word

section
variable (host : Host)

/-- `con_cast`. -/
def conCast (dst src : Ty) (c : Word) : Word :=
  if dst.floating || src.floating then conNormalize dst.bits (host.cast dst src c)
  else conNormalize dst.bits c

/-- FOLD_UNARY_ANY. -/
def foldNeg (ty : Ty) (c : Word) : Word :=
  if ty.floating then host.neg c else conNormalize ty.bits (-c)

/-- FOLD_BINARY_I; nothing when the host stops. -/
def foldI (op : BinaryOp) (ty : Ty) (a b : Word) : Option Word :=
  op.insn.bind fun i => conFoldBinary i ty.bits a b

/-- FOLD_BINARY_ANY. -/
def foldAny (op : BinaryOp) (ty : Ty) (a b : Word) : Option Word :=
  if ty.floating then some (host.binary op a b) else foldI op ty a b

/-- FOLD_EQUALITY, FOLD_RELATIONAL: they look at the type of the node. -/
def foldRel (op : BinaryOp) (ty : Ty) (a b : Word) : Word :=
  truth <|
    if ty.floating then host.rel op a b
    else
      match op with
      | .eq => a == b
      | .neq => a != b
      | op => relationalWord op ty.signed a b

namespace Tree

/-- The last `switch` of `simplify0`: both operands are pure constants. -/
def foldPure (op : BinaryOp) (ty : Ty) (left right : Tree) (a b : Word) : Option Tree :=
  match op with
  | .div =>
    if right.zero then some (binary op ty left right)
    else (foldAny host op ty a b).map fun c => con ty c .none
  | .mod =>
    if right.zero then some (binary op ty left right)
    else (foldI op ty a b).map fun c => con ty c .none
  | .mul => (foldAny host op ty a b).map fun c => con ty c .none
  | .shl | .shr | .and | .or | .xor => (foldI op ty a b).map fun c => con ty c .none
  | .eq | .neq | .gt | .gteq | .lt | .lteq => some (treeI .int (foldRel host op ty a b))
  | _ => some (binary op ty left right)

/-- The constants of `simplify0`. The symbols disappear when a constant is subtracted from another
    one that refers to the same symbol; a pure constant may be added to, or subtracted from, any. -/
def foldConstants (op : BinaryOp) (ty : Ty) : Tree → Tree → Option Tree
  | con tl a sl, con tr b sr =>
    if op = .sub ∧ sl = sr then (foldAny host op ty a b).map fun c => con ty c .none
    else if sr = .none ∧ (op = .add ∨ op = .sub) then
      (foldAny host op ty a b).map fun c => con ty c sl
    else if sr = .none ∧ sl = .none then foldPure host op ty (con tl a sl) (con tr b sr) a b
    else some (binary op ty (con tl a sl) (con tr b sr))
  | left, right => some (binary op ty left right)

/-- `simplify0` of a binary operator that `tree_normalize` has seen. -/
def simplifyBinary (op : BinaryOp) (ty : Ty) (left right : Tree) : Option Tree :=
  match op with
  | .land =>
    if left.nonzero then some (right.retype ty)
    else if left.zero then some (treeI .int 0)
    else some (binary op ty left right)
  | .lor =>
    if left.nonzero then some (treeI .int 1)
    else if left.zero then some (right.retype ty)
    else some (binary op ty left right)
  | op => foldConstants host op ty left right

/-- `simplify0`; nothing when the host stops. -/
def simplify0 : Tree → Option Tree
  | unary .rvalue ty child => some (child.retype ty)
  | unary .neg ty (con _ c .none) => some (con ty (foldNeg host ty c) .none)
  | unary .com ty (con _ c .none) => some (con ty (conNormalize ty.bits (~~~c)) .none)
  | cast ty (con src c .none) => some (con ty (conCast host ty src c) .none)
  | binary op ty left right =>
    if op.swap && left.pureCon then simplifyBinary host op ty right left
    else simplifyBinary host op ty left right
  | quest ty test left right =>
    if test.nonzero then some (left.retype ty)
    else if test.zero then some (right.retype ty)
    else some (quest ty test left right)
  | tree => some tree

/-- `tree_simplify`. -/
def simplify : Tree → Option Tree
  | call ty child args =>
    child.simplify.bind fun child => args.simplify.map fun args => call ty child args
  | cast ty child => child.simplify.bind fun child => simplify0 host (cast ty child)
  | fetch ty child => child.simplify.map fun child => fetch ty child
  | addrof ty child => child.simplify.map fun child => addrof ty child
  | unary op ty child => child.simplify.bind fun child => simplify0 host (unary op ty child)
  | binary op ty left right =>
    left.simplify.bind fun left => right.simplify.bind fun right =>
      simplify0 host (binary op ty left right)
  | quest ty test left right =>
    test.simplify.bind fun test => left.simplify.bind fun left => right.simplify.bind fun right =>
      simplify0 host (quest ty test left right)
  | blkasg ty n left right =>
    left.simplify.bind fun left => right.simplify.map fun right => blkasg ty n left right
  | forest first rest =>
    first.simplify.bind fun first => rest.simplify.map fun rest => forest first rest
  | tree => some tree

end Tree

end

end Ncc.Gen
