import Ncc.Gen.Tree

/-! What an expression tree does (gen.c).

    `gen` emits the insns of a tree in the order in which they run. A tree yields a word that fits
    its type; a tree of a struct type yields the address of the struct. Everything that can be seen
    of an evaluation is recorded: the calls, what is assigned, and the volatile fetches. Variadic
    functions receive their arguments as the others do. -/

namespace Ncc.Gen

/-- The machine and the rest of the program, as the trees of a function see it: the variables that
    are kept in memory, and the temporary that receives the struct a call returns. -/
structure Env extends Ncc.Env where
  addr : PseudoReg → Option Word
  temp : Word
  deriving Inhabited

/-- A side effect. -/
inductive Event where
  | fetch (ts : TypeBits) (a : Word)
  | store (ts : TypeBits) (a w : Word)
  | set (v : PseudoReg) (w : Word)
  | copy (dst src : Word) (size : Nat)
  | call (f : Word) (args : List Arg)
  deriving DecidableEq

/-- The variables that are kept in registers, the memory, and what has been done so far. -/
structure State where
  vars : PseudoReg → Word
  mem : Mem
  trace : List Event

/-- Copy `n` bytes. -/
def copyBytes (m : Mem) (dst src : Word) (n : Nat) : Mem := fun x =>
  if (x - dst).toNat < n then m (src + (x - dst)) else m x

section
variable (env : Env)

/-- An arithmetic insn on words. -/
def arithWord (op : InsnOp) (ts : TypeBits) (a b : Word) : Word :=
  fit ts (exprValue env.toEnv op ts ts a b fun _ => 0)

/-- The value of E_SYM. -/
def State.sym (s : State) (ty : Ty) (v : PseudoReg) : Word :=
  match ty, env.addr v with
  | .strun _, a => a.getD 0
  | ty, some a => fit ty.bits (loadWord s.mem a ty.bits.sizeof)
  | ty, none => fit ty.bits (s.vars v)

/-- Assign to E_SYM. -/
def State.assign (s : State) (ty : Ty) (v : PseudoReg) (w : Word) : State :=
  match env.addr v with
  | some a =>
    { s with
      mem := storeWord s.mem a ty.bits.sizeof w
      trace := s.trace ++ [.store ty.bits a w] }
  | none =>
    { s with vars := Function.update s.vars v (fit ty.bits w), trace := s.trace ++ [.set v w] }

/-- `gen_load`: I_LOAD through a pointer. -/
def genLoad (ty ptr : Ty) (a : Word) (s : State) : Word × State :=
  (fit ty.bits (loadWord s.mem a ty.bits.sizeof),
    if ptr.volatilePtr then { s with trace := s.trace ++ [.fetch ty.bits a] } else s)

/-- `gen_store`: I_STORE through a pointer. -/
def genStore (ts : TypeBits) (a w : Word) (s : State) : State :=
  { s with mem := storeWord s.mem a ts.sizeof w, trace := s.trace ++ [.store ts a w] }

/-- `extract`: the field is shifted to the left end of the host word and back. -/
def extract (ts : TypeBits) (f : Field) (w : Word) : Word :=
  let hostBits := 8 * ts.sizeof
  arithWord env .shr ts (arithWord env .shl ts w (BitVec.ofNat 64 (hostBits - (f.size + f.shift))))
    (BitVec.ofNat 64 (hostBits - f.size))

/-- `field_mask`. -/
def fieldMask (f : Field) : Word := ((-1 : Word) >>> (64 - f.size)) <<< f.shift

/-- `insert`, on the host word `old`. -/
def insert (ts : TypeBits) (f : Field) (old value : Word) : Word :=
  let hostBits := 8 * ts.sizeof
  let maskMask := (-1 : Word) >>> (64 - hostBits)
  let shifted := arithWord env .shl ts value (BitVec.ofNat 64 f.shift)
  let shifted := arithWord env .and ts shifted (conNormalize ts (fieldMask f))
  let new := arithWord env .and ts old (conNormalize ts (~~~fieldMask f &&& maskMask))
  arithWord env .or ts new shifted

/-- The code that the relational operator tests. -/
def relCc (op : BinaryOp) (signed : Bool) : ConditionCode :=
  match op with
  | .eq => .z
  | .neq => .nz
  | .gt => if signed then .g else .a
  | .lt => if signed then .l else .b
  | .gteq => if signed then .ge else .ae
  | _ => if signed then .le else .be

/-- `gen_rel`: I_CMP at the type of the left operand. -/
def genRel (op : BinaryOp) (ty : Ty) (a b : Word) : Word :=
  truth (decide (relCc op ty.signed ∈ cmpCodes env.toEnv ty.bits a b))

/-- `gen_branch`: is the word not zero? -/
def genBranch (ty : Ty) (a : Word) : Bool :=
  decide (ConditionCode.nz ∈ cmpCodes env.toEnv ty.bits a 0)

/-- What the left side of an assignment designates, once it has been evaluated. -/
inductive Place where
  | sym (ty : Ty) (v : PseudoReg)
  | target (ptr : Ty) (a : Word)

/-- The value in a place, of type `ty`: `gen_fetch`, and the E_SYM of `gen_compound`. -/
def Place.read (ty : Ty) (s : State) : Place → Word × State
  | sym ty v => (s.sym env ty v, s)
  | target ptr a =>
    let (w, s) := genLoad ty ptr a s
    (match ptr.fieldPtr with
      | some f => extract env ty.bits f w
      | none => w, s)

/-- `gen_asg`, when both sides have been evaluated and the right one has type `ty`: the new value of
    the left side. -/
def Place.write (ty : Ty) (s : State) (w : Word) : Place → Word × State
  | sym tl v => (w, s.assign env tl v w)
  | target ptr a =>
    match ptr.fieldPtr with
    | some f =>
      let (old, s) := genLoad ty ptr a s
      let new := insert env ty.bits f old w
      (extract env ty.bits f new, genStore ty.bits a new s)
    | none => (w, genStore ty.bits a w s)

/-- `gen_compound` on the left side of type `ty`: the result is the value after the operation, or
    before it for E_POST. -/
def genCompound (op : BinaryOp) (p : Place) (ty : Ty) (b : Word) (s : State) : Word × State :=
  let (old, s) := p.read env ty s
  let (w, s) := p.write env ty s (arithWord env (op.insn.getD .add) ty.bits old b)
  (if op = .post then old else w, s)

/-- The operators that assign. -/
def compound : BinaryOp → Bool
  | .mulasg | .divasg | .modasg | .addasg | .subasg | .shlasg | .shrasg | .andasg | .orasg
  | .xorasg | .post => true
  | _ => false

namespace Tree

mutual

/-- The word of a tree and the state that its evaluation leaves (`gen`). -/
def eval : Tree → State → Word × State
  | none, s => (0, s)
  | con ty c x, s => ((operandI ty.bits c x).read env.toEnv s.vars, s)
  | sym ty v, s => (s.sym env ty v, s)
  | call ty child args, s =>
    let (f, s) := child.eval s
    let (l, s) := args.evalArgs s
    let hidden : List Arg :=
      match ty with
      | .strun _ => [⟨.arg, .ulong, env.temp, 0⟩]
      | _ => []
    let r := env.call f (hidden ++ l) s.mem
    (match ty with
      | .strun _ => env.temp
      | ty => fit ty.bits r.value,
      { s with mem := r.mem, trace := s.trace ++ [.call f (hidden ++ l)] })
  | cast ty child, s =>
    let (a, s) := child.eval s
    (match ty with
      | .void => 0
      | ty => fit ty.bits (exprValue env.toEnv .cast ty.bits child.ty.bits a 0 s.mem), s)
  | fetch ty child, s =>
    let (a, s) := child.eval s
    match ty with
    | .strun _ => (a, s)
    | ty => (Place.target child.ty a).read env ty s
  | addrof _ (sym _ v), s => ((env.addr v).getD 0, s)
  | addrof _ child, s => child.eval s
  | unary op ty child, s =>
    let (a, s) := child.eval s
    (match op with
      | .neg => arithWord env .neg ty.bits a 0
      | .com => arithWord env .com ty.bits a 0
      | .rvalue => a, s)
  | binary op ty left right, s =>
    match op with
    | .comma =>
      let (_, s) := left.eval s
      right.eval s
    | .land =>
      let (a, s) := left.eval s
      if genBranch env left.ty a then
        let (b, s) := right.eval s
        (truth (genBranch env right.ty b), s)
      else (0, s)
    | .lor =>
      let (a, s) := left.eval s
      if genBranch env left.ty a then (1, s)
      else
        let (b, s) := right.eval s
        (truth (genBranch env right.ty b), s)
    | .asg =>
      let (b, s) := right.eval s
      let (p, s) := left.place s
      p.write env right.ty s b
    | .eq | .neq | .gt | .lt | .gteq | .lteq =>
      let (a, s) := left.eval s
      let (b, s) := right.eval s
      (genRel env op left.ty a b, s)
    | op =>
      if compound op then
        let (b, s) := right.eval s
        let (p, s) := left.place s
        genCompound env op p left.ty b s
      else
        let (a, s) := left.eval s
        let (b, s) := right.eval s
        (arithWord env (op.insn.getD .add) ty.bits a b, s)
  | quest ty test left right, s =>
    let (c, s) := test.eval s
    let (w, s) := if genBranch env test.ty c then left.eval s else right.eval s
    (fit ty.bits w, s)
  | blkasg _ n left right, s =>
    let (dst, s) := left.eval s
    let (src, s) := right.eval s
    (dst, { s with mem := copyBytes s.mem dst src n, trace := s.trace ++ [.copy dst src n] })
  | forest _ _, s => (0, s)

/-- The left side of an assignment. -/
def place : Tree → State → Place × State
  | sym ty v, s => (.sym ty v, s)
  | fetch _ child, s =>
    let (a, s) := child.eval s
    (.target child.ty a, s)
  | _, s => (.target .void 0, s)

/-- The arguments of a call, from the last one to the first. -/
def evalArgs : Tree → State → List Arg × State
  | forest first rest, s =>
    let (l, s) := rest.evalArgs s
    let (a, s) := first.eval s
    (match first.ty with
      | .strun n => ⟨.blkarg, .ulong, a, BitVec.ofNat 64 n⟩ :: l
      | ty => ⟨.arg, ty.bits, a, 0⟩ :: l, s)
  | _, s => ([], s)

end

end Tree

variable {env}

/-- A pure constant of a discrete type, as an operand. -/
theorem read_con {ts : TypeBits} (h : ts.integral = true) (c : Word) (regs : PseudoReg → Word) :
    (operandI ts c none).read env.toEnv regs = conNormalize ts c := by
  have hne : ts ≠ .float ∧ ts ≠ .double := by
    constructor <;> rintro rfl <;> exact absurd h (by decide)
  unfold Operand.read operandI
  dsimp only
  split
  · exact absurd rfl hne.1
  · exact absurd rfl hne.2
  · rw [symWord, zero_add]

/-- The operands of an integral type are compared at its width. -/
theorem genRel_integral {op : BinaryOp} {ty : Ty} {a b : Word} (hd : ty.bits.integral = true) :
    genRel env op ty a b =
    truth (cmpHolds (a.setWidth (8 * ty.bits.sizeof)) (b.setWidth (8 * ty.bits.sizeof))
      (relCc op ty.signed)) := by
  have hf : ty.bits.floating = false := (Bool.not_eq_true' _).mp hd
  unfold genRel cmpCodes
  simp [hf]

/-! ### Operators -/

variable {op : BinaryOp} {ty : Ty} {left right : Tree} {s : State}

theorem eval_and : (Tree.binary .and ty left right).eval env s =
    (arithWord env .and ty.bits (left.eval env s).1 (right.eval env (left.eval env s).2).1,
      (right.eval env (left.eval env s).2).2) := by
  simp [Tree.eval, compound, BinaryOp.insn]

theorem eval_asg : (Tree.binary .asg ty left right).eval env s =
    (left.place env (right.eval env s).2).1.write env right.ty
      (left.place env (right.eval env s).2).2 (right.eval env s).1 := by
  rw [Tree.eval]

theorem eval_compound (hop : compound op = true) : (Tree.binary op ty left right).eval env s =
    genCompound env op (left.place env (right.eval env s).2).1 left.ty (right.eval env s).1
      (left.place env (right.eval env s).2).2 := by
  cases op <;> simp_all [Tree.eval, compound]

end

end Ncc.Gen
