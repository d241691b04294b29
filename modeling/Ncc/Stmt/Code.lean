import Ncc.Stmt.Sem

/-! Blocks that do what statements do.

    `Stmt.Code` says that a statement is found in a function, from one point to another; where its
    jumps go is told by a `Places`, since their targets belong to statements around it. Blocks that
    hold the body of a function then simulate it. -/

namespace Ncc.Stmts

section
variable (f : Func)

/-- The insns `l` are found between two points of one block. -/
def At (p : Point) (l : List Insn) (q : Point) : Prop :=
  q = (p.1, p.2 + l.length) ∧ ∃ pre post, (f.block p.1).insns = pre ++ (l ++ post) ∧ pre.length = p.2

/-- The point is the end of a block with these successors. -/
def Closes (p : Point) (control : Option Operand) (succs : List Cessor) : Prop :=
  (f.block p.1).insns.length = p.2 ∧ (f.block p.1).control = control ∧
    (f.block p.1).successors = succs

/-- At the point, a block ends that goes on with block `c`. -/
def Jumps (p : Point) (c : BlockId) : Prop := Closes f p none [⟨.always, c, 0, 0⟩]

/-- At the point, a leaf is compared with zero, and a block ends that goes on with `t` or `e`. -/
def Branches (p : Point) (o : Option Operand) (t e : BlockId) : Prop :=
  ∃ q, At f p [cmpZero o] q ∧ Closes f q none [⟨.z, e, 0, 0⟩, ⟨.nz, t, 0, 0⟩]

/-- The block ends, and goes on where the value of a leaf sends it. -/
def Selects (env : Env) (p : Point) (o : Option Operand) (target : Word → BlockId) : Prop :=
  (f.block p.1).insns.length = p.2 ∧
    ∀ s, branch env (f.block p.1) s = some (target (readOpt env s.regs o))

/-- An expression is found between two points. -/
def Expr.Code : Expr → Point → Point → Prop
  | .leaf _, p, q => p = q
  | .unary emit child, p, q => ∃ m, child.Code p m ∧ At f m (emit child.result).1 q
  | .binary emit left right, p, q =>
    ∃ m n, left.Code p m ∧ right.Code m n ∧ At f n (emit left.result right.result).1 q
  | .log lor temp left right, p, q => ∃ m n rb tb eb join tq eq,
      left.Code p m ∧ Branches f m left.result (if lor then tb else rb) (if lor then rb else eb) ∧
      right.Code (rb, 0) n ∧ Branches f n right.result tb eb ∧
      At f (tb, 0) [moveI temp 1] tq ∧ Jumps f tq join ∧
      At f (eb, 0) [moveI temp 0] eq ∧ Jumps f eq join ∧ q = (join, 0)
  | .quest temp left yes no, p, q => ∃ m tb eb y yq n nq join,
      left.Code p m ∧ Branches f m left.result tb eb ∧
      yes.Code (tb, 0) y ∧ At f y (moveTemp temp yes.result) yq ∧ Jumps f yq join ∧
      no.Code (eb, 0) n ∧ At f n (moveTemp temp no.result) nq ∧ Jumps f nq join ∧ q = (join, 0)
  | .comma left right, p, q => ∃ m, left.Code p m ∧ right.Code m q

/-- A condition is found, that goes on with block `t` or block `e`. -/
def Condition (c : Expr) (p : Point) (t e : BlockId) : Prop :=
  ∃ m, c.Code f p m ∧ Branches f m c.result t e

/-- An expression that may be absent. -/
def CodeOpt (c : Option Expr) (p q : Point) : Prop :=
  match c with
  | some c => c.Code f p q
  | none => p = q

end

/-- Where the jumps out of a statement go, and the cases in it belong to; 0 is for no block. -/
structure Places where
  breakBlock : BlockId := 0
  continueBlock : BlockId := 0
  defaultBlock : BlockId := 0
  ts : TypeBits := .long
  target : Word → BlockId := fun _ => 0

/-- The block that is at a mark. -/
def Places.mark (label : String → BlockId) (c : Places) : Mark → BlockId
  | .label id => label id
  | .case i => c.target (conNormalize c.ts i)
  | .default => c.defaultBlock

/-- The constants of the cases of a switch with the given body. -/
def Stmt.cases : Stmt → List Word
  | .seq s t | .ifElse _ s t => s.cases ++ t.cases
  | .labelled (.case i) s => i :: s.cases
  | .labelled _ s | .while _ s | .doWhile s _ | .for _ _ _ s => s.cases
  | _ => []

/-- Does the body of a switch have a default? -/
def Stmt.hasDefault : Stmt → Bool
  | .seq s t | .ifElse _ s t => s.hasDefault || t.hasDefault
  | .labelled .default _ => true
  | .labelled _ s | .while _ s | .doWhile s _ | .for _ _ _ s => s.hasDefault
  | _ => false

section
variable (env : Env) (f : Func) (label : String → BlockId)

/-- A statement is found between two points. -/
def Stmt.Code : Stmt → Places → Point → Point → Prop
  | .empty, _, p, q => p = q
  | .seq s t, c, p, q => ∃ m, s.Code c p m ∧ t.Code c m q
  | .expr e, _, p, q => e.Code f p q
  | .asm insn, _, p, q => At f p [insn] q
  | .labelled m s, c, p, q => Jumps f p (c.mark label m) ∧ s.Code c (c.mark label m, 0) q
  | .goto id, _, p, _ => label id ≠ 0 ∧ Jumps f p (label id)
  | .break, c, p, _ => c.breakBlock ≠ 0 ∧ Jumps f p c.breakBlock
  | .continue, c, p, _ => c.continueBlock ≠ 0 ∧ Jumps f p c.continueBlock
  | .return e, _, p, _ => ∃ m n, CodeOpt f e p m ∧
      At f m [insnNew .ret none (e.bind Expr.result)] n ∧ Jumps f n f.exit
  | .ifElse e s t, c, p, q => ∃ tb eb m n join, Condition f e p tb eb ∧
      s.Code c (tb, 0) m ∧ Jumps f m join ∧ t.Code c (eb, 0) n ∧ Jumps f n join ∧ q = (join, 0)
  | .while e s, c, p, q => ∃ test body brk m, Jumps f p test ∧ Condition f e (test, 0) body brk ∧
      s.Code { c with breakBlock := brk, continueBlock := test } (body, 0) m ∧
      Jumps f m test ∧ q = (brk, 0)
  | .doWhile s e, c, p, q => ∃ body cont brk m, Jumps f p body ∧
      s.Code { c with breakBlock := brk, continueBlock := cont } (body, 0) m ∧
      Jumps f m cont ∧ Condition f e (cont, 0) body brk ∧ q = (brk, 0)
  | .for initial test step s, c, p, q => ∃ tst body cont brk i m n, CodeOpt f initial p i ∧
      Jumps f i tst ∧
      (match test with
        | some e => Condition f e (tst, 0) body brk
        | none => Jumps f (tst, 0) body) ∧
      s.Code { c with breakBlock := brk, continueBlock := cont } (body, 0) m ∧ Jumps f m cont ∧
      CodeOpt f step (cont, 0) n ∧ Jumps f n tst ∧ q = (brk, 0)
  | .switch e s, c, p, q => ∃ m body brk dflt target n, e.Code f p m ∧
      Selects f env m e.result target ∧
      (∀ u, u ∉ s.cases.map (conNormalize (tsOpt e.result)) → target u = dflt) ∧
      s.Code ⟨brk, c.continueBlock, dflt, tsOpt e.result, target⟩ (body, 0) n ∧ Jumps f n brk ∧
      (s.hasDefault = false → Jumps f (dflt, 0) brk) ∧ q = (brk, 0)

/-- What is left to do is found at a point. -/
inductive Cont.Code : Cont → Places → Point → Prop
  | stop {c : Places} {q : Point} (exit : Jumps f q f.exit) (break_ : c.breakBlock = 0)
      (continue_ : c.continueBlock = 0) : Code .stop c q
  | jump {k : Cont} {c : Places} {q : Point} {b : BlockId} (to_ : Jumps f q b)
      (rest : Code k c (b, 0)) : Code k c q
  | seq {t : Stmt} {k : Cont} {c : Places} {q r : Point} (code : t.Code env f label c q r)
      (typed : t.Typed) (rest : Code k c r) : Code (.seq t k) c q
  | while {e : Expr} {s : Stmt} {k : Cont} {c c' : Places} {q m : Point} {body : BlockId}
      (cond : Condition f e (c.continueBlock, 0) body c.breakBlock)
      (code : s.Code env f label { c' with
        breakBlock := c.breakBlock, continueBlock := c.continueBlock } (body, 0) m)
      (next : Jumps f m c.continueBlock) (typed : e.Test ∧ s.Typed)
      (again : Jumps f q c.continueBlock) (rest : Code k c' (c.breakBlock, 0)) :
      Code (.while e s k) c q
  | doWhile {e : Expr} {s : Stmt} {k : Cont} {c c' : Places} {q m : Point} {body : BlockId}
      (code : s.Code env f label c (body, 0) m) (next : Jumps f m c.continueBlock)
      (cond : Condition f e (c.continueBlock, 0) body c.breakBlock) (typed : e.Test ∧ s.Typed)
      (again : Jumps f q c.continueBlock) (rest : Code k c' (c.breakBlock, 0)) :
      Code (.doWhile s e k) c q
  | for {test step : Option Expr} {s : Stmt} {k : Cont} {c c' : Places} {q n : Point}
      (stepCode : CodeOpt f step (c.continueBlock, 0) n)
      (code : (Stmt.for none test step s).Code env f label c' n (c.breakBlock, 0))
      (typed : (Stmt.for none test step s).Typed) (again : Jumps f q c.continueBlock)
      (rest : Code k c' (c.breakBlock, 0)) : Code (.for test step s k) c q
  | switch {k : Cont} {c c' : Places} {q : Point} (leave : Jumps f q c.breakBlock)
      (same : c.continueBlock = c'.continueBlock) (rest : Code k c' (c.breakBlock, 0)) :
      Code (.switch k) c q

end

end Ncc.Stmts
