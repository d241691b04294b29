import Ncc.Stmt.Parse
import Ncc.Lib.Simulation

/-! What C statements do, and what blocks do.

    A statement is executed in front of what is left to do after it. What an execution shows are the
    insns that evaluate the expressions. Labels are looked for from the top of the function, cases and
    defaults in the body of the switch, but not in a switch that is nested in it. -/

namespace Ncc.Stmts

/-- What is left to do after a statement: the statements that enclose it are resumed. -/
inductive Cont where
  | stop
  | seq (s : Stmt) (k : Cont)
  | while (e : Expr) (s : Stmt) (k : Cont)
  | doWhile (s : Stmt) (e : Expr) (k : Cont)
  | for (test step : Option Expr) (s : Stmt) (k : Cont)
  | switch (k : Cont)

/-- What control is looking for after a `goto` or a `switch`. -/
inductive Sought where
  | label (id : String)
  | case (ts : TypeBits) (u : Word)
  | default

/-- Is it that mark? The constant of a case is converted to the type of the control expression. -/
def Sought.is : Sought → Mark → Bool
  | .label id, .label id' => id == id'
  | .case ts u, .case i => conNormalize ts i == u
  | .default, .default => true
  | _, _ => false

/-- A switch keeps its cases and its default to itself. -/
def Sought.enters : Sought → Bool
  | .label _ => true
  | _ => false

/-- The statement behind a mark, and what is left to do after it. -/
def find (x : Sought) : Stmt → Cont → Option (Stmt × Cont)
  | .seq s t, k => (find x s (.seq t k)).or (find x t k)
  | .labelled m s, k => if x.is m then some (s, k) else find x s k
  | .ifElse _ s t, k => (find x s k).or (find x t k)
  | .while e s, k => find x s (.while e s k)
  | .doWhile s e, k => find x s (.doWhile s e k)
  | .for _ test step s, k => find x s (.for test step s k)
  | .switch _ s, k => if x.enters then find x s (.switch k) else none
  | _, _ => none

/-- What is left to do after the innermost loop or switch. -/
def Cont.afterBreak : Cont → Option Cont
  | .stop => none
  | .seq _ k => k.afterBreak
  | .while _ _ k | .doWhile _ _ k | .for _ _ _ k | .switch k => some k

/-- What is left to do after the body of the innermost loop. -/
def Cont.afterContinue : Cont → Option Cont
  | .stop => none
  | .seq _ k | .switch k => k.afterContinue
  | .while e s k => some (.while e s k)
  | .doWhile s e k => some (.doWhile s e k)
  | .for test step s k => some (.for test step s k)

/-! ### Expressions -/

section
variable (env : Env)

/-- Does a leaf compare unequal to zero? -/
def truth (s : State) (o : Option Operand) : Bool := readOpt env s.regs o != 0

/-- The insns that are executed to evaluate an expression: operands in order, but of `&&`, `||` and
    `?:` only those that are called for. -/
def Expr.path : Expr → State → List Insn
  | .leaf _, _ => []
  | .unary emit child, s => child.path s ++ (emit child.result).1
  | .binary emit left right, s =>
    left.path s ++ (right.path (execs env (left.path s) s) ++ (emit left.result right.result).1)
  | .log lor temp left right, s =>
    let l := left.path s ++ [cmpZero left.result]
    let s := execs env l s
    if truth env s left.result = lor then l ++ [moveI temp (if lor then 1 else 0)]
    else
      let r := right.path s ++ [cmpZero right.result]
      l ++ (r ++ [moveI temp (if truth env (execs env r s) right.result then 1 else 0)])
  | .quest temp left yes no, s =>
    let l := left.path s ++ [cmpZero left.result]
    let s := execs env l s
    if truth env s left.result then l ++ (yes.path s ++ moveTemp temp yes.result)
    else l ++ (no.path s ++ moveTemp temp no.result)
  | .comma left right, s => left.path s ++ right.path (execs env (left.path s) s)

/-- The insns that evaluate a condition. -/
def Expr.test (e : Expr) (s : State) : List Insn := e.path env s ++ [cmpZero e.result]

/-- Does a condition hold? -/
def Expr.holds (e : Expr) (s : State) : Bool := truth env (execs env (e.test env s) s) e.result

/-- An expression that may be absent. -/
def pathOpt : Option Expr → State → List Insn
  | some e, s => e.path env s
  | none, _ => []

/-! ### Statements -/

/-- The statement to execute, what is left to do after it, and the state. -/
structure Config where
  stmt : Stmt
  cont : Cont
  state : State

/-- Execute the insns `l`, and go on. -/
def go (s : State) (l : List Insn) (stmt : Stmt) (cont : Cont) : List Insn × Config :=
  (l, ⟨stmt, cont, execs env l s⟩)

/-- Where `switch` goes for the value `u`. -/
def select (ts : TypeBits) (u : Word) (body : Stmt) (k : Cont) : Stmt × Cont :=
  ((find (.case ts u) body (.switch k)).or (find .default body (.switch k))).getD (.empty, k)

/-- The step after the end of a statement. -/
def resume (s : State) : Cont → Option (List Insn × Config)
  | .stop => none
  | .seq t k => go env s [] t k
  | .while e b k => go env s [] (.while e b) k
  | .doWhile b e k =>
    if e.holds env s then go env s (e.test env s) b (.doWhile b e k)
    else go env s (e.test env s) .empty k
  | .for test step b k => go env s (pathOpt env step s) (.for none test step b) k
  | .switch k => go env s [] .empty k

/-- A step of a function with the given body. -/
def step (body : Stmt) : System Config Insn := fun ⟨stmt, k, s⟩ =>
  match stmt with
  | .empty => resume env s k
  | .seq b t => go env s [] b (.seq t k)
  | .expr e => go env s (e.path env s) .empty k
  | .asm insn => go env s [insn] .empty k
  | .labelled _ b => go env s [] b k
  | .goto id => (find (.label id) body .stop).map fun x => go env s [] x.1 x.2
  | .break => k.afterBreak.map (go env s [] .empty)
  | .continue => k.afterContinue.map (go env s [] .empty)
  | .return e =>
    go env s (pathOpt env e s ++ [insnNew .ret none (e.bind Expr.result)]) .empty .stop
  | .ifElse e b t => go env s (e.test env s) (if e.holds env s then b else t) k
  | .while e b =>
    if e.holds env s then go env s (e.test env s) b (.while e b k)
    else go env s (e.test env s) .empty k
  | .doWhile b e => go env s [] b (.doWhile b e k)
  | .for (some e) test step b => go env s (e.path env s) (.for none test step b) k
  | .for none (some e) step b =>
    if e.holds env s then go env s (e.test env s) b (.for (some e) step b k)
    else go env s (e.test env s) .empty k
  | .for none none step b => go env s [] b (.for none step b k)
  | .switch e b =>
    let s' := execs env (e.path env s) s
    let x := select (tsOpt e.result) (readOpt env s'.regs e.result) b k
    go env s (e.path env s) x.1 x.2

end

/-! ### Well-typed trees -/

/-- The conditions in an expression are integers, as `gen_branch` expects. -/
def Expr.Typed : Expr → Prop
  | .leaf _ => True
  | .unary _ child => child.Typed
  | .binary _ left right => left.Typed ∧ right.Typed
  | .log _ _ left right => left.Typed ∧ right.Typed ∧
      (tsOpt left.result).floating = false ∧ (tsOpt right.result).floating = false
  | .quest _ left yes no => left.Typed ∧ yes.Typed ∧ no.Typed ∧ (tsOpt left.result).floating = false
  | .comma left right => left.Typed ∧ right.Typed

/-- A condition. -/
def Expr.Test (e : Expr) : Prop := e.Typed ∧ (tsOpt e.result).floating = false

/-- The conditions in a statement are integers. -/
def Stmt.Typed : Stmt → Prop
  | .empty | .asm _ | .goto _ | .break | .continue => True
  | .seq s t => s.Typed ∧ t.Typed
  | .expr e => e.Typed
  | .labelled _ s => s.Typed
  | .return e => ∀ x ∈ e, x.Typed
  | .ifElse e s t => e.Test ∧ s.Typed ∧ t.Typed
  | .while e s | .doWhile s e => e.Test ∧ s.Typed
  | .for initial test step s =>
    (∀ x ∈ initial, x.Typed) ∧ (∀ x ∈ test, x.Test) ∧ (∀ x ∈ step, x.Typed) ∧ s.Typed
  | .switch e s => e.Typed ∧ s.Typed

/-! ### Blocks -/

/-- A position in a function: a block, and the insns of it that have been executed. -/
abbrev Point := BlockId × Nat

/-- A step of the blocks: the next insn, or, at the end of a block, the way to the next one. -/
def blockStep (env : Env) (f : Func) : System (Point × State) Insn := fun ((b, n), s) =>
  match (f.block b).insns[n]? with
  | some insn => some ([insn], ((b, n + 1), exec env insn s))
  | none => (branch env (f.block b) s).map fun c => ([], ((c, 0), s))

end Ncc.Stmts
