import Ncc.SwitchCases
import Ncc.Run

/-! Statements as the parser lowers them (stmt.c), and the expressions that branch (gen.c).

    The parser has no statement trees: every statement function appends to the blocks while it reads,
    and knows where it is from globals, which are saved and restored around nested statements. `Stmt`
    is what it recognizes, with the expressions as they are given to `gen`. Declarations are left out,
    but for the assignments that initialize variables, and so are statement expressions. -/

namespace Ncc.Stmts

/-- An expression tree as `gen` takes it. What an operator emits once its operands are reduced to
    leaves is its own affair; the operands are given in the order in which they are generated. -/
inductive Expr where
  | leaf (o : Option Operand)
  | unary (emit : Option Operand → List Insn × Option Operand) (child : Expr)
  | binary (emit : Option Operand → Option Operand → List Insn × Option Operand)
      (left right : Expr)
  | log (lor : Bool) (temp : Operand) (left right : Expr)
  | quest (temp : Option Operand) (left yes no : Expr)
  | comma (left right : Expr)

/-- What a statement can be labelled with. -/
inductive Mark where
  | label (id : String)
  | case (i : Word)
  | default
  deriving DecidableEq

/-- A statement. No `else` is one with an empty statement, and a compound statement is a sequence. -/
inductive Stmt where
  | empty
  | seq (s t : Stmt)
  | expr (e : Expr)
  | asm (insn : Insn)
  | labelled (m : Mark) (s : Stmt)
  | goto (id : String)
  | break
  | continue
  | return (e : Option Expr)
  | ifElse (e : Expr) (s t : Stmt)
  | while (e : Expr) (s : Stmt)
  | doWhile (s : Stmt) (e : Expr)
  | for (initial test step : Option Expr) (s : Stmt)
  | switch (e : Expr) (s : Stmt)

/-- The leaf that `gen` reduces a tree to. -/
def Expr.result : Expr → Option Operand
  | .leaf o => o
  | .unary emit child => (emit child.result).2
  | .binary emit left right => (emit left.result right.result).2
  | .log _ temp _ _ => some temp
  | .quest temp _ _ _ => temp
  | .comma _ right => right.result

/-- An S_LABEL symbol. -/
structure Label where
  id : String
  to_ : BlockId
  defined : Bool := false
  deriving DecidableEq

/-- The globals. A block is never 0, which is for no block. -/
structure Parser where
  func : Func
  current : BlockId
  switchBlock : BlockId := 0
  breakBlock : BlockId := 0
  continueBlock : BlockId := 0
  defaultBlock : BlockId := 0
  sawDefault : Bool := false
  labels : List Label := []

namespace Parser

/-- `block_new`. -/
def new (p : Parser) : BlockId × Parser := ((blockNew p.func).1, { p with func := (blockNew p.func).2 })

/-- `block_add_successor`. -/
def add (p : Parser) (b : BlockId) (cc : ConditionCode) (succ : BlockId) : Parser :=
  { p with func := blockAddSuccessor p.func b cc succ }

/-- BLOCK_APPEND_INSN. -/
def append (p : Parser) (b : BlockId) (insns : List Insn) : Parser :=
  { p with func := insns.foldl (fun f insn => blockAppendInsn f b insn) p.func }

/-- EMIT. -/
def emit (p : Parser) (insns : List Insn) : Parser := p.append p.current insns

end Parser

/-! ### gen.c -/

/-- Compare a leaf with zero. -/
def cmpZero (o : Option Operand) : Insn := insnNew .cmp none o (some (operandI .int 0 none))

/-- `gen_branch`. -/
def genBranch (p : Parser) (o : Option Operand) (true_ false_ : BlockId) : Parser :=
  let p := p.emit [cmpZero o]
  let p := p.add p.current .z false_
  p.add p.current .nz true_

/-- Give a temporary the value `n`. -/
def moveI (temp : Operand) (n : Word) : Insn := insnNew .move (some temp) (some (operandI .int n none))

/-- The insn that gives the result of `?:` its value, if it has one. -/
def moveTemp (temp : Option Operand) (o : Option Operand) : List Insn :=
  match temp with
  | some temp => [insnNew .move (some temp) o]
  | none => []

/-- `gen`: reduce an expression to a leaf. -/
def gen : Expr → Parser → Parser × Option Operand
  | .leaf o, p => (p, o)
  | .unary emit child, p =>
    let c := gen child p
    (c.1.emit (emit c.2).1, (emit c.2).2)
  | .binary emit left right, p =>
    let l := gen left p
    let r := gen right l.1
    (r.1.emit (emit l.2 r.2).1, (emit l.2 r.2).2)
  | .log lor temp left right, p =>
    let right_ := p.new
    let true_ := right_.2.new
    let false_ := true_.2.new
    let join := false_.2.new
    let p := join.2
    let p := p.append true_.1 [moveI temp 1]
    let p := p.append false_.1 [moveI temp 0]
    let p := p.add true_.1 .always join.1
    let p := p.add false_.1 .always join.1
    let l := gen left p
    let p :=
      if lor then genBranch l.1 l.2 true_.1 right_.1
      else genBranch l.1 l.2 right_.1 false_.1
    let p := { p with current := right_.1 }
    let r := gen right p
    let p := genBranch r.1 r.2 true_.1 false_.1
    ({ p with current := join.1 }, some temp)
  | .quest temp left yes no, p =>
    let true_ := p.new
    let false_ := true_.2.new
    let join := false_.2.new
    let p := join.2
    let l := gen left p
    let p := genBranch l.1 l.2 true_.1 false_.1
    let p := { p with current := true_.1 }
    let y := gen yes p
    let p := y.1.emit (moveTemp temp y.2)
    let p := p.add p.current .always join.1
    let p := { p with current := false_.1 }
    let n := gen no p
    let p := n.1.emit (moveTemp temp n.2)
    let p := p.add p.current .always join.1
    ({ p with current := join.1 }, temp)
  | .comma left right, p => gen right (gen left p).1

/-- An expression that may be absent. -/
def genOpt (e : Option Expr) (p : Parser) : Parser :=
  match e with
  | some e => (gen e p).1
  | none => p

/-! ### Labels (symbol.c) -/

/-- `label_lookup`. -/
def labelLookup (id : String) (p : Parser) : Label × Parser :=
  match p.labels.find? fun x => x.id == id with
  | some x => (x, p)
  | none =>
    let new := p.new
    let x : Label := { id := id, to_ := new.1 }
    (x, { new.2 with labels := new.2.labels ++ [x] })

/-- `label_goto`. -/
def labelGoto (id : String) (p : Parser) : BlockId × Parser :=
  ((labelLookup id p).1.to_, (labelLookup id p).2)

/-- `label_define`. -/
def labelDefine (id : String) (p : Parser) : Except String (BlockId × Parser) :=
  let r := labelLookup id p
  if r.1.defined then .error s!"label '{id}' already defined"
  else .ok (r.1.to_, { r.2 with
    labels := r.2.labels.map fun x => if x.id = id then { x with defined := true } else x })

/-- `symbol_check_labels`. -/
def symbolCheckLabels (p : Parser) : Except String Unit :=
  match p.labels.find? fun x => !x.defined with
  | some x => .error s!"label '{x.id}' never defined"
  | none => .ok ()

/-! ### stmt.c -/

/-- `condition`. -/
def condition (e : Expr) (true_ false_ : BlockId) (p : Parser) : Parser :=
  let r := gen e p
  genBranch r.1 r.2 true_ false_

/-- `do_statement`. -/
def doStatement (statement : Parser → Except String Parser) (e : Expr) (p : Parser) :
    Except String Parser := do
  let savedContinue := p.continueBlock
  let savedBreak := p.breakBlock
  let body := p.new
  let break_ := body.2.new
  let continue_ := break_.2.new
  let p := { continue_.2 with breakBlock := break_.1, continueBlock := continue_.1 }
  let p := { p.add p.current .always body.1 with current := body.1 }
  let p ← statement p
  let p := { p.add p.current .always p.continueBlock with current := p.continueBlock }
  let p := condition e body.1 p.breakBlock p
  pure { p with
    current := p.breakBlock
    continueBlock := savedContinue
    breakBlock := savedBreak }

/-- `for_statement`. -/
def forStatement (initial test step : Option Expr) (statement : Parser → Except String Parser)
    (p : Parser) : Except String Parser := do
  let savedContinue := p.continueBlock
  let savedBreak := p.breakBlock
  let test_ := p.new
  let body := test_.2.new
  let continue_ := body.2.new
  let break_ := continue_.2.new
  let p := { break_.2 with continueBlock := continue_.1, breakBlock := break_.1 }
  let p := genOpt initial p
  let p := { p.add p.current .always test_.1 with current := test_.1 }
  let p :=
    match test with
    | some e => condition e body.1 p.breakBlock p
    | none => p.add p.current .always body.1
  let p ← statement { p with current := body.1 }
  let p := { p.add p.current .always p.continueBlock with current := p.continueBlock }
  let p := genOpt step p
  let p := p.add p.current .always test_.1
  pure { p with
    current := p.breakBlock
    continueBlock := savedContinue
    breakBlock := savedBreak }

/-- `if_statement`. -/
def ifStatement (e : Expr) (statement else_ : Parser → Except String Parser) (p : Parser) :
    Except String Parser := do
  let trueBlock := p.new
  let elseBlock := trueBlock.2.new
  let join := elseBlock.2.new
  let p := condition e trueBlock.1 elseBlock.1 join.2
  let p ← statement { p with current := trueBlock.1 }
  let p := p.add p.current .always join.1
  let p ← else_ { p with current := elseBlock.1 }
  let p := p.add p.current .always join.1
  pure { p with current := join.1 }

/-- `while_statement`. -/
def whileStatement (e : Expr) (statement : Parser → Except String Parser) (p : Parser) :
    Except String Parser := do
  let savedBreak := p.breakBlock
  let savedContinue := p.continueBlock
  let test_ := p.new
  let body := test_.2.new
  let break_ := body.2.new
  let p := { break_.2 with breakBlock := break_.1, continueBlock := test_.1 }
  let p := { p.add p.current .always test_.1 with current := test_.1 }
  let p := condition e body.1 p.breakBlock p
  let p ← statement { p with current := body.1 }
  let p := p.add p.current .always test_.1
  pure { p with
    current := p.breakBlock
    continueBlock := savedContinue
    breakBlock := savedBreak }

/-- Go to `block`, and go on with a new block, which nothing leads to. -/
def leave (p : Parser) (block : BlockId) : Parser :=
  let new := (p.add p.current .always block).new
  { new.2 with current := new.1 }

/-- `return_statement`, of a function that returns no struct. -/
def returnStatement (e : Option Expr) (p : Parser) : Parser :=
  let p :=
    match e with
    | some e =>
      let r := gen e p
      r.1.emit [insnNew .ret none r.2]
    | none => p.emit [insnNew .ret]
  leave p p.func.exit

/-- `loop_control`; `k` is the keyword. -/
def loopControl (k : String) (block : BlockId) (p : Parser) : Except String Parser :=
  if block = 0 then .error s!"misplaced '{k}' statement" else .ok (leave p block)

/-- `switch_statement`. -/
def switchStatement (e : Expr) (statement : Parser → Except String Parser) (p : Parser) :
    Except String Parser := do
  let savedSwitch := p.switchBlock
  let savedDefault := p.defaultBlock
  let savedBreak := p.breakBlock
  let savedSawDefault := p.sawDefault
  match e.result with
  | none => .error "switch expression must be integral"
  | some control =>
    if control.ts.floating then .error "switch expression must be integral"
    else do
      -- this block is never used
      let p := (gen e p.new.2).1
      let p := { p with switchBlock := p.current, sawDefault := false }
      let default_ := p.new
      let break_ := default_.2.new
      let body := break_.2.new
      let p := { body.2 with defaultBlock := default_.1, breakBlock := break_.1 }
      let p := { p with func := Switch.blockSwitch p.func p.current control p.defaultBlock }
      let p ← statement { p with current := body.1 }
      let p := p.add p.current .always p.breakBlock
      let p := if p.sawDefault then p else p.add p.defaultBlock .always p.breakBlock
      let p := { p with func := Switch.blockSwitchDone p.func p.switchBlock }
      pure { p with
        current := p.breakBlock
        switchBlock := savedSwitch
        breakBlock := savedBreak
        defaultBlock := savedDefault
        sawDefault := savedSawDefault }

/-- `in_switch`; `k` is the keyword. -/
def inSwitch (k : String) (p : Parser) : Except String Unit :=
  if p.switchBlock = 0 then .error s!"misplaced '{k}' (not in switch)" else .ok ()

/-- The type of the control operand of a switch block. -/
def controlTs (x : Block) : TypeBits := tsOpt x.control

/-- `case_label`. -/
def caseLabel (i : Word) (p : Parser) : Except String Parser := do
  let i := conNormalize (controlTs (p.func.block p.switchBlock)) i
  let new := p.new
  let f ← Switch.blockSwitchCase new.2.func p.switchBlock i new.1
  let p := { new.2 with func := f }
  pure { p.add p.current .always new.1 with current := new.1 }

/-- `default_case`. -/
def defaultCase (p : Parser) : Except String Parser :=
  if p.sawDefault then .error "duplicate default case"
  else
    let p := { p with sawDefault := true }
    .ok { p.add p.current .always p.defaultBlock with current := p.defaultBlock }

/-- `goto_statement`. -/
def gotoStatement (id : String) (p : Parser) : Parser :=
  let r := labelGoto id p
  leave r.2 r.1

/-- What `statement` does before the statement that a mark is on. -/
def mark (m : Mark) (p : Parser) : Except String Parser :=
  match m with
  | .label id => do
    let r ← labelDefine id p
    pure { r.2.add r.2.current .always r.1 with current := r.1 }
  | .case i => do
    inSwitch "case" p
    caseLabel i p
  | .default => do
    inSwitch "default" p
    defaultCase p

/-- `statement`. -/
def statement : Stmt → Parser → Except String Parser
  | .empty, p => .ok p
  | .seq s t, p => do statement t (← statement s p)
  | .expr e, p => .ok (gen e p).1
  | .asm insn, p => .ok (p.emit [insn])
  | .labelled m s, p => do statement s (← mark m p)
  | .goto id, p => .ok (gotoStatement id p)
  | .break, p => loopControl "break" p.breakBlock p
  | .continue, p => loopControl "continue" p.continueBlock p
  | .return e, p => .ok (returnStatement e p)
  | .ifElse e s t, p => ifStatement e (statement s) (statement t) p
  | .while e s, p => whileStatement e (statement s) p
  | .doWhile s e, p => doStatement (statement s) e p
  | .for initial test step s, p => forStatement initial test step (statement s) p
  | .switch e s, p => switchStatement e (statement s) p

/-- `func_new`; `n` is the last label that was given. -/
def funcNew (n : Nat) : Parser :=
  let f : Func :=
    { entry := n + 1, exit := n + 3, blocks := [], block := fun _ => {}, lastLabel := n,
      linked := Blocks.linked_empty }
  let entry := Parser.new { func := f, current := 0 }
  let current := entry.2.new
  let p := { current.2 with current := current.1 }
  (p.add entry.1 .always current.1).new.2

/-- The blocks that `function_definition` makes of a body. -/
def functionDefinition (n : Nat) (body : Stmt) : Except String Func := do
  let p ← statement body (funcNew n)
  symbolCheckLabels p
  pure (p.add p.current .always p.func.exit).func

end Ncc.Stmts
