import Ncc.Lib.Fuel
import Ncc.Cpp.Macro

/-! Evaluation of #if expressions (cpp/evaluate.c).

    The evaluator computes while it parses: it replaces (sub)expressions at the head of the list by a
    token of class TOKEN_INT or TOKEN_UINT. Here such a function returns that token and the rest of the
    list. `binary` handles every left-associative operator, one precedence level at a time. -/

namespace Ncc.Cpp

/-- LONG_MIN. -/
def longMin : BitVec 64 := BitVec.intMin 64

/-- The result of an operation on words with the given sign. -/
def wordToken (uns : Bool) (i : BitVec 64) : Token := { cls := if uns then .uint else .int, i := i }

/-- A truth value: TOKEN_SIGN. -/
def truth (b : Bool) : Token := tokenInt (if b then 1 else 0)

/-- Signed or unsigned division and remainder. LONG_MIN / -1 traps. -/
def divide (uns : Bool) (zero : String) (sdiv udiv : BitVec 64 → BitVec 64 → BitVec 64)
    (left right : BitVec 64) : Except String Token :=
  if right = 0 then .error zero
  else if uns then .ok (wordToken true (udiv left right))
  else if left = longMin ∧ right = -1 then .error "SIGFPE"
  else .ok (wordToken false (sdiv left right))

/-- The `switch` of `binary`. A shift count is taken modulo the width, as the machine does. -/
def operate (op : TokenClass) (left right : Token) : Except String Token :=
  let uns := left.cls == .uint || right.cls == .uint
  let l := left.i
  let r := right.i
  match op with
  | .plus => .ok (wordToken uns (l + r))
  | .minus => .ok (wordToken uns (l - r))
  | .mul => .ok (wordToken uns (l * r))
  | .and => .ok (wordToken uns (l &&& r))
  | .or => .ok (wordToken uns (l ||| r))
  | .xor => .ok (wordToken uns (l ^^^ r))
  | .shl => .ok (wordToken uns (l <<< (r.toNat % 64)))
  | .shr =>
    .ok (wordToken uns (if uns then l >>> (r.toNat % 64) else l.sshiftRight (r.toNat % 64)))
  | .mod => divide uns "modulus zero" BitVec.srem BitVec.umod l r
  | .div => divide uns "division by zero" BitVec.sdiv BitVec.udiv l r
  | .gteq => .ok (truth (if uns then r.ule l else r.sle l))
  | .gt => .ok (truth (if uns then r.ult l else r.slt l))
  | .lt => .ok (truth (if uns then l.ult r else l.slt r))
  | .lteq => .ok (truth (if uns then l.ule r else l.sle r))
  | .eqeq => .ok (truth (l == r))
  | .noteq => .ok (truth (l != r))
  | .andand => .ok (truth (l != 0 && r != 0))
  | .oror => .ok (truth (l != 0 || r != 0))
  | _ => .error "CPP INTERNAL: unknown binary operator"

/-- What a prefix operator of `unary` does to its operand; the class stays. -/
def prefixed (op : TokenClass) (t : Token) : Token :=
  match op with
  | .minus => { t with i := -t.i }
  | .tilde => { t with i := ~~~t.i }
  | .not => { t with i := if t.i = 0 then 1 else 0 }
  | _ => t

mutual

/-- `unary`. -/
def unary : Nat → List Token → Except String (Token × List Token)
  | 0, _ => .error "out of fuel"
  | _ + 1, [] => .error "malformed expression"
  | fuel + 1, t :: l =>
    match t.cls with
    | .plus | .minus | .tilde | .not => (unary fuel l).map fun r => (prefixed t.cls r.1, r.2)
    | .lparen => do
      let (v, l) ← expression fuel l
      if listFirstIs l .rparen then .ok (v, l.tail)
      else .error "unmatched parentheses in expression"
    | .char => (tokenConvertChar t).map fun v => (v, l)
    | .number => (tokenConvertNumber t).map fun v => (v, l)
    | .int | .uint => .ok (t, l)
    | _ => .error "malformed expression"

/-- `binary`. -/
def binary : Nat → Nat → List Token → Except String (Token × List Token)
  | 0, _, _ => .error "out of fuel"
  | fuel + 1, 0, l => unary fuel l
  | fuel + 1, prec + 1, l => do
    let (left, l) ← binary fuel prec l
    binaryLoop fuel (prec + 1) left l

/-- The loop of `binary`, once the left operand is at the head. -/
def binaryLoop : Nat → Nat → Token → List Token → Except String (Token × List Token)
  | 0, _, _, _ => .error "out of fuel"
  | _ + 1, _, left, [] => .ok (left, [])
  | fuel + 1, prec, left, op :: l =>
    if op.cls.prec ≠ prec then .ok (left, op :: l)
    else do
      let (right, l) ← binary fuel (prec - 1) l
      let result ← operate op.cls left right
      binaryLoop fuel prec result l

/-- `ternary`. -/
def ternary : Nat → List Token → Except String (Token × List Token)
  | 0, _ => .error "out of fuel"
  | fuel + 1, l => do
    let (control, l) ← binary fuel 10 l
    if listNextIs l .quest then do
      let (left, l) ← expression fuel l.tail
      if listFirstIs l .colon then do
        let (right, l) ← ternary fuel l.tail
        .ok (if control.i ≠ 0 then left else right, l)
      else .error "missing ':' after '?'"
    else .ok (control, l)

/-- `expression`. -/
def expression : Nat → List Token → Except String (Token × List Token)
  | 0, _ => .error "out of fuel"
  | fuel + 1, l => do
    let (t, l) ← ternary fuel l
    if listNextIs l .comma then expression fuel l.tail else .ok (t, l)

end

/-- `undefined`. -/
def undefined (l : List Token) : List Token :=
  l.map fun t => if t.cls = .ident then tokenInt 0 else t

/-- Whether the token is the identifier `defined`. -/
def isDefinedOp (table : Table) (t : Token) : Bool :=
  t.cls == .ident && (macroLookup table t.text).any (·.predef == some .defined)

/-- The operand of `defined`: 1 or 0, and the tokens after it. -/
def definedOperand (table : Table) (l : List Token) : Except String (Token × List Token) :=
  let parentheses := listFirstIs l .lparen
  match if parentheses then l.tail else l with
  | [] => .error "missing identifier after 'defined'"
  | t :: l =>
    if t.cls ≠ .ident then .error "missing identifier after 'defined'"
    else
      let value := truth ((macroLookup table t.text).any Macro.isDefined)
      if !parentheses then .ok (value, l)
      else if listFirstIs l .rparen then .ok (value, l.tail)
      else .error "missing closing parenthesis after 'defined'"

/-- `defined`; every turn takes a token off the list, so its length is fuel enough. -/
def defined (table : Table) : Nat → List Token → Except String (List Token)
  | 0, l => .ok l
  | _ + 1, [] => .ok []
  | fuel + 1, t :: l =>
    if isDefinedOp table t then do
      let (v, l) ← definedOperand table l
      (defined table fuel l).map (v :: ·)
    else (defined table fuel l).map (t :: ·)

section
variable (replaceAll : List Token → Except String (List Token))

/-- The tokens that `evaluate` hands to `expression`. -/
def prepare (table : Table) (l : List Token) : Except String (List Token) := do
  let l := listStripAll l
  let l ← defined table l.length l
  let l ← replaceAll l
  return listStripAll (undefined l)

/-- `evaluate`, given macro replacement: the truth value and the tokens left. -/
def evaluate (fuel : Nat) (table : Table) (l : List Token) : Except String (Bool × List Token) := do
  let l ← prepare replaceAll table l
  let (t, l) ← expression fuel l
  if t.cls = .int ∨ t.cls = .uint then return (t.i != 0, l)
  else throw "CPP INTERNAL: botched expression evaluation"

end

end Ncc.Cpp
