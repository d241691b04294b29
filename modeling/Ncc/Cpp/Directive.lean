import Ncc.Cpp.Macro

/-! Directives and conditional inclusion (cpp/directive.c).

    `directive` sees every line after it is read. It executes the line if it is a directive, and
    empties it if it lies in a group that is not being copied. The state of the enclosing
    conditionals is a stack of three flags.

        #if c₁      push: copying = saw_true = c₁, or 0 and 1 in a group that is skipped
        #elif c₂    if nothing was taken yet: copying = saw_true = c₂
        #else       copying = nothing was taken yet
        #endif      pop -/

namespace Ncc.Cpp

/-- `directive_index`. -/
inductive Directive where
  | define | elif | else_ | endif | error | if_ | ifdef | ifndef | include_ | line | pragma | undef
  | unknown | empty
  deriving DecidableEq, Repr

/-- `directives`. -/
def directives : List (String × Directive) :=
  [("define", .define), ("elif", .elif), ("else", .else_), ("endif", .endif), ("error", .error),
   ("if", .if_), ("ifdef", .ifdef), ("ifndef", .ifndef), ("include", .include_), ("line", .line),
   ("pragma", .pragma), ("undef", .undef)]

/-- `lookup`. -/
def lookup (t : Token) : Directive :=
  if t.cls = .ident then
    match directives.find? (·.1 == t.text) with
    | some (_, d) => d
    | none => .unknown
  else .unknown

/-- The parse at the head of `directive`: the directive on the line, and the tokens that are left
    when the line has been cut just beyond it. -/
def directiveOf (list : List Token) : Option (Directive × List Token) :=
  match listSkipSpaces list with
  | [] => none
  | t :: l =>
    if t.cls = .hash then
      match listSkipSpaces l with
      | [] => some (.empty, [])
      | t :: l => some (lookup t, listSkipSpaces l)
    else none

/-- `struct state`. -/
structure State where
  copying : Bool
  sawTrue : Bool
  sawElse : Bool
  deriving DecidableEq, Repr

/-- COPYING. -/
def copying : List State → Bool
  | [] => true
  | st :: _ => st.copying

/-- `state_push`. -/
def statePush (stack : List State) (cond : Bool) : List State :=
  if copying stack then ⟨cond, cond, false⟩ :: stack else ⟨false, true, false⟩ :: stack

/-- `struct input`: the path and the line number. -/
structure Input where
  path : String
  lineNo : BitVec 32
  deriving DecidableEq, Repr

/-- What directives change besides the state stack. The input stack is never empty while lines are
    read: `input` is its top. -/
structure World where
  macros : Table
  input : Input
  below : List Input := []
  needSync : Bool := false
  deriving DecidableEq, Repr

/-- What the directives use of the rest of the preprocessor and of the system: the evaluation of
    conditions and the tokens it leaves, macro replacement, `system_dirs`, `access` and `fopen`. -/
structure Outside where
  evaluate : World → List Token → Except String (Bool × List Token)
  replaceAll : World → List Token → Except String (List Token)
  systemDirs : List String
  access : String → Bool
  fopen : String → Bool

section
variable (o : Outside)

/-- `input_search`, as far as #include needs it. -/
inductive Search where
  | local | system
  deriving DecidableEq, Repr

/-- The directory of a path, up to and including the last slash. -/
def directory (path : String) : String :=
  String.ofList (path.toList.reverse.dropWhile (· ≠ '/')).reverse

/-- The paths `input_open` tries, in order. -/
def candidates (w : World) (path : String) (search : Search) : List String :=
  (if search = .local then [directory w.input.path ++ path] else []) ++
    o.systemDirs.map (· ++ "/" ++ path)

/-- `input_open` and `input_push`. -/
def inputOpen (w : World) (path : String) (search : Search) : Except String World :=
  match (candidates o w path search).find? o.access with
  | none => .error ("can't find '" ++ path ++ "'")
  | some vs =>
    if o.fopen vs then
      .ok { w with input := ⟨vs, 0⟩, below := w.input :: w.below, needSync := true }
    else .error ("can't open '" ++ path ++ "' for reading")

/-- `token_dequote`. -/
def tokenDequote (t : Token) : String := String.ofList t.text.toList.tail.dropLast

/-- The loop in `do_include` over the tokens before the closing `>`: their text and the rest. -/
def includePath : List Token → Except String (String × List Token)
  | [] => .ok ("", [])
  | t :: l =>
    if t.cls = .gt then .ok ("", t :: l)
    else do
      if t.cls.noText then throw "CPP INTERNAL: can't get text of non-text token"
      let (path, l) ← includePath l
      return (t.text ++ path, l)

/-- The file name in `do_include`: macros are replaced unless it is spelled out. -/
def includeName (w : World) (list : List Token) : Except String (List Token) :=
  if !listFirstIs list .string && !listFirstIs list .lt then
    (o.replaceAll w list).map listStripEnds
  else .ok list

/-- `do_include`. -/
def doInclude (w : World) (list : List Token) : Except String (World × List Token) := do
  match ← includeName o w list with
  | [] => throw "expected file name after #include"
  | t :: l =>
    if t.cls = .string then return (← inputOpen o w (tokenDequote t) .local, l)
    else if t.cls = .lt then
      let (path, l) ← includePath l
      let (_, l) ← listMatch l .gt
      return (← inputOpen o w path .system, l)
    else throw "expected file name after #include"

/-- The optional path of a #line directive. -/
def linePath (list : List Token) : Except String (Option Token × List Token) :=
  if list.isEmpty then .ok (none, []) else (listMatch list .string).map fun p => (some p.1, p.2)

/-- `do_line`. The path keeps the quotes of the string literal. -/
def doLine (w : World) (list : List Token) : Except String (World × List Token) := do
  let (lineNo, list) ← listMatch (listStripAll list) .number
  let (path, list) ← linePath list
  let lineNo ← tokenConvertNumber lineNo
  let input : Input := ⟨(path.map Token.text).getD w.input.path, (lineNo.i - 1).setWidth 32⟩
  return ({ w with input := input, needSync := true }, list)

/-- `do_error`. -/
def doError (list : List Token) : Except String Unit := do
  let t ← listStringize list
  throw ("#error directive: " ++ t.text)

/-- The macro test of #ifdef: its outcome and the tokens left. -/
def isDefined (w : World) (list : List Token) : Except String (Bool × List Token) := do
  let (ident, list) ← listMatch list .ident
  return (((macroLookup w.macros ident.text).map Macro.isDefined).getD false, list)

/-- `do_if`. -/
def doIf (w : World) (stack : List State) (list : List Token) :
    Except String (List State × List Token) :=
  if copying stack then do
    let (cond, list) ← o.evaluate w list
    return (statePush stack cond, list)
  else .ok (statePush stack false, list)

/-- `do_elif`. After a group that was taken it neither stops the copying nor uses the tokens. -/
def doElif (w : World) (stack : List State) (list : List Token) :
    Except String (List State × List Token) :=
  match stack with
  | [] => .error "#elif without #if"
  | st :: below =>
    if st.sawElse then .error "#elif after #else"
    else if st.sawTrue then .ok (st :: below, list)
    else do
      let (cond, list) ← o.evaluate w list
      return ({ st with sawTrue := cond, copying := cond } :: below, list)

/-- `do_else`. -/
def doElse : List State → Except String (List State)
  | [] => .error "#else without #if"
  | st :: below =>
    if st.sawElse then .error "duplicate #else"
    else .ok ({ st with copying := !st.sawTrue, sawElse := true } :: below)

/-- `do_endif`. -/
def doEndif : List State → Except String (List State)
  | [] => .error "#endif without #if"
  | _ :: below => .ok below

/-- The `switch` of `directive`. -/
def execute (w : World) (stack : List State) (list : List Token) :
    Directive → Except String (World × List State × List Token)
  | .include_ => (doInclude o w list).map fun r => (r.1, stack, r.2)
  | .ifdef => (isDefined w list).map fun r => (w, statePush stack r.1, r.2)
  | .ifndef => (isDefined w list).map fun r => (w, statePush stack (!r.1), r.2)
  | .if_ => (doIf o w stack list).map fun r => (w, r)
  | .elif => (doElif o w stack list).map fun r => (w, r)
  | .else_ => (doElse stack).map fun st => (w, st, list)
  | .endif => (doEndif stack).map fun st => (w, st, list)
  | .define =>
    if copying stack then
      (macroDefine w.macros list).map fun t => ({ w with macros := t }, stack, [])
    else .ok (w, stack, list)
  | .undef =>
    if copying stack then
      (macroUndef w.macros list).map fun r => ({ w with macros := r.1 }, stack, r.2)
    else .ok (w, stack, list)
  | .unknown => if copying stack then .error "unknown directive" else .ok (w, stack, list)
  | .line => (doLine w list).map fun r => (r.1, stack, r.2)
  | .error =>
    if copying stack then (doError list).map fun _ => (w, stack, list) else .ok (w, stack, list)
  | .empty | .pragma => .ok (w, stack, list)

/-- `directive`: the world, the stack and what is left of the line for the output. -/
def directive (w : World) (stack : List State) (list : List Token) :
    Except String (World × List State × List Token) :=
  match directiveOf list with
  | none | some (.pragma, _) => .ok (w, stack, if copying stack then list else [])
  | some (d, l) => do
    let (w, stack, l) ← execute o w stack l d
    if copying stack then
      if l.isEmpty then return (w, stack, []) else throw "trailing garbage after directive"
    else return (w, stack, [])

/-- A line as `input_tokens` hands it over: its tokens, how many finished inputs `unwind` pops to
    find it, and of how many physical lines `concat_line` joins it. -/
structure Line where
  tokens : List Token
  pops : Nat := 0
  joined : BitVec 32 := 1

/-- `input_pop`, when another input lies below. -/
def inputPop (w : World) : World :=
  match w.below with
  | [] => w
  | i :: below => { w with input := i, below := below, needSync := true }

/-- The effect of reading a line. -/
def deliver (w : World) (l : Line) : World :=
  let w := inputPop^[l.pops] w
  { w with input := { w.input with lineNo := w.input.lineNo + l.joined } }

/-- What is left after a line: the world and the tokens to copy to the output. -/
abbrev Entry := World × List Token

/-- `directive` on one line after the other, until the lines or an error end the run. -/
def run : World → List State → List Line → List (Except String Entry)
  | _, _, [] => []
  | w, stack, l :: ls =>
    match directive o (deliver w l) stack l.tokens with
    | .error m => [.error m]
    | .ok (w, stack, out) => .ok (w, out) :: run w stack ls

end

end Ncc.Cpp
