import Ncc.Interf
import Ncc.RegNames

/-! Inline assembly (asm.c, asm.h).

    The clauses of a statement are parsed into maps from machine registers to variables. The passes of
    the optimizer rename the variables, and right before target code is generated `asm_rewrite` makes
    moves and the sets of machine registers of the maps. A register that stands without a variable is
    in the map of the outputs, linked to PSEUDO_REG_NONE, and `asm_rewrite` passes over it: the
    allocator never learns that its contents are trashed. -/

namespace Ncc.Asm

open Webs (Fresh)

/-! ### Parsing -/

/-- The tokens of a statement; `ident` is an identifier or one of the special keywords. -/
inductive Tok where
  | ident (id : String) | eq | colon | lparen | rparen | strlit (text : String) | vol | other
  deriving DecidableEq

/-- `amd64_regnames`. -/
def amd64Regnames : List (String × PseudoReg) :=
  [("rax", 2), ("rbx", 11), ("rcx", 3), ("rdx", 4), ("rsi", 0), ("rdi", 1), ("rbp", 5), ("rsp", 6),
   ("r8", 7), ("r9", 8), ("r10", 9), ("r11", 10), ("r12", 12), ("r13", 13), ("r14", 14), ("r15", 15),
   ("xmm0", 0x00100000), ("xmm1", 0x00100001), ("xmm2", 0x00100002), ("xmm3", 0x00100003),
   ("xmm4", 0x00100004), ("xmm5", 0x00100005), ("xmm6", 0x00100006), ("xmm7", 0x00100007),
   ("xmm8", 0x00100008), ("xmm9", 0x00100009), ("xmm10", 0x0010000A), ("xmm11", 0x0010000B),
   ("xmm12", 0x0010000C), ("xmm13", 0x0010000D), ("xmm14", 0x0010000E), ("xmm15", 0x0010000F)]

/-- The `reg` that `string_init` gives to the name. -/
def stringReg (id : String) : PseudoReg := (amd64Regnames.lookup id).getD regNone

/-- A symbol, as far as a clause is concerned. `reg` is what `symbol_reg` returns, and it is a name
    that stands for nothing else. -/
structure AsmSymbol where
  constOrTypedef : Bool
  scalar : Bool
  reg : PseudoReg
  fresh : Fresh reg

/-- The errors of a statement, with the tokens they are about. -/
inductive AsmError where
  | machineRegister (got : String) | duplicate | expected (what : Tok) | identifier | text
  | notVariable (got : String) | notScalar (got : String) | wrongClass (got : String)
  deriving DecidableEq

/-- What `asm_ioputs` fills in; without ASM_IOPUTS_SOLO_REGS every register has a variable. -/
structure Ioputs (solo : Bool) where
  regs : Regs := []
  map : Regmaps := .empty
  mem : Bool := false
  cc : Bool := false
  mapped : ∀ e ∈ map.entries, e.2 ∈ regs ∨ solo = true ∧ e.2 = regNone := by
    exact fun _ h => absurd h List.not_mem_nil

/-- A machine register and its variable. -/
def Ioputs.link {solo : Bool} (io : Ioputs solo) (m r : PseudoReg) : Ioputs solo :=
  { io with
    regs := regsAdd io.regs r
    map := regmapsUpdate io.map m r
    mapped := fun e he => by
      rw [mem_regsAdd]
      rcases Assoc.mem_update.mp he with rfl | ⟨-, he⟩
      · exact .inl (.inl rfl)
      · exact (io.mapped e he).imp_left .inr }

/-- A machine register without a variable. -/
def Ioputs.linkNone (io : Ioputs true) (m : PseudoReg) : Ioputs true :=
  { io with
    map := regmapsUpdate io.map m regNone
    mapped := fun e he => by
      rcases Assoc.mem_update.mp he with rfl | ⟨-, he⟩
      · exact .inr ⟨rfl, rfl⟩
      · exact io.mapped e he }

section
variable (lookup : String → Option AsmSymbol)

/-- The variable that is linked to the machine register. -/
def asmVariable (machineReg : PseudoReg) (id : String) : Except AsmError AsmSymbol :=
  match lookup id with
  | none => .error (.notVariable id)
  | some sym =>
    if sym.constOrTypedef then .error (.notVariable id)
    else if !sym.scalar then .error (.notScalar id)
    else if amd64IsIreg sym.reg ≠ amd64IsIreg machineReg then .error (.wrongClass id)
    else .ok sym

/-- `asm_ioputs`, behind the colon; `mem` and `cc` say if the flags are allowed, and `solo` is
    ASM_IOPUTS_SOLO_REGS. -/
def asmIoputs (mem cc : Bool) : (solo : Bool) → List Tok → Ioputs solo →
    Except AsmError (Ioputs solo × List Tok)
  | solo, .ident id :: rest, io =>
    if id = "mem" ∧ mem = true then asmIoputs mem cc solo rest { io with mem := true }
    else if id = "cc" ∧ cc = true then asmIoputs mem cc solo rest { io with cc := true }
    else if stringReg id = regNone then .error (.machineRegister id)
    else if (io.map.lookup (stringReg id)).isSome then .error .duplicate
    else
      match rest with
      | .eq :: .ident v :: rest =>
        match asmVariable lookup (stringReg id) v with
        | .error e => .error e
        | .ok sym => asmIoputs mem cc solo rest (io.link (stringReg id) sym.reg)
      | .eq :: _ => .error .identifier
      | rest =>
        match solo with
        | true => asmIoputs mem cc true rest (io.linkNone (stringReg id))
        | false => .error (.expected .eq)
  | _, toks, io => .ok (io, toks)

/-- `lex_match`. -/
def lexMatch (t : Tok) : List Tok → Except AsmError (List Tok)
  | [] => .error (.expected t)
  | t' :: rest => if t' = t then .ok rest else .error (.expected t)

/-- A clause that may be left out. -/
def asmClause (mem cc solo : Bool) : List Tok → Except AsmError (Ioputs solo × List Tok)
  | .colon :: rest => asmIoputs lookup mem cc solo rest {}
  | toks => .ok ({}, toks)

/-- The string literal of a statement. -/
def asmText : List Tok → Except AsmError (String × List Tok)
  | .strlit text :: rest => .ok (text, rest)
  | _ => .error .text

/-- K_VOLATILE. -/
def asmVolatile : List Tok → Bool × List Tok
  | .vol :: rest => (true, rest)
  | toks => (false, toks)

/-- The I_ASM of a statement, from the parts of it. -/
def asmInsn (isVolatile : Bool) (text : String) (uses : Ioputs false) (defs : Ioputs true) : Insn :=
  { op := .asm
    isVolatile := isVolatile
    iasm :=
      { text := text
        defs := defs.regs
        uses := uses.regs
        inputs := uses.map
        outputs := defs.map
        defsMem := defs.mem
        usesMem := uses.mem
        defsCc := defs.cc
        inputs_uses := fun e he => (uses.mapped e he).resolve_right fun h => absurd h.1 (by decide) } }

/-- `asm_statement`, behind the keyword. -/
def asmStatement (toks : List Tok) : Except AsmError (Insn × List Tok) := do
  let rest ← lexMatch .lparen (asmVolatile toks).2
  let (text, rest) ← asmText rest
  let (uses, rest) ← asmClause lookup true false false rest
  let (defs, rest) ← asmClause lookup true true true rest
  let rest ← lexMatch .rparen rest
  return (asmInsn (asmVolatile toks).1 text uses defs, rest)

end

/-! ### Rewriting -/

/-- An I_ASM whose sets hold machine registers. Nothing looks at its maps any more. -/
structure TargetAsm where
  text : String
  defs : Regs
  uses : Regs
  defsMem : Bool
  usesMem : Bool
  defsCc : Bool

/-- An insn of a block behind `asm_rewrite`. -/
inductive Rewritten where
  | insn (i : Insn)
  | asm (a : TargetAsm) (isVolatile : Bool)

section
variable (regType : PseudoReg → TypeBits)

/-- The entries of a map that REWRITE0 does not pass over. -/
def linked (m : Regmaps) : List (PseudoReg × PseudoReg) := m.entries.filter fun e => e.2 ≠ regNone

/-- The machine registers that REWRITE0 adds to a set. -/
def linkedRegs (m : Regmaps) : Regs := regsUnion [] ((linked m).map Prod.fst)

/-- A move between registers. -/
def move (ts : TypeBits) (dst src : PseudoReg) : Insn :=
  insnNew .move (operandReg ts dst) (operandReg ts src)

/-- The type of the symbol behind a register (`reg_symbol`). -/
def typeOf (r : PseudoReg) : TypeBits := regType (pseudoRegBase r)

/-- The moves that are inserted before the I_ASM. -/
def movesBefore (a : Iasm) : List Insn :=
  (linked a.inputs).map fun e => move (typeOf regType e.2) e.1 e.2

/-- The moves that are inserted after it, each of them right behind the I_ASM. -/
def movesAfter (a : Iasm) : List Insn :=
  ((linked a.outputs).map fun e => move (typeOf regType e.2) e.2 e.1).reverse

/-- The new sets of the I_ASM. -/
def rewriteAsm (a : Iasm) : TargetAsm where
  text := a.text
  defs := linkedRegs a.outputs
  uses := linkedRegs a.inputs
  defsMem := a.defsMem
  usesMem := a.usesMem
  defsCc := a.defsCc

/-- One insn of `rewrite0`. -/
def rewriteInsn (i : Insn) : List Rewritten :=
  if i.op = .asm then
    (movesBefore regType i.iasm).map .insn ++ .asm (rewriteAsm i.iasm) i.isVolatile ::
      (movesAfter regType i.iasm).map .insn
  else [.insn i]

/-- `rewrite0` on the insns of a block. The walk comes to the moves behind an I_ASM, too, and leaves
    them alone. -/
def rewrite0 (insns : List Insn) : List Rewritten := insns.flatMap (rewriteInsn regType)

end

/-! ### What a statement says -/

/-- An entry of a clause. The name of a machine register is none of the flags. -/
inductive IoItem where
  | mem | cc
  | reg (id : String) (named : stringReg id ≠ regNone)
  | var (id : String) (named : stringReg id ≠ regNone) (v : String)

namespace IoItem

/-- How it is written. -/
def tokens : IoItem → List Tok
  | mem => [.ident "mem"]
  | cc => [.ident "cc"]
  | reg id _ => [.ident id]
  | var id _ v => [.ident id, .eq, .ident v]

/-- The machine register that it names. -/
def machine : IoItem → Option PseudoReg
  | reg id _ | var id _ _ => some (stringReg id)
  | _ => none

/-- Is it a machine register that stands without a variable? -/
def alone : IoItem → Bool
  | reg .. => true
  | _ => false

end IoItem

/-- What it puts in the map. -/
def IoItem.Gives : IoItem → PseudoReg × PseudoReg → Prop
  | .reg id _, e => e = (stringReg id, regNone)
  | .var id _ _, e => e.1 = stringReg id ∧ Fresh e.2
  | _, _ => False

/-- A map holds what the entries of a clause put in it. -/
structure Clause (items : List IoItem) (m : Regmaps) : Prop where
  entries : ∀ e ∈ m.entries, ∃ it ∈ items, it.Gives e
  given : ∀ it ∈ items, it.machine.isSome = true → ∃ e ∈ m.entries, it.Gives e

/-- A statement. The first clause is that of the inputs. -/
structure Statement where
  isVolatile : Bool
  text : String
  inputs : Option (List IoItem)
  outputs : Option (List IoItem)
  order : inputs = none → outputs = none

namespace Statement

/-- A clause with its colon. -/
def clauseTokens : Option (List IoItem) → List Tok
  | none => []
  | some items => .colon :: items.flatMap IoItem.tokens

/-- How it is written, behind the keyword. -/
def tokens (s : Statement) : List Tok :=
  (if s.isVolatile then [.vol] else []) ++
    .lparen :: .strlit s.text :: (clauseTokens s.inputs ++ clauseTokens s.outputs ++ [.rparen])

/-- The entries of the input clause. -/
def ins (s : Statement) : List IoItem := s.inputs.getD []

/-- The entries of the output clause. -/
def outs (s : Statement) : List IoItem := s.outputs.getD []

end Statement

/-! ### The parser -/

theorem stringReg_physical {id : String} (h : stringReg id ≠ regNone) :
    Webs.regPhysical (stringReg id) = true := by
  have hall : ∀ e ∈ amd64Regnames, Webs.regPhysical e.2 = true := by decide
  rw [stringReg] at h ⊢
  cases hl : amd64Regnames.lookup id with
  | none => rw [hl] at h; exact absurd rfl h
  | some r =>
    obtain ⟨l₁, l₂, hl, -⟩ := List.lookup_eq_some_iff.mp hl
    exact hall (id, r) (by rw [hl]; simp)

theorem mem_update_new {m : Regmaps} {k v : PseudoReg} (h : ¬(m.lookup k).isSome = true)
    {e : PseudoReg × PseudoReg} : e ∈ (m.update k v).entries ↔ e = (k, v) ∨ e ∈ m.entries := by
  have hk : ∀ x, (k, x) ∉ m := Assoc.lookup_eq_none.mp (by simpa using h)
  refine Assoc.mem_update.trans (or_congr_right (and_iff_right_of_imp fun he hek => ?_))
  exact hk e.2 (by rw [← hek]; exact he)

/-- What a part of a clause adds to a map. -/
structure Adds (items : List IoItem) (m m' : Regmaps) : Prop where
  old : ∀ e ∈ m.entries, e ∈ m'.entries
  entries : ∀ e ∈ m'.entries, e ∈ m.entries ∨ ∃ it ∈ items, it.Gives e
  given : ∀ it ∈ items, it.machine.isSome = true → ∃ e ∈ m'.entries, it.Gives e

theorem Adds.nil (m : Regmaps) : Adds [] m m where
  old _ h := h
  entries _ h := .inl h
  given _ h := absurd h List.not_mem_nil

/-- A flag leaves the map alone. -/
theorem Adds.flag {it : IoItem} {items : List IoItem} {m m' : Regmaps} (hit : it.machine = none)
    (h : Adds items m m') : Adds (it :: items) m m' where
  old := h.old
  entries e he := (h.entries e he).imp_right fun ⟨i, hi, hg⟩ => ⟨i, List.mem_cons_of_mem _ hi, hg⟩
  given i hi hm := by
    rcases List.mem_cons.mp hi with rfl | hi
    · rw [hit] at hm; exact absurd hm (by decide)
    · exact h.given i hi hm

/-- A machine register gets an entry. -/
theorem Adds.link {it : IoItem} {items : List IoItem} {m m' : Regmaps} {k v : PseudoReg}
    (hk : ¬(m.lookup k).isSome = true) (hit : it.Gives (k, v)) (h : Adds items (m.update k v) m') :
    Adds (it :: items) m m' where
  old e he := h.old e ((mem_update_new hk).mpr (.inr he))
  entries e he := by
    rcases h.entries e he with he | ⟨i, hi, hg⟩
    · rcases (mem_update_new hk).mp he with rfl | he
      · exact .inr ⟨it, List.mem_cons_self, hit⟩
      · exact .inl he
    · exact .inr ⟨i, List.mem_cons_of_mem _ hi, hg⟩
  given i hi hm := by
    rcases List.mem_cons.mp hi with rfl | hi
    · exact ⟨(k, v), h.old _ ((mem_update_new hk).mpr (.inl rfl)), hit⟩
    · exact h.given i hi hm

section
variable {lookup : String → Option AsmSymbol}

/-- What `asm_ioputs` passes over are entries of a clause, and the map holds what they give. -/
theorem asmIoputs_items (mem cc solo : Bool) (toks : List Tok) (io : Ioputs solo)
    {io' : Ioputs solo} {rest : List Tok}
    (h : asmIoputs lookup mem cc solo toks io = .ok (io', rest)) :
    ∃ items : List IoItem, toks = items.flatMap IoItem.tokens ++ rest ∧
      (solo = false → ∀ it ∈ items, it.alone = false) ∧ Adds items io.map io'.map := by
  fun_induction asmIoputs lookup mem cc solo toks io
  case case1 id toks hid io ih =>
    obtain ⟨items, rfl, hsolo, hadds⟩ := ih h
    refine ⟨.mem :: items, by rw [hid.1]; rfl, fun hs it hit => ?_, hadds.flag rfl⟩
    rcases List.mem_cons.mp hit with rfl | hit
    · rfl
    · exact hsolo hs it hit
  case case2 id toks _ hid io ih =>
    obtain ⟨items, rfl, hsolo, hadds⟩ := ih h
    refine ⟨.cc :: items, by rw [hid.1]; rfl, fun hs it hit => ?_, hadds.flag rfl⟩
    rcases List.mem_cons.mp hit with rfl | hit
    · rfl
    · exact hsolo hs it hit
  case case6 id _ _ hnone v toks sym hsym io hnew ih =>
    obtain ⟨items, rfl, hsolo, hadds⟩ := ih h
    refine ⟨.var id hnone v :: items, rfl, fun hs it hit => ?_, hadds.link hnew ⟨rfl, sym.fresh⟩⟩
    rcases List.mem_cons.mp hit with rfl | hit
    · rfl
    · exact hsolo hs it hit
  case case8 id _ _ hnone toks _ _ io hnew ih =>
    obtain ⟨items, rfl, -, hadds⟩ := ih h
    exact ⟨.reg id hnone :: items, rfl, fun hs => absurd hs (by decide), hadds.link hnew rfl⟩
  case case10 =>
    obtain ⟨rfl, rfl⟩ := Prod.mk.inj (Except.ok.inj h)
    exact ⟨[], rfl, fun _ _ hi => absurd hi List.not_mem_nil, .nil _⟩
  all_goals cases h

theorem asmClause_items {mem cc solo : Bool} {toks rest : List Tok} {io : Ioputs solo}
    (h : asmClause lookup mem cc solo toks = .ok (io, rest)) :
    ∃ c : Option (List IoItem), toks = Statement.clauseTokens c ++ rest ∧
      (solo = false → ∀ it ∈ c.getD [], it.alone = false) ∧ Clause (c.getD []) io.map ∧
      (c = none → rest = toks ∧ ∀ l, toks ≠ .colon :: l) := by
  unfold asmClause at h
  split at h
  · obtain ⟨items, rfl, hsolo, hadds⟩ := asmIoputs_items _ _ _ _ _ h
    refine ⟨some items, rfl, hsolo, ⟨fun e he => ?_, hadds.given⟩, fun hc => nomatch hc⟩
    exact (hadds.entries e he).resolve_left (Assoc.notMem_empty e)
  · rename_i hcolon
    obtain ⟨rfl, rfl⟩ := Prod.mk.inj (Except.ok.inj h)
    refine ⟨none, rfl, fun _ _ hi => absurd hi List.not_mem_nil, ⟨fun e he => ?_, fun _ hi => ?_⟩,
      fun _ => ⟨rfl, fun l hl => hcolon l hl⟩⟩
    · exact absurd he (Assoc.notMem_empty e)
    · exact absurd hi List.not_mem_nil

theorem lexMatch_ok {t : Tok} {toks rest : List Tok} (h : lexMatch t toks = .ok rest) :
    toks = t :: rest := by
  unfold lexMatch at h
  split at h
  · cases h
  · split at h
    · rename_i ht
      rw [ht, Except.ok.inj h]
    · cases h

theorem asmText_ok {toks rest : List Tok} {text : String} (h : asmText toks = .ok (text, rest)) :
    toks = .strlit text :: rest := by
  unfold asmText at h
  split at h
  · obtain ⟨rfl, rfl⟩ := Prod.mk.inj (Except.ok.inj h)
    rfl
  · cases h

theorem asmVolatile_tokens (toks : List Tok) :
    toks = (if (asmVolatile toks).1 then [Tok.vol] else []) ++ (asmVolatile toks).2 := by
  unfold asmVolatile
  split <;> rfl

end

/-- The maps of an I_ASM are those of the statement, whatever the variables are called by now. -/
structure Holds (s : Statement) (i : Insn) : Prop where
  op : i.op = .asm
  ins : Clause s.ins i.iasm.inputs
  linked : ∀ it ∈ s.ins, it.alone = false
  outs : Clause s.outs i.iasm.outputs

theorem bind_ok {α β : Type} {x : Except AsmError α} {f : α → Except AsmError β} {b : β}
    (h : x >>= f = .ok b) : ∃ a, x = .ok a ∧ f a = .ok b := by
  cases x with
  | error e => cases h
  | ok a => exact ⟨a, rfl, h⟩

/-- What `asm_statement` accepts is a statement, and the maps hold what its clauses say. -/
theorem asmStatement_holds {lookup : String → Option AsmSymbol} {toks rest : List Tok} {i : Insn}
    (h : asmStatement lookup toks = .ok (i, rest)) :
    ∃ s : Statement, toks = s.tokens ++ rest ∧ Holds s i := by
  obtain ⟨toks₁, h₁, h⟩ := bind_ok h
  obtain ⟨⟨text, toks₂⟩, h₂, h⟩ := bind_ok h
  obtain ⟨⟨uses, toks₃⟩, h₃, h⟩ := bind_ok h
  obtain ⟨⟨defs, toks₄⟩, h₄, h⟩ := bind_ok h
  obtain ⟨toks₅, h₅, h⟩ := bind_ok h
  obtain ⟨rfl, rfl⟩ := Prod.mk.inj (Except.ok.inj h)
  obtain ⟨c, hc, hsolo, hins, hnone⟩ := asmClause_items h₃
  obtain ⟨c', rfl, -, houts, -⟩ := asmClause_items h₄
  have horder : c = none → c' = none := by
    intro h
    obtain ⟨hrest, hcolon⟩ := hnone h
    cases c' with
    | none => rfl
    | some items => exact absurd hrest.symm (hcolon _)
  subst hc
  refine ⟨⟨(asmVolatile toks).1, text, c, c', horder⟩, ?_, rfl, hins, hsolo rfl, houts⟩
  refine (asmVolatile_tokens toks).trans ?_
  rw [lexMatch_ok h₁, asmText_ok h₂, lexMatch_ok h₅]
  simp [Statement.tokens]

/-! ### One reading -/

/-- Entries of a clause do not begin with these tokens, and do not go on with them. -/
def Stops (t : List Tok) : Prop := ∀ r, t ≠ .eq :: r ∧ ∀ id, t ≠ .ident id :: r

theorem items_ne_eq {t : List Tok} (ht : Stops t) (l : List IoItem) (r : List Tok) :
    l.flatMap IoItem.tokens ++ t ≠ .eq :: r := by
  cases l with
  | nil => exact (ht r).1
  | cons it l => cases it <;> simp [IoItem.tokens]

theorem stringReg_flag : stringReg "mem" = regNone ∧ stringReg "cc" = regNone := by decide

/-- Entries are read in one way. -/
theorem items_unique {t t' : List Tok} (ht : Stops t) (ht' : Stops t') : ∀ l l' : List IoItem,
    l.flatMap IoItem.tokens ++ t = l'.flatMap IoItem.tokens ++ t' → l = l' ∧ t = t'
  | [], [], h => ⟨rfl, h⟩
  | [], it :: l', h => by cases it <;> exact absurd h ((ht _).2 _)
  | it :: l, [], h => by cases it <;> exact absurd h.symm ((ht' _).2 _)
  | it :: l, it' :: l', h => by
    have ih := items_unique ht ht' l l'
    have hne := items_ne_eq ht l
    have hne' := items_ne_eq ht' l'
    obtain ⟨hm, hc⟩ := stringReg_flag
    cases it <;> cases it' <;>
      simp only [List.flatMap_cons, IoItem.tokens, List.cons_append, List.nil_append,
        List.cons.injEq, Tok.ident.injEq] at h <;> grind

theorem stops_rparen (r : List Tok) : Stops (.rparen :: r) := by simp [Stops]

theorem stops_colon (r : List Tok) : Stops (.colon :: r) := by simp [Stops]

/-- What is behind the first clause. -/
theorem stops_clause (o : Option (List IoItem)) (rest : List Tok) :
    Stops (Statement.clauseTokens o ++ .rparen :: rest) := by
  cases o with
  | none => exact stops_rparen rest
  | some l => exact stops_colon _

theorem clauses_unique {c c' o o' : Option (List IoItem)} {rest : List Tok}
    (hc : c = none → o = none) (hc' : c' = none → o' = none)
    (h : Statement.clauseTokens c ++ (Statement.clauseTokens o ++ .rparen :: rest) =
      Statement.clauseTokens c' ++ (Statement.clauseTokens o' ++ .rparen :: rest)) :
    c = c' ∧ o = o' := by
  cases c with
  | none =>
    obtain rfl := hc rfl
    cases c' with
    | none => exact ⟨rfl, (hc' rfl).symm⟩
    | some l' => simp [Statement.clauseTokens] at h
  | some l =>
    cases c' with
    | none =>
      obtain rfl := hc' rfl
      simp [Statement.clauseTokens] at h
    | some l' =>
      obtain ⟨rfl, ho⟩ := items_unique (stops_clause o rest) (stops_clause o' rest) l l'
        (List.cons.inj h).2
      refine ⟨rfl, ?_⟩
      cases o with
      | none =>
        cases o' with
        | none => rfl
        | some m' => simp [Statement.clauseTokens] at ho
      | some m =>
        cases o' with
        | none => simp [Statement.clauseTokens] at ho
        | some m' =>
          rw [(items_unique (stops_rparen rest) (stops_rparen rest) m m' (List.cons.inj ho).2).1]

/-- Statements are read in one way. -/
theorem statement_unique {s s' : Statement} {rest : List Tok}
    (h : s.tokens ++ rest = s'.tokens ++ rest) : s = s' := by
  obtain ⟨v, text, c, o, hco⟩ := s
  obtain ⟨v', text', c', o', hco'⟩ := s'
  simp only [Statement.tokens, List.append_assoc, List.cons_append, List.nil_append] at h
  cases v <;> cases v' <;>
    simp only [if_true, Bool.false_eq_true, if_false, List.nil_append, List.cons_append,
      List.cons.injEq, reduceCtorEq, false_and, true_and, Tok.strlit.injEq] at h
  all_goals
    obtain ⟨rfl, h⟩ := h
    obtain ⟨rfl, rfl⟩ := clauses_unique hco hco' h
    rfl

/-! ### Renaming -/

/-- `asm_dup`. The maps are built anew, the last entry first. -/
def asmDup (a : Iasm) : Iasm :=
  { a with
    defs := regsUnion [] a.defs
    uses := regsUnion [] a.uses
    inputs := a.inputs.dup
    outputs := a.outputs.dup
    inputs_uses := fun e he => mem_regsUnion.mpr (.inr (a.inputs_uses e (Assoc.mem_dup.mp he))) }

/-- `insn_dup`. -/
def insnDup (i : Insn) : Insn := if i.op = .asm then { i with iasm := asmDup i.iasm } else i

/-- What the passes of the optimizer do to the variables of an I_ASM. -/
inductive Rename : Insn → Insn → Prop where
  | substitute (i : Insn) {bef aft : PseudoReg} (defs uses : Bool) (hbef : Fresh bef)
      (haft : Fresh aft) : Rename i (insnSubstitute i bef aft defs uses)
  | strip (i : Insn) : Rename i (insnStripIndices i)
  | dup (i : Insn) : Rename i (insnDup i)

/-- Fresh names stay fresh without their index. -/
theorem fresh_base {r : PseudoReg} (h : Fresh r) : Fresh (pseudoRegBase r) := by
  refine Webs.fresh_of_bit ((Webs.physical_base r).trans h.physical) ?_
  rw [getLsbD_base r (by decide), h.reserved]
  rfl

/-- A change of names that leaves PSEUDO_REG_NONE alone. -/
structure KeepsFresh (g : PseudoReg → PseudoReg) : Prop where
  none : g regNone = regNone
  fresh : ∀ {r}, Fresh r → Fresh (g r)

theorem KeepsFresh.gives {g : PseudoReg → PseudoReg} (hg : KeepsFresh g) {it : IoItem}
    {m r : PseudoReg} (h : it.Gives (m, r)) : it.Gives (m, g r) := by
  cases it with
  | mem | cc => exact h
  | reg id _ =>
    obtain ⟨rfl, rfl⟩ := Prod.mk.inj h
    exact Prod.ext rfl hg.none
  | var id _ v => exact ⟨h.1, hg.fresh h.2⟩

theorem Clause.mapValues {items : List IoItem} {m : Regmaps} (h : Clause items m)
    {g : PseudoReg → PseudoReg} (hg : KeepsFresh g) : Clause items (m.mapValues g) where
  entries e he := by
    obtain ⟨v, hv, hgv⟩ := Assoc.mem_mapValues.mp he
    obtain ⟨it, hit, hgives⟩ := h.entries _ hv
    exact ⟨it, hit, by simpa only [hgv] using hg.gives hgives⟩
  given it hit hm := by
    obtain ⟨⟨k, v⟩, he, hgives⟩ := h.given it hit hm
    exact ⟨(k, g v), Assoc.mem_mapValues.mpr ⟨v, he, rfl⟩, hg.gives hgives⟩

theorem Clause.dup {items : List IoItem} {m : Regmaps} (h : Clause items m) :
    Clause items m.dup where
  entries e he := h.entries e (Assoc.mem_dup.mp he)
  given it hit hm := (h.given it hit hm).imp fun _ he => ⟨Assoc.mem_dup.mpr he.1, he.2⟩

theorem keepsFresh_substitute {bef aft : PseudoReg} (hbef : Fresh bef) (haft : Fresh aft) :
    KeepsFresh fun v => if v = bef then aft else v where
  none := if_neg fun h => hbef.none h.symm
  fresh {r} hr := by
    split
    · exact haft
    · exact hr

theorem keepsFresh_base : KeepsFresh pseudoRegBase := ⟨by decide, fresh_base⟩

section
variable {s : Statement} {i : Insn} {bef aft : PseudoReg}

theorem Holds.substituteDefs (h : Holds s i) (hbef : Fresh bef) (haft : Fresh aft) :
    Holds s (insnSubstituteDefs i bef aft) where
  op := h.op
  ins := by
    simp only [insnSubstituteDefs, h.op, if_true]
    exact h.ins
  linked := h.linked
  outs := by
    simp only [insnSubstituteDefs, h.op, if_true]
    exact h.outs.mapValues (keepsFresh_substitute hbef haft)

theorem Holds.substituteUses (h : Holds s i) (hbef : Fresh bef) (haft : Fresh aft) :
    Holds s (insnSubstituteUses i bef aft) where
  op := h.op
  ins := by
    simp only [insnSubstituteUses, h.op, if_true]
    exact h.ins.mapValues (keepsFresh_substitute hbef haft)
  linked := h.linked
  outs := by
    simp only [insnSubstituteUses, h.op, if_true]
    exact h.outs

/-- The maps keep what the statement says. -/
theorem Holds.rename {i' : Insn} (h : Holds s i) (hr : Rename i i') : Holds s i' := by
  cases hr with
  | @substitute bef aft defs uses hbef haft =>
    have hdefs : Holds s (if defs then insnSubstituteDefs i bef aft else i) := by
      split
      · exact h.substituteDefs hbef haft
      · exact h
    unfold insnSubstitute
    dsimp only
    split
    · exact hdefs.substituteUses hbef haft
    · exact hdefs
  | strip =>
    refine ⟨h.op, ?_, h.linked, ?_⟩
    · simp only [insnStripIndices, h.op, if_true]
      exact h.ins.mapValues keepsFresh_base
    · simp only [insnStripIndices, h.op, if_true]
      exact h.outs.mapValues keepsFresh_base
  | dup =>
    rw [insnDup, if_pos h.op]
    exact ⟨h.op, h.ins.dup, h.linked, h.outs.dup⟩

theorem Holds.renames {i' : Insn} (h : Holds s i) (hr : Relation.ReflTransGen Rename i i') :
    Holds s i' := by
  induction hr with
  | refl => exact h
  | tail _ hstep ih => exact ih.rename hstep

end

/-! ### The sets and the moves -/

theorem mem_linked {m : Regmaps} {e : PseudoReg × PseudoReg} :
    e ∈ linked m ↔ e ∈ m.entries ∧ e.2 ≠ regNone := by
  simp [linked]

theorem mem_linkedRegs {m : Regmaps} {r : PseudoReg} :
    r ∈ linkedRegs m ↔ ∃ x, x ≠ regNone ∧ (r, x) ∈ m.entries := by
  simp [linkedRegs, mem_linked, and_comm]

theorem IoItem.Gives.machine {it : IoItem} {e : PseudoReg × PseudoReg} (h : it.Gives e) :
    it.machine = some e.1 := by
  cases it with
  | mem | cc => exact h.elim
  | reg id _ => exact congrArg some (congrArg Prod.fst h).symm
  | var id _ v => exact congrArg some h.1.symm

theorem IoItem.Gives.physical {it : IoItem} {e : PseudoReg × PseudoReg} (h : it.Gives e) :
    Webs.regPhysical e.1 = true := by
  cases it with
  | mem | cc => exact h.elim
  | reg id named =>
    rw [congrArg Prod.fst h]
    exact stringReg_physical named
  | var id named v =>
    rw [h.1]
    exact stringReg_physical named

theorem IoItem.Gives.ne_none {it : IoItem} {e : PseudoReg × PseudoReg} (h : it.Gives e) :
    e.1 ≠ regNone := by
  cases it with
  | mem | cc => exact h.elim
  | reg id named =>
    rw [congrArg Prod.fst h]
    exact named
  | var id named v =>
    rw [h.1]
    exact named

/-- The value of the entry is fresh when it has a variable, and PSEUDO_REG_NONE when not. -/
theorem IoItem.Gives.value {it : IoItem} {e : PseudoReg × PseudoReg} (h : it.Gives e) :
    (it.alone = true ∧ e.2 = regNone) ∨ (it.alone = false ∧ Fresh e.2) := by
  cases it with
  | mem | cc => exact h.elim
  | reg id _ => exact .inl ⟨rfl, congrArg Prod.snd h⟩
  | var id _ v => exact .inr ⟨rfl, h.2⟩

/-- A set has the registers of the entries exactly when none of them stands alone. -/
theorem Clause.linkedRegs_iff {items : List IoItem} {m : Regmaps} (h : Clause items m) :
    (∀ it ∈ items, ∀ r, it.machine = some r → r ∈ linkedRegs m) ↔
      ∀ it ∈ items, it.alone = false := by
  constructor
  · intro hall it hit
    rw [Bool.eq_false_iff]
    intro halone
    have hm : it.machine.isSome = true := by cases it <;> first | rfl | cases halone
    obtain ⟨e, he, hg⟩ := h.given it hit hm
    obtain ⟨x, hx, hxe⟩ := mem_linkedRegs.mp (hall it hit e.1 hg.machine)
    rcases hg.value with ⟨-, hnone⟩ | ⟨ha, -⟩
    · exact hx ((Assoc.mem_unique hxe he).trans hnone)
    · rw [halone] at ha
      cases ha
  · intro hall it hit r hr
    obtain ⟨e, he, hg⟩ := h.given it hit (by rw [hr]; rfl)
    obtain rfl : r = e.1 := Option.some.inj (hr.symm.trans hg.machine)
    rcases hg.value with ⟨ha, -⟩ | ⟨-, hfresh⟩
    · rw [hall it hit] at ha
      cases ha
    · exact mem_linkedRegs.mpr ⟨e.2, hfresh.none, he⟩

theorem exec_move (env : Env) (ts : TypeBits) (dst src : PseudoReg) (s : State) :
    (exec env (move ts dst src) s).regs = Function.update s.regs dst (fit ts (s.regs src)) := by
  simp [move, insnNew, exec, operandReg, readOpt, Operand.read, State.write, tsOpt, exprValue]

/-- Moves to registers that differ, none of which is read, are moves in parallel. -/
theorem execs_moves {α : Type*} (ts : α → TypeBits) (dst src : α → PseudoReg) (env : Env) :
    ∀ (l : List α) (s : State), (l.map dst).Nodup → (∀ e ∈ l, ∀ e' ∈ l, dst e ≠ src e') →
      (∀ e ∈ l, (execs env (l.map fun e => move (ts e) (dst e) (src e)) s).regs (dst e) =
        fit (ts e) (s.regs (src e))) ∧
      ∀ r ∉ l.map dst, (execs env (l.map fun e => move (ts e) (dst e) (src e)) s).regs r = s.regs r
  | [], s, _, _ => ⟨fun _ h => absurd h List.not_mem_nil, fun _ _ => rfl⟩
  | a :: l, s, hnodup, hne => by
    obtain ⟨ha, hl⟩ := List.nodup_cons.mp hnodup
    obtain ⟨hin, hout⟩ := execs_moves ts dst src env l (exec env (move (ts a) (dst a) (src a)) s) hl
      fun e he e' he' => hne e (List.mem_cons_of_mem _ he) e' (List.mem_cons_of_mem _ he')
    simp only [List.map_cons, execs_cons]
    refine ⟨fun e he => ?_, fun r hr => ?_⟩
    · rcases List.mem_cons.mp he with rfl | he
      · rw [hout _ ha, exec_move, Function.update_self]
      · rw [hin e he, exec_move, Function.update_of_ne]
        exact (hne a List.mem_cons_self e (List.mem_cons_of_mem _ he)).symm
    · obtain ⟨hra, hrl⟩ := not_or.mp (mt List.mem_cons.mpr hr)
      rw [hout r hrl, exec_move, Function.update_of_ne hra]

/-! ### The allocator -/

/-- A result of the allocator: a proper coloring of the interference graph, in which physical
    registers keep their own color. PSEUDO_REG_NONE is the color of what is spilled. -/
structure Allocation {α : Type} (q : Queries α) (g : BlockGraph α) (d : BlockId → LiveData)
    (color : PseudoReg → PseudoReg) : Prop where
  own : ∀ r, Webs.regPhysical r = true → color r = r
  cls : ∀ r, color r = regNone ∨ amd64IsIreg (color r) = amd64IsIreg r
  proper : ∀ r r', (interference q g amd64IsIreg d).Joined r r' →
    color r = regNone ∨ color r ≠ color r'

/-- With these DEFs the insn keeps the register clear of what is live behind it: wherever the insn
    stands in a function of target insns, no such value is allocated to the register. -/
def Spared (defs : Regs) (m : PseudoReg) : Prop :=
  ∀ (α : Type) (q : Queries α) (g : BlockGraph α) (insn : α), (∀ r, r ∈ q.defsRegs insn ↔ r ∈ defs) →
    ∃ n d, (∀ k ≥ n, liveAnalyze q g k = some d) ∧
      ∀ b ∈ g.blocks, ∀ pre rest, g.insns b = pre ++ insn :: rest →
        ∀ v, v ∉ q.defsRegs insn → LiveAfter q g b (.reg v) rest →
          ∀ color, Allocation q g d color → color v ≠ m

theorem spared_of_mem {defs : Regs} {m : PseudoReg} (hm : m ∈ defs) (hnone : m ≠ regNone)
    (hphys : Webs.regPhysical m = true) : Spared defs m := by
  intro α q g insn hdefs
  obtain ⟨n, d, hd, hexact⟩ := liveAnalyze_ranges q g
  refine ⟨n, d, hd, fun b hb pre rest hins v hv hlive color hcolor => ?_⟩
  have hdef : m ∈ q.defsRegs insn := (hdefs m).mpr hm
  have hne : m ≠ v := fun h => hv (h ▸ hdef)
  by_cases hclass : amd64IsIreg m = amd64IsIreg v
  · have hinsn : insn ∈ g.insns b := by rw [hins]; simp
    have hjoined : (interference q g amd64IsIreg d).Joined m v :=
      joined_interference hb (mem_blockRegs_of_defines hinsn hdef)
        (overlaps_of_defines (hexact ⟨b, hb⟩ m).2.2 (hexact ⟨b, hb⟩ v).2.2 hins hdef hlive
          (fun h => absurd h hv) hne) hclass
    have hproper := hcolor.proper m v hjoined
    rw [hcolor.own m hphys] at hproper
    exact (hproper.resolve_left hnone).symm
  · rcases hcolor.cls v with h | h
    · rw [h]
      exact hnone.symm
    · intro hvm
      rw [hvm] at h
      exact hclass h

/-! ### The statement is honoured -/

/-- The register lists of a statement are honoured by what `asm_rewrite` makes of its I_ASM. -/
structure Honoured (regType : PseudoReg → TypeBits) (s : Statement) (i : Insn) : Prop where
  placed : ∀ pre post, rewrite0 regType (pre ++ i :: post) =
    rewrite0 regType pre ++ ((movesBefore regType i.iasm).map .insn ++
      .asm (rewriteAsm i.iasm) i.isVolatile :: (movesAfter regType i.iasm).map .insn) ++
        rewrite0 regType post
  defs : ∀ it ∈ s.outs, ∀ m, it.machine = some m → m ∈ (rewriteAsm i.iasm).defs
  uses : ∀ it ∈ s.ins, ∀ m, it.machine = some m → m ∈ (rewriteAsm i.iasm).uses
  before : ∀ env st, ∀ e ∈ i.iasm.inputs.entries,
    (execs env (movesBefore regType i.iasm) st).regs e.1 =
      fit (typeOf regType e.2) (st.regs e.2)
  after : ∀ env st, ∀ e ∈ i.iasm.outputs.entries, e.2 ≠ regNone →
    (execs env (movesAfter regType i.iasm) st).regs e.2 = fit (typeOf regType e.2) (st.regs e.1)
  spared : ∀ it ∈ s.outs, ∀ m, it.machine = some m → Spared (rewriteAsm i.iasm).defs m

section
variable {regType : PseudoReg → TypeBits} {s : Statement} {i : Insn}

theorem rewrite0_placed (hop : i.op = .asm) (pre post : List Insn) :
    rewrite0 regType (pre ++ i :: post) =
      rewrite0 regType pre ++ ((movesBefore regType i.iasm).map .insn ++
        .asm (rewriteAsm i.iasm) i.isVolatile :: (movesAfter regType i.iasm).map .insn) ++
          rewrite0 regType post := by
  simp [rewrite0, rewriteInsn, hop]

theorem Clause.value_ne {items : List IoItem} {m : Regmaps} (h : Clause items m)
    (hall : ∀ it ∈ items, it.alone = false) {e : PseudoReg × PseudoReg} (he : e ∈ m.entries) :
    Fresh e.2 := by
  obtain ⟨it, hit, hg⟩ := h.entries e he
  rcases hg.value with ⟨ha, -⟩ | ⟨-, hfresh⟩
  · rw [hall it hit] at ha
    cases ha
  · exact hfresh

theorem Clause.physical {items : List IoItem} {m : Regmaps} (h : Clause items m)
    {e : PseudoReg × PseudoReg} (he : e ∈ m.entries) : Webs.regPhysical e.1 = true := by
  obtain ⟨it, -, hg⟩ := h.entries e he
  exact hg.physical

theorem ne_of_physical {r x : PseudoReg} (hr : Webs.regPhysical r = true) (hx : Fresh x) :
    r ≠ x := by
  rintro rfl
  rw [hx.physical] at hr
  cases hr

/-- The input variables are in their registers. -/
theorem Holds.before (h : Holds s i) (env : Env) (st : State) {e : PseudoReg × PseudoReg}
    (he : e ∈ i.iasm.inputs.entries) : (execs env (movesBefore regType i.iasm) st).regs e.1 =
      fit (typeOf regType e.2) (st.regs e.2) := by
  have hfresh : ∀ x ∈ i.iasm.inputs.entries, Fresh x.2 := fun x hx => h.ins.value_ne h.linked hx
  refine (execs_moves (fun x => typeOf regType x.2) Prod.fst Prod.snd env (Asm.linked i.iasm.inputs)
    st ?_ fun x hx y hy => ?_).1 e (mem_linked.mpr ⟨he, (hfresh e he).none⟩)
  · exact i.iasm.inputs.nodup.sublist (List.filter_sublist.map _)
  · exact ne_of_physical (h.ins.physical (mem_linked.mp hx).1) (hfresh y (mem_linked.mp hy).1)

/-- The output registers are in their variables, if these are different ones. -/
theorem Holds.after (h : Holds s i) (hall : ∀ it ∈ s.outs, it.alone = false)
    (hinj : ∀ e ∈ i.iasm.outputs.entries, ∀ e' ∈ i.iasm.outputs.entries, e.2 = e'.2 → e = e')
    (env : Env) (st : State) {e : PseudoReg × PseudoReg} (he : e ∈ i.iasm.outputs.entries) :
    (execs env (movesAfter regType i.iasm) st).regs e.2 =
      fit (typeOf regType e.2) (st.regs e.1) := by
  have hfresh : ∀ x ∈ i.iasm.outputs.entries, Fresh x.2 := fun x hx => h.outs.value_ne hall hx
  rw [movesAfter, ← List.map_reverse]
  refine (execs_moves (fun x => typeOf regType x.2) Prod.snd Prod.fst env
    (Asm.linked i.iasm.outputs).reverse st ?_ fun x hx y hy => ?_).1 e
      (List.mem_reverse.mpr (mem_linked.mpr ⟨he, (hfresh e he).none⟩))
  · rw [List.map_reverse, List.nodup_reverse]
    refine List.Nodup.map_on (fun x hx y hy => ?_) ?_
    · exact hinj x (mem_linked.mp hx).1 y (mem_linked.mp hy).1
    · exact (List.Nodup.of_map _ i.iasm.outputs.nodup).filter _
  · rw [List.mem_reverse, mem_linked] at hx hy
    exact (ne_of_physical (h.outs.physical hy.1) (hfresh x hx.1)).symm

theorem fit_zero_ne_one (ts : TypeBits) : fit ts 0 ≠ fit ts 1 := by cases ts <;> decide

/-- Two registers cannot be in one variable. -/
theorem Honoured.inj (h : Honoured regType s i) {e e' : PseudoReg × PseudoReg}
    (he : e ∈ i.iasm.outputs.entries) (he' : e' ∈ i.iasm.outputs.entries) (hne : e.2 ≠ regNone)
    (heq : e.2 = e'.2) : e = e' := by
  refine Prod.ext (Classical.by_contradiction fun hkey => ?_) heq
  let st : State := { (default : State) with regs := fun r => if r = e.1 then 0 else 1 }
  have h₁ := h.after default st e he hne
  have h₂ := h.after default st e' he' (heq ▸ hne)
  rw [← heq, h₁] at h₂
  simp only [st, if_true, if_neg (Ne.symm hkey)] at h₂
  exact fit_zero_ne_one _ h₂

theorem Holds.honoured_iff (h : Holds s i) : Honoured regType s i ↔
    (∀ it ∈ s.outs, it.alone = false) ∧
      ∀ e ∈ i.iasm.outputs.entries, ∀ e' ∈ i.iasm.outputs.entries, e.2 = e'.2 → e = e' := by
  have hdefs := h.outs.linkedRegs_iff
  constructor
  · intro hh
    have hall := hdefs.mp hh.defs
    exact ⟨hall, fun e he e' he' => hh.inj he he' (h.outs.value_ne hall he).none⟩
  · rintro ⟨hall, hinj⟩
    refine ⟨rewrite0_placed h.op, hdefs.mpr hall, h.ins.linkedRegs_iff.mpr h.linked,
      fun env st e he => h.before env st he, fun env st e he _ => h.after hall hinj env st he,
      fun it hit m hm => ?_⟩
    obtain ⟨e, -, hg⟩ := h.outs.given it hit (by rw [hm]; rfl)
    obtain rfl : m = e.1 := Option.some.inj (hm.symm.trans hg.machine)
    exact spared_of_mem (hdefs.mpr hall it hit e.1 hm) hg.ne_none hg.physical

end

/-- The register lists of a statement are honoured exactly when no register of the output clause
    stands without a variable, and no two of them go by the same variable when the moves are made. -/
theorem asmRewrite_honours_iff (regType : PseudoReg → TypeBits) (lookup : String → Option AsmSymbol)
    (s : Statement) {rest : List Tok} {i i' : Insn}
    (h : asmStatement lookup (s.tokens ++ rest) = .ok (i, rest))
    (hr : Relation.ReflTransGen Rename i i') :
    Honoured regType s i' ↔ (∀ it ∈ s.outs, it.alone = false) ∧
      ∀ e ∈ i'.iasm.outputs.entries, ∀ e' ∈ i'.iasm.outputs.entries, e.2 = e'.2 → e = e' := by
  obtain ⟨s', htoks, hholds⟩ := asmStatement_holds h
  obtain rfl := statement_unique htoks
  exact (hholds.renames hr).honoured_iff

/-- Two variables. -/
def xy (id : String) : Option AsmSymbol :=
  if id = "x" then some ⟨false, true, 16, Webs.fresh_of_bit (by decide) (by decide)⟩
  else if id = "y" then some ⟨false, true, 17, Webs.fresh_of_bit (by decide) (by decide)⟩
  else none

/-- `__asm("mulq %rax" : rax=x : rax=x rdx=y)`. -/
def mulStatement : Statement where
  isVolatile := false
  text := "mulq %rax"
  inputs := some [.var "rax" (by decide) "x"]
  outputs := some [.var "rax" (by decide) "x", .var "rdx" (by decide) "y"]
  order := nofun

theorem asmRewrite_honours_mul :
    ∃ i, asmStatement xy (mulStatement.tokens ++ [.other]) = .ok (i, [.other]) ∧
      Honoured (fun _ => .long) mulStatement i := by
  have h : asmStatement xy (mulStatement.tokens ++ [.other]) = .ok (_, [.other]) := rfl
  refine ⟨_, h, (asmRewrite_honours_iff (fun _ => .long) xy mulStatement h .refl).mpr ⟨?_, ?_⟩⟩
  · simp [mulStatement, Statement.outs, IoItem.alone]
  · change ∀ e ∈ [((4 : PseudoReg), (17 : PseudoReg)), (2, 16)],
      ∀ e' ∈ [((4 : PseudoReg), (17 : PseudoReg)), (2, 16)], e.2 = e'.2 → e = e'
    simp

/-- In `__asm("cpuid" : : rcx)` nothing tells that RCX is trashed. -/
theorem not_asmRewrite_honours : ¬ ∀ (regType : PseudoReg → TypeBits)
    (lookup : String → Option AsmSymbol) (s : Statement) (i : Insn),
      asmStatement lookup s.tokens = .ok (i, []) → Honoured regType s i := by
  intro h
  have hh := h (fun _ => .long) xy ⟨false, "cpuid", some [], some [.reg "rcx" (by decide)], nofun⟩
    _ rfl
  exact absurd (hh.defs _ List.mem_cons_self 3 rfl) (by decide)

end Ncc.Asm
