import Ncc.Run
import Ncc.Lib.Weave

/-! Rewriting of aliased variables (dealias.c).

    The pass runs once, right after the IR of a function is complete. Every insn that mentions the
    register of an aliased variable gets a temporary instead, which is loaded before the insn and
    stored after it. The operand that controls a switch is no insn and is left as it is, and a load
    for the function operand of a call is put between the call and its arguments. `dealias_iff` says
    that nothing else goes wrong.

    Scopes have been left by then, so that a variable is S_LOCAL no more. The temporaries of the pass
    are S_LOCAL symbols, but it never looks at what it inserted. -/

namespace Ncc.Dealias

/-- The storage classes of the variables of a complete function. -/
inductive StorageClass where
  | static | external | auto | register
  deriving DecidableEq

/-- `struct symbol` of a variable with a register; `offset` is where `symbol_storage` puts it. -/
structure Sym where
  id : Symbol
  ss : StorageClass
  ts : TypeBits
  reg : PseudoReg
  offset : Word
  deriving DecidableEq

/-- SYMBOL_ALIASED. -/
def symbolAliased (sym : Sym) : Bool := sym.ss ≠ .register

/-- The symbols that have registers, and the registers `symbol_reg` hands out to the temporaries of
    the pass, in this order. -/
structure Symtab where
  syms : List Sym
  temp : Nat → PseudoReg

variable (tab : Symtab)

/-- `reg_symbol`. -/
def regSymbol (r : PseudoReg) : Option Sym := tab.syms.find? fun sym => sym.reg = pseudoRegBase r

/-- Is it the register of an aliased variable? -/
def aliased (r : PseudoReg) : Bool := (regSymbol tab r).any symbolAliased

/-- What `gen` makes of the address of a variable: the insns it emits, the leaf, and the number of
    the next temporary. -/
def genAddr (sym : Sym) (n : Nat) : List Insn × Operand × Nat :=
  match sym.ss with
  | .static | .external => ([], operandI .ulong 0 (some sym.id), n)
  | .auto | .register =>
    ([insnNew .frame (some (operandReg .ulong (tab.temp n))) (some (operandI .int sym.offset none))],
      operandReg .ulong (tab.temp n), n + 1)

/-- An insn of a block that is being rewritten: what precedes it, and what was inserted after it. -/
structure Cursor where
  before : List Insn
  insn : Insn
  after : List Insn
  next : Nat

/-- `first_arg`: the insns that precede the first argument insn of the sequence, and the sequence up
    to the given insn. -/
def firstArg (before : List Insn) (insn : Insn) : List Insn × List Insn :=
  if insn.op.argument then
    (before.rdropWhile fun i => i.op.argument, before.rtakeWhile fun i => i.op.argument)
  else (before, [])

/-- `dealias1`; the flags say whether the insn USEs and whether it DEFs the variable. -/
def dealias1 (c : Cursor) (sym : Sym) (use defs : Bool) : Cursor :=
  let (frame, addr, n) := genAddr tab sym c.next
  let temp := operandReg sym.ts (tab.temp n)
  let insn := insnSubstituteReg c.insn sym.reg (tab.temp n)
  let (before, run) := firstArg c.before insn
  let loads := if use then frame ++ [insnNew .load (some temp) (some addr)] else []
  let stores :=
    if defs then (if use then [] else frame) ++ [insnNew .store (some addr) (some temp)] else []
  match run with
  | [] => ⟨before ++ loads, insn, stores ++ c.after, n + 1⟩
  | a :: run => ⟨before ++ loads ++ a :: (stores ++ run), insn, c.after, n + 1⟩

/-- One turn of the inner loop of `dealias0`. -/
def dealiasReg (uses defs : Regs) (c : Cursor) (r : PseudoReg) : Cursor :=
  match regSymbol tab r with
  | some sym =>
    if symbolAliased sym then dealias1 tab c sym (decide (r ∈ uses)) (decide (r ∈ defs)) else c
  | none => c

/-- The registers of an insn, as `dealias0` collects them. -/
def insnRegs (insn : Insn) : Regs :=
  regsUnion (regsUnion [] (insnUsesRegs insn)) (insnDefsRegs insn)

/-- One turn of the outer loop of `dealias0`. -/
def dealiasInsn (n : Nat) (before : List Insn) (insn : Insn) : Cursor :=
  (insnRegs insn).foldl (dealiasReg tab (insnUsesRegs insn) (insnDefsRegs insn)) ⟨before, insn, [], n⟩

/-- The loop of `dealias0`. What an insn gets inserted is skipped. -/
def dealias0 : Nat → List Insn → List Insn → Nat × List Insn
  | n, done, [] => (n, done)
  | n, done, insn :: insns =>
    let c := dealiasInsn tab n done insn
    dealias0 c.next (c.before ++ c.insn :: c.after) insns

/-- The walk over the all-blocks list. -/
def dealiasBlocks : Nat → Func → List BlockId → Nat × Func
  | n, f, [] => (n, f)
  | n, f, b :: bs =>
    let (n', insns) := dealias0 tab n [] (f.block b).insns
    dealiasBlocks n' (f.setInsns b insns) bs

/-- The function after `dealias`. The block that collects what is inserted is empty whenever it is
    visited, and is freed: only its label is gone. -/
def dealias (f : Func) : Func :=
  let f' := (dealiasBlocks tab 0 f f.blocks).2
  { f' with lastLabel := f'.lastLabel + 1 }

/-- How many temporaries the pass makes. -/
def temps (f : Func) : Nat := (dealiasBlocks tab 0 f f.blocks).1

/-! ### What the pass is for -/

/-- The insn names the register, in an operand or in the payload of an I_ASM. -/
def Mentions (insn : Insn) (r : PseudoReg) : Prop :=
  r ∈ operandRegs insn.dst ∨ r ∈ operandRegs insn.src1 ∨ r ∈ operandRegs insn.src2 ∨
    (insn.op = .asm ∧ (r ∈ insn.iasm.defs ∨ r ∈ insn.iasm.uses ∨
      (∃ e ∈ insn.iasm.inputs.entries, e.2 = r) ∨ ∃ e ∈ insn.iasm.outputs.entries, e.2 = r))

/-- The registers of aliased variables among those of an insn. -/
def aliasedRegs (insn : Insn) : Regs := (insnRegs insn).filter (aliased tab)

/-- Replace registers, one after the other. -/
def renamed (insn : Insn) (m : List (PseudoReg × PseudoReg)) : Insn :=
  m.foldl (fun i e => insnSubstituteReg i e.1 e.2) insn

/-- `o'` is `o` with the register of every aliased variable replaced by a temporary of its own. -/
structure Renames (n : Nat) (o o' : Insn) (m : List (PseudoReg × PseudoReg)) : Prop where
  regs : m.map Prod.fst = aliasedRegs tab o
  temps : ∀ e ∈ m, ∃ k < n, e.2 = tab.temp k
  nodup : (m.map Prod.snd).Nodup
  insn : o' = renamed o m

/-- What the pass inserts. -/
def Inserted (i : Insn) : Prop := i.op = .frame ∨ i.op = .load ∨ i.op = .store

/-- At the end of `l` the operand denotes the address of the variable. -/
def AddrAt (l : List Insn) (sym : Sym) (addr : Operand) : Prop :=
  ((sym.ss = .static ∨ sym.ss = .external) ∧ addr = operandI .ulong 0 (some sym.id)) ∨
    ∃ a q m, addr = operandReg .ulong a ∧
      l = q ++ insnNew .frame (some addr) (some (operandI .int sym.offset none)) :: m ∧
      ∀ i ∈ m, a ∉ insnDefsRegs i

/-- At the end of `l` the temporary `t` was just loaded from the variable `r`: only more loads of
    variables and the arguments of the same call come after the load. -/
def Loaded (l : List Insn) (r t : PseudoReg) : Prop :=
  ∃ sym q addr m, regSymbol tab r = some sym ∧ AddrAt q sym addr ∧
    l = q ++ insnNew .load (some (operandReg sym.ts t)) (some addr) :: m ∧
    ∀ i ∈ m, (i.op.argument = true ∨ i.op = .frame ∨ i.op = .load) ∧ t ∉ insnDefsRegs i

/-- After `l` the temporary `t` is stored to the variable `r`: only more such stores come first. -/
def Stored (l s : List Insn) (r t : PseudoReg) : Prop :=
  ∃ sym m addr s', regSymbol tab r = some sym ∧ AddrAt (l ++ m) sym addr ∧
    s = m ++ insnNew .store (some addr) (some (operandReg sym.ts t)) :: s' ∧
    ∀ i ∈ m, (i.op = .frame ∨ i.op = .store) ∧ t ∉ insnDefsRegs i

/-- Every insn of `l` is in `l'`, in the same order, with temporaries in place of aliased variables:
    those it reads are loaded immediately before, those it writes are stored immediately after. -/
def Spilled (n : Nat) (l l' : List Insn) : Prop :=
  Weave (fun o o' => ∃ m, Renames tab n o o' m) Inserted l l' ∧
    ∀ p o s, l = p ++ o :: s → ∃ p' o' s' m, l' = p' ++ o' :: s' ∧
      Weave (fun o o' => ∃ m, Renames tab n o o' m) Inserted p p' ∧
      Weave (fun o o' => ∃ m, Renames tab n o o' m) Inserted s s' ∧
      Renames tab n o o' m ∧
      ∀ e ∈ m, (e.1 ∈ insnUsesRegs o → Loaded tab p' e.1 e.2) ∧
        (e.1 ∈ insnDefsRegs o → Stored tab (p' ++ [o']) s' e.1 e.2)

/-- An argument is followed by another argument or by the call. -/
def Follows (a x : Insn) : Prop := a.op.argument = true → x.op.argument = true ∨ x.op = .call

/-- Every sequence of arguments is immediately followed by its call. -/
def Contiguous (l : List Insn) : Prop :=
  l.IsChain Follows ∧ ∀ a ∈ l.getLast?, a.op.argument = false

/-- Dealiasing is complete. -/
structure Complete (f f' : Func) : Prop where
  insns : ∀ b ∈ f.blocks, ∀ insn ∈ (f'.block b).insns, ∀ r, Mentions insn r → aliased tab r = false
  control : ∀ b ∈ f.blocks, ∀ r ∈ operandRegs (f'.block b).control, aliased tab r = false
  spilled : ∀ b ∈ f.blocks, Spilled tab (temps tab f) (f.block b).insns (f'.block b).insns
  calls : ∀ b ∈ f.blocks, Contiguous (f'.block b).insns

/-- What parsing leaves behind: insns are formed, registers have no index yet, arguments are in
    front of their call, and `symbol_reg` has new registers for the temporaries. -/
structure Ready (f : Func) : Prop where
  nodup : f.blocks.Nodup
  formed : ∀ b ∈ f.blocks, ∀ insn ∈ (f.block b).insns, insn.Formed
  outputs : ∀ b ∈ f.blocks, ∀ insn ∈ (f.block b).insns, ∀ e ∈ insn.iasm.outputs.entries,
    e.2 ∈ insn.iasm.defs ∨ e.2 = regNone
  none : aliased tab regNone = false
  base : ∀ b ∈ f.blocks, ∀ insn ∈ (f.block b).insns, ∀ r, Mentions insn r → pseudoRegBase r = r
  calls : ∀ b ∈ f.blocks, Contiguous (f.block b).insns
  inj : ∀ i < temps tab f, ∀ j < temps tab f, tab.temp i = tab.temp j → i = j
  unused : ∀ k < temps tab f, aliased tab (tab.temp k) = false ∧
    ∀ b ∈ f.blocks, ∀ insn ∈ (f.block b).insns, ¬ Mentions insn (tab.temp k)

/-! ### Renaming -/

section
variable {insn : Insn} {r bef aft : PseudoReg}

theorem operandRegs_substitute : ∀ {o : Option Operand},
    r ∈ operandRegs (operandSubstituteReg o bef aft) → r = aft ∨ (r ∈ operandRegs o ∧ r ≠ bef)
  | none, h => absurd h List.not_mem_nil
  | some ⟨_, .con _ _, _⟩, h => absurd h List.not_mem_nil
  | some ⟨ts, .reg q, n⟩, h => by
      by_cases hq : q = bef
      · simp only [operandSubstituteReg, Option.map_some, if_pos hq, operandRegs,
          List.mem_singleton] at h
        exact Or.inl h
      · simp only [operandSubstituteReg, Option.map_some, if_neg hq, operandRegs,
          List.mem_singleton] at h
        subst h
        exact Or.inr ⟨List.mem_singleton_self r, hq⟩

theorem regs_substitute {s : Regs} (h : r ∈ regsSubstitute s bef aft) :
    r = aft ∨ (r ∈ s ∧ r ≠ bef) :=
  (mem_regsSubstitute.mp h).imp_left And.left

theorem regmaps_substitute {m : Regmaps} (h : ∃ e ∈ (regmapsSubstitute m bef aft).entries, e.2 = r) :
    r = aft ∨ ((∃ e ∈ m.entries, e.2 = r) ∧ r ≠ bef) := by
  obtain ⟨e, he, rfl⟩ := h
  obtain ⟨v, hv, hev⟩ := Assoc.mem_mapValues.mp he
  by_cases hb : v = bef
  · rw [if_pos hb] at hev; exact Or.inl hev.symm
  · rw [if_neg hb] at hev
    rw [← hev]
    exact Or.inr ⟨⟨_, hv, rfl⟩, hb⟩

/-- A register the insn names after a substitution was named before, and is not the one replaced. -/
theorem mentions_substitute (h : Mentions (insnSubstituteReg insn bef aft) r) :
    r = aft ∨ (Mentions insn r ∧ r ≠ bef) := by
  rcases h with h | h | h | ⟨hop, h⟩
  · have hd : r = aft ∨ (r ∈ operandRegs insn.dst ∧ r ≠ bef) := by
      cases hu : insn.op.useDst <;>
        simp only [insnSubstituteReg, insnSubstituteUses, insnSubstituteDefs, hu] at h <;>
        exact operandRegs_substitute h
    exact hd.imp_right fun hd => ⟨Or.inl hd.1, hd.2⟩
  · exact (operandRegs_substitute h).imp_right fun hd => ⟨Or.inr (Or.inl hd.1), hd.2⟩
  · exact (operandRegs_substitute h).imp_right fun hd => ⟨Or.inr (Or.inr (Or.inl hd.1)), hd.2⟩
  · have hop' : insn.op = .asm := hop
    simp only [insnSubstituteReg, insnSubstituteUses, insnSubstituteDefs, hop', if_true] at h
    rcases h with h | h | h | h
    · exact (regs_substitute h).imp_right fun hd => ⟨Or.inr (Or.inr (Or.inr ⟨hop', Or.inl hd.1⟩)), hd.2⟩
    · exact (regs_substitute h).imp_right fun hd =>
        ⟨Or.inr (Or.inr (Or.inr ⟨hop', Or.inr (Or.inl hd.1)⟩)), hd.2⟩
    · exact (regmaps_substitute h).imp_right fun hd =>
        ⟨Or.inr (Or.inr (Or.inr ⟨hop', Or.inr (Or.inr (Or.inl hd.1))⟩)), hd.2⟩
    · exact (regmaps_substitute h).imp_right fun hd =>
        ⟨Or.inr (Or.inr (Or.inr ⟨hop', Or.inr (Or.inr (Or.inr hd.1))⟩)), hd.2⟩

theorem mentions_renamed : ∀ {m : List (PseudoReg × PseudoReg)} {insn : Insn},
    Mentions (renamed insn m) r →
      r ∈ m.map Prod.snd ∨ (Mentions insn r ∧ r ∉ m.map Prod.fst)
  | [], _, h => Or.inr ⟨h, List.not_mem_nil⟩
  | e :: m, insn, h => by
      rcases mentions_renamed (m := m) h with hm | ⟨hm, hn⟩
      · exact Or.inl (List.mem_cons_of_mem _ hm)
      · rcases mentions_substitute hm with rfl | ⟨hi, hne⟩
        · exact Or.inl List.mem_cons_self
        · refine Or.inr ⟨hi, fun hc => ?_⟩
          rcases List.mem_cons.mp hc with hc | hc
          · exact hne hc
          · exact hn hc

theorem op_renamed : ∀ (m : List (PseudoReg × PseudoReg)) (insn : Insn),
    (renamed insn m).op = insn.op
  | [], _ => rfl
  | e :: m, insn => op_renamed m (insnSubstituteReg insn e.1 e.2)

theorem mentions_defs (h : r ∈ insnDefsRegs insn) : Mentions insn r := by
  rw [insnDefsRegs] at h
  by_cases hop : insn.op = .asm
  · rw [if_pos hop, hop] at h
    rcases mem_regsUnion.mp h with h | h
    · exact Or.inl h
    · exact Or.inr (Or.inr (Or.inr ⟨hop, Or.inl h⟩))
  · rw [if_neg hop] at h
    split at h
    · exact absurd h List.not_mem_nil
    · exact Or.inl h

theorem mem_insnRegs : r ∈ insnRegs insn ↔ r ∈ insnUsesRegs insn ∨ r ∈ insnDefsRegs insn := by
  simp [insnRegs]

/-- What an insn names is among its registers, except that an I_ASM may set a machine register
    without a variable. -/
theorem mem_insnRegs_of_mentions (ho : ∀ e ∈ insn.iasm.outputs.entries,
    e.2 ∈ insn.iasm.defs ∨ e.2 = regNone) (h : Mentions insn r) (hr : r ≠ regNone) :
    r ∈ insnRegs insn := by
  rw [mem_insnRegs]
  rcases h with h | h | h | ⟨hop, h⟩
  · cases hu : insn.op.useDst <;> simp [insnUsesRegs, insnDefsRegs, hu]
    · split <;> simp [h]
    · split <;> simp [h]
  · exact Or.inl (by simp only [insnUsesRegs]; split <;> simp [h])
  · exact Or.inl (by simp only [insnUsesRegs]; split <;> simp [h])
  · have hd : r ∈ insn.iasm.uses ∨ r ∈ insn.iasm.defs := by
      rcases h with h | h | ⟨e, he, rfl⟩ | ⟨e, he, rfl⟩
      · exact Or.inr h
      · exact Or.inl h
      · exact Or.inl (insn.iasm.inputs_uses e he)
      · exact Or.inr ((ho e he).resolve_right hr)
    simp only [insnUsesRegs, insnDefsRegs, hop, if_true, mem_regsUnion]
    exact hd.imp Or.inr Or.inr

end

/-! ### What is inserted for one insn -/

/-- The treatment of one variable that an insn names; `n` is the number of the next temporary. -/
structure Edit where
  sym : Sym
  n : Nat
  use : Bool
  defs : Bool

namespace Edit

variable (e : Edit)

/-- The insns that compute the address. -/
def frame : List Insn := (genAddr tab e.sym e.n).1

/-- The address. -/
def addr : Operand := (genAddr tab e.sym e.n).2.1

/-- The number of the temporary that replaces the variable. -/
def last : Nat := (genAddr tab e.sym e.n).2.2

/-- The temporary that replaces the variable. -/
def temp : PseudoReg := tab.temp (e.last tab)

/-- What is inserted before the insn. -/
def loads : List Insn :=
  if e.use then
    e.frame tab ++ [insnNew .load (some (operandReg e.sym.ts (e.temp tab))) (some (e.addr tab))]
  else []

/-- What is inserted after the insn. -/
def stores : List Insn :=
  if e.defs then
    (if e.use then [] else e.frame tab) ++
      [insnNew .store (some (e.addr tab)) (some (operandReg e.sym.ts (e.temp tab)))]
  else []

/-- The address of a variable is a constant, or the result of an I_FRAME. -/
theorem frame_addr :
    ((e.sym.ss = .static ∨ e.sym.ss = .external) ∧ e.frame tab = [] ∧
      e.addr tab = operandI .ulong 0 (some e.sym.id) ∧ e.last tab = e.n) ∨
    (e.frame tab = [insnNew .frame (some (e.addr tab)) (some (operandI .int e.sym.offset none))] ∧
      e.addr tab = operandReg .ulong (tab.temp e.n) ∧ e.last tab = e.n + 1) := by
  obtain ⟨⟨id, ss, ts, reg, off⟩, n, use, defs⟩ := e
  cases ss
  · exact Or.inl ⟨Or.inl rfl, rfl, rfl, rfl⟩
  · exact Or.inl ⟨Or.inr rfl, rfl, rfl, rfl⟩
  · exact Or.inr ⟨rfl, rfl, rfl⟩
  · exact Or.inr ⟨rfl, rfl, rfl⟩

theorem le_last : e.n ≤ e.last tab := by
  rcases frame_addr tab e with ⟨_, _, _, h⟩ | ⟨_, _, h⟩ <;> omega

/-- The registers the inserted insns name are temporaries of the edit. -/
theorem mentions_insert {i : Insn} {r : PseudoReg} (hi : i ∈ e.loads tab ∨ i ∈ e.stores tab)
    (h : Mentions i r) : ∃ k, e.n ≤ k ∧ k ≤ e.last tab ∧ r = tab.temp k := by
  have haddr : r ∈ operandRegs (some (e.addr tab)) →
      ∃ k, e.n ≤ k ∧ k ≤ e.last tab ∧ r = tab.temp k := by
    intro hr
    rcases frame_addr tab e with ⟨_, _, ha, _⟩ | ⟨_, ha, hl⟩
    · rw [ha] at hr; exact absurd hr List.not_mem_nil
    · rw [ha] at hr
      exact ⟨e.n, le_rfl, by omega, List.mem_singleton.mp hr⟩
  have htemp : r ∈ operandRegs (some (operandReg e.sym.ts (e.temp tab))) →
      ∃ k, e.n ≤ k ∧ k ≤ e.last tab ∧ r = tab.temp k :=
    fun hr => ⟨e.last tab, le_last tab e, le_rfl, List.mem_singleton.mp hr⟩
  have hframe : i ∈ e.frame tab → ∃ k, e.n ≤ k ∧ k ≤ e.last tab ∧ r = tab.temp k := by
    intro hi
    rcases frame_addr tab e with ⟨_, hf, _, _⟩ | ⟨hf, _, _⟩
    · rw [hf] at hi; exact absurd hi List.not_mem_nil
    · rw [hf, List.mem_singleton] at hi
      subst hi
      rcases h with h | h | h | ⟨h, _⟩
      · exact haddr h
      · exact absurd h List.not_mem_nil
      · exact absurd h List.not_mem_nil
      · exact absurd h (by decide : ¬ InsnOp.frame = .asm)
  rcases hi with hi | hi
  · rw [loads] at hi
    split at hi
    · rcases List.mem_append.mp hi with hi | hi
      · exact hframe hi
      · rw [List.mem_singleton.mp hi] at h
        rcases h with h | h | h | ⟨h, _⟩
        · exact htemp h
        · exact haddr h
        · exact absurd h List.not_mem_nil
        · exact absurd h (by decide : ¬ InsnOp.load = .asm)
    · exact absurd hi List.not_mem_nil
  · rw [stores] at hi
    split at hi
    · rcases List.mem_append.mp hi with hi | hi
      · split at hi
        · exact absurd hi List.not_mem_nil
        · exact hframe hi
      · rw [List.mem_singleton.mp hi] at h
        rcases h with h | h | h | ⟨h, _⟩
        · exact haddr h
        · exact htemp h
        · exact absurd h List.not_mem_nil
        · exact absurd h (by decide : ¬ InsnOp.store = .asm)
    · exact absurd hi List.not_mem_nil

theorem op_loads {i : Insn} (hi : i ∈ e.loads tab) : i.op = .frame ∨ i.op = .load := by
  rw [loads] at hi
  split at hi
  · rcases List.mem_append.mp hi with hi | hi
    · rcases frame_addr tab e with ⟨_, hf, _, _⟩ | ⟨hf, _, _⟩
      · rw [hf] at hi; exact absurd hi List.not_mem_nil
      · rw [hf, List.mem_singleton] at hi; rw [hi]; exact Or.inl rfl
    · rw [List.mem_singleton.mp hi]; exact Or.inr rfl
  · exact absurd hi List.not_mem_nil

theorem op_stores {i : Insn} (hi : i ∈ e.stores tab) : i.op = .frame ∨ i.op = .store := by
  rw [stores] at hi
  split at hi
  · rcases List.mem_append.mp hi with hi | hi
    · split at hi
      · exact absurd hi List.not_mem_nil
      · rcases frame_addr tab e with ⟨_, hf, _, _⟩ | ⟨hf, _, _⟩
        · rw [hf] at hi; exact absurd hi List.not_mem_nil
        · rw [hf, List.mem_singleton] at hi; rw [hi]; exact Or.inl rfl
    · rw [List.mem_singleton.mp hi]; exact Or.inr rfl
  · exact absurd hi List.not_mem_nil

end Edit

/-- The edits of an insn, from a list of its registers. -/
def edits (uses defs : Regs) : Nat → Regs → List Edit
  | _, [] => []
  | n, r :: rs =>
    match (regSymbol tab r).filter symbolAliased with
    | some sym =>
      let e : Edit := ⟨sym, n, decide (r ∈ uses), decide (r ∈ defs)⟩
      e :: edits uses defs (e.last tab + 1) rs
    | none => edits uses defs n rs

/-- The number of the next temporary after some edits. -/
def nextTemp (n : Nat) (es : List Edit) : Nat := es.foldl (fun _ e => e.last tab + 1) n

/-- The edits use temporaries in ascending order, starting with `n`. -/
def Ascending : Nat → List Edit → Prop
  | _, [] => True
  | n, e :: es => e.n = n ∧ Ascending (e.last tab + 1) es

variable {uses defs : Regs}

theorem ascending_edits : ∀ {n : Nat} (rs : Regs), Ascending tab n (edits tab uses defs n rs)
  | _, [] => trivial
  | n, r :: rs => by
      rw [edits]
      split
      · exact ⟨rfl, ascending_edits rs⟩
      · exact ascending_edits rs

theorem le_nextTemp : ∀ {n : Nat} {es : List Edit}, Ascending tab n es → n ≤ nextTemp tab n es
  | _, [], _ => le_rfl
  | n, e :: es, ⟨he, hes⟩ => by
      have h := le_nextTemp hes
      have hl := e.le_last tab
      rw [nextTemp, List.foldl_cons, ← nextTemp]
      omega

/-- The numbers an edit uses lie between the first and the next. -/
theorem ascending_mem : ∀ {n : Nat} {es : List Edit}, Ascending tab n es → ∀ e ∈ es,
    n ≤ e.n ∧ e.last tab < nextTemp tab n es
  | n, e :: es, ⟨he, hes⟩, e', h' => by
      rw [nextTemp, List.foldl_cons, ← nextTemp]
      rcases List.mem_cons.mp h' with rfl | h'
      · exact ⟨he.ge, le_nextTemp tab hes⟩
      · obtain ⟨h₁, h₂⟩ := ascending_mem hes e' h'
        have hl := e.le_last tab
        exact ⟨by omega, h₂⟩

/-- Later edits use later temporaries. -/
theorem ascending_split : ∀ {n : Nat} {es₁ : List Edit} {e : Edit} {es₂ : List Edit},
    Ascending tab n (es₁ ++ e :: es₂) →
      (∀ e' ∈ es₁, e'.last tab < e.n) ∧ ∀ e' ∈ es₂, e.last tab < e'.n
  | n, [], e, es₂, ⟨_, hes⟩ =>
      ⟨fun _ h => absurd h List.not_mem_nil, fun e' h' => (ascending_mem tab hes e' h').1⟩
  | n, e₁ :: es₁, e, es₂, ⟨_, hes⟩ => by
      obtain ⟨h₁, h₂⟩ := ascending_split hes
      have he := (ascending_mem tab hes e (by simp)).1
      refine ⟨fun e' h' => ?_, h₂⟩
      rcases List.mem_cons.mp h' with rfl | h'
      · omega
      · exact h₁ e' h'

/-- Every edit belongs to a register of the list that an aliased variable has. -/
theorem mem_edits : ∀ {n : Nat} {rs : Regs} {e : Edit}, e ∈ edits tab uses defs n rs →
    ∃ r ∈ rs, regSymbol tab r = some e.sym ∧ symbolAliased e.sym = true ∧
      e.use = decide (r ∈ uses) ∧ e.defs = decide (r ∈ defs)
  | n, r :: rs, e, he => by
      rw [edits] at he
      split at he
      · rename_i sym hs
        obtain ⟨hs, ha⟩ := Option.filter_eq_some_iff.mp hs
        rcases List.mem_cons.mp he with rfl | he
        · exact ⟨r, List.mem_cons_self, hs, ha, rfl, rfl⟩
        · obtain ⟨q, hq, h⟩ := mem_edits he
          exact ⟨q, List.mem_cons_of_mem _ hq, h⟩
      · obtain ⟨q, hq, h⟩ := mem_edits he
        exact ⟨q, List.mem_cons_of_mem _ hq, h⟩

/-- The edits rename the aliased registers of the list. -/
theorem regs_edits : ∀ {n : Nat} {rs : Regs}, (∀ r ∈ rs, ∀ sym, regSymbol tab r = some sym →
    sym.reg = r) → (edits tab uses defs n rs).map (fun e => e.sym.reg) = rs.filter (aliased tab)
  | _, [], _ => rfl
  | n, r :: rs, h => by
      have hrs : ∀ q ∈ rs, ∀ sym, regSymbol tab q = some sym → sym.reg = q :=
        fun q hq => h q (List.mem_cons_of_mem _ hq)
      rw [edits]
      split
      · rename_i sym hs
        obtain ⟨hs, ha⟩ := Option.filter_eq_some_iff.mp hs
        have hal : aliased tab r = true := by rw [aliased, hs]; exact ha
        rw [List.filter_cons_of_pos hal, List.map_cons, regs_edits hrs,
          h r List.mem_cons_self sym hs]
      · rename_i hs
        have hal : ¬ aliased tab r = true := by
          rw [aliased]
          cases hr : regSymbol tab r with
          | none => simp
          | some sym => simp_all [Option.filter]
        rw [List.filter_cons_of_neg hal, regs_edits hrs]

/-- `before ++ run` is what precedes `insn`, split where its loads go. -/
structure SplitAt (before run : List Insn) (insn : Insn) : Prop where
  args : ∀ i ∈ run, i.op.argument = true
  ends : insn.op.argument = true → ∀ i ∈ before.getLast?, i.op.argument = false
  single : insn.op.argument = false → run = []

theorem rtakeWhile_eq {p : Insn → Bool} {l run : List Insn} (hrun : ∀ i ∈ run, p i = true)
    (hl : ∀ i ∈ l.getLast?, p i = false) :
    (l ++ run).rdropWhile p = l ∧ (l ++ run).rtakeWhile p = run := by
  have hr : ∀ i ∈ run.reverse, p i = true := fun i hi => hrun i (List.mem_reverse.mp hi)
  have hd : l.reverse.dropWhile p = l.reverse ∧ l.reverse.takeWhile p = [] := by
    rcases List.eq_nil_or_concat' l with rfl | ⟨l, x, rfl⟩
    · exact ⟨rfl, rfl⟩
    · have hx : p x = false := hl x (by simp)
      simp [hx]
  constructor
  · rw [List.rdropWhile, List.reverse_append, List.dropWhile_append_of_pos hr, hd.1,
      List.reverse_reverse]
  · rw [List.rtakeWhile, List.reverse_append, List.takeWhile_append_of_pos hr, hd.2,
      List.append_nil, List.reverse_reverse]

theorem firstArg_eq {before run : List Insn} {insn : Insn} (h : SplitAt before run insn) :
    firstArg (before ++ run) insn = (before, run) := by
  rw [firstArg]
  cases ha : insn.op.argument with
  | true =>
    obtain ⟨h₁, h₂⟩ := rtakeWhile_eq (p := fun i : Insn => i.op.argument) h.args (h.ends ha)
    rw [if_pos rfl, h₁, h₂]
  | false => rw [if_neg Bool.false_ne_true, h.single ha, List.append_nil]

/-- Everything that precedes an insn can be split so. -/
theorem exists_splitAt (done : List Insn) (insn : Insn) :
    ∃ before run, done = before ++ run ∧ SplitAt before run insn := by
  cases ha : insn.op.argument with
  | false =>
    exact ⟨done, [], (List.append_nil _).symm, fun i hi => absurd hi List.not_mem_nil,
      fun h => absurd (ha.symm.trans h) Bool.false_ne_true, fun _ => rfl⟩
  | true =>
    refine ⟨done.rdropWhile fun i => i.op.argument, done.rtakeWhile fun i => i.op.argument, ?_,
      ⟨fun i hi => List.mem_rtakeWhile_imp (p := fun i : Insn => i.op.argument) hi, fun _ i hi => ?_,
        fun h => absurd (ha.symm.trans h).symm Bool.false_ne_true⟩⟩
    · rw [List.rdropWhile, List.rtakeWhile, ← List.reverse_append, List.takeWhile_append_dropWhile,
        List.reverse_reverse]
    · by_contra hc
      have hne : done.rdropWhile (fun i => i.op.argument) ≠ [] := by
        intro he
        rw [he] at hi
        exact absurd hi (by simp)
      rw [List.getLast?_eq_getLast_of_ne_nil hne] at hi
      have hl := List.rdropWhile_last_not _ _ hne
      rw [Option.mem_def.mp hi |> Option.some.inj] at hl
      exact hl (by simpa using hc)

/-- A load in front of the sequence leaves the place for the next load where it is. -/
theorem SplitAt.loads {before run : List Insn} {insn : Insn} (h : SplitAt before run insn)
    (insn' : Insn) (ho : insn'.op = insn.op) (e : Edit) :
    SplitAt (before ++ e.loads tab) run insn' := by
  refine ⟨h.args, fun ha i hi => ?_, fun ha => h.single (ho ▸ ha)⟩
  rw [ho] at ha
  rcases List.eq_nil_or_concat' (e.loads tab) with he | ⟨l, x, he⟩
  · rw [he, List.append_nil] at hi; exact h.ends ha i hi
  · rw [he, ← List.append_assoc, List.getLast?_concat] at hi
    obtain rfl := Option.some.inj hi
    rcases e.op_loads tab (i := x) (by rw [he]; simp) with hx | hx <;> rw [hx] <;> rfl

/-- One variable: loads in front of the sequence, stores after the insn. -/
theorem dealias1_eq {before run after : List Insn} {insn : Insn} (h : SplitAt before run insn)
    (e : Edit) (hd : insn.op.argument = true → e.defs = false) :
    dealias1 tab ⟨before ++ run, insn, after, e.n⟩ e.sym e.use e.defs =
      ⟨before ++ e.loads tab ++ run, insnSubstituteReg insn e.sym.reg (e.temp tab),
        e.stores tab ++ after, e.last tab + 1⟩ := by
  have hsub : firstArg (before ++ run) (insnSubstituteReg insn e.sym.reg (e.temp tab)) =
      (before, run) := firstArg_eq ⟨h.args, h.ends, h.single⟩
  cases hr : run with
  | nil =>
    rw [hr] at hsub
    simp only [dealias1]
    rw [show tab.temp (genAddr tab e.sym e.n).2.2 = e.temp tab from rfl, hsub]
    simp [Edit.loads, Edit.stores, Edit.frame, Edit.addr, Edit.temp, Edit.last]
  | cons a run' =>
    have ha : insn.op.argument = true := by
      cases ha : insn.op.argument with
      | true => rfl
      | false => rw [h.single ha] at hr; exact absurd hr (by simp)
    rw [hr] at hsub
    simp only [dealias1]
    rw [show tab.temp (genAddr tab e.sym e.n).2.2 = e.temp tab from rfl, hsub]
    simp [Edit.loads, Edit.stores, Edit.frame, Edit.addr, Edit.temp, Edit.last, hd ha]

/-- What the inner loop of `dealias0` does to an insn. -/
theorem foldl_dealiasReg {uses defs : Regs} : ∀ {rs : Regs} {before run after : List Insn}
    {insn : Insn} {n : Nat}, SplitAt before run insn →
    (insn.op.argument = true → defs = []) →
    rs.foldl (dealiasReg tab uses defs) ⟨before ++ run, insn, after, n⟩ =
      let es := edits tab uses defs n rs
      ⟨before ++ es.flatMap (Edit.loads tab) ++ run,
        renamed insn (es.map fun e => (e.sym.reg, e.temp tab)),
        es.reverse.flatMap (Edit.stores tab) ++ after, nextTemp tab n es⟩
  | [], before, run, after, insn, n, _, _ => by
      simp [edits, renamed, nextTemp]
  | r :: rs, before, run, after, insn, n, h, hd => by
      rw [List.foldl_cons, edits, dealiasReg]
      cases hr : regSymbol tab r with
      | none => exact foldl_dealiasReg h hd
      | some sym =>
        by_cases ha : symbolAliased sym
        · let e : Edit := ⟨sym, n, decide (r ∈ uses), decide (r ∈ defs)⟩
          have h1 : dealias1 tab ⟨before ++ run, insn, after, n⟩ sym (decide (r ∈ uses))
              (decide (r ∈ defs)) = _ := dealias1_eq tab h e fun hi => by
            simp only [e, hd hi]; rfl
          simp only [ha, if_true, h1, Option.filter_some]
          rw [foldl_dealiasReg (h.loads tab (insnSubstituteReg insn sym.reg _) rfl
            ⟨sym, n, decide (r ∈ uses), decide (r ∈ defs)⟩) hd]
          simp [renamed, nextTemp, List.append_assoc, e]
        · simp only [ha, Option.filter_some]
          exact foldl_dealiasReg h hd

/-! ### One insn -/

/-- An insn as parsing leaves it, none of whose registers is one of the first `N` temporaries. -/
structure Plain (N : Nat) (insn : Insn) : Prop where
  formed : insn.Formed
  outputs : ∀ e ∈ insn.iasm.outputs.entries, e.2 ∈ insn.iasm.defs ∨ e.2 = regNone
  base : ∀ r, Mentions insn r → pseudoRegBase r = r
  unused : ∀ k < N, ¬ Mentions insn (tab.temp k)

theorem mentions_uses {insn : Insn} {r : PseudoReg} (h : r ∈ insnUsesRegs insn) :
    Mentions insn r := by
  have hasm : r ∈ (if insn.op = .asm then insn.iasm.uses else []) → Mentions insn r := by
    intro h
    split at h
    · rename_i hop; exact Or.inr (Or.inr (Or.inr ⟨hop, Or.inr (Or.inl h)⟩))
    · exact absurd h List.not_mem_nil
  have hdst : r ∈ (if insn.op.useDst then operandRegs insn.dst else []) → Mentions insn r := by
    intro h
    split at h
    · exact Or.inl h
    · exact absurd h List.not_mem_nil
  have h' : ((r ∈ (if insn.op.useDst then operandRegs insn.dst else []) ∨
      r ∈ operandRegs insn.src1) ∨ r ∈ operandRegs insn.src2) ∨
      r ∈ (if insn.op = .asm then insn.iasm.uses else []) := by
    rw [insnUsesRegs] at h
    by_cases hop : insn.op = .asm
    · rw [if_pos hop] at h ⊢
      simpa only [mem_regsUnion] using h
    · rw [if_neg hop] at h ⊢
      exact Or.inl (by simpa only [mem_regsUnion] using h)
  rcases h' with ((h | h) | h) | h
  · exact hdst h
  · exact Or.inr (Or.inl h)
  · exact Or.inr (Or.inr (Or.inl h))
  · exact hasm h

theorem defs_argument {insn : Insn} (hd : insn.op.argument = true → insn.dst = none)
    (h : insn.op.argument = true) : insnDefsRegs insn = [] := by
  have hop : insn.op ≠ .asm := by intro he; rw [he] at h; exact absurd h (by decide)
  simp [insnDefsRegs, hop, hd h, operandRegs]

theorem dst_argument {insn : Insn} (hf : insn.Formed) (h : insn.op.argument = true) :
    insn.dst = none := by
  refine hf.dst ?_
  cases ho : insn.op <;> rw [ho] at h <;> first | rfl | exact absurd h Bool.false_ne_true

theorem dst_renamed : ∀ (m : List (PseudoReg × PseudoReg)) {insn : Insn}, insn.dst = none →
    (renamed insn m).dst = none
  | [], _, h => h
  | e :: m, insn, h => by
      refine @dst_renamed m (insnSubstituteReg insn e.1 e.2) ?_
      simp [insnSubstituteReg, insnSubstituteUses, insnSubstituteDefs, h, operandSubstituteReg]

variable {tab} {N n : Nat} {insn : Insn}

theorem Plain.symbol (h : Plain tab N insn) {r : PseudoReg} (hr : r ∈ insnRegs insn) {sym : Sym}
    (hs : regSymbol tab r = some sym) : sym.reg = r := by
  have hm : Mentions insn r := (mem_insnRegs.mp hr).elim mentions_uses mentions_defs
  have hf := List.find?_some hs
  rw [decide_eq_true_eq, h.base r hm] at hf
  exact hf

variable (tab) in
/-- The edits of an insn. -/
def insnEdits (n : Nat) (insn : Insn) : List Edit :=
  edits tab (insnUsesRegs insn) (insnDefsRegs insn) n (insnRegs insn)

variable (tab) in
/-- The temporaries that replace the variables of an insn. -/
def insnTemps (n : Nat) (insn : Insn) : List (PseudoReg × PseudoReg) :=
  (insnEdits tab n insn).map fun e => (e.sym.reg, e.temp tab)

theorem ascending_insnEdits (n : Nat) (insn : Insn) : Ascending tab n (insnEdits tab n insn) :=
  ascending_edits tab _

theorem dealiasInsn_eq (h : Plain tab N insn) {before run : List Insn}
    (hs : SplitAt before run insn) : dealiasInsn tab n (before ++ run) insn =
      ⟨before ++ (insnEdits tab n insn).flatMap (Edit.loads tab) ++ run,
        renamed insn (insnTemps tab n insn),
        (insnEdits tab n insn).reverse.flatMap (Edit.stores tab),
        nextTemp tab n (insnEdits tab n insn)⟩ := by
  rw [dealiasInsn, foldl_dealiasReg tab hs fun ha => defs_argument (dst_argument h.formed) ha]
  simp [insnEdits, insnTemps]

theorem nodup_temps (hinj : ∀ i < N, ∀ j < N, tab.temp i = tab.temp j → i = j) :
    ∀ {n : Nat} {es : List Edit}, Ascending tab n es → nextTemp tab n es ≤ N →
      (es.map (Edit.temp tab)).Nodup
  | _, [], _, _ => List.nodup_nil
  | n, e :: es, ⟨he, hes⟩, hN => by
      rw [nextTemp, List.foldl_cons, ← nextTemp] at hN
      refine List.nodup_cons.mpr ⟨fun hc => ?_, nodup_temps hinj hes hN⟩
      obtain ⟨e', he', ht⟩ := List.mem_map.mp hc
      obtain ⟨h₁, h₂⟩ := ascending_mem tab hes e' he'
      have h₃ := e'.le_last tab
      have := hinj _ (by omega) _ (by omega) ht
      omega

theorem renames_insn (h : Plain tab N insn)
    (hinj : ∀ i < N, ∀ j < N, tab.temp i = tab.temp j → i = j)
    (hN : nextTemp tab n (insnEdits tab n insn) ≤ N) :
    Renames tab (nextTemp tab n (insnEdits tab n insn)) insn (renamed insn (insnTemps tab n insn))
      (insnTemps tab n insn) := by
  refine ⟨?_, fun e he => ?_, ?_, rfl⟩
  · rw [insnTemps, List.map_map]
    exact regs_edits tab fun r hr sym hs => h.symbol hr hs
  · obtain ⟨e', he', rfl⟩ := List.mem_map.mp he
    exact ⟨_, (ascending_mem tab (ascending_insnEdits n insn) e' he').2, rfl⟩
  · rw [insnTemps, List.map_map]
    exact nodup_temps hinj (ascending_insnEdits n insn) hN

/-- A register that an edit's insns name is one of its temporaries. -/
theorem defs_insert {e : Edit} {i : Insn} {r : PseudoReg}
    (hi : i ∈ e.loads tab ∨ i ∈ e.stores tab) (h : r ∈ insnDefsRegs i) :
    ∃ k, e.n ≤ k ∧ k ≤ e.last tab ∧ r = tab.temp k :=
  e.mentions_insert tab hi (mentions_defs h)

/-- What an insn reads is loaded. -/
theorem loaded_insn (hinj : ∀ i < N, ∀ j < N, tab.temp i = tab.temp j → i = j)
    {es₁ es₂ : List Edit} {e : Edit} (hes : Ascending tab n (es₁ ++ e :: es₂))
    (hN : nextTemp tab n (es₁ ++ e :: es₂) ≤ N) {before run : List Insn}
    (hrun : ∀ i ∈ run, i.op.argument = true ∧ insnDefsRegs i = []) {r : PseudoReg}
    (hs : regSymbol tab r = some e.sym) (hu : e.use = true) :
    Loaded tab (before ++ (es₁ ++ e :: es₂).flatMap (Edit.loads tab) ++ run) r (e.temp tab) := by
  refine ⟨e.sym, before ++ es₁.flatMap (Edit.loads tab) ++ e.frame tab, e.addr tab,
    es₂.flatMap (Edit.loads tab) ++ run, hs, ?_, ?_, fun i hi => ?_⟩
  · rcases e.frame_addr tab with ⟨hss, _, ha, _⟩ | ⟨hf, ha, _⟩
    · exact Or.inl ⟨hss, ha⟩
    · exact Or.inr ⟨_, _, [], ha, by rw [hf], fun i hi => absurd hi List.not_mem_nil⟩
  · simp [Edit.loads, hu]
  · rcases List.mem_append.mp hi with hi | hi
    · obtain ⟨e', he', hi⟩ := List.mem_flatMap.mp hi
      refine ⟨Or.inr (e'.op_loads tab hi), fun ht => ?_⟩
      obtain ⟨k, hk₁, hk₂, hk⟩ := defs_insert (Or.inl hi) ht
      have h₁ := (ascending_split tab hes).2 e' he'
      have h₂ := (ascending_mem tab hes e' (by simp [he'])).2
      have h₃ := (ascending_mem tab hes e (by simp)).2
      have := hinj _ (by omega) _ (by omega) hk
      omega
    · obtain ⟨ha, hd⟩ := hrun i hi
      exact ⟨Or.inl ha, by rw [hd]; exact List.not_mem_nil⟩

/-- What an insn writes is stored. -/
theorem stored_insn (hinj : ∀ i < N, ∀ j < N, tab.temp i = tab.temp j → i = j)
    {es₁ es₂ : List Edit} {e : Edit} (hes : Ascending tab n (es₁ ++ e :: es₂))
    (hN : nextTemp tab n (es₁ ++ e :: es₂) ≤ N) {before run : List Insn} {insn' : Insn}
    (hrun : ∀ i ∈ run, insnDefsRegs i = [])
    (hi' : ∀ k < N, tab.temp k ∈ insnDefsRegs insn' → ∃ e' ∈ es₁ ++ e :: es₂, k = e'.last tab)
    {r : PseudoReg} (hs : regSymbol tab r = some e.sym) (hd : e.defs = true) :
    Stored tab (before ++ (es₁ ++ e :: es₂).flatMap (Edit.loads tab) ++ run ++ [insn'])
      ((es₁ ++ e :: es₂).reverse.flatMap (Edit.stores tab)) r (e.temp tab) := by
  have hle := e.le_last tab
  have hlast := (ascending_mem tab hes e (by simp)).2
  obtain ⟨hlt₁, hlt₂⟩ := ascending_split tab hes
  -- the later edits have temporaries of their own
  have hlater : ∀ e' ∈ es₂, ∀ i, i ∈ e'.loads tab ∨ i ∈ e'.stores tab → ∀ k, k ≤ e.last tab →
      tab.temp k ∉ insnDefsRegs i := by
    intro e' he' i hi k hk ht
    obtain ⟨j, hj₁, hj₂, hj⟩ := defs_insert hi ht
    have h₁ := hlt₂ e' he'
    have h₂ := (ascending_mem tab hes e' (by simp [he'])).2
    have := hinj _ (by omega) _ (by omega) hj
    omega
  let m := es₂.reverse.flatMap (Edit.stores tab) ++ if e.use then [] else e.frame tab
  have hm : ∀ i ∈ es₂.reverse.flatMap (Edit.stores tab), (i.op = .frame ∨ i.op = .store) ∧
      ∀ k, k ≤ e.last tab → tab.temp k ∉ insnDefsRegs i := by
    intro i hi
    obtain ⟨e', he', hi⟩ := List.mem_flatMap.mp hi
    exact ⟨e'.op_stores tab hi, hlater e' (List.mem_reverse.mp he') i (Or.inr hi)⟩
  refine ⟨e.sym, m, e.addr tab, es₁.reverse.flatMap (Edit.stores tab), hs, ?_, ?_, ?_⟩
  · rcases e.frame_addr tab with ⟨hss, _, ha, _⟩ | ⟨hf, ha, hl⟩
    · exact Or.inl ⟨hss, ha⟩
    · cases hu : e.use with
      | false =>
        refine Or.inr ⟨_, before ++ (es₁ ++ e :: es₂).flatMap (Edit.loads tab) ++ run ++ [insn'] ++
          es₂.reverse.flatMap (Edit.stores tab), [], ha, ?_, fun i hi => absurd hi List.not_mem_nil⟩
        simp [m, hu, hf]
      | true =>
        -- the address was computed for the load, and its register is not written since
        refine Or.inr ⟨_, before ++ es₁.flatMap (Edit.loads tab),
          insnNew .load (some (operandReg e.sym.ts (e.temp tab))) (some (e.addr tab)) ::
            (es₂.flatMap (Edit.loads tab) ++ run ++ [insn'] ++
              es₂.reverse.flatMap (Edit.stores tab)), ha, ?_, fun i hi hc => ?_⟩
        · simp [m, hu, hf, Edit.loads]
        · rcases List.mem_cons.mp hi with rfl | hi
          · have ht : tab.temp e.n = tab.temp (e.last tab) := List.mem_singleton.mp hc
            have := hinj _ (by omega) _ (by omega) ht
            omega
          · rcases List.mem_append.mp hi with hi | hi
            · rcases List.mem_append.mp hi with hi | hi
              · rcases List.mem_append.mp hi with hi | hi
                · obtain ⟨e', he', hi⟩ := List.mem_flatMap.mp hi
                  exact hlater e' he' i (Or.inl hi) _ hle hc
                · rw [hrun i hi] at hc; exact absurd hc List.not_mem_nil
              · rw [List.mem_singleton.mp hi] at hc
                obtain ⟨e', he', hk⟩ := hi' _ (by omega) hc
                rcases List.mem_append.mp he' with he' | he'
                · have := hlt₁ e' he'; omega
                · rcases List.mem_cons.mp he' with rfl | he'
                  · omega
                  · have := hlt₂ e' he'
                    have := e'.le_last tab
                    omega
            · exact (hm i hi).2 _ hle hc
  · simp [m, Edit.stores, hd]
  · intro i hi
    rcases List.mem_append.mp hi with hi | hi
    · exact ⟨(hm i hi).1, (hm i hi).2 _ le_rfl⟩
    · split at hi
      · exact absurd hi List.not_mem_nil
      · rcases e.frame_addr tab with ⟨_, hf, _, _⟩ | ⟨hf, ha, hl⟩
        · rw [hf] at hi; exact absurd hi List.not_mem_nil
        · rw [hf, ha] at hi
          rw [List.mem_singleton.mp hi]
          refine ⟨Or.inl rfl, fun hc => ?_⟩
          have ht : tab.temp (e.last tab) = tab.temp e.n := List.mem_singleton.mp hc
          have := hinj _ (by omega) _ (by omega) ht
          omega

/-! ### One turn of the loop -/

theorem Renames.mono {n n' : Nat} (hn : n ≤ n') {o o' : Insn} {m : List (PseudoReg × PseudoReg)}
    (h : Renames tab n o o' m) : Renames tab n' o o' m :=
  ⟨h.regs, fun e he => (h.temps e he).imp fun _ hk => ⟨hk.1.trans_le hn, hk.2⟩, h.nodup, h.insn⟩

theorem weave_mono {n n' : Nat} (hn : n ≤ n') {l l' : List Insn}
    (h : Weave (fun o o' => ∃ m, Renames tab n o o' m) Inserted l l') :
    Weave (fun o o' => ∃ m, Renames tab n' o o' m) Inserted l l' :=
  h.mono fun _ _ ⟨m, hm⟩ => ⟨m, hm.mono hn⟩

/-- Where an element of a list in two parts stands. -/
theorem append_eq_middle {α : Type*} {l₁ l₂ p s : List α} {x : α} (h : l₁ ++ l₂ = p ++ x :: s) :
    (∃ d, p = l₁ ++ d ∧ l₂ = d ++ x :: s) ∨ ∃ d, l₁ = p ++ x :: d ∧ s = d ++ l₂ := by
  rcases List.append_eq_append_iff.mp h with ⟨d, hp, hd⟩ | ⟨d, hl, hd⟩
  · exact Or.inl ⟨d, hp, hd⟩
  · cases d with
    | nil => exact Or.inl ⟨[], by rw [hl]; simp, hd.symm⟩
    | cons y d =>
      obtain ⟨rfl, rfl⟩ := List.cons.inj hd
      exact Or.inr ⟨d, hl, rfl⟩

/-- Loads for a later insn of the same call do not disturb the loads that are there. -/
theorem Loaded.insertMid {before run loads : List Insn} {r t : PseudoReg}
    (hl : ∀ i ∈ loads, (i.op = .frame ∨ i.op = .load) ∧ t ∉ insnDefsRegs i)
    (hrun : ∀ i ∈ run, i.op.argument = true)
    (h : Loaded tab (before ++ run) r t) : Loaded tab (before ++ loads ++ run) r t := by
  obtain ⟨sym, q, addr, m, hs, ha, hq, hm⟩ := h
  rcases append_eq_middle hq with ⟨d, _, hd⟩ | ⟨d, hd, rfl⟩
  · -- the load cannot be one of the arguments
    have hmem := hrun (insnNew .load (some (operandReg sym.ts t)) (some addr)) (by rw [hd]; simp)
    exact absurd hmem Bool.false_ne_true
  · refine ⟨sym, q, addr, d ++ loads ++ run, hs, ha, by rw [hd]; simp, fun i hi => ?_⟩
    rcases List.mem_append.mp hi with hi | hi
    · rcases List.mem_append.mp hi with hi | hi
      · exact hm i (List.mem_append_left _ hi)
      · exact ⟨Or.inr (hl i hi).1, (hl i hi).2⟩
    · exact hm i (List.mem_append_right _ hi)

/-- What is stored after an insn stays so when the list grows. -/
theorem Stored.grow {l s run : List Insn} (s' : List Insn) {r t : PseudoReg}
    (hrun : ∀ i ∈ run, i.op.argument = true) (h : Stored tab l (s ++ run) r t) :
    Stored tab l (s ++ s') r t := by
  obtain ⟨sym, m, addr, s₂, hs, ha, hq, hm⟩ := h
  rcases append_eq_middle hq with ⟨d, _, hd⟩ | ⟨d, hd, rfl⟩
  · have hmem := hrun (insnNew .store (some addr) (some (operandReg sym.ts t))) (by rw [hd]; simp)
    exact absurd hmem Bool.false_ne_true
  · exact ⟨sym, m, addr, d ++ s', hs, ha, by rw [hd]; simp, hm⟩

/-- The list before a turn, and the list after it. -/
theorem spilled_step (hp : Plain tab N insn)
    (hinj : ∀ i < N, ∀ j < N, tab.temp i = tab.temp j → i = j)
    (hN : nextTemp tab n (insnEdits tab n insn) ≤ N) {l before run : List Insn}
    (hs : SplitAt before run insn)
    (hrun : ∀ i ∈ run, insnDefsRegs i = [])
    (hargs : ∀ o ∈ l, o.op.argument = true → insnDefsRegs o = [])
    (h : Spilled tab n l (before ++ run)) :
    Spilled tab (nextTemp tab n (insnEdits tab n insn)) (l ++ [insn])
      (before ++ (insnEdits tab n insn).flatMap (Edit.loads tab) ++ run ++
        renamed insn (insnTemps tab n insn) ::
          (insnEdits tab n insn).reverse.flatMap (Edit.stores tab)) := by
  have hasc : Ascending tab n (insnEdits tab n insn) := ascending_insnEdits n insn
  have hle : n ≤ nextTemp tab n (insnEdits tab n insn) := le_nextTemp tab hasc
  have hren := renames_insn hp hinj hN
  have hloads : ∀ i ∈ (insnEdits tab n insn).flatMap (Edit.loads tab),
      (i.op = .frame ∨ i.op = .load) ∧ ∀ k < n, tab.temp k ∉ insnDefsRegs i := by
    intro i hi
    obtain ⟨e, he, hi⟩ := List.mem_flatMap.mp hi
    refine ⟨e.op_loads tab hi, fun k hk hc => ?_⟩
    obtain ⟨j, hj₁, hj₂, hj⟩ := defs_insert (Or.inl hi) hc
    obtain ⟨h₁, h₂⟩ := ascending_mem tab hasc e he
    have := hinj _ (by omega) _ (by omega) hj
    omega
  have hinsL : ∀ i ∈ (insnEdits tab n insn).flatMap (Edit.loads tab), Inserted i :=
    fun i hi => (hloads i hi).1.imp_right Or.inl
  have hinsS : ∀ i ∈ (insnEdits tab n insn).reverse.flatMap (Edit.stores tab), Inserted i := by
    intro i hi
    obtain ⟨e, _, hi⟩ := List.mem_flatMap.mp hi
    exact (e.op_stores tab hi).imp_right Or.inr
  have hlast : Weave (fun o o' => ∃ m, Renames tab (nextTemp tab n (insnEdits tab n insn)) o o' m)
      Inserted [insn] (renamed insn (insnTemps tab n insn) ::
        (insnEdits tab n insn).reverse.flatMap (Edit.stores tab)) :=
    .keep ⟨_, hren⟩ (.inserts hinsS)
  have hwhole : Weave (fun o o' => ∃ m, Renames tab (nextTemp tab n (insnEdits tab n insn)) o o' m)
      Inserted l (before ++ ((insnEdits tab n insn).flatMap (Edit.loads tab) ++ run)) :=
    weave_mono hle (h.1.insertMid hinsL)
  refine ⟨by rw [List.append_assoc before]; exact hwhole.append hlast, fun p o s hl => ?_⟩
  rcases List.eq_nil_or_concat' s with rfl | ⟨s, y, rfl⟩
  · -- the insn of this turn
    obtain ⟨rfl, ho⟩ := List.append_inj' hl rfl
    obtain rfl := (List.cons.inj ho).1
    refine ⟨_, _, _, _, rfl, by rw [List.append_assoc before]; exact hwhole, .inserts hinsS, hren,
      fun e he => ?_⟩
    obtain ⟨e, hes, rfl⟩ := List.mem_map.mp he
    obtain ⟨r, hr, hsym, -, hu, hd⟩ := mem_edits tab hes
    have hreg : e.sym.reg = r := hp.symbol hr hsym
    obtain ⟨es₁, es₂, heq⟩ := List.append_of_mem hes
    rw [heq] at hN hasc
    refine ⟨fun hm => ?_, fun hm => ?_⟩
    · rw [heq]
      exact loaded_insn hinj hasc hN (fun i hi => ⟨hs.args i hi, hrun i hi⟩) (hreg ▸ hsym)
        (by rw [hu, ← hreg]; exact decide_eq_true hm)
    · rw [heq]
      refine stored_insn hinj hasc hN hrun (fun k hk hc => ?_) (hreg ▸ hsym)
        (by rw [hd, ← hreg]; exact decide_eq_true hm)
      rcases mentions_renamed (mentions_defs hc) with hc | ⟨hc, -⟩
      · rw [insnTemps, List.map_map] at hc
        obtain ⟨e', he', ht⟩ := List.mem_map.mp hc
        rw [heq] at he'
        have hlt := (ascending_mem tab hasc e' he').2
        exact ⟨e', he', hinj _ hk _ (by omega) ht.symm⟩
      · exact absurd hc (hp.unused k hk)
  · -- an earlier one
    have hl' : l ++ [insn] = (p ++ o :: s) ++ [y] := by rw [hl]; simp
    obtain ⟨rfl, hy⟩ := List.append_inj' hl' rfl
    obtain rfl := (List.cons.inj hy).1
    obtain ⟨p', o', s', m, hd, hwp, hws, hr, hm⟩ := h.2 p o s rfl
    have htemp : ∀ e ∈ m, ∀ i ∈ (insnEdits tab n insn).flatMap (Edit.loads tab),
        (i.op = .frame ∨ i.op = .load) ∧ e.2 ∉ insnDefsRegs i := by
      intro e he i hi
      obtain ⟨k, hk, hek⟩ := hr.temps e he
      rw [hek]
      exact ⟨(hloads i hi).1, (hloads i hi).2 k hk⟩
    rcases append_eq_middle hd with ⟨d, rfl, hdr⟩ | ⟨d, hbd, rfl⟩
    · -- it is an argument of the same call
      have hrun' : ∀ i ∈ d, i.op.argument = true := fun i hi => hs.args i (by rw [hdr]; simp [hi])
      refine ⟨before ++ (insnEdits tab n insn).flatMap (Edit.loads tab) ++ d, o',
        s' ++ renamed insn (insnTemps tab n insn) ::
          (insnEdits tab n insn).reverse.flatMap (Edit.stores tab), m, by rw [hdr]; simp, ?_,
        (weave_mono hle hws).append hlast, hr.mono hle, fun e he => ⟨fun hu => ?_, fun hdf => ?_⟩⟩
      · rw [List.append_assoc]
        exact weave_mono hle (hwp.insertMid hinsL)
      · exact Loaded.insertMid (htemp e he) hrun' ((hm e he).1 hu)
      · have ho : o'.op.argument = true := hs.args o' (by rw [hdr]; simp)
        rw [hr.insn, op_renamed] at ho
        rw [hargs o (by simp) ho] at hdf
        exact absurd hdf List.not_mem_nil
    · have hws' := ((weave_mono hle hws).insertMid hinsL).append hlast
      refine ⟨p', o', d ++ ((insnEdits tab n insn).flatMap (Edit.loads tab) ++ run ++
          renamed insn (insnTemps tab n insn) ::
            (insnEdits tab n insn).reverse.flatMap (Edit.stores tab)), m, by rw [hbd]; simp,
        weave_mono hle hwp, by simpa only [List.append_assoc] using hws', hr.mono hle,
        fun e he => ⟨(hm e he).1, fun hdf => Stored.grow _ hs.args ((hm e he).2 hdf)⟩⟩

/-! ### Sequences of arguments -/

variable (tab) in
/-- A call with arguments does not call through an aliased variable. -/
def DirectCall (a x : Insn) : Prop :=
  a.op.argument = true → x.op = .call → ∀ r ∈ insnUsesRegs x, aliased tab r = false

theorem chain_append {l₁ l₂ : List Insn} (h : ∀ a ∈ l₁.getLast?, a.op.argument = false) :
    (l₁ ++ l₂).IsChain Follows ↔ l₁.IsChain Follows ∧ l₂.IsChain Follows := by
  rw [List.isChain_append]
  refine ⟨fun hc => ⟨hc.1, hc.2.1⟩, fun hc => ⟨hc.1, hc.2, fun a ha x _ harg => ?_⟩⟩
  exact absurd ((h a ha).symm.trans harg) Bool.false_ne_true

theorem chain_args : ∀ {l : List Insn}, (∀ i ∈ l, i.op.argument = true) → l.IsChain Follows
  | [], _ => .nil
  | a :: l, h => by
      have hl : ∀ i ∈ l, i.op.argument = true := fun i hi => h i (List.mem_cons_of_mem _ hi)
      refine List.isChain_cons.mpr ⟨fun x hx _ => Or.inl (hl x (List.mem_of_mem_head? hx)),
        chain_args hl⟩

theorem chain_others : ∀ {l : List Insn}, (∀ i ∈ l, i.op.argument = false) → l.IsChain Follows
  | [], _ => .nil
  | a :: l, h => by
      have ha := h a List.mem_cons_self
      refine List.isChain_cons.mpr ⟨fun x _ harg => absurd (ha.symm.trans harg) Bool.false_ne_true,
        chain_others fun i hi => h i (List.mem_cons_of_mem _ hi)⟩

theorem loads_eq_nil (hp : Plain tab N insn) :
    (insnEdits tab n insn).flatMap (Edit.loads tab) = [] ↔
      ∀ r ∈ insnUsesRegs insn, aliased tab r = false := by
  rw [List.flatMap_eq_nil_iff]
  constructor
  · intro h r hr
    cases ha : aliased tab r with
    | false => rfl
    | true =>
      have hmem : r ∈ (insnRegs insn).filter (aliased tab) :=
        List.mem_filter.mpr ⟨mem_insnRegs.mpr (Or.inl hr), ha⟩
      rw [← regs_edits tab (fun q hq sym hs => hp.symbol hq hs)] at hmem
      obtain ⟨e, he, hreg⟩ := List.mem_map.mp hmem
      obtain ⟨q, hq, hs, -, hu, -⟩ := mem_edits tab he
      have hqr : q = r := (hp.symbol hq hs).symm.trans hreg
      rw [hqr, decide_eq_true hr] at hu
      have hnil := h e he
      rw [Edit.loads, if_pos hu] at hnil
      exact absurd hnil (by simp)
  · intro h e he
    obtain ⟨r, hr, hs, ha, hu, -⟩ := mem_edits tab he
    have hal : aliased tab r = true := by rw [aliased, hs]; exact ha
    have hn : e.use = false := by
      rw [hu]
      refine decide_eq_false fun hc => ?_
      exact absurd ((h r hc).symm.trans hal) Bool.false_ne_true
    rw [Edit.loads, hn]
    rfl

theorem stores_argument (hp : Plain tab N insn) (ha : insn.op.argument = true) :
    (insnEdits tab n insn).reverse.flatMap (Edit.stores tab) = [] := by
  rw [List.flatMap_eq_nil_iff]
  intro e he
  obtain ⟨r, _, -, -, -, hd⟩ := mem_edits tab (List.mem_reverse.mp he)
  rw [defs_argument (dst_argument hp.formed) ha] at hd
  rw [Edit.stores, hd]
  rfl

theorem argument_loads {i : Insn}
    (hi : i ∈ (insnEdits tab n insn).flatMap (Edit.loads tab)) : i.op.argument = false := by
  obtain ⟨e, _, hi⟩ := List.mem_flatMap.mp hi
  rcases e.op_loads tab hi with ho | ho <;> rw [ho] <;> rfl

theorem argument_stores {i : Insn}
    (hi : i ∈ (insnEdits tab n insn).reverse.flatMap (Edit.stores tab)) :
    i.op.argument = false := by
  obtain ⟨e, _, hi⟩ := List.mem_flatMap.mp hi
  rcases e.op_stores tab hi with ho | ho <;> rw [ho] <;> rfl

/-- The list ends in an argument. -/
def EndsArg (l : List Insn) : Prop := ∃ a ∈ l.getLast?, a.op.argument = true

theorem endsArg_append {l s : List Insn} {x : Insn} (hs : ∀ i ∈ s, i.op.argument = false)
    (hx : x.op.argument = true → s = []) :
    EndsArg (l ++ x :: s) ↔ x.op.argument = true := by
  rcases List.eq_nil_or_concat' s with rfl | ⟨s, y, rfl⟩
  · simp [EndsArg]
  · have hy : y.op.argument = false := hs y (by simp)
    have hl : (l ++ x :: (s ++ [y])).getLast? = some y := by
      rw [← List.cons_append, ← List.append_assoc, List.getLast?_concat]
    constructor
    · rintro ⟨a, ha, harg⟩
      rw [hl] at ha
      obtain rfl := Option.some.inj ha
      exact absurd (hy.symm.trans harg) Bool.false_ne_true
    · intro h
      exact absurd (hx h) (by simp)

/-- One turn breaks a sequence of arguments if and only if it loads the function operand of its
    call. -/
theorem chain_step (hp : Plain tab N insn) {l before run : List Insn}
    (hs : SplitAt before run insn) (hends : EndsArg (before ++ run) ↔ EndsArg l)
    (hf : ∀ a ∈ l.getLast?, Follows a insn)
    (h : (before ++ run).IsChain Follows ↔ l.IsChain (DirectCall tab)) :
    (before ++ (insnEdits tab n insn).flatMap (Edit.loads tab) ++ run ++
        renamed insn (insnTemps tab n insn) ::
          (insnEdits tab n insn).reverse.flatMap (Edit.stores tab)).IsChain Follows ↔
      (l ++ [insn]).IsChain (DirectCall tab) := by
  have hop := op_renamed (insnTemps tab n insn) insn
  have hl : (l ++ [insn]).IsChain (DirectCall tab) ↔
      l.IsChain (DirectCall tab) ∧ ∀ a ∈ l.getLast?, DirectCall tab a insn := by
    rw [List.isChain_append]
    simp
  cases ha : insn.op.argument with
  | true =>
    have hrun : ∀ i ∈ run ++ [renamed insn (insnTemps tab n insn)], i.op.argument = true := by
      intro i hi
      rcases List.mem_append.mp hi with hi | hi
      · exact hs.args i hi
      · rw [List.mem_singleton.mp hi, hop]; exact ha
    have hnl : ∀ a ∈ ((insnEdits tab n insn).flatMap (Edit.loads tab)).getLast?,
        a.op.argument = false :=
      fun a hm => argument_loads (List.mem_of_getLast? hm)
    rw [stores_argument hp ha, List.append_assoc, List.append_assoc, chain_append (hs.ends ha),
      chain_append hnl, hl, ← h, chain_append (hs.ends ha)]
    refine ⟨fun hc => ⟨⟨hc.1, chain_args hs.args⟩, fun a _ _ hcall => ?_⟩, fun hc => ⟨hc.1.1,
      chain_others fun i hi => argument_loads hi, chain_args hrun⟩⟩
    rw [hcall] at ha
    exact absurd ha Bool.false_ne_true
  | false =>
    have hrest : ∀ i ∈ (insnEdits tab n insn).flatMap (Edit.loads tab) ++
        renamed insn (insnTemps tab n insn) ::
          (insnEdits tab n insn).reverse.flatMap (Edit.stores tab), i.op.argument = false := by
      intro i hi
      rcases List.mem_append.mp hi with hi | hi
      · exact argument_loads hi
      · rcases List.mem_cons.mp hi with rfl | hi
        · rw [hop]; exact ha
        · exact argument_stores hi
    rw [hs.single ha, List.append_nil] at hends h ⊢
    rw [List.append_assoc, List.isChain_append, hl, ← h]
    refine and_congr_right fun _ => ⟨fun hc a hal harg hcall => ?_, fun hc => ⟨chain_others hrest,
      fun a hal x hx harg => ?_⟩⟩
    · -- nothing stands between the last argument and the call
      obtain ⟨a', ha', harg'⟩ := hends.mpr ⟨a, hal, harg⟩
      refine (loads_eq_nil (n := n) hp).mp ?_
      cases hnil : (insnEdits tab n insn).flatMap (Edit.loads tab) with
      | nil => rfl
      | cons i is =>
        have hi : i ∈ (insnEdits tab n insn).flatMap (Edit.loads tab) := by rw [hnil]; simp
        rcases hc.2 a' ha' i (by rw [hnil]; simp) harg' with hi' | hi'
        · exact absurd ((argument_loads hi).symm.trans hi') Bool.false_ne_true
        · obtain ⟨e, _, he⟩ := List.mem_flatMap.mp hi
          rcases e.op_loads tab he with ho | ho <;> rw [ho] at hi' <;> exact absurd hi' (by decide)
    · obtain ⟨a', ha', harg'⟩ := hends.mp ⟨a, hal, harg⟩
      have hcall : insn.op = .call :=
        (hf a' ha' harg').resolve_left fun hi => absurd (ha.symm.trans hi) Bool.false_ne_true
      rw [(loads_eq_nil hp).mpr (hc a' ha' harg' hcall)] at hx
      obtain rfl := Option.some.inj hx
      exact Or.inr (hop.trans hcall)

/-! ### The whole pass -/

variable (tab) in
/-- The invariant of the loop in `dealias0`: `l` was rewritten to `done`. -/
structure Turn (n : Nat) (l done : List Insn) : Prop where
  spilled : Spilled tab n l done
  args : ∀ i ∈ done, i.op.argument = true → insnDefsRegs i = []
  named : ∀ i ∈ done, ∀ r, Mentions i r → aliased tab r = false
  ends : EndsArg done ↔ EndsArg l
  calls : done.IsChain Follows ↔ l.IsChain (DirectCall tab)

variable (tab) in
/-- What `symbol_reg` guarantees about the first `N` temporaries. -/
structure Temps (N : Nat) : Prop where
  inj : ∀ i < N, ∀ j < N, tab.temp i = tab.temp j → i = j
  unaliased : ∀ k < N, aliased tab (tab.temp k) = false
  none : aliased tab regNone = false

theorem turn_nil : Turn tab n [] [] := by
  refine ⟨⟨.nil, fun p o s h => absurd h (by simp)⟩, fun i hi => absurd hi List.not_mem_nil,
    fun i hi => absurd hi List.not_mem_nil, Iff.rfl, ⟨fun _ => .nil, fun _ => .nil⟩⟩

theorem Spilled.mono {n n' : Nat} (hn : n ≤ n') {l l' : List Insn} (h : Spilled tab n l l') :
    Spilled tab n' l l' := by
  refine ⟨weave_mono hn h.1, fun p o s hl => ?_⟩
  obtain ⟨p', o', s', m, hd, hp, hs, hr, hm⟩ := h.2 p o s hl
  exact ⟨p', o', s', m, hd, weave_mono hn hp, weave_mono hn hs, hr.mono hn, hm⟩

/-- No insn that a turn leaves behind names an aliased variable. -/
theorem named_step (ht : Temps tab N) (hp : Plain tab N insn)
    (hN : nextTemp tab n (insnEdits tab n insn) ≤ N) {i : Insn}
    (hi : i = renamed insn (insnTemps tab n insn) ∨ ∃ e ∈ insnEdits tab n insn,
      i ∈ e.loads tab ∨ i ∈ e.stores tab) {r : PseudoReg} (hr : Mentions i r) :
    aliased tab r = false := by
  have hasc : Ascending tab n (insnEdits tab n insn) := ascending_insnEdits n insn
  rcases hi with rfl | ⟨e, he, hi⟩
  · rcases mentions_renamed hr with hm | ⟨hm, hn⟩
    · rw [insnTemps, List.map_map] at hm
      obtain ⟨e, he, rfl⟩ := List.mem_map.mp hm
      have hlt := (ascending_mem tab hasc e he).2
      exact ht.unaliased _ (by omega)
    · cases ha : aliased tab r with
      | false => rfl
      | true =>
        have hne : r ≠ regNone := by
          rintro rfl
          exact absurd (ht.none.symm.trans ha) Bool.false_ne_true
        have hmem : r ∈ (insnRegs insn).filter (aliased tab) :=
          List.mem_filter.mpr ⟨mem_insnRegs_of_mentions hp.outputs hm hne, ha⟩
        have hregs : (insnTemps tab n insn).map Prod.fst = (insnRegs insn).filter (aliased tab) :=
          (renames_insn hp ht.inj hN).regs
        rw [← hregs] at hmem
        exact absurd hmem hn
  · obtain ⟨k, _, hk, rfl⟩ := e.mentions_insert tab hi hr
    have hlt := (ascending_mem tab hasc e he).2
    exact ht.unaliased _ (by omega)

/-- One turn keeps the invariant. -/
theorem turn_step (ht : Temps tab N) (hp : Plain tab N insn)
    {l done : List Insn} (hl : ∀ o ∈ l, Plain tab N o) (hf : ∀ a ∈ l.getLast?, Follows a insn)
    (h : Turn tab n l done) (hN : (dealiasInsn tab n done insn).next ≤ N) :
    Turn tab (dealiasInsn tab n done insn).next (l ++ [insn])
      ((dealiasInsn tab n done insn).before ++
        (dealiasInsn tab n done insn).insn :: (dealiasInsn tab n done insn).after) := by
  obtain ⟨before, run, rfl, hs⟩ := exists_splitAt done insn
  rw [dealiasInsn_eq hp hs] at hN ⊢
  have hop := op_renamed (insnTemps tab n insn) insn
  have hrun : ∀ i ∈ run, insnDefsRegs i = [] :=
    fun i hi => h.args i (List.mem_append_right _ hi) (hs.args i hi)
  have hmem : ∀ i ∈ before ++ (insnEdits tab n insn).flatMap (Edit.loads tab) ++ run ++
      renamed insn (insnTemps tab n insn) ::
        (insnEdits tab n insn).reverse.flatMap (Edit.stores tab),
      i ∈ before ++ run ∨ i = renamed insn (insnTemps tab n insn) ∨
        ∃ e ∈ insnEdits tab n insn, i ∈ e.loads tab ∨ i ∈ e.stores tab := by
    intro i hi
    simp only [List.mem_append, List.mem_cons, List.mem_flatMap, List.mem_reverse] at hi ⊢
    grind
  refine ⟨spilled_step hp ht.inj hN hs hrun (fun o ho ha => defs_argument
    (dst_argument (hl o ho).formed) ha) h.spilled, fun i hi ha => ?_, fun i hi r hr => ?_, ?_,
    chain_step hp hs h.ends hf h.calls⟩
  · rcases hmem i hi with hi | rfl | ⟨e, he, hi⟩
    · exact h.args i hi ha
    · exact defs_argument (fun hia => dst_renamed _ (dst_argument hp.formed (hop ▸ hia))) ha
    · have hno : i.op.argument = false := by
        rcases hi with hi | hi
        · rcases e.op_loads tab hi with ho | ho <;> rw [ho] <;> rfl
        · rcases e.op_stores tab hi with ho | ho <;> rw [ho] <;> rfl
      exact absurd (hno.symm.trans ha) Bool.false_ne_true
  · rcases hmem i hi with hi | hi
    · exact h.named i hi r hr
    · exact named_step ht hp hN hi hr
  · rw [endsArg_append (fun i hi => argument_stores hi) fun ha => stores_argument hp (hop ▸ ha),
      endsArg_append (fun i hi => absurd hi List.not_mem_nil) fun _ => rfl, hop]

theorem le_dealias0 : ∀ {n : Nat} {done insns : List Insn}, (∀ i ∈ insns, Plain tab N i) →
    n ≤ (dealias0 tab n done insns).1
  | _, _, [], _ => le_rfl
  | n, done, insn :: insns, h => by
      obtain ⟨before, run, rfl, hs⟩ := exists_splitAt done insn
      have hasc : Ascending tab n (insnEdits tab n insn) := ascending_insnEdits n insn
      rw [dealias0, dealiasInsn_eq (h insn List.mem_cons_self) hs]
      exact (le_nextTemp tab hasc).trans
        (le_dealias0 fun i hi => h i (List.mem_cons_of_mem _ hi))

/-- The loop keeps the invariant. -/
theorem turn_loop (ht : Temps tab N) : ∀ {n : Nat} {l done insns : List Insn},
    (∀ i ∈ l ++ insns, Plain tab N i) → (l ++ insns).IsChain Follows → Turn tab n l done →
    (dealias0 tab n done insns).1 ≤ N →
    Turn tab (dealias0 tab n done insns).1 (l ++ insns) (dealias0 tab n done insns).2
  | n, l, done, [], _, _, h, _ => by rw [List.append_nil]; exact h
  | n, l, done, insn :: insns, hp, hc, h, hN => by
      have hp' : ∀ i ∈ (l ++ [insn]) ++ insns, Plain tab N i := by simpa using hp
      have hc' : ((l ++ [insn]) ++ insns).IsChain Follows := by simpa using hc
      have hf : ∀ a ∈ l.getLast?, Follows a insn :=
        fun a ha => (List.isChain_append.mp hc).2.2 a ha insn rfl
      rw [dealias0] at hN ⊢
      have hle := (le_dealias0 fun i hi => hp' i (List.mem_append_right _ hi)).trans hN
      have hturn := turn_step ht (hp insn (by simp)) (fun o ho => hp o (by simp [ho])) hf h hle
      rw [show l ++ insn :: insns = (l ++ [insn]) ++ insns by simp]
      exact turn_loop ht hp' hc' hturn hN

/-- A block is rewritten when its turn comes, and not again. -/
theorem dealiasBlocks_spec (ht : Temps tab N) : ∀ {bs : List BlockId} {n : Nat} {f : Func},
    bs.Nodup → (∀ b ∈ bs, ∀ i ∈ (f.block b).insns, Plain tab N i) →
    (∀ b ∈ bs, (f.block b).insns.IsChain Follows) → (dealiasBlocks tab n f bs).1 ≤ N →
    n ≤ (dealiasBlocks tab n f bs).1 ∧ ∀ b,
      ((dealiasBlocks tab n f bs).2.block b).control = (f.block b).control ∧
      (b ∉ bs → ((dealiasBlocks tab n f bs).2.block b).insns = (f.block b).insns) ∧
      (b ∈ bs → Turn tab (dealiasBlocks tab n f bs).1 (f.block b).insns
        ((dealiasBlocks tab n f bs).2.block b).insns)
  | [], n, f, _, _, _, _ => ⟨le_rfl, fun b => ⟨rfl, fun _ => rfl, fun h => absurd h
      List.not_mem_nil⟩⟩
  | c :: bs, n, f, hnd, hp, hc, hN => by
      obtain ⟨hcb, hnd⟩ := List.nodup_cons.mp hnd
      have hsame : ∀ b ∈ bs, ((f.setInsns c (dealias0 tab n [] (f.block c).insns).2).block b).insns =
          (f.block b).insns := by
        intro b hb
        rw [Func.insns_setInsns, if_neg]
        rintro rfl
        exact hcb hb
      rw [dealiasBlocks] at hN ⊢
      obtain ⟨hle, hrest⟩ := dealiasBlocks_spec ht hnd
        (fun b hb => by rw [hsame b hb]; exact hp b (List.mem_cons_of_mem _ hb))
        (fun b hb => by rw [hsame b hb]; exact hc b (List.mem_cons_of_mem _ hb)) hN
      have hfirst : n ≤ (dealias0 tab n [] (f.block c).insns).1 :=
        le_dealias0 (hp c List.mem_cons_self)
      have hturn := turn_loop ht (l := []) (hp c List.mem_cons_self) (hc c List.mem_cons_self)
        (turn_nil (n := n)) (hle.trans hN)
      rw [List.nil_append] at hturn
      refine ⟨hfirst.trans hle, fun b => ?_⟩
      obtain ⟨hctl, hout, hin⟩ := hrest b
      rw [Func.control_setInsns] at hctl
      refine ⟨hctl, fun hb => ?_, fun hb => ?_⟩
      · rw [List.mem_cons, not_or] at hb
        rw [hout hb.2, Func.insns_setInsns, if_neg hb.1]
      · rcases List.mem_cons.mp hb with rfl | hb
        · have hb' : ((dealiasBlocks tab (dealias0 tab n [] (f.block b).insns).1
              (f.setInsns b (dealias0 tab n [] (f.block b).insns).2) bs).2.block b).insns =
              (dealias0 tab n [] (f.block b).insns).2 := by
            rw [hout hcb, Func.insns_setInsns, if_pos rfl]
          rw [hb']
          exact ⟨hturn.spilled.mono hle, hturn.args, hturn.named, hturn.ends, hturn.calls⟩
        · have h := hin hb
          rwa [hsame b hb] at h

theorem endsArg_iff {l : List Insn} :
    ¬ EndsArg l ↔ ∀ a ∈ l.getLast?, a.op.argument = false := by
  simp [EndsArg]

/-- Dealiasing is complete if and only if no switch is controlled by an aliased variable, and no call
    with arguments calls through one. -/
theorem dealias_iff {f : Func} (h : Ready tab f) : Complete tab f (dealias tab f) ↔
    ∀ b ∈ f.blocks, (∀ r ∈ operandRegs (f.block b).control, aliased tab r = false) ∧
      (f.block b).insns.IsChain (DirectCall tab) := by
  have ht : Temps tab (temps tab f) := ⟨h.inj, fun k hk => (h.unused k hk).1, h.none⟩
  obtain ⟨-, hspec⟩ := dealiasBlocks_spec ht h.nodup
    (fun b hb i hi => ⟨h.formed b hb i hi, h.outputs b hb i hi, h.base b hb i hi,
      fun k hk => (h.unused k hk).2 b hb i hi⟩)
    (fun b hb => (h.calls b hb).1) le_rfl
  have hblock : ∀ b, (dealias tab f).block b = (dealiasBlocks tab 0 f f.blocks).2.block b :=
    fun _ => rfl
  constructor
  · intro hc b hb
    obtain ⟨hctl, -, hturn⟩ := hspec b
    have hr := hc.control b hb
    rw [hblock, hctl] at hr
    have hch := (hc.calls b hb).1
    rw [hblock] at hch
    exact ⟨hr, (hturn hb).calls.mp hch⟩
  · intro hc
    refine ⟨fun b hb => ?_, fun b hb => ?_, fun b hb => ?_, fun b hb => ?_⟩ <;> rw [hblock]
    · exact ((hspec b).2.2 hb).named
    · rw [(hspec b).1]; exact (hc b hb).1
    · exact ((hspec b).2.2 hb).spilled
    · have hturn := (hspec b).2.2 hb
      refine ⟨hturn.calls.mpr (hc b hb).2, endsArg_iff.mp ?_⟩
      rw [hturn.ends]
      exact endsArg_iff.mpr (h.calls b hb).2

/-! ### What goes wrong -/

/-- `extern int x; extern int (*p)();` with the registers 16 and 17. -/
def varTab : Symtab where
  syms := [⟨1, .external, .int, 16, 0⟩, ⟨2, .external, .ulong, 17, 0⟩]
  temp k := BitVec.ofNat 32 (100 + k)

/-- `x = x + 1;` -/
def incrInsns : List Insn :=
  [insnNew .add (some (operandReg .int 16)) (some (operandReg .int 16)) (some (operandI .int 1 none))]

/-- `p(1);` -/
def callInsns : List Insn :=
  [insnNew .arg none (some (operandI .int 1 none)), insnNew .call none (some (operandReg .ulong 17))]

/-- `switch (x) { case 3: ; }` -/
def switchFunc : Func :=
  let f : Func := ⟨0, 2, [0, 1, 2], fun _ => {}, 2, Blocks.linked_empty⟩
  let f := blockAddSuccessor f 0 .default 1
  let f := blockAddSuccessor f 0 .switch 2 3 3
  f.setControl 0 (some (operandReg .int 16))

theorem varTab_temp {i j : Nat} (hi : i < 2) (hj : j < 2) (h : varTab.temp i = varTab.temp j) :
    i = j := by
  interval_cases i <;> interval_cases j <;> first | rfl | exact absurd h (by decide)

/-- A function of one block that names the two variables at most. -/
theorem ready_straight {insns : List Insn} (hf : ∀ i ∈ insns, i.Formed)
    (hop : ∀ i ∈ insns, i.op ≠ .asm ∧ i.iasm = asmNew)
    (hr : ∀ i ∈ insns, ∀ r ∈ operandRegs i.dst ++ operandRegs i.src1 ++ operandRegs i.src2,
      r = 16 ∨ r = 17)
    (hc : Contiguous insns) (hN : temps varTab (straight insns) ≤ 2) :
    Ready varTab (straight insns) := by
  have hm : ∀ i ∈ insns, ∀ r, Mentions i r → r = 16 ∨ r = 17 := by
    intro i hi r h
    refine hr i hi r ?_
    rcases h with h | h | h | ⟨h, _⟩
    · simp [h]
    · simp [h]
    · simp [h]
    · exact absurd h (hop i hi).1
  have hblock : ∀ b, ((straight insns).block b).insns = insns ∨
      ((straight insns).block b).insns = [] := by
    intro b
    by_cases hb : b = 0 <;> simp [straight, hb]
  have hmem : ∀ b, ∀ i ∈ ((straight insns).block b).insns, i ∈ insns := by
    intro b i hi
    rcases hblock b with h | h <;> rw [h] at hi
    · exact hi
    · exact absurd hi List.not_mem_nil
  refine ⟨show [0, 1].Nodup by decide, fun b _ i hi => hf i (hmem b i hi), fun b _ i hi e he => ?_, by decide,
    fun b _ i hi r h => ?_, fun b _ => ?_, fun i hi j hj => varTab_temp (by omega) (by omega),
    fun k hk => ⟨?_, fun b _ i hi h => ?_⟩⟩
  · rw [(hop i (hmem b i hi)).2] at he
    exact absurd he List.not_mem_nil
  · rcases hm i (hmem b i hi) r h with rfl | rfl <;> decide
  · rcases hblock b with h | h <;> rw [h]
    · exact hc
    · exact ⟨.nil, fun a ha => absurd ha (by simp)⟩
  · have hk2 : k < 2 := by omega
    interval_cases k <;> decide
  · have hk2 : k < 2 := by omega
    have := hm i (hmem b i hi) _ h
    interval_cases k <;> exact absurd this (by decide)

theorem ready_incr : Ready varTab (straight incrInsns) := by
  refine ready_straight (fun i hi => ?_) (fun i hi => ?_)
    (by simp [incrInsns, insnNew, operandRegs, operandReg, operandI])
    ⟨.singleton _, by simp [incrInsns, insnNew, InsnOp.argument]⟩ (by decide +kernel)
  · obtain rfl := List.mem_singleton.mp hi
    exact ⟨by decide, fun h => absurd h (by decide), fun cc h => absurd h (by simp [insnNew])⟩
  · obtain rfl := List.mem_singleton.mp hi
    exact ⟨by decide, rfl⟩

theorem ready_call : Ready varTab (straight callInsns) := by
  refine ready_straight (fun i hi => ?_) (fun i hi => ?_)
    (by simp [callInsns, insnNew, operandRegs, operandReg, operandI])
    ⟨.cons_cons (fun _ => Or.inr rfl) (.singleton _),
      by simp [callInsns, insnNew, InsnOp.argument]⟩ (by decide +kernel)
  · rw [callInsns, List.mem_cons, List.mem_singleton] at hi
    rcases hi with rfl | rfl
    · exact ⟨by decide, fun _ => rfl, fun cc h => absurd h (by simp [insnNew])⟩
    · exact ⟨by decide, fun _ => rfl, fun cc h => absurd h (by simp [insnNew])⟩
  · rw [callInsns, List.mem_cons, List.mem_singleton] at hi
    rcases hi with rfl | rfl <;> exact ⟨by decide, rfl⟩

theorem ready_switch : Ready varTab switchFunc := by
  have hb : ∀ b, (switchFunc.block b).insns = [] := by
    intro b
    simp [switchFunc, Func.setControl_block, blockAddSuccessor]
    split <;> simp
  have ht : temps varTab switchFunc = 0 := by decide +kernel
  refine ⟨by decide, fun b _ i hi => ?_, fun b _ i hi => ?_, by decide, fun b _ i hi => ?_,
    fun b _ => ?_, fun i hi => ?_, fun k hk => ?_⟩
  · rw [hb] at hi; exact absurd hi List.not_mem_nil
  · rw [hb] at hi; exact absurd hi List.not_mem_nil
  · rw [hb] at hi; exact absurd hi List.not_mem_nil
  · rw [hb]; exact ⟨.nil, fun a ha => absurd ha (by simp)⟩
  · rw [ht] at hi; omega
  · rw [ht] at hk; omega

theorem dealias_iff_incr : Ready varTab (straight incrInsns) ∧
    Complete varTab (straight incrInsns) (dealias varTab (straight incrInsns)) := by
  refine ⟨ready_incr, (dealias_iff ready_incr).mpr fun b hb => ?_⟩
  by_cases h : b = 0
  · subst h
    exact ⟨fun r hr => absurd hr List.not_mem_nil, .singleton _⟩
  · have he : (straight incrInsns).block b = {} := if_neg h
    rw [he]
    exact ⟨fun r hr => absurd hr List.not_mem_nil, .nil⟩

/-- `switch (x)` goes on naming `x`, and the load of `p` comes between the argument and the call in
    `p(1)`. -/
theorem dealias_incomplete :
    (Ready varTab switchFunc ∧ ¬ Complete varTab switchFunc (dealias varTab switchFunc)) ∧
      (Ready varTab (straight callInsns) ∧
        ¬ Complete varTab (straight callInsns) (dealias varTab (straight callInsns))) := by
  refine ⟨⟨ready_switch, fun h => ?_⟩, ready_call, fun h => ?_⟩
  · have hc := h.control 0 (by decide +kernel) 16 (by decide +kernel)
    exact absurd hc (by decide)
  · have hi : ((dealias varTab (straight callInsns)).block 0).insns =
        [insnNew .arg none (some (operandI .int 1 none)),
          insnNew .load (some (operandReg .ulong 100)) (some (operandI .ulong 0 (some 2))),
          insnNew .call none (some (operandReg .ulong 100))] := by decide +kernel
    have hc := (h.calls 0 (by decide)).1
    rw [hi] at hc
    exact absurd (hc.rel rfl) (by decide)

end Ncc.Dealias
