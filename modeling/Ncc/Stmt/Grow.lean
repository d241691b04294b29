import Ncc.Stmt.Run

/-! The blocks while the parser makes them.

    While a statement is read, the blocks that were made for the statements around it are untouched:
    they wait for a label or a default, or they are held by the functions that made them. A block that
    has ended stays as it is, but for those of the switches whose bodies are being read. -/

namespace Ncc.Stmts

/-- A block that nothing was done to. -/
abbrev untouched : List Insn × Option Operand × List Cessor := ([], none, [])

/-! ### Functions that grow -/

/-- Only the block `b` differs. -/
structure Edit (f : Func) (b : BlockId) (core : List Insn × Option Operand × List Cessor)
    (f' : Func) : Prop where
  lastLabel : f'.lastLabel = f.lastLabel
  entry : f'.entry = f.entry
  exit : f'.exit = f.exit
  core : (f'.block b).core = core
  others : ∀ x, x ≠ b → (f'.block x).core = (f.block x).core

/-- Insns are only appended, and blocks that have ended, but for those of `A`, stay as they are. -/
def Keeps (A : BlockId → Prop) (f f' : Func) : Prop :=
  ∀ b, (f.block b).insns <+: (f'.block b).insns ∧
    (¬ A b → (f.block b).successors ≠ [] → (f'.block b).core = (f.block b).core)

section
variable {f f' f'' : Func} {b c : BlockId} {l l' : List Insn} {o : Option Operand}
  {cs : List Cessor} {core : List Insn × Option Operand × List Cessor}
  {A A' : BlockId → Prop}

theorem Edit.trans {core' : List Insn × Option Operand × List Cessor} (h : Edit f b core f')
    (h' : Edit f' b core' f'') : Edit f b core' f'' :=
  ⟨h'.lastLabel.trans h.lastLabel, h'.entry.trans h.entry, h'.exit.trans h.exit, h'.core,
    fun x hx => (h'.others x hx).trans (h.others x hx)⟩

theorem edit_appendInsn (h : (f.block b).core = (l, o, cs)) (insn : Insn) :
    Edit f b (l ++ [insn], o, cs) (blockAppendInsn f b insn) :=
  ⟨rfl, rfl, rfl, core_appendInsn h insn, fun _ hx => core_appendInsn_ne hx insn⟩

theorem edit_addSuccessor (h : (f.block b).core = (l, o, cs)) (cc : ConditionCode) (c : BlockId)
    (lo hi : Word) : Edit f b (l, o, cs ++ [⟨cc, c, lo, hi⟩]) (blockAddSuccessor f b cc c lo hi) :=
  ⟨rfl, rfl, rfl, core_addSuccessor h cc c lo hi, fun _ hx => core_addSuccessor_ne hx cc c lo hi⟩

theorem Edit.refl (h : (f.block b).core = core) : Edit f b core f :=
  ⟨rfl, rfl, rfl, h, fun _ _ => rfl⟩

theorem edit_append (p : Parser) (h : (p.func.block b).core = (l, o, cs)) (insns : List Insn) :
    Edit p.func b (l ++ insns, o, cs) (p.append b insns).func := by
  show Edit p.func b _ (insns.foldl (fun f insn => blockAppendInsn f b insn) p.func)
  generalize p.func = f at h ⊢
  induction insns generalizing f l with
  | nil => exact .refl (by rw [h, List.append_nil])
  | cons insn insns ih =>
    have hfirst := edit_appendInsn h insn
    have hrest := ih _ hfirst.core
    rw [List.append_assoc] at hrest
    exact hfirst.trans hrest

theorem Keeps.refl : Keeps A f f := fun _ => ⟨List.prefix_refl _, fun _ _ => rfl⟩

theorem Block.successors_eq {x y : Block} (h : x.core = y.core) : x.successors = y.successors :=
  congrArg (fun core => core.2.2) h

theorem Block.insns_eq {x y : Block} (h : x.core = y.core) : x.insns = y.insns :=
  congrArg (fun core => core.1) h

theorem Keeps.trans (h : Keeps A f f') (h' : Keeps A f' f'') : Keeps A f f'' := by
  refine fun b => ⟨(h b).1.trans (h' b).1, fun hb hs => ?_⟩
  have hcore := (h b).2 hb hs
  exact ((h' b).2 hb (Block.successors_eq hcore ▸ hs)).trans hcore

theorem Keeps.mono (h : Keeps A f f') (hA : ∀ b, A b → A' b) : Keeps A' f f' :=
  fun b => ⟨(h b).1, fun hb => (h b).2 fun ha => hb (hA b ha)⟩

/-- A block that has not ended may be appended to, and may end. -/
theorem Edit.keeps (h : Edit f b (l ++ l', o, cs) f') (hl : (f.block b).insns = l)
    (hb : A b ∨ (f.block b).successors = []) : Keeps A f f' := by
  intro x
  by_cases hx : x = b
  · subst hx
    have hinsns : (f'.block x).insns = l ++ l' := congrArg (fun core => core.1) h.core
    rw [hinsns, hl]
    exact ⟨List.prefix_append .., fun ha hs => (hb.elim ha hs).elim⟩
  · rw [Block.insns_eq (h.others x hx)]
    exact ⟨List.prefix_refl _, fun _ _ => h.others x hx⟩

end

/-! ### What the parser knows -/

namespace Parser
variable (p : Parser)

/-- Where the next insn goes. -/
def point : Point := (p.current, (p.func.block p.current).insns.length)

/-- The block of a label that was not defined yet, or of a default that was not seen yet. -/
def Waiting (b : BlockId) : Prop :=
  (∃ x ∈ p.labels, x.defined = false ∧ x.to_ = b) ∨
    p.switchBlock ≠ 0 ∧ p.sawDefault = false ∧ p.defaultBlock = b

/-- A block that was made, and that nobody else can get at. -/
structure Held (b : BlockId) : Prop where
  ne_zero : b ≠ 0
  le : b ≤ p.func.lastLabel
  core : (p.func.block b).core = untouched
  current : b ≠ p.current
  labels : ∀ x ∈ p.labels, x.to_ ≠ b
  dflt : b ≠ p.defaultBlock

/-- The label belongs to the block. -/
def Knows (id : String) (b : BlockId) : Prop := ∃ x ∈ p.labels, x.id = id ∧ x.to_ = b

/-- The label was defined. -/
def Defined (id : String) : Prop := ∃ x ∈ p.labels, x.id = id ∧ x.defined = true

structure Inv : Prop where
  fresh : ∀ b, p.func.lastLabel < b → (p.func.block b).core = untouched
  current : p.current ≠ 0 ∧ p.current ≤ p.func.lastLabel ∧
    ∃ l, (p.func.block p.current).core = (l, none, [])
  waiting : ∀ b, p.Waiting b → b ≠ 0 ∧ b ≤ p.func.lastLabel ∧
    (p.func.block b).core = untouched ∧ b ≠ p.current
  labels : ∀ x ∈ p.labels, x.to_ ≠ 0 ∧ x.to_ ≤ p.func.lastLabel ∧
    (p.switchBlock ≠ 0 → p.sawDefault = false → x.to_ ≠ p.defaultBlock)
  distinct : ∀ x ∈ p.labels, ∀ y ∈ p.labels, x.id = y.id ∨ x.to_ = y.to_ → x = y
  dflt : p.defaultBlock ≤ p.func.lastLabel
  switch : p.switchBlock ≠ 0 → ∃ cases,
    Switch.SwitchBlock (p.func.block p.switchBlock) ⟨.default, p.defaultBlock, 0, 0⟩ cases ∧
      ∀ c ∈ cases, c.min = c.max

/-- A block that can be entered. -/
structure Free (b : BlockId) : Prop where
  ne_zero : b ≠ 0
  le : b ≤ p.func.lastLabel
  core : (p.func.block b).core = untouched
  current : b ≠ p.current
  waiting : ¬ p.Waiting b

/-- The blocks of `A` have ended, and that of the innermost switch is one of them. -/
def Apart (A : BlockId → Prop) : Prop :=
  A p.switchBlock ∧ ∀ b, A b → b ≠ 0 → (p.func.block b).successors ≠ []

end Parser

/-- From `p` to `q`, blocks of `S` are worked on, which have not ended. -/
structure Touch (S : BlockId → Prop) (p q : Parser) : Prop where
  lastLabel : q.func.lastLabel = p.func.lastLabel
  entry : q.func.entry = p.func.entry
  exit : q.func.exit = p.func.exit
  others : ∀ x, ¬ S x → (q.func.block x).core = (p.func.block x).core
  grown : ∀ x, S x → x ≤ p.func.lastLabel ∧ (p.func.block x).successors = [] ∧
    (p.func.block x).insns <+: (q.func.block x).insns
  labels : q.labels = p.labels
  switchBlock : q.switchBlock = p.switchBlock
  defaultBlock : q.defaultBlock = p.defaultBlock
  sawDefault : q.sawDefault = p.sawDefault

/-- From `p` to `q`, code is made that has a default if `hd`, the cases `cs` and the labels `ids`.
    Blocks up to `n` stay held. -/
structure Makes (n : Nat) (hd : Bool) (cs : List Word) (ids : String → Prop) (p q : Parser) :
    Prop where
  keeps : Keeps (· = p.switchBlock) p.func q.func
  held : ∀ b ≤ n, p.Held b → q.Held b
  knows : ∀ id b, p.Knows id b → q.Knows id b
  le : p.func.lastLabel ≤ q.func.lastLabel
  entry : q.func.entry = p.func.entry
  exit : q.func.exit = p.func.exit
  switchBlock : q.switchBlock = p.switchBlock
  defaultBlock : q.defaultBlock = p.defaultBlock
  saw : q.sawDefault = (p.sawDefault || hd)
  defines : ∀ id, q.Defined id → p.Defined id ∨ ids id
  switch : p.switchBlock ≠ 0 → ∃ new, (q.func.block p.switchBlock).core =
      ((p.func.block p.switchBlock).insns, (p.func.block p.switchBlock).control,
        (p.func.block p.switchBlock).successors ++ new) ∧
    new.map Cessor.min = cs.map (conNormalize (controlTs (p.func.block p.switchBlock)))
  outside : p.switchBlock = 0 → hd = false ∧ cs = []

/-- Code without defaults, cases and labels. -/
abbrev Passes (n : Nat) (p q : Parser) : Prop := Makes n false [] (fun _ => False) p q

section
variable {p q r : Parser} {S T A : BlockId → Prop} {b c x : BlockId} {m n : Nat} {hd hd' : Bool}
  {cs cs' : List Word} {ids ids' : String → Prop} {F : Func}

theorem Parser.Held.not_waiting (h : p.Held b) : ¬ p.Waiting b := by
  rintro (⟨x, hx, -, hb⟩ | ⟨-, -, hb⟩)
  · exact h.labels x hx hb
  · exact h.dflt hb.symm

theorem Parser.Held.free (h : p.Held b) : p.Free b :=
  ⟨h.ne_zero, h.le, h.core, h.current, h.not_waiting⟩

theorem Parser.Inv.successors_current (hp : p.Inv) : (p.func.block p.current).successors = [] := by
  obtain ⟨-, -, l, hl⟩ := hp.current
  exact congrArg (fun core => core.2.2) hl

theorem Parser.Inv.core_current (hp : p.Inv) :
    (p.func.block p.current).core = ((p.func.block p.current).insns, none, []) := by
  obtain ⟨-, -, l, hl⟩ := hp.current
  rw [show (p.func.block p.current).insns = l from congrArg (fun core => core.1) hl]
  exact hl

theorem Parser.Inv.successors_switch (hp : p.Inv) (h : p.switchBlock ≠ 0) :
    (p.func.block p.switchBlock).successors ≠ [] := by
  obtain ⟨cases, hsw, -⟩ := hp.switch h
  rw [hsw.successors]
  simp

theorem Touch.keeps (h : Touch S p q) : Keeps A p.func q.func := by
  intro x
  by_cases hx : S x
  · obtain ⟨-, hs, hpre⟩ := h.grown x hx
    exact ⟨hpre, fun _ hne => absurd hs hne⟩
  · rw [Block.insns_eq (h.others x hx)]
    exact ⟨List.prefix_refl _, fun _ _ => h.others x hx⟩

theorem Touch.waiting_iff (h : Touch S p q) : q.Waiting b ↔ p.Waiting b := by
  rw [Parser.Waiting, Parser.Waiting, h.labels, h.switchBlock, h.defaultBlock, h.sawDefault]

/-- The block of a switch is not worked on. -/
theorem Touch.switch_core (h : Touch S p q) (hp : p.Inv) (hs : p.switchBlock ≠ 0) :
    (q.func.block p.switchBlock).core = (p.func.block p.switchBlock).core :=
  h.others _ fun hS => hp.successors_switch hs (h.grown _ hS).2.1

theorem SwitchBlock.congr {x y : Block} {dflt : Cessor} {cases : List Cessor}
    (h : Switch.SwitchBlock x dflt cases) (hcore : y.core = x.core) :
    Switch.SwitchBlock y dflt cases := by
  simp only [Block.core, Prod.mk.injEq] at hcore
  exact ⟨by rw [hcore.2.1]; exact h.control, by rw [hcore.2.2]; exact h.successors, h.dflt,
    h.switch, h.range, h.disjoint⟩

theorem Touch.inv (h : Touch S p q) (hp : p.Inv) (hS : ∀ x, S x → ¬ p.Waiting x)
    (hcur : q.current ≠ 0 ∧ q.current ≤ p.func.lastLabel ∧
      ∃ l, (q.func.block q.current).core = (l, none, [])) (hw : ¬ p.Waiting q.current) :
    q.Inv where
  fresh b hb := by
    rw [h.lastLabel] at hb
    have hb' : ¬ S b := fun hS => absurd (h.grown b hS).1 (Nat.not_le_of_lt hb)
    exact (h.others b hb').trans (hp.fresh b hb)
  current := by
    rw [h.lastLabel]
    exact hcur
  waiting b hb := by
    rw [h.waiting_iff] at hb
    obtain ⟨hne, hle, hcore, -⟩ := hp.waiting b hb
    rw [h.lastLabel, h.others b fun hs => hS b hs hb]
    refine ⟨hne, hle, hcore, ?_⟩
    rintro rfl
    exact hw hb
  labels x hx := by
    rw [h.labels] at hx
    rw [h.lastLabel, h.switchBlock, h.defaultBlock, h.sawDefault]
    exact hp.labels x hx
  distinct := by
    rw [h.labels]
    exact hp.distinct
  dflt := by
    rw [h.lastLabel, h.defaultBlock]
    exact hp.dflt
  switch hs := by
    rw [h.switchBlock] at hs
    obtain ⟨cases, hsw, hpoint⟩ := hp.switch hs
    rw [h.switchBlock, h.defaultBlock]
    exact ⟨cases, SwitchBlock.congr hsw (h.switch_core hp hs), hpoint⟩

theorem Touch.held (h : Touch S p q) (hb : p.Held b) (hS : ¬ S b) (hcur : b ≠ q.current) :
    q.Held b where
  ne_zero := hb.ne_zero
  le := h.lastLabel ▸ hb.le
  core := (h.others b hS).trans hb.core
  current := hcur
  labels := h.labels ▸ hb.labels
  dflt := h.defaultBlock ▸ hb.dflt

theorem Touch.passes (h : Touch S p q) (hp : p.Inv)
    (hn : ∀ b ≤ n, p.Held b → ¬ S b ∧ b ≠ q.current) : Passes n p q where
  keeps := h.keeps
  held b hb hheld := h.held hheld (hn b hb hheld).1 (hn b hb hheld).2
  knows id b hk := by
    rw [Parser.Knows, h.labels]
    exact hk
  le := Nat.le_of_eq h.lastLabel.symm
  entry := h.entry
  exit := h.exit
  switchBlock := h.switchBlock
  defaultBlock := h.defaultBlock
  saw := by rw [h.sawDefault, Bool.or_false]
  defines id hid := by
    rw [Parser.Defined, h.labels] at hid
    exact .inl hid
  switch hs := by
    refine ⟨[], ?_, rfl⟩
    rw [h.switch_core hp hs, List.append_nil]
    rfl
  outside _ := ⟨rfl, rfl⟩

theorem Makes.trans (h : Makes n hd cs ids p q) (h' : Makes n hd' cs' ids' q r) :
    Makes n (hd || hd') (cs ++ cs') (fun id => ids id ∨ ids' id) p r where
  keeps := h.keeps.trans (h.switchBlock ▸ h'.keeps)
  held b hb hheld := h'.held b hb (h.held b hb hheld)
  knows id b hk := h'.knows id b (h.knows id b hk)
  le := Nat.le_trans h.le h'.le
  entry := h'.entry.trans h.entry
  exit := h'.exit.trans h.exit
  switchBlock := h'.switchBlock.trans h.switchBlock
  defaultBlock := h'.defaultBlock.trans h.defaultBlock
  saw := by rw [h'.saw, h.saw, Bool.or_assoc]
  defines id hid := by
    rcases h'.defines id hid with hid | hid
    · exact (h.defines id hid).imp_right .inl
    · exact .inr (.inr hid)
  switch hs := by
    obtain ⟨new, hcore, hmin⟩ := h.switch hs
    obtain ⟨new', hcore', hmin'⟩ := h'.switch (h.switchBlock ▸ hs)
    simp only [Block.core, Prod.mk.injEq] at hcore
    rw [h.switchBlock, hcore.1, hcore.2.1, hcore.2.2, List.append_assoc] at hcore'
    refine ⟨new ++ new', hcore', ?_⟩
    rw [h.switchBlock, controlTs, hcore.2.1] at hmin'
    rw [List.map_append, List.map_append, hmin, hmin']
    rfl
  outside hs := by
    obtain ⟨rfl, rfl⟩ := h.outside hs
    exact h'.outside (h.switchBlock.trans hs)

theorem Makes.mono (h : Makes n hd cs ids p q) (hmn : m ≤ n) (hids : ∀ id, ids id → ids' id) :
    Makes m hd cs ids' p q :=
  { h with
    held := fun b hb => h.held b (Nat.le_trans hb hmn)
    defines := fun id hid => (h.defines id hid).imp_right (hids id) }

theorem Makes.after (h' : Makes n hd cs ids q r) (h : Passes n p q) : Makes n hd cs ids p r :=
  (h.trans h').mono (Nat.le_refl n) fun _ hid => hid.resolve_left id

theorem Makes.before (h : Makes n hd cs ids p q) (h' : Passes n q r) : Makes n hd cs ids p r := by
  have hall : Makes n (hd || false) (cs ++ []) ids p r :=
    (h.trans h').mono (Nat.le_refl n) fun _ hid => hid.resolve_right id
  rwa [Bool.or_false, List.append_nil] at hall

theorem Passes.trans (h : Passes n p q) (h' : Passes n q r) : Passes n p r := Makes.after h' h

/-- What has ended has ended later on. -/
theorem Parser.Apart.makes (hA : p.Apart A) (h : Makes n hd cs ids p q) (hq : q.Inv) :
    q.Apart A := by
  refine ⟨h.switchBlock ▸ hA.1, fun b hb hne => ?_⟩
  by_cases hs : b = p.switchBlock
  · subst hs
    rw [← h.switchBlock]
    exact hq.successors_switch (h.switchBlock ▸ hne)
  · rw [Block.successors_eq ((h.keeps b).2 hs (hA.2 b hb hne))]
    exact hA.2 b hb hne

theorem Parser.Apart.not_current (hA : p.Apart A) (hp : p.Inv) : ¬ A p.current :=
  fun h => hA.2 _ h hp.current.1 hp.successors_current

theorem Makes.keeps_to (h : Makes n hd cs ids p q) (hA : p.Apart A) (hK : Keeps A q.func F) :
    Keeps A p.func F := by
  refine (h.keeps.mono ?_).trans hK
  rintro b rfl
  exact hA.1

end

end Ncc.Stmts
