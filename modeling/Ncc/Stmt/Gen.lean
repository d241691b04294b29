import Ncc.Stmt.Grow

/-! The steps of the parser, and the code that it makes of expressions (gen.c). -/

namespace Ncc.Stmts

section
variable {p q r : Parser} {A : BlockId → Prop} {b c : BlockId} {n : Nat} {F : Func}

/-! ### Steps -/

theorem Parser.Inv.ne_new (hp : p.Inv) : p.current ≠ p.new.1 :=
  Nat.ne_of_lt (Nat.lt_succ_of_le hp.current.2.1)

theorem inv_new (hp : p.Inv) : p.new.2.Inv where
  fresh b hb := hp.fresh b (Nat.lt_of_succ_lt hb)
  current := ⟨hp.current.1, Nat.le_succ_of_le hp.current.2.1, hp.current.2.2⟩
  waiting b hb := by
    obtain ⟨hne, hle, hcore, hcur⟩ := hp.waiting b hb
    exact ⟨hne, Nat.le_succ_of_le hle, hcore, hcur⟩
  labels x hx := by
    obtain ⟨hne, hle, hd⟩ := hp.labels x hx
    exact ⟨hne, Nat.le_succ_of_le hle, hd⟩
  distinct := hp.distinct
  dflt := Nat.le_succ_of_le hp.dflt
  switch := hp.switch

theorem Parser.Held.new (h : p.Held b) : p.new.2.Held b :=
  ⟨h.ne_zero, Nat.le_succ_of_le h.le, h.core, h.current, h.labels, h.dflt⟩

theorem passes_new : Passes n p p.new.2 where
  keeps := .refl
  held _ _ h := h.new
  knows _ _ h := h
  le := Nat.le_succ _
  entry := rfl
  exit := rfl
  switchBlock := rfl
  defaultBlock := rfl
  saw := (Bool.or_false _).symm
  defines _ h := .inl h
  switch _ := ⟨[], by rw [List.append_nil]; rfl, rfl⟩
  outside _ := ⟨rfl, rfl⟩

theorem held_new (hp : p.Inv) : p.new.2.Held p.new.1 where
  ne_zero := Nat.succ_ne_zero _
  le := Nat.le_refl _
  core := hp.fresh _ (Nat.lt_succ_self _)
  current := hp.ne_new.symm
  labels x hx := Nat.ne_of_lt (Nat.lt_succ_of_le (hp.labels x hx).2.1)
  dflt := (Nat.ne_of_lt (Nat.lt_succ_of_le hp.dflt)).symm

/-- Three new blocks are held. -/
theorem new₃ (hp : p.Inv) : p.new.2.new.2.new.2.Inv ∧ p.new.2.new.2.new.2.Held p.new.1 ∧
    p.new.2.new.2.new.2.Held p.new.2.new.1 ∧ p.new.2.new.2.new.2.Held p.new.2.new.2.new.1 ∧
    Passes p.func.lastLabel p p.new.2.new.2.new.2 ∧ p.func.lastLabel < p.new.1 ∧
    p.new.1 < p.new.2.new.1 ∧ p.new.2.new.1 < p.new.2.new.2.new.1 := by
  have h₁ := inv_new hp
  have h₂ := inv_new h₁
  exact ⟨inv_new h₂, (held_new hp).new.new, (held_new h₁).new, held_new h₂,
    passes_new.trans (passes_new.trans passes_new), Nat.lt_succ_self _, Nat.lt_succ_self _,
    Nat.lt_succ_self _⟩

/-- The current block ends, with the insns `l` and the successors `cs`. -/
structure Ended (l : List Insn) (cs : List Cessor) (p q : Parser) : Prop where
  touch : Touch (· = p.current) p q
  core : (q.func.block p.current).core = ((p.func.block p.current).insns ++ l, none, cs)

theorem touch_of_edit {l : List Insn} {o : Option Operand} {cs : List Cessor}
    (h : Edit p.func b ((p.func.block b).insns ++ l, o, cs) q.func) (hle : b ≤ p.func.lastLabel)
    (hs : (p.func.block b).successors = []) (hlabels : q.labels = p.labels)
    (hswitch : q.switchBlock = p.switchBlock) (hdflt : q.defaultBlock = p.defaultBlock)
    (hsaw : q.sawDefault = p.sawDefault) : Touch (· = b) p q where
  lastLabel := h.lastLabel
  entry := h.entry
  exit := h.exit
  others x hx := h.others x hx
  grown x hx := by
    subst hx
    have hinsns : (q.func.block x).insns = (p.func.block x).insns ++ l :=
      congrArg (fun core => core.1) h.core
    exact ⟨hle, hs, hinsns ▸ List.prefix_append ..⟩
  labels := hlabels
  switchBlock := hswitch
  defaultBlock := hdflt
  sawDefault := hsaw

/-- The current block goes on with block `c`. -/
theorem Parser.Inv.ended_add (hp : p.Inv) (hf : q.func = (p.add p.current .always c).func)
    (hlabels : q.labels = p.labels) (hswitch : q.switchBlock = p.switchBlock)
    (hdflt : q.defaultBlock = p.defaultBlock) (hsaw : q.sawDefault = p.sawDefault) :
    Ended [] [⟨.always, c, 0, 0⟩] p q := by
  have hedit : Edit p.func p.current ((p.func.block p.current).insns ++ [], none,
      [⟨.always, c, 0, 0⟩]) q.func := by
    rw [List.append_nil, hf]
    exact edit_addSuccessor hp.core_current .always c 0 0
  exact ⟨touch_of_edit hedit hp.current.2.1 hp.successors_current hlabels hswitch hdflt hsaw,
    hedit.core⟩

/-- The current block goes on with block `c` or `b`. -/
theorem Parser.Inv.ended_branch (hp : p.Inv) {o : Option Operand}
    (hf : q.func = (genBranch p o c b).func)
    (hlabels : q.labels = p.labels) (hswitch : q.switchBlock = p.switchBlock)
    (hdflt : q.defaultBlock = p.defaultBlock) (hsaw : q.sawDefault = p.sawDefault) :
    Ended [cmpZero o] [⟨.z, b, 0, 0⟩, ⟨.nz, c, 0, 0⟩] p q := by
  have hcmp := edit_append p hp.core_current [cmpZero o]
  have hz := edit_addSuccessor hcmp.core .z b 0 0
  have hnz := edit_addSuccessor hz.core .nz c 0 0
  have hedit := (hcmp.trans hz).trans hnz
  have hfunc : q.func = blockAddSuccessor (blockAddSuccessor (p.append p.current [cmpZero o]).func
    p.current .z b) p.current .nz c := hf
  rw [← hfunc] at hedit
  exact ⟨touch_of_edit hedit hp.current.2.1 hp.successors_current hlabels hswitch hdflt hsaw,
    hedit.core⟩

section
variable {l : List Insn} {succs : List Cessor}

theorem Ended.inv (h : Ended l succs p q) (hp : p.Inv) (hb : p.Free q.current) : q.Inv := by
  refine h.touch.inv hp ?_ ⟨hb.ne_zero, hb.le, [], ?_⟩ hb.waiting
  · rintro x rfl hx
    exact (hp.waiting _ hx).2.2.2 rfl
  · rw [h.touch.others _ hb.current]
    exact hb.core

theorem Ended.passes (h : Ended l succs p q) (hp : p.Inv)
    (hn : ∀ b ≤ n, p.Held b → b ≠ q.current) : Passes n p q :=
  h.touch.passes hp fun b hb hheld => ⟨hheld.current, hn b hb hheld⟩

theorem Ended.held (h : Ended l succs p q) (hb : p.Held b) (hne : b ≠ q.current) : q.Held b :=
  h.touch.held hb hb.current hne

theorem Ended.point (h : Ended l succs p q) (hb : p.Free q.current) : q.point = (q.current, 0) := by
  have hinsns : (q.func.block q.current).insns = [] := by
    have := (h.touch.others _ hb.current).trans hb.core
    exact congrArg (fun core => core.1) this
  rw [Parser.point, hinsns]
  rfl

/-- The end of a block is found. -/
theorem closes_of_core (l₀ : List Insn) (h : (q.func.block b).core = (l₀ ++ l, none, succs))
    (hs : succs ≠ []) (hK : Keeps A q.func F) (hA : ¬ A b) :
    ∃ m, At F (b, l₀.length) l m ∧ Closes F m none succs := by
  have hsucc : (q.func.block b).successors ≠ [] := by
    have := congrArg (fun core => core.2.2) h
    exact fun hnil => hs (this.symm.trans hnil)
  have hcore := ((hK b).2 hA hsucc).trans h
  simp only [Block.core, Prod.mk.injEq] at hcore
  refine ⟨_, ⟨rfl, l₀, [], ?_, rfl⟩, ?_, hcore.2.1, hcore.2.2⟩
  · rw [List.append_nil]
    exact hcore.1
  · show (F.block b).insns.length = _
    rw [hcore.1, List.length_append]

theorem Ended.closes (h : Ended l succs p q) (hs : succs ≠ []) (hK : Keeps A q.func F)
    (hA : ¬ A p.current) : ∃ m, At F p.point l m ∧ Closes F m none succs :=
  closes_of_core _ h.core hs hK hA

theorem Ended.jumps (h : Ended [] [⟨.always, c, 0, 0⟩] p q) (hK : Keeps A q.func F)
    (hA : ¬ A p.current) : Jumps F p.point c := by
  obtain ⟨m, ⟨rfl, -⟩, hcloses⟩ := h.closes (List.cons_ne_nil _ _) hK hA
  exact hcloses

end

/-- Insns are emitted. -/
theorem Parser.Inv.touch_emit (hp : p.Inv) (l : List Insn) :
    Touch (· = p.current) p (p.emit l) ∧
      ((p.emit l).func.block p.current).core = ((p.func.block p.current).insns ++ l, none, []) := by
  have hedit := edit_append p hp.core_current l
  exact ⟨touch_of_edit hedit hp.current.2.1 hp.successors_current rfl rfl rfl rfl, hedit.core⟩

theorem inv_emit (hp : p.Inv) (l : List Insn) : (p.emit l).Inv := by
  obtain ⟨htouch, hcore⟩ := hp.touch_emit l
  have hw : ¬ p.Waiting p.current := fun h => (hp.waiting _ h).2.2.2 rfl
  refine htouch.inv hp ?_ ⟨hp.current.1, hp.current.2.1, _, hcore⟩ hw
  rintro x rfl
  exact hw

theorem passes_emit (hp : p.Inv) (l : List Insn) : Passes n p (p.emit l) :=
  (hp.touch_emit l).1.passes hp fun _ _ hb => ⟨hb.current, hb.current⟩

theorem at_emit (hp : p.Inv) {l : List Insn} (hK : Keeps A (p.emit l).func F) :
    At F p.point l (p.emit l).point := by
  obtain ⟨-, hcore⟩ := hp.touch_emit l
  have hinsns : ((p.emit l).func.block p.current).insns = (p.func.block p.current).insns ++ l :=
    congrArg (fun core => core.1) hcore
  obtain ⟨post, hpost⟩ := (hK p.current).1
  refine ⟨?_, (p.func.block p.current).insns, post, ?_, rfl⟩
  · show (p.current, ((p.emit l).func.block p.current).insns.length) = _
    rw [hinsns, List.length_append]
    rfl
  · show (F.block p.current).insns = _
    rw [← hpost, hinsns, List.append_assoc]

theorem Parser.Apart.not_held (hA : p.Apart A) (hb : p.Held b) : ¬ A b := by
  intro h
  have hcore := hb.core
  simp only [Block.core, Prod.mk.injEq] at hcore
  exact hA.2 b h hb.ne_zero hcore.2.2

end

/-! ### Expressions -/

theorem gen_result (e : Expr) (p : Parser) : (gen e p).2 = e.result := by
  induction e generalizing p with
  | leaf o => rfl
  | unary emit child ih => exact congrArg (fun o => (emit o).2) (ih p)
  | binary emit left right ihl ihr =>
    show (emit (gen left p).2 (gen right (gen left p).1).2).2 = _
    rw [ihl, ihr]
    rfl
  | log lor temp left right => rfl
  | quest temp left yes no => rfl
  | comma left right _ ihr => exact ihr _

/-- The code of an expression has been made. -/
structure GenLowers (e : Expr) (p q : Parser) : Prop where
  inv : q.Inv
  passes : Passes p.func.lastLabel p q
  break_ : q.breakBlock = p.breakBlock
  continue_ : q.continueBlock = p.continueBlock
  code : ∀ {A F}, p.Apart A → Keeps A q.func F → e.Code F p.point q.point

section
variable {p q r : Parser} {A : BlockId → Prop} {b c : BlockId} {m n : Nat} {F : Func}

theorem GenLowers.apart {e : Expr} (h : GenLowers e p q) (hA : p.Apart A) : q.Apart A :=
  hA.makes h.passes h.inv

theorem GenLowers.held {e : Expr} (h : GenLowers e p q) (hb : p.Held b) : q.Held b :=
  h.passes.held b hb.le hb

/-- Code is made, and the parser goes on behind it. -/
structure Reads (p q : Parser) (code : Func → Prop) : Prop where
  inv : q.Inv
  passes : Passes p.func.lastLabel p q
  code : ∀ {A F}, p.Apart A → Keeps A q.func F → code F

/-- Code is made, and the parser goes on with another block. -/
structure Enters (p q : Parser) (code : Func → Prop) : Prop where
  inv : q.Inv
  held : ∀ {b}, p.Held b → b ≠ q.current → q.Held b
  passes : ∀ {n}, n ≤ p.func.lastLabel → n < q.current → Passes n p q
  point : q.point = (q.current, 0)
  code : ∀ {A F}, p.Apart A → Keeps A q.func F → code F

section
variable {C D : Func → Prop} {l : List Insn} {succs : List Cessor}

theorem Enters.apart (h : Enters p q C) (hA : p.Apart A) : q.Apart A :=
  hA.makes (h.passes (Nat.zero_le _) (Nat.pos_of_ne_zero h.inv.current.1)) h.inv

theorem Enters.keeps_to (h : Enters p q C) (hA : p.Apart A) (hK : Keeps A q.func F) :
    Keeps A p.func F :=
  (h.passes (Nat.zero_le _) (Nat.pos_of_ne_zero h.inv.current.1)).keeps_to hA hK

theorem GenLowers.reads {e : Expr} (h : GenLowers e p q) :
    Reads p q fun F => e.Code F p.point q.point := ⟨h.inv, h.passes, h.code⟩

theorem reads_emit (hp : p.Inv) (l : List Insn) :
    Reads p (p.emit l) fun F => At F p.point l (p.emit l).point :=
  ⟨inv_emit hp l, passes_emit hp l, fun _ hK => at_emit hp hK⟩

theorem Reads.trans (h : Reads p q C) (h' : Reads q r D) : Reads p r fun F => C F ∧ D F where
  inv := h'.inv
  passes := h.passes.trans (h'.passes.mono h.passes.le fun _ => id)
  code hA hK := by
    have hAq := hA.makes h.passes h.inv
    exact ⟨h.code hA (h'.passes.keeps_to hAq hK), h'.code hAq hK⟩

theorem Ended.enters (h : Ended l succs p q) (hp : p.Inv) (hb : p.Free q.current)
    (hs : succs ≠ []) :
    Enters p q fun F => ∃ m, At F p.point l m ∧ Closes F m none succs where
  inv := h.inv hp hb
  held := h.held
  passes _ hn := h.passes hp fun _ hle _ => Nat.ne_of_lt (Nat.lt_of_le_of_lt hle hn)
  point := h.point hb
  code hA hK := h.closes hs hK (hA.not_current hp)

theorem Ended.enters_jump (h : Ended [] [⟨.always, c, 0, 0⟩] p q) (hp : p.Inv)
    (hb : p.Free q.current) : Enters p q fun F => Jumps F p.point c :=
  { h.enters hp hb (List.cons_ne_nil _ _) with code := fun hA hK => h.jumps hK (hA.not_current hp) }

/-- The current block goes on with block `c`, and a block that is held is entered. -/
theorem Parser.Inv.jump (hp : p.Inv) (hf : r.func = (p.add p.current .always c).func)
    (hlabels : r.labels = p.labels) (hswitch : r.switchBlock = p.switchBlock)
    (hdflt : r.defaultBlock = p.defaultBlock) (hsaw : r.sawDefault = p.sawDefault)
    (hb : p.Held r.current) : Enters p r fun F => Jumps F p.point c :=
  (hp.ended_add hf hlabels hswitch hdflt hsaw).enters_jump hp hb.free

theorem Reads.enters (h : Reads p q C) (h' : Enters q r D) : Enters p r fun F => C F ∧ D F where
  inv := h'.inv
  held hb hne := h'.held (h.passes.held _ hb.le hb) hne
  passes hn hcur :=
    Passes.trans (h.passes.mono hn fun _ => id) (h'.passes (Nat.le_trans hn h.passes.le) hcur)
  point := h'.point
  code hA hK := by
    have hAq := hA.makes h.passes h.inv
    have hpass : Passes 0 q r :=
      h'.passes (Nat.zero_le _) (Nat.pos_of_ne_zero h'.inv.current.1)
    exact ⟨h.code hA (hpass.keeps_to hAq hK), h'.code hAq hK⟩

end

/-- A condition is generated, and one of the blocks that it leads to is entered. -/
theorem GenLowers.enters {e : Expr} {t u : BlockId} (h : GenLowers e p q)
    (hf : r.func = (genBranch q e.result t u).func) (hlabels : r.labels = q.labels)
    (hswitch : r.switchBlock = q.switchBlock) (hdflt : r.defaultBlock = q.defaultBlock)
    (hsaw : r.sawDefault = q.sawDefault) (hb : p.Held r.current) :
    Enters p r fun F => Condition F e p.point t u := by
  have hend := h.inv.ended_branch hf hlabels hswitch hdflt hsaw
  have henters := h.reads.enters
    (hend.enters h.inv (h.held hb).free (List.cons_ne_nil _ _))
  refine { henters with code := fun hA hK => ?_ }
  obtain ⟨hcode, hbranch⟩ := henters.code hA hK
  exact ⟨_, hcode, hbranch⟩

/-- An arm of `?:` is generated, and another block is entered. -/
theorem GenLowers.enters_arm {e : Expr} (temp : Option Operand) (join : BlockId)
    (h : GenLowers e p q) (hr : r = { (q.emit (moveTemp temp e.result)).add
      (q.emit (moveTemp temp e.result)).current .always join with current := b })
    (hb : p.Held b) : Enters p r fun F => ∃ m n, e.Code F p.point m ∧
      At F m (moveTemp temp e.result) n ∧ Jumps F n join := by
  subst hr
  have hmove := h.reads.trans (reads_emit h.inv (moveTemp temp e.result))
  have hheld := hmove.passes.held b hb.le hb
  have hend := hmove.inv.ended_add (c := join) (q := { (q.emit (moveTemp temp e.result)).add
    (q.emit (moveTemp temp e.result)).current .always join with current := b }) rfl rfl rfl rfl rfl
  have henters := hmove.enters (hend.enters_jump hmove.inv hheld.free)
  refine { henters with code := fun hA hK => ?_ }
  obtain ⟨⟨hcode, hat⟩, hjump⟩ := henters.code hA hK
  exact ⟨_, _, hcode, hat, hjump⟩

/-- The two blocks that `&&` and `||` make for their value. -/
theorem log_arms {tb eb : BlockId} (l l' : List Insn) (join : BlockId) (htb : p.Held tb) (heb : p.Held eb)
    (hne : tb ≠ eb)
    (hq : q = (((p.append tb l).append eb l').add tb .always join).add eb .always join) :
    Touch (fun x => x = tb ∨ x = eb) p q ∧
      (q.func.block tb).core = (l, none, [⟨.always, join, 0, 0⟩]) ∧
      (q.func.block eb).core = (l', none, [⟨.always, join, 0, 0⟩]) := by
  subst hq
  have h₁ := edit_append p htb.core l
  have heb₁ := (h₁.others eb hne.symm).trans heb.core
  have h₂ := edit_append (p.append tb l) heb₁ l'
  have htb₂ := (h₂.others tb hne).trans h₁.core
  have h₃ := edit_addSuccessor htb₂ .always join 0 0
  have heb₃ := (h₃.others eb hne.symm).trans h₂.core
  have h₄ := edit_addSuccessor heb₃ .always join 0 0
  have htb₄ := (h₄.others tb hne).trans h₃.core
  refine ⟨?_, htb₄, h₄.core⟩
  have hcore : ∀ {x}, p.Held x → (p.func.block x).insns = [] ∧ (p.func.block x).successors = [] :=
    fun hx => ⟨congrArg (fun core => core.1) hx.core, congrArg (fun core => core.2.2) hx.core⟩
  refine ⟨h₄.lastLabel.trans (h₃.lastLabel.trans (h₂.lastLabel.trans h₁.lastLabel)),
    h₄.entry.trans (h₃.entry.trans (h₂.entry.trans h₁.entry)),
    h₄.exit.trans (h₃.exit.trans (h₂.exit.trans h₁.exit)), fun x hx => ?_, fun x hx => ?_, rfl, rfl, rfl, rfl⟩
  · have htb' : x ≠ tb := fun h => hx (.inl h)
    have heb' : x ≠ eb := fun h => hx (.inr h)
    exact (h₄.others x heb').trans ((h₃.others x htb').trans
      ((h₂.others x heb').trans (h₁.others x htb')))
  · have hx' : p.Held x := by
      rcases hx with rfl | rfl
      · exact htb
      · exact heb
    rw [(hcore hx').1]
    exact ⟨hx'.le, (hcore hx').2, List.nil_prefix⟩

/-- The two blocks are found where they are made. -/
theorem log_arms_inv {tb eb : BlockId} (h : Touch (fun x => x = tb ∨ x = eb) p q) (hp : p.Inv)
    (htb : p.Held tb) (heb : p.Held eb) (hcur : q.current = p.current) :
    q.Inv ∧ q.point = p.point ∧ (n < tb → n < eb → Passes n p q) := by
  have hheld : ∀ x, (x = tb ∨ x = eb) → p.Held x := by
    rintro x (rfl | rfl)
    · exact htb
    · exact heb
  have hcore : (q.func.block p.current).core = (p.func.block p.current).core :=
    h.others _ fun hx => (hheld _ hx).current rfl
  refine ⟨h.inv hp (fun x hx => (hheld x hx).not_waiting) ?_ ?_, ?_, fun htn hen => ?_⟩
  · rw [hcur, hcore]
    exact hp.current
  · rw [hcur]
    exact fun hw => (hp.waiting _ hw).2.2.2 rfl
  · rw [Parser.point, hcur, Block.insns_eq hcore]
    rfl
  · refine h.passes hp fun b hb hheldb => ⟨?_, hcur ▸ hheldb.current⟩
    rintro (rfl | rfl) <;> omega

theorem gen_lowers (e : Expr) : ∀ {p : Parser}, p.Inv → GenLowers e p (gen e p).1 := by
  induction e with
  | leaf o =>
    intro p hp
    refine ⟨hp, ?_, rfl, rfl, fun _ _ => rfl⟩
    have := (hp.touch_emit []).1
    exact passes_emit hp []
  | unary emit child ih =>
    intro p hp
    rw [gen]
    simp only [gen_result]
    have hc := ih hp
    generalize (gen child p).1 = q at hc
    refine ⟨inv_emit hc.inv _, hc.passes.trans (passes_emit hc.inv _), hc.break_, hc.continue_, ?_⟩
    intro A F hA hK
    have hq : Passes 0 q (q.emit (emit child.result).1) := passes_emit hc.inv _
    exact ⟨q.point, hc.code hA (hq.keeps_to (hc.apart hA) hK), at_emit hc.inv hK⟩
  | binary emit left right ihl ihr =>
    intro p hp
    rw [gen]
    simp only [gen_result]
    have hl := ihl hp
    generalize (gen left p).1 = q at hl
    have hr := ihr hl.inv
    generalize (gen right q).1 = r at hr
    have hpass := hl.passes.trans (hr.passes.mono hl.passes.le fun _ => id)
    refine ⟨inv_emit hr.inv _, hpass.trans (passes_emit hr.inv _), hr.break_.trans hl.break_,
      hr.continue_.trans hl.continue_, ?_⟩
    intro A F hA hK
    have hlast : Passes 0 r (r.emit (emit left.result right.result).1) := passes_emit hr.inv _
    have hKr := hlast.keeps_to (hr.apart (hl.apart hA)) hK
    exact ⟨q.point, r.point, hl.code hA (hr.passes.keeps_to (hl.apart hA) hKr),
      hr.code (hl.apart hA) hKr, at_emit hr.inv hK⟩
  | comma left right ihl ihr =>
    intro p hp
    rw [gen]
    have hl := ihl hp
    generalize (gen left p).1 = q at hl
    have hr := ihr hl.inv
    refine ⟨hr.inv, hl.passes.trans (hr.passes.mono hl.passes.le fun _ => id),
      hr.break_.trans hl.break_, hr.continue_.trans hl.continue_, ?_⟩
    intro A F hA hK
    exact ⟨q.point, hl.code hA (hr.passes.keeps_to (hl.apart hA) hK), hr.code (hl.apart hA) hK⟩
  | log lor temp left right ihl ihr =>
    intro p hp
    rw [gen]
    simp only [gen_result]
    obtain ⟨h₄, htb, heb, hjn, hnew₃, hlt₂, hlt₃, hlt₄⟩ := new₃ (inv_new hp)
    have hrb := (held_new hp).new.new.new
    have hnew : Passes p.func.lastLabel p p.new.2.new.2.new.2.new.2 :=
      passes_new.trans (hnew₃.mono (Nat.le_succ _) fun _ => id)
    have hlt₁ : p.func.lastLabel < p.new.1 := Nat.lt_succ_self _
    change p.new.1 < p.new.2.new.1 at hlt₂
    clear hnew₃
    have hbreak : p.new.2.new.2.new.2.new.2.breakBlock = p.breakBlock := rfl
    have hcont : p.new.2.new.2.new.2.new.2.continueBlock = p.continueBlock := rfl
    have hpoint : p.new.2.new.2.new.2.new.2.point = p.point := rfl
    generalize p.new.2.new.2.new.2.new.2 = p₄ at *
    generalize p.new.2.new.2.new.2.new.1 = join at *
    generalize p.new.2.new.2.new.1 = eb at *
    generalize p.new.2.new.1 = tb at *
    generalize p.new.1 = rb at *
    have htb_lt : p.func.lastLabel < tb := Nat.lt_trans hlt₁ hlt₂
    have heb_lt : p.func.lastLabel < eb := Nat.lt_trans htb_lt hlt₃
    have hne₁ : ∀ {x}, x = tb ∨ x = eb → x ≠ rb ∧ x ≠ join := by
      rintro x (rfl | rfl)
      · exact ⟨Nat.ne_of_gt hlt₂, Nat.ne_of_lt (Nat.lt_trans hlt₃ hlt₄)⟩
      · exact ⟨Nat.ne_of_gt (Nat.lt_trans hlt₂ hlt₃), Nat.ne_of_lt hlt₄⟩
    -- the blocks for the value
    obtain ⟨htouch, htcore, hecore⟩ := log_arms [moveI temp 1] [moveI temp 0] join
      htb heb (Nat.ne_of_lt hlt₃) rfl
    have hbreak' : ((((p₄.append tb [moveI temp 1]).append eb [moveI temp 0]).add tb .always
      join).add eb .always join).breakBlock = p₄.breakBlock := rfl
    have hcont' : ((((p₄.append tb [moveI temp 1]).append eb [moveI temp 0]).add tb .always
      join).add eb .always join).continueBlock = p₄.continueBlock := rfl
    have hcur' : ((((p₄.append tb [moveI temp 1]).append eb [moveI temp 0]).add tb .always
      join).add eb .always join).current = p₄.current := rfl
    generalize (((p₄.append tb [moveI temp 1]).append eb [moveI temp 0]).add tb .always
      join).add eb .always join = q at *
    obtain ⟨hq, hqpoint, hqpass⟩ := log_arms_inv (n := p.func.lastLabel) htouch h₄ htb heb hcur'
    have hpass₀ := hnew.trans (hqpass htb_lt heb_lt)
    have hrb' : q.Held rb := htouch.held hrb (fun h => (hne₁ h).1 rfl) (hcur' ▸ hrb.current)
    have hjn' : q.Held join := htouch.held hjn (fun h => (hne₁ h).2 rfl) (hcur' ▸ hjn.current)
    -- the operands
    have hl := ihl hq
    generalize (gen left q).1 = l at *
    have hite : (if lor = true then genBranch l left.result tb rb else genBranch l left.result rb eb) =
        genBranch l left.result (if lor then tb else rb) (if lor then rb else eb) := by
      cases lor <;> rfl
    rw [hite]
    have hS₁ := hl.enters (r := { genBranch l left.result (if lor then tb else rb)
      (if lor then rb else eb) with current := rb }) rfl rfl rfl rfl rfl hrb'
    have hr := ihr hS₁.inv
    have hS₂ := hr.enters (t := tb) (u := eb) (r := { genBranch (gen right { genBranch l left.result
      (if lor then tb else rb) (if lor then rb else eb) with current := rb }).1 right.result tb eb with
      current := join }) rfl rfl rfl rfl rfl (hS₁.held hjn' (Nat.ne_of_gt (Nat.lt_trans hlt₂ (Nat.lt_trans hlt₃ hlt₄))))
    have hpass₁ := hS₁.passes hpass₀.le hlt₁
    have hpass₂ := hS₂.passes (Nat.le_trans hpass₀.le hpass₁.le) (Nat.lt_trans heb_lt hlt₄)
    refine ⟨hS₂.inv, hpass₀.trans (hpass₁.trans hpass₂), ?_, ?_, fun {A F} hA hK => ?_⟩
    · exact hr.break_.trans (hl.break_.trans (hbreak'.trans hbreak))
    · exact hr.continue_.trans (hl.continue_.trans (hcont'.trans hcont))
    · have hA₀ := hA.makes hpass₀ hq
      have hA₄ : p₄.Apart A := hA.makes hnew h₄
      have hA₁ := hS₁.apart hA₀
      have hK₁ := hS₂.keeps_to hA₁ hK
      have hK₀ := hS₁.keeps_to hA₀ hK₁
      obtain ⟨m, hleft, hbranch⟩ := hS₁.code hA₀ hK₁
      obtain ⟨n, hright, hbranch'⟩ := hS₂.code hA₁ hK
      obtain ⟨tq, hat, hjump⟩ := closes_of_core [] htcore (List.cons_ne_nil _ _) hK₀
        (hA₄.not_held htb)
      obtain ⟨eq, hat', hjump'⟩ := closes_of_core [] hecore (List.cons_ne_nil _ _) hK₀
        (hA₄.not_held heb)
      rw [hqpoint, hpoint] at hleft
      rw [hS₁.point] at hright
      exact ⟨m, n, rb, tb, eb, join, tq, eq, hleft, hbranch, hright, hbranch', hat, hjump, hat',
        hjump', hS₂.point⟩
  | quest temp left yes no ihl ihy ihn =>
    intro p hp
    rw [gen]
    simp only [gen_result]
    obtain ⟨h₃, htb, heb, hjn, hnew, hlt₁, hlt₂, hlt₃⟩ := new₃ hp
    have hle : p.func.lastLabel < p.new.2.new.2.new.2.func.lastLabel :=
      Nat.lt_trans (Nat.lt_succ_self _) (Nat.lt_trans (Nat.lt_succ_self _) (Nat.lt_succ_self _))
    have hbreak : p.new.2.new.2.new.2.breakBlock = p.breakBlock := rfl
    have hcont : p.new.2.new.2.new.2.continueBlock = p.continueBlock := rfl
    have hpoint : p.new.2.new.2.new.2.point = p.point := rfl
    generalize p.new.2.new.2.new.2 = p₃ at *
    generalize p.new.2.new.2.new.1 = join at *
    generalize p.new.2.new.1 = eb at *
    generalize p.new.1 = tb at *
    have hl := ihl h₃
    generalize (gen left p₃).1 = l at *
    have hS₁ := hl.enters (r := { genBranch l left.result tb eb with current := tb })
      (t := tb) (u := eb) rfl rfl rfl rfl rfl htb
    have heb₁ := hS₁.held heb (Nat.ne_of_gt hlt₂)
    have hjn₁ := hS₁.held hjn (Nat.ne_of_gt (Nat.lt_trans hlt₂ hlt₃))
    have hy := ihy hS₁.inv
    have hS₂ := hy.enters_arm temp join rfl heb₁
    have hjn₂ := hS₂.held hjn₁ (Nat.ne_of_gt hlt₃)
    have hn := ihn hS₂.inv
    have hS₃ := hn.enters_arm temp join rfl hjn₂
    have hpass₁ := hS₁.passes (Nat.le_of_lt hle) hlt₁
    have hpass₂ := hS₂.passes (Nat.le_trans (Nat.le_of_lt hle) hpass₁.le) (Nat.lt_trans hlt₁ hlt₂)
    have hpass₃ := hS₃.passes (Nat.le_trans (Nat.le_of_lt hle) (Nat.le_trans hpass₁.le hpass₂.le))
      (Nat.lt_trans hlt₁ (Nat.lt_trans hlt₂ hlt₃))
    refine ⟨hS₃.inv, hnew.trans (hpass₁.trans (hpass₂.trans hpass₃)), ?_, ?_, fun hA hK => ?_⟩
    · exact hn.break_.trans (hy.break_.trans (hl.break_.trans hbreak))
    · exact hn.continue_.trans (hy.continue_.trans (hl.continue_.trans hcont))
    · have hA₀ := hA.makes hnew h₃
      have hA₁ := hS₁.apart hA₀
      have hA₂ := hS₂.apart hA₁
      have hK₂ := hS₃.keeps_to hA₂ hK
      have hK₁ := hS₂.keeps_to hA₁ hK₂
      obtain ⟨m, hleft, hbranch⟩ := hS₁.code hA₀ hK₁
      obtain ⟨y, yq, hyes, hmove, hjump⟩ := hS₂.code hA₁ hK₂
      obtain ⟨n, nq, hno, hmove', hjump'⟩ := hS₃.code hA₂ hK
      rw [hpoint] at hleft
      rw [hS₁.point] at hyes
      rw [hS₂.point] at hno
      exact ⟨m, tb, eb, y, yq, n, nq, join, hleft, hbranch, hyes, hmove, hjump, hno, hmove', hjump',
        hS₃.point⟩

end

end Ncc.Stmts
