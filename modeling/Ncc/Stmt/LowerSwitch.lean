import Ncc.Stmt.Lower

/-! The code that the parser makes of switches (stmt.c, block.c). -/

namespace Ncc.Stmts

/-- `block_switch_done` makes no blocks. -/
theorem outline_blockSwitchDone (f : Func) (b : BlockId) :
    (Switch.blockSwitchDone f b).lastLabel = f.lastLabel ∧
      (Switch.blockSwitchDone f b).entry = f.entry ∧ (Switch.blockSwitchDone f b).exit = f.exit := by
  have hremove : ∀ (n : Nat) (f : Func), (removeSuccessors b n f).lastLabel = f.lastLabel ∧
      (removeSuccessors b n f).entry = f.entry ∧ (removeSuccessors b n f).exit = f.exit := by
    intro n
    induction n with
    | zero => exact fun f => ⟨rfl, rfl, rfl⟩
    | succ n ih => exact fun f => ih _
  have hat : ∀ (f : Func) (n : Nat), (Switch.coalesceAt f b n).lastLabel = f.lastLabel ∧
      (Switch.coalesceAt f b n).entry = f.entry ∧ (Switch.coalesceAt f b n).exit = f.exit := by
    intro f n
    unfold Switch.coalesceAt
    split
    · split_ifs
      · exact ⟨rfl, rfl, rfl⟩
      · exact ⟨rfl, rfl, rfl⟩
    · exact ⟨rfl, rfl, rfl⟩
  have hfold : ∀ (l : List Nat) (f : Func),
      (l.foldl (fun f n => Switch.coalesceAt f b n) f).lastLabel = f.lastLabel ∧
      (l.foldl (fun f n => Switch.coalesceAt f b n) f).entry = f.entry ∧
      (l.foldl (fun f n => Switch.coalesceAt f b n) f).exit = f.exit := by
    intro l
    induction l with
    | nil => exact fun f => ⟨rfl, rfl, rfl⟩
    | cons n l ih =>
      intro f
      obtain ⟨h₁, h₂, h₃⟩ := ih (Switch.coalesceAt f b n)
      obtain ⟨h₁', h₂', h₃'⟩ := hat f n
      exact ⟨h₁.trans h₁', h₂.trans h₂', h₃.trans h₃'⟩
  have hcoalesce : (Switch.blockSwitchCoalesce f b).lastLabel = f.lastLabel ∧
      (Switch.blockSwitchCoalesce f b).entry = f.entry ∧
      (Switch.blockSwitchCoalesce f b).exit = f.exit := by
    obtain ⟨h₁, h₂, h₃⟩ := hfold (List.range ((Switch.blockSwitchSort f b).block b).successors.length)
      (Switch.blockSwitchSort f b)
    exact ⟨h₁, h₂, h₃⟩
  have hfirst : ∀ g : Func, g = (if blockSwitchP (f.block b) then Switch.blockSwitchCoalesce f b
      else f) → g.lastLabel = f.lastLabel ∧ g.entry = f.entry ∧ g.exit = f.exit := by
    rintro g rfl
    split_ifs
    · exact hcoalesce
    · exact ⟨rfl, rfl, rfl⟩
  unfold Switch.blockSwitchDone Switch.blockCoalesceSuccessors
  dsimp only
  generalize hg : (if blockSwitchP (f.block b) then Switch.blockSwitchCoalesce f b else f) = g
  obtain ⟨h₁, h₂, h₃⟩ := hfirst g hg.symm
  split
  · exact ⟨h₁, h₂, h₃⟩
  · split_ifs
    · exact ⟨h₁, h₂, h₃⟩
    · exact ⟨h₁, h₂, h₃⟩
    · obtain ⟨h₁', h₂', h₃'⟩ := hremove (g.block b).successors.length g
      exact ⟨h₁'.trans h₁, h₂'.trans h₂, h₃'.trans h₃⟩

/-- The body of a switch is about to be read; the current block has the control expression. -/
def enterSwitch (control : Operand) (p : Parser) : Parser :=
  let default_ := p.new
  let break_ := default_.2.new
  let body := break_.2.new
  { body.2 with
    func := Switch.blockSwitch body.2.func p.current control default_.1
    current := body.1
    switchBlock := p.current
    sawDefault := false
    defaultBlock := default_.1
    breakBlock := break_.1 }

/-- The body of a switch has been read. -/
def leaveSwitch (saved p : Parser) : Parser :=
  let p := p.add p.current .always p.breakBlock
  let p := if p.sawDefault then p else p.add p.defaultBlock .always p.breakBlock
  { p with
    func := Switch.blockSwitchDone p.func p.switchBlock
    current := p.breakBlock
    switchBlock := saved.switchBlock
    breakBlock := saved.breakBlock
    defaultBlock := saved.defaultBlock
    sawDefault := saved.sawDefault }

section
variable {env : Env} {p q r m g saved : Parser} {A : BlockId → Prop} {b x : BlockId} {n : Nat}
  {F : Func} {c : Places} {label : String → BlockId} {s : Stmt} {control : Operand}

/-- What holds at the beginning of the body of a switch. -/
structure Entered (control : Operand) (p q : Parser) : Prop where
  inv : q.Inv
  core : (q.func.block p.current).core = ((p.func.block p.current).insns, some control,
    [⟨.default, q.defaultBlock, 0, 0⟩])
  others : ∀ x, x ≠ p.current → (q.func.block x).core = (p.func.block x).core
  entry : q.func.entry = p.func.entry
  exit : q.func.exit = p.func.exit
  le : p.func.lastLabel ≤ q.func.lastLabel
  held : ∀ {b}, p.Held b → q.Held b
  dflt : p.switchBlock ≠ 0 → p.sawDefault = false → q.Held p.defaultBlock
  brk : q.Held q.breakBlock
  lt : p.func.lastLabel < q.breakBlock
  labels : q.labels = p.labels
  switchBlock : q.switchBlock = p.current
  sawDefault : q.sawDefault = false
  continue_ : q.continueBlock = p.continueBlock
  point : q.point = (q.current, 0)

theorem enterSwitch_lowers (hp : p.Inv) (control : Operand) :
    Entered control p (enterSwitch control p) := by
  obtain ⟨h₃, hdflt, hbrk, hbody, hnew, hlt₁, hlt₂, hlt₃⟩ := new₃ hp
  have hle := hnew.le
  have hsucc : (p.func.block p.current).successors = [] := hp.successors_current
  have hedit : Edit p.new.2.new.2.new.2.func p.current ((p.func.block p.current).insns, some control,
      [⟨.default, p.new.1, 0, 0⟩]) (enterSwitch control p).func := by
    have hadd := edit_addSuccessor (f := p.new.2.new.2.new.2.func) hp.core_current .default p.new.1 0 0
    refine ⟨rfl, rfl, rfl, ?_, fun x hx => ?_⟩
    · have hcore := hadd.core
      simp only [Block.core, Prod.mk.injEq] at hcore
      show (((blockAddSuccessor _ _ _ _).setControl _ _).block p.current).core = _
      rw [Func.setControl_block, if_pos rfl]
      simp only [Block.core, Prod.mk.injEq]
      exact ⟨hcore.1, trivial, hcore.2.2⟩
    · show (((blockAddSuccessor _ _ _ _).setControl _ _).block x).core = _
      rw [Func.setControl_block, if_neg hx]
      exact hadd.others x hx
  have hsw : Switch.SwitchBlock ((enterSwitch control p).func.block p.current)
      ⟨.default, p.new.1, 0, 0⟩ [] := Switch.blockSwitch_spec control p.new.1 hsucc
  have hkeep : ∀ {x}, p.new.2.new.2.new.2.Held x → x ≠ p.new.1 → x ≠ p.new.2.new.2.new.1 →
      (enterSwitch control p).Held x := by
    intro x hx hd hb
    exact ⟨hx.ne_zero, hx.le, (hedit.others x hx.current).trans hx.core, hb, hx.labels, hd⟩
  have hdefault : ∀ {x}, p.new.2.new.2.new.2.Waiting x → x ≠ p.new.1 ∧ x ≠ p.new.2.new.2.new.1 :=
    fun hx => ⟨fun h => hdflt.not_waiting (h ▸ hx), fun h => hbody.not_waiting (h ▸ hx)⟩
  refine ⟨⟨fun x hx => ?_, ?_, ?_, fun x hx => ?_, h₃.distinct, hdflt.le, fun _ => ⟨[], hsw, ?_⟩⟩,
    hedit.core, hedit.others, rfl, rfl, hle, fun {x} hx => ?_, fun hs hsaw => ?_, ?_,
    Nat.lt_trans hlt₁ hlt₂, rfl, rfl, rfl, rfl, ?_⟩
  · have hne : x ≠ p.current :=
      Nat.ne_of_gt (Nat.lt_of_le_of_lt hp.current.2.1 (Nat.lt_of_le_of_lt hle hx))
    exact (hedit.others x hne).trans (h₃.fresh x hx)
  · exact ⟨hbody.ne_zero, hbody.le, [], (hedit.others _ hbody.current).trans hbody.core⟩
  · rintro x (⟨y, hy, hyd, rfl⟩ | ⟨-, -, rfl⟩)
    · have hw : p.new.2.new.2.new.2.Waiting y.to_ := .inl ⟨y, hy, hyd, rfl⟩
      obtain ⟨hne, hxle, hcore, hcur⟩ := h₃.waiting _ hw
      exact ⟨hne, hxle, (hedit.others _ hcur).trans hcore, (hdefault hw).2⟩
    · exact ⟨hdflt.ne_zero, hdflt.le, (hedit.others _ hdflt.current).trans hdflt.core,
        Nat.ne_of_lt (Nat.lt_trans hlt₂ hlt₃)⟩
  · obtain ⟨hne, hxle, -⟩ := h₃.labels x hx
    exact ⟨hne, hxle, fun _ _ => hdflt.labels x hx⟩
  · exact fun _ hc => absurd hc List.not_mem_nil
  · exact hkeep hx.new.new.new (Nat.ne_of_lt (Nat.lt_succ_of_le hx.le))
      (Nat.ne_of_lt (Nat.lt_of_le_of_lt hx.le (Nat.lt_trans hlt₁ (Nat.lt_trans hlt₂ hlt₃))))
  · have hw : p.new.2.new.2.new.2.Waiting p.defaultBlock := .inr ⟨hs, hsaw, rfl⟩
    obtain ⟨hne, hxle, hcore, hcur⟩ := h₃.waiting _ hw
    exact ⟨hne, hxle, (hedit.others _ hcur).trans hcore, (hdefault hw).2,
      fun y hy => (h₃.labels y hy).2.2 hs hsaw, (hdefault hw).1⟩
  · exact hkeep hbrk (Nat.ne_of_gt hlt₂) (Nat.ne_of_lt hlt₃)
  · have hinsns : ((enterSwitch control p).func.block p.new.2.new.2.new.1).insns = [] := by
      have hcore := (hedit.others _ hbody.current).trans hbody.core
      exact congrArg (fun core => core.1) hcore
    show (p.new.2.new.2.new.1, ((enterSwitch control p).func.block p.new.2.new.2.new.1).insns.length) = _
    rw [hinsns]
    rfl

/-- What holds behind a switch. -/
structure Left (p q : Parser) : Prop where
  goesOn : q.current = p.breakBlock
  labels : q.labels = p.labels
  continue_ : q.continueBlock = p.continueBlock
  lastLabel : q.func.lastLabel = p.func.lastLabel
  entry : q.func.entry = p.func.entry
  exit : q.func.exit = p.func.exit
  others : ∀ x, x ≠ p.current → x ≠ p.switchBlock → (p.sawDefault = true ∨ x ≠ p.defaultBlock) →
    (q.func.block x).core = (p.func.block x).core
  current : (q.func.block p.current).core =
    ((p.func.block p.current).insns ++ [], none, [⟨.always, p.breakBlock, 0, 0⟩])
  dflt : p.sawDefault = false → (q.func.block p.defaultBlock).core =
    ([] ++ [], none, [⟨.always, p.breakBlock, 0, 0⟩])
  insns : (q.func.block p.switchBlock).insns = (p.func.block p.switchBlock).insns
  successors : (q.func.block p.switchBlock).successors ≠ []
  branch : ∀ {cases control}, (p.func.block p.switchBlock).control = some control →
    (p.func.block p.switchBlock).successors = ⟨.default, p.defaultBlock, 0, 0⟩ :: cases →
    ∀ env s, Ncc.branch env (q.func.block p.switchBlock) s =
      some (Switch.lookup p.defaultBlock cases (control.read env s.regs))

theorem leaveSwitch_lowers (hp : p.Inv) (hs : p.switchBlock ≠ 0) (saved : Parser) :
    Left p (leaveSwitch saved p) := by
  have hdflt : p.sawDefault = false → (p.func.block p.defaultBlock).core = untouched ∧
      p.defaultBlock ≠ p.current := by
    intro hsaw
    obtain ⟨-, -, hcore, hcur⟩ := hp.waiting p.defaultBlock (.inr ⟨hs, hsaw, rfl⟩)
    exact ⟨hcore, hcur⟩
  have hswne := hp.successors_switch hs
  have hcur : p.switchBlock ≠ p.current := by
    intro heq
    rw [heq] at hswne
    exact hswne hp.successors_current
  obtain ⟨cases, hsw, -⟩ := hp.switch hs
  -- the jumps
  have hjump := edit_addSuccessor hp.core_current .always p.breakBlock 0 0
  obtain ⟨f, hf, hlast, hentry, hexit, hothers, hcurrent, hdefault⟩ :
      ∃ f, (leaveSwitch saved p).func = Switch.blockSwitchDone f p.switchBlock ∧
        f.lastLabel = p.func.lastLabel ∧ f.entry = p.func.entry ∧ f.exit = p.func.exit ∧
        (∀ x, x ≠ p.current → (p.sawDefault = true ∨ x ≠ p.defaultBlock) →
          (f.block x).core = (p.func.block x).core) ∧
        (f.block p.current).core =
          ((p.func.block p.current).insns ++ [], none, [⟨.always, p.breakBlock, 0, 0⟩]) ∧
        (p.sawDefault = false → (f.block p.defaultBlock).core =
          ([] ++ [], none, [⟨.always, p.breakBlock, 0, 0⟩])) := by
    cases hsaw : p.sawDefault with
    | true =>
      refine ⟨(p.add p.current .always p.breakBlock).func, ?_, rfl, rfl, rfl, fun x hx _ => ?_, ?_,
        fun h => ?_⟩
      · have hif : (p.add p.current .always p.breakBlock).sawDefault = true := hsaw
        simp only [leaveSwitch, hif, if_true]
        rfl
      · exact hjump.others x hx
      · rw [List.append_nil]
        exact hjump.core
      · cases h
    | false =>
      obtain ⟨hcore, hne⟩ := hdflt hsaw
      have hcore' := (hjump.others _ hne).trans hcore
      have hadd := edit_addSuccessor hcore' .always p.breakBlock 0 0
      refine ⟨((p.add p.current .always p.breakBlock).add p.defaultBlock .always p.breakBlock).func,
        ?_, rfl, rfl, rfl, fun x hx hd => ?_, ?_, fun _ => ?_⟩
      · have hif : (p.add p.current .always p.breakBlock).sawDefault = false := hsaw
        simp only [leaveSwitch, hif, Bool.false_eq_true, if_false]
        rfl
      · have hxd : x ≠ p.defaultBlock := hd.resolve_left Bool.false_ne_true
        exact (hadd.others x hxd).trans (hjump.others x hx)
      · rw [List.append_nil]
        exact (hadd.others _ hne.symm).trans hjump.core
      · exact hadd.core
  have hswd : p.sawDefault = true ∨ p.switchBlock ≠ p.defaultBlock := by
    cases hsaw : p.sawDefault with
    | true => exact .inl rfl
    | false =>
      refine .inr fun heq => hswne ?_
      rw [heq]
      exact congrArg (fun core => core.2.2) (hdflt hsaw).1
  have hcore := hothers _ hcur hswd
  have hsw' := SwitchBlock.congr hsw hcore
  have hdone := Switch.done_blockCoalesceSuccessors hsw'
  obtain ⟨hl, he, hx⟩ := outline_blockSwitchDone f p.switchBlock
  have hsame : ∀ x, x ≠ p.switchBlock →
      ((Switch.blockSwitchDone f p.switchBlock).block x).core = (f.block x).core := by
    intro x hxs
    obtain ⟨hsucc, hcontrol, hinsns⟩ := hdone.others x hxs
    simp only [Block.core, Prod.mk.injEq]
    exact ⟨hinsns, hcontrol, hsucc⟩
  simp only [Block.core, Prod.mk.injEq] at hcore
  have hne : p.sawDefault = false → p.defaultBlock ≠ p.switchBlock := fun hsaw =>
    (hswd.resolve_left (by rw [hsaw]; exact Bool.false_ne_true)).symm
  refine ⟨?_, ?_, ?_, ?_, ?_, ?_, fun x hxc hxs hxd => ?_, ?_, fun hsaw => ?_, ?_, ?_, ?_⟩
  · simp only [leaveSwitch]
    split_ifs <;> rfl
  · simp only [leaveSwitch]
    split_ifs <;> rfl
  · simp only [leaveSwitch]
    split_ifs <;> rfl
  · rw [hf, hl, hlast]
  · rw [hf, he, hentry]
  · rw [hf, hx, hexit]
  · rw [hf, hsame x hxs, hothers x hxc hxd]
  · rw [hf, hsame _ hcur.symm, hcurrent]
  · rw [hf, hsame _ (hne hsaw), hdefault hsaw]
  · rw [hf]
    exact hdone.insns.trans hcore.1
  · rw [hf]
    rcases hdone.cases with ⟨cases', -, hsucc, -⟩ | ⟨t, -, hsucc, -⟩
    · show ((Switch.blockCoalesceSuccessors f p.switchBlock).block p.switchBlock).successors ≠ []
      rw [hsucc]
      exact List.cons_ne_nil _ _
    · show ((Switch.blockCoalesceSuccessors f p.switchBlock).block p.switchBlock).successors ≠ []
      rw [hsucc]
      exact List.cons_ne_nil _ _
  · intro cases' control hcontrol hsuccs env s
    have hlookup : ∀ u, blockSwitchLookup (f.block p.switchBlock) u =
        some (Switch.lookup p.defaultBlock cases' u) := by
      intro u
      rw [Switch.switchLookup_eq (hcore.2.2.trans hsuccs)]
    have hto : ∀ u, blockSwitchLookup
        ((Switch.blockCoalesceSuccessors f p.switchBlock).block p.switchBlock) u =
        some (Switch.lookup p.defaultBlock cases' u) := fun u => (hdone.lookup u).trans (hlookup u)
    rw [hf]
    show Ncc.branch env ((Switch.blockCoalesceSuccessors f p.switchBlock).block p.switchBlock) s = _
    rcases hdone.cases with ⟨-, hctl, -, -⟩ | ⟨t, hctl, hsucc, hall⟩
    · rw [Ncc.branch, hctl, hcore.2.1, hcontrol]
      exact hto _
    · have ht := (hall (control.read env s.regs)).symm.trans (hlookup _)
      rw [Ncc.branch, hctl, hsucc, ← ht]
      rfl

theorem Keeps.drop {f f' : Func} (h : Keeps (fun y => A y ∨ y = x) f f')
    (hx : ¬ A x → (f.block x).successors = []) : Keeps A f f' := by
  refine fun y => ⟨(h y).1, fun hy hs => (h y).2 ?_ hs⟩
  rintro (ha | rfl)
  · exact hy ha
  · exact hs (hx hy)

/-- A case goes to its block, if no two cases have the same constant. -/
theorem lookup_of_mem {d : BlockId} {cases : List Cessor} {dflt : Cessor} {y : Block}
    (h : Switch.SwitchBlock y dflt cases) {k : Cessor} (hk : k ∈ cases) :
    Switch.lookup d cases k.min = k.b := by
  have hdis := h.disjoint
  have hrange := h.range
  clear h
  induction cases with
  | nil => cases hk
  | cons k' cases ih =>
    rw [Switch.lookup_eq_ite]
    obtain ⟨hfirst, hrest⟩ := List.pairwise_cons.mp hdis
    rcases List.mem_cons.mp hk with rfl | hk
    · rw [if_pos ⟨BitVec.le_refl _, hrange _ List.mem_cons_self⟩]
    · have hno : ¬ (k'.min ≤ k.min ∧ k.min ≤ k'.max) := fun hin => hfirst k hk k.min
        ⟨hin.1, hin.2, BitVec.le_refl _, hrange k (List.mem_cons_of_mem _ hk)⟩
      rw [if_neg hno]
      exact ih hk hrest fun y hy => hrange y (List.mem_cons_of_mem _ hy)

/-- Other values go where the default goes. -/
theorem lookup_of_not_mem {d : BlockId} {cases : List Cessor} (hpoint : ∀ k ∈ cases, k.min = k.max)
    {u : Word} (hu : u ∉ cases.map Cessor.min) : Switch.lookup d cases u = d := by
  have hnone : cases.find? (Switch.holds u) = none := by
    refine List.find?_eq_none.mpr fun k hk hin => hu ?_
    rw [Switch.holds, Bool.and_eq_true, decide_eq_true_eq, decide_eq_true_eq, ← hpoint k hk] at hin
    rw [BitVec.le_antisymm hin.2 hin.1]
    exact List.mem_map_of_mem hk
  rw [Switch.lookup, hnone]
  rfl

/-- Cases that do not overlap have different constants. -/
theorem nodup_min {cases : List Cessor} {dflt : Cessor} {y : Block}
    (h : Switch.SwitchBlock y dflt cases) : (cases.map Cessor.min).Nodup := by
  refine List.pairwise_map.mpr (h.disjoint.imp_of_mem fun {k k'} hk hk' hdis heq => ?_)
  exact hdis k.min ⟨BitVec.le_refl _, h.range k hk, heq ▸ BitVec.le_refl _, heq ▸ h.range k' hk'⟩

theorem branch_congr {x y : Block} (h : x.core = y.core) (s : State) :
    branch env x s = branch env y s := by
  simp only [Block.core, Prod.mk.injEq] at h
  unfold branch blockSwitchLookup
  rw [h.2.1, h.2.2]

theorem switch_lowers {e : Expr} (hp : p.Inv)
    (ih : ∀ {p q}, p.Inv → statement s p = .ok q → Lowers env s p q)
    (h : switchStatement e (statement s) p = .ok q) : Lowers env (.switch e s) p q := by
  obtain ⟨control, hres, hfloat, hm⟩ : ∃ control, e.result = some control ∧
      control.ts.floating = false ∧ ∃ m, statement s (enterSwitch control (gen e p.new.2).1) = .ok m ∧ leaveSwitch p m = q := by
    unfold switchStatement at h
    cases hres : e.result with
    | none =>
      rw [hres] at h
      cases h
    | some control =>
      rw [hres] at h
      dsimp only at h
      split_ifs at h with hfloat
      obtain ⟨m, hm, hq⟩ := bind_ok.mp h
      exact ⟨control, rfl, Bool.eq_false_of_not_eq_true hfloat, m, hm, Except.ok.inj hq⟩
  obtain ⟨m, hm, rfl⟩ := hm
  clear h
  have hgen := gen_lowers e (inv_new hp)
  have hpass : Passes p.func.lastLabel p (gen e p.new.2).1 :=
    passes_new.trans (hgen.passes.mono (Nat.le_succ _) fun _ => id)
  have hbreak : (gen e p.new.2).1.continueBlock = p.continueBlock := hgen.continue_
  have hcodeE : ∀ {A F}, p.Apart A → Keeps A (gen e p.new.2).1.func F →
      e.Code F p.point (gen e p.new.2).1.point := by
    intro A F hA hK
    have hnew : Passes 0 p p.new.2 := passes_new
    exact hgen.code (hA.makes hnew (inv_new hp)) hK
  have hg := hgen.inv
  clear hgen
  generalize (gen e p.new.2).1 = g at *
  have hE := enterSwitch_lowers hg control
  generalize enterSwitch control g = q₀ at *
  have hs := ih hE.inv hm
  have hne : m.switchBlock ≠ 0 := by
    rw [hs.makes.switchBlock, hE.switchBlock]
    exact hg.current.1
  have hL := leaveSwitch_lowers hs.inv hne p
  obtain ⟨cases, hsw, hpoint⟩ := hs.inv.switch hne
  have hcur : m.switchBlock = g.current := hs.makes.switchBlock.trans hE.switchBlock
  have hsaw : m.sawDefault = s.hasDefault := by
    rw [hs.makes.saw, hE.sawDefault, Bool.false_or]
  have hbrk : m.Held m.breakBlock := by
    rw [hs.break_]
    exact hs.held hE.brk
  have hlt : p.func.lastLabel < m.breakBlock := by
    rw [hs.break_]
    exact Nat.lt_of_le_of_lt hpass.le hE.lt
  have hsucc : (m.func.block m.switchBlock).successors ≠ [] := hs.inv.successors_switch hne
  have hwait : m.sawDefault = false → (m.func.block m.defaultBlock).core = untouched := fun h =>
    (hs.inv.waiting _ (.inr ⟨hne, h, rfl⟩)).2.2.1
  have hnot : ∀ {x}, (m.func.block x).core = untouched → x ≠ m.switchBlock := by
    rintro x hx rfl
    exact hsucc (congrArg (fun core => core.2.2) hx)
  have huntouched : ∀ {x}, m.Held x → ((leaveSwitch p m).func.block x).core = untouched :=
    fun hx => (hL.others _ hx.current (hnot hx.core) (.inr hx.dflt)).trans hx.core
  -- what was there before the switch
  have hk₁ : Keeps (fun _ => False) g.func q₀.func := by
    intro x
    by_cases hx : x = g.current
    · subst hx
      rw [show (q₀.func.block g.current).insns = (g.func.block g.current).insns from
        congrArg (fun core => core.1) hE.core]
      exact ⟨List.prefix_refl _, fun _ h => absurd hg.successors_current h⟩
    · rw [Block.insns_eq (hE.others x hx)]
      exact ⟨List.prefix_refl _, fun _ _ => hE.others x hx⟩
  have hk₂ : Keeps (· = g.current) q₀.func m.func := hE.switchBlock ▸ hs.makes.keeps
  have hk₃ : Keeps (· = g.current) m.func (leaveSwitch p m).func := by
    intro x
    by_cases hx : x = m.current
    · subst hx
      rw [show ((leaveSwitch p m).func.block m.current).insns = (m.func.block m.current).insns ++ []
        from congrArg (fun core => core.1) hL.current]
      exact ⟨List.prefix_append .., fun _ h => absurd hs.inv.successors_current h⟩
    · by_cases hxs : x = m.switchBlock
      · subst hxs
        rw [hL.insns]
        exact ⟨List.prefix_refl _, fun h => absurd hcur h⟩
      · by_cases hxd : m.sawDefault = true ∨ x ≠ m.defaultBlock
        · rw [Block.insns_eq (hL.others x hx hxs hxd)]
          exact ⟨List.prefix_refl _, fun _ _ => hL.others x hx hxs hxd⟩
        · obtain ⟨hfalse, hd⟩ := not_or.mp hxd
          obtain rfl := not_not.mp hd
          have hcore := hwait (Bool.eq_false_of_not_eq_true hfalse)
          simp only [Block.core, Prod.mk.injEq] at hcore
          rw [hcore.1]
          exact ⟨List.nil_prefix, fun _ h => absurd hcore.2.2 h⟩
  have hkg : Keeps (fun _ => False) g.func (leaveSwitch p m).func := by
    refine Keeps.drop (x := g.current) ((hk₁.mono fun _ => False.elim).trans
      ((hk₂.trans hk₃).mono fun _ h => .inr h)) fun _ => hg.successors_current
  have hsame : ∀ x, (g.func.block x).successors ≠ [] →
      ((leaveSwitch p m).func.block x).core = (g.func.block x).core := fun x hx => (hkg x).2 id hx
  have houter : p.switchBlock ≠ 0 → p.sawDefault = false → m.Held p.defaultBlock := by
    intro hs' hsaw'
    have hheld := hE.dflt (hpass.switchBlock ▸ hs') (by rw [hpass.saw, hsaw']; rfl)
    rw [hpass.defaultBlock] at hheld
    exact hs.held hheld
  have hle : p.func.lastLabel ≤ (leaveSwitch p m).func.lastLabel := by
    rw [hL.lastLabel]
    exact Nat.le_trans hpass.le (Nat.le_trans hE.le hs.makes.le)
  -- the cases
  obtain ⟨new, hcore, hmin⟩ := hs.makes.switch (by rw [hE.switchBlock]; exact hg.current.1)
  have hcore₀ := hE.core
  simp only [Block.core, Prod.mk.injEq] at hcore hcore₀
  rw [hE.switchBlock, hcore₀.1, hcore₀.2.1, hcore₀.2.2] at hcore
  rw [hE.switchBlock, controlTs, hcore₀.2.1] at hmin
  have hcases : cases = new := by
    have := hsw.successors
    rw [hcur, hcore.2.2] at this
    exact (List.cons.inj this).2.symm
  refine ⟨⟨fun x hx => ?_, ?_, fun x hx => ?_, fun x hx => ?_, ?_, ?_, fun hs' => ?_⟩,
    ⟨?_, fun x hx hheld => ?_, fun id x hk => ?_, hle, ?_, ?_, rfl, rfl, (Bool.or_false _).symm,
      fun id hid => ?_, fun hs' => ?_, fun _ => ⟨rfl, rfl⟩⟩, rfl, ?_,
    ⟨⟨control, hres, hfloat⟩, hres ▸ hmin ▸ hcases ▸ nodup_min hsw, hs.distinct⟩,
    fun {A F label c} hA hK => ?_⟩
  · rw [hL.lastLabel] at hx
    have hcore := hs.inv.fresh x hx
    refine (hL.others x (Nat.ne_of_gt (Nat.lt_of_le_of_lt hs.inv.current.2.1 hx)) (hnot hcore)
      (.inr (Nat.ne_of_gt (Nat.lt_of_le_of_lt hs.inv.dflt hx)))).trans hcore
  · rw [hL.goesOn, hL.lastLabel]
    exact ⟨hbrk.ne_zero, hbrk.le, [], huntouched hbrk⟩
  · rw [hL.goesOn, hL.lastLabel]
    rcases hx with ⟨y, hy, hyd, rfl⟩ | ⟨hs', hsaw', rfl⟩
    · rw [hL.labels] at hy
      obtain ⟨hz, hxle, hcore, hxc⟩ := hs.inv.waiting y.to_ (.inl ⟨y, hy, hyd, rfl⟩)
      refine ⟨hz, hxle, (hL.others _ hxc (hnot hcore) ?_).trans hcore, hbrk.labels y hy⟩
      cases hm' : m.sawDefault with
      | true => exact .inl rfl
      | false => exact .inr ((hs.inv.labels y hy).2.2 hne hm')
    · have hheld := houter hs' hsaw'
      exact ⟨hheld.ne_zero, hheld.le, huntouched hheld, Nat.ne_of_lt (Nat.lt_of_le_of_lt hp.dflt hlt)⟩
  · rw [hL.labels] at hx
    rw [hL.lastLabel]
    obtain ⟨hz, hxle, -⟩ := hs.inv.labels x hx
    exact ⟨hz, hxle, fun hs' hsaw' => (houter hs' hsaw').labels x hx⟩
  · rw [hL.labels]
    exact hs.inv.distinct
  · exact Nat.le_trans hp.dflt hle
  · have hgs : g.switchBlock ≠ 0 := hpass.switchBlock ▸ hs'
    obtain ⟨cases', hsw', hpoint'⟩ := hg.switch hgs
    rw [hpass.switchBlock, hpass.defaultBlock] at hsw'
    have hgsucc := hg.successors_switch hgs
    rw [hpass.switchBlock] at hgsucc
    exact ⟨cases', SwitchBlock.congr hsw' (hsame _ hgsucc), hpoint'⟩
  · exact hpass.keeps.trans (hkg.mono fun _ => False.elim)
  · have hmheld := hs.held (hE.held (hpass.held x hx hheld))
    refine ⟨hmheld.ne_zero, hL.lastLabel ▸ hmheld.le, huntouched hmheld, ?_, ?_, hheld.dflt⟩
    · rw [hL.goesOn]
      exact Nat.ne_of_lt (Nat.lt_of_le_of_lt hx hlt)
    · rw [hL.labels]
      exact hmheld.labels
  · obtain ⟨y, hy, hk'⟩ := hpass.knows id x hk
    rw [← hE.labels] at hy
    have hkm := hs.makes.knows id x ⟨y, hy, hk'⟩
    rw [Parser.Knows, hL.labels]
    exact hkm
  · exact hL.entry.trans (hs.makes.entry.trans (hE.entry.trans hpass.entry))
  · exact hL.exit.trans (hs.makes.exit.trans (hE.exit.trans hpass.exit))
  · rw [Parser.Defined, hL.labels] at hid
    rcases hs.makes.defines id hid with hid | hid
    · rw [Parser.Defined, hE.labels] at hid
      exact .inl ((hpass.defines id hid).resolve_right fun h => h)
    · refine .inr fun k => ?_
      rw [find, Sought.enters, if_pos rfl]
      exact hid _
  · obtain ⟨new, hcore, hmin⟩ := hpass.switch hs'
    have hgsucc := hg.successors_switch (hpass.switchBlock ▸ hs')
    rw [hpass.switchBlock] at hgsucc
    exact ⟨new, (hsame _ hgsucc).trans hcore, hmin⟩
  · exact hL.continue_.trans (hs.continue_.trans (hE.continue_.trans hbreak))
  · have hAg := hA.makes hpass hg
    have hAcur : ¬ A g.current := hAg.not_current hg
    have hA₀ : q₀.Apart fun y => A y ∨ y = g.current := by
      refine ⟨.inr hE.switchBlock, fun x hx hxz => ?_⟩
      by_cases hxc : x = g.current
      · subst hxc
        rw [show (q₀.func.block g.current).successors = [⟨.default, q₀.defaultBlock, 0, 0⟩] from
          congrArg (fun core => core.2.2) hE.core]
        exact List.cons_ne_nil _ _
      · rw [Block.successors_eq (hE.others x hxc)]
        exact hAg.2 x (hx.resolve_right hxc) hxz
    have hAm := hs.apart hA₀
    have hcontrol : (m.func.block m.switchBlock).control = some control := by
      rw [hcur]
      exact hcore.2.1
    have hts : tsOpt e.result = controlTs (m.func.block m.switchBlock) := by
      rw [controlTs, hcontrol, hres]
    -- the function in the end
    have hF : (F.block g.current).core = ((leaveSwitch p m).func.block g.current).core :=
      (hK.keeps g.current).2 hAcur (hcur ▸ hL.successors)
    have hselects : Selects F env g.point e.result (Switch.lookup m.defaultBlock cases) := by
      refine ⟨?_, fun st => ?_⟩
      · show (F.block g.current).insns.length = (g.func.block g.current).insns.length
        rw [Block.insns_eq hF, ← hcur, hL.insns, hcur, hcore.1]
      · show branch env (F.block g.current) st = _
        rw [branch_congr hF, ← hcur, hL.branch hcontrol hsw.successors, hres]
        rfl
    have hKm : Known (fun y => A y ∨ y = g.current) F label ⟨m.breakBlock, c.continueBlock,
        m.defaultBlock, tsOpt e.result, Switch.lookup m.defaultBlock cases⟩ m := by
      refine ⟨(hk₃.mono fun _ h => .inr h).trans (hK.keeps.mono fun _ h => .inl h),
        hK.exit.trans hL.exit, fun id x hk => hK.labels id x ?_, rfl,
        hK.fits.continue_.trans hL.continue_, rfl, fun _ => ⟨hts, fun x hx => ?_⟩⟩
      · rw [Parser.Knows, hL.labels]
        exact hk
      · rw [hsw.successors, List.tail_cons] at hx
        exact lookup_of_mem hsw hx
    have hcode := hs.code hA₀ hKm
    rw [hE.point] at hcode
    obtain ⟨_, ⟨rfl, -⟩, hjump⟩ := closes_of_core _ hL.current (List.cons_ne_nil _ _) hK.keeps
      fun h => hAm.not_current hs.inv (.inl h)
    refine ⟨g.point, q₀.current, m.breakBlock, m.defaultBlock, _, m.point, hcodeE hA
      ((hkg.mono fun _ => False.elim).trans hK.keeps), hselects, fun u hu => ?_, hcode, hjump,
      fun hd => ?_, ?_⟩
    · refine lookup_of_not_mem hpoint fun hmem => hu ?_
      rw [hcases, hmin] at hmem
      rw [hres]
      exact hmem
    · rw [← hsaw] at hd
      have hdA : ¬ A m.defaultBlock := by
        intro h
        have hw := hs.inv.waiting m.defaultBlock (.inr ⟨hne, hd, rfl⟩)
        exact hAm.2 _ (.inl h) hw.1 (congrArg (fun core => core.2.2) hw.2.2.1)
      obtain ⟨_, ⟨rfl, -⟩, hjump'⟩ := closes_of_core _ (hL.dflt hd) (List.cons_ne_nil _ _) hK.keeps hdA
      exact hjump'
    · have hinsns : ((leaveSwitch p m).func.block m.breakBlock).insns = [] :=
        congrArg (fun core => core.1) (huntouched hbrk)
      rw [Parser.point, hL.goesOn, hinsns]
      rfl

end

end Ncc.Stmts
