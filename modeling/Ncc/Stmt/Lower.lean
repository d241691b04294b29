import Ncc.Stmt.Mark

/-! The code that the parser makes of statements (stmt.c). -/

namespace Ncc.Stmts

/-- What is known of the function in the end, when the parser is at `p`. -/
structure Known (A : BlockId → Prop) (F : Func) (label : String → BlockId) (c : Places)
    (p : Parser) : Prop where
  keeps : Keeps A p.func F
  exit : F.exit = p.func.exit
  labels : Knowing label p
  fits : Fits c p

/-- The labels of a statement. -/
def Stmt.Labels (s : Stmt) (id : String) : Prop := ∀ k, (find (.label id) s k).isSome

/-- Every switch has an integral control expression, and cases that are distinct when they have been
    converted to its type. -/
def Stmt.Distinct : Stmt → Prop
  | .seq s t | .ifElse _ s t => s.Distinct ∧ t.Distinct
  | .labelled _ s | .while _ s | .doWhile s _ | .for _ _ _ s => s.Distinct
  | .switch e s => (∃ o, e.result = some o ∧ o.ts.floating = false) ∧
      (s.cases.map (conNormalize (tsOpt e.result))).Nodup ∧ s.Distinct
  | _ => True

/-- The code of a statement has been made. -/
structure Lowers (env : Env) (s : Stmt) (p q : Parser) : Prop where
  inv : q.Inv
  makes : Makes p.func.lastLabel s.hasDefault s.cases s.Labels p q
  break_ : q.breakBlock = p.breakBlock
  continue_ : q.continueBlock = p.continueBlock
  distinct : s.Distinct
  code : ∀ {A F label c}, p.Apart A → Known A F label c q → s.Code env F label c p.point q.point

section
variable {env : Env} {p q r m : Parser} {A : BlockId → Prop} {b : BlockId} {n : Nat} {F : Func}
  {hd : Bool} {cs : List Word} {ids : String → Prop} {c c' : Places} {label : String → BlockId}
  {id : String} {s t : Stmt} {C : Func → Prop}

theorem Known.before (h : Known A F label c q) (hm : Makes n hd cs ids p q) (hp : p.Inv)
    (hA : p.Apart A) (hb : c'.breakBlock = p.breakBlock) (hc : c'.continueBlock = p.continueBlock)
    (hdflt : c'.defaultBlock = c.defaultBlock) (hts : c'.ts = c.ts)
    (htarget : c'.target = c.target) : Known A F label c' p where
  keeps := hm.keeps_to hA h.keeps
  exit := h.exit.trans hm.exit
  labels := h.labels.before hm
  fits := h.fits.before hm hp hb hc hdflt hts htarget

/-- The same places are good for what comes before. -/
theorem Known.back (h : Known A F label c q) (hm : Makes n hd cs ids p q) (hp : p.Inv)
    (hA : p.Apart A) (hb : q.breakBlock = p.breakBlock)
    (hc : q.continueBlock = p.continueBlock) : Known A F label c p :=
  h.before hm hp hA (h.fits.break_.trans hb) (h.fits.continue_.trans hc) rfl rfl rfl

theorem Enters.makes (h : Enters p q C) : Passes 0 p q :=
  h.passes (Nat.zero_le _) (Nat.pos_of_ne_zero h.inv.current.1)

theorem Lowers.apart (h : Lowers env s p q) (hA : p.Apart A) : q.Apart A := hA.makes h.makes h.inv

theorem Lowers.held (h : Lowers env s p q) (hb : p.Held b) : q.Held b := h.makes.held b hb.le hb

/-- Code without statements in it. -/
theorem Reads.lowers {C : Func → Prop} (h : Reads p q C) (hd : s.hasDefault = false)
    (hcs : s.cases = []) (hdist : s.Distinct) (hb : q.breakBlock = p.breakBlock)
    (hc : q.continueBlock = p.continueBlock)
    (hcode : ∀ {A F label c}, C F → Known A F label c q →
      s.Code env F label c p.point q.point) : Lowers env s p q := by
  refine ⟨h.inv, ?_, hb, hc, hdist, fun hA hK => hcode (h.code hA hK.keeps) hK⟩
  rw [hd, hcs]
  exact h.passes.mono (Nat.le_refl _) fun _ => False.elim

theorem empty_lowers (hp : p.Inv) : Lowers env .empty p p := by
  have hreads : Reads p p fun _ => True := ⟨hp, passes_emit hp [], fun _ _ => trivial⟩
  exact hreads.lowers rfl rfl trivial rfl rfl fun _ _ => rfl

theorem seq_lowers (hs : Lowers env s p m) (ht : Lowers env t m q) : Lowers env (.seq s t) p q := by
  refine ⟨ht.inv, ?_, ht.break_.trans hs.break_, ht.continue_.trans hs.continue_,
    ⟨hs.distinct, ht.distinct⟩, fun hA hK => ?_⟩
  · refine (hs.makes.trans (ht.makes.mono hs.makes.le fun _ => id)).mono (Nat.le_refl _) ?_
    rintro id (hid | hid)
    · intro k
      rw [find, Option.isSome_or, hid, Bool.true_or]
    · intro k
      rw [find, Option.isSome_or, hid, Bool.or_true]
  · have hAm := hs.apart hA
    exact ⟨m.point, hs.code hA (hK.back ht.makes hs.inv hAm ht.break_ ht.continue_), ht.code hAm hK⟩

theorem labelled_lowers {k : Mark} (hp : p.Inv) (hk : mark k p = .ok m) (hs : Lowers env s m q) :
    Lowers env (.labelled k s) p q := by
  have hfind : ∀ id, (k = .label id ∨ s.Labels id) → (Stmt.labelled k s).Labels id := by
    rintro id (rfl | hid) k'
    · rw [find, if_pos (by simp [Sought.is])]
      rfl
    · rw [find]
      split_ifs
      · rfl
      · exact hid k'
  have hmain : ∀ {hd cs}, MarkLowers k hd cs p m → (Stmt.labelled k s).hasDefault = (hd || s.hasDefault) →
      (Stmt.labelled k s).cases = cs ++ s.cases → Lowers env (.labelled k s) p q := by
    intro hd cs hm hhd hcs
    refine ⟨hs.inv, ?_, hs.break_.trans hm.break_, hs.continue_.trans hm.continue_, hs.distinct,
      fun hA hK => ?_⟩
    · rw [hhd, hcs]
      exact (hm.makes.trans (hs.makes.mono hm.makes.le fun _ => id)).mono (Nat.le_refl _) hfind
    · have hAm := hA.makes hm.makes hm.inv
      have hKm := hK.back hs.makes hm.inv hAm hs.break_ hs.continue_
      obtain ⟨hjump, hpoint⟩ := hm.code hA hKm.keeps hKm.labels hKm.fits
      have hcode := hs.code hAm hK
      rw [hpoint] at hcode
      exact ⟨hjump, hcode⟩
  cases k with
  | label id => exact hmain (mark_label_lowers hp hk) rfl rfl
  | case i => exact hmain (mark_case_lowers hp hk) rfl rfl
  | default => exact hmain (mark_default_lowers hp hk) rfl rfl

theorem goto_lowers (hp : p.Inv) (id : String) : Lowers env (.goto id) p (gotoStatement id p) := by
  have hl := labelLookup_lowers hp id
  have hlooked : Reads p (labelLookup id p).2 fun _ => True :=
    ⟨hl.inv, hl.passes, fun _ _ => trivial⟩
  have hleave := leave_lowers hl.inv (labelLookup id p).1.to_
  refine (hlooked.trans hleave).lowers rfl rfl trivial hl.break_ hl.continue_ ?_
  rintro A F label c ⟨-, hjump⟩ hK
  have hknows := hleave.passes.knows id (labelLookup id p).1.to_ ⟨_, hl.mem, hl.id, rfl⟩
  have hto : label id = (labelLookup id p).1.to_ := hK.labels _ _ hknows
  show label id ≠ 0 ∧ Jumps F p.point (label id)
  rw [hto, ← hl.point]
  exact ⟨(hl.inv.labels _ hl.mem).1, hjump⟩

theorem break_lowers (hp : p.Inv) (h : loopControl "break" p.breakBlock p = .ok q) :
    Lowers env .break p q := by
  unfold loopControl at h
  split_ifs at h with hne
  cases h
  refine (leave_lowers hp p.breakBlock).lowers rfl rfl trivial rfl rfl ?_
  intro A F label c hjump hK
  have hbreak : c.breakBlock = p.breakBlock := hK.fits.break_
  show c.breakBlock ≠ 0 ∧ Jumps F p.point c.breakBlock
  rw [hbreak]
  exact ⟨hne, hjump⟩

theorem continue_lowers (hp : p.Inv) (h : loopControl "continue" p.continueBlock p = .ok q) :
    Lowers env .continue p q := by
  unfold loopControl at h
  split_ifs at h with hne
  cases h
  refine (leave_lowers hp p.continueBlock).lowers rfl rfl trivial rfl rfl ?_
  intro A F label c hjump hK
  have hcontinue : c.continueBlock = p.continueBlock := hK.fits.continue_
  show c.continueBlock ≠ 0 ∧ Jumps F p.point c.continueBlock
  rw [hcontinue]
  exact ⟨hne, hjump⟩

theorem genOpt_lowers (hp : p.Inv) (e : Option Expr) :
    Reads p (genOpt e p) (fun F => CodeOpt F e p.point (genOpt e p).point) ∧
      (genOpt e p).breakBlock = p.breakBlock ∧ (genOpt e p).continueBlock = p.continueBlock := by
  cases e with
  | none => exact ⟨⟨hp, passes_emit hp [], fun _ _ => rfl⟩, rfl, rfl⟩
  | some e =>
    have hgen := gen_lowers e hp
    exact ⟨hgen.reads, hgen.break_, hgen.continue_⟩

theorem return_lowers (hp : p.Inv) (e : Option Expr) :
    Lowers env (.return e) p (returnStatement e p) := by
  obtain ⟨hreads, hbreak, hcontinue⟩ := genOpt_lowers hp e
  have hret := hreads.trans (reads_emit hreads.inv [insnNew .ret none (e.bind Expr.result)])
  have hleave := hret.trans (leave_lowers hret.inv
    ((genOpt e p).emit [insnNew .ret none (e.bind Expr.result)]).func.exit)
  have hr : returnStatement e p = leave ((genOpt e p).emit [insnNew .ret none (e.bind Expr.result)])
      ((genOpt e p).emit [insnNew .ret none (e.bind Expr.result)]).func.exit := by
    cases e with
    | none => rfl
    | some e =>
      rw [returnStatement]
      simp only [gen_result]
      rfl
  rw [hr]
  refine hleave.lowers rfl rfl trivial hbreak hcontinue ?_
  rintro A F label c ⟨⟨hcode, hat⟩, hjump⟩ hK
  have hexit : F.exit = ((genOpt e p).emit [insnNew .ret none (e.bind Expr.result)]).func.exit :=
    hK.exit
  rw [← hexit] at hjump
  exact ⟨_, _, hcode, hat, hjump⟩

theorem if_lowers {e : Expr} (hp : p.Inv)
    (ihs : ∀ {p q}, p.Inv → statement s p = .ok q → Lowers env s p q)
    (iht : ∀ {p q}, p.Inv → statement t p = .ok q → Lowers env t p q)
    (h : ifStatement e (statement s) (statement t) p = .ok q) :
    Lowers env (.ifElse e s t) p q := by
  obtain ⟨m, hm, h'⟩ := bind_ok.mp h
  obtain ⟨m', hm', hq⟩ := bind_ok.mp h'
  clear h h'
  obtain ⟨h₃, htb, heb, hjn, hnew, hlt₁, hlt₂, hlt₃⟩ := new₃ hp
  have hbreak : p.new.2.new.2.new.2.breakBlock = p.breakBlock := rfl
  have hcontinue : p.new.2.new.2.new.2.continueBlock = p.continueBlock := rfl
  have hpoint : p.new.2.new.2.new.2.point = p.point := rfl
  generalize p.new.2.new.2.new.2 = p₃ at *
  generalize p.new.2.new.2.new.1 = join at *
  generalize p.new.2.new.1 = eb at *
  generalize p.new.1 = tb at *
  have hgen := gen_lowers e h₃
  have hS₁ := hgen.enters (r := { condition e tb eb p₃ with current := tb }) (t := tb) (u := eb)
    (by rw [condition]; simp only [gen_result]) rfl rfl rfl rfl htb
  have hs := ihs hS₁.inv hm
  have heb₁ := hs.held (hS₁.held heb (Nat.ne_of_gt hlt₂))
  have hjn₁ := hs.held (hS₁.held hjn (Nat.ne_of_gt (Nat.lt_trans hlt₂ hlt₃)))
  have hS₂ := hs.inv.jump (c := join) (r := { m.add m.current .always join with current := eb })
    rfl rfl rfl rfl rfl heb₁
  have ht := iht hS₂.inv hm'
  have hjn₂ := ht.held (hS₂.held hjn₁ (Nat.ne_of_gt hlt₃))
  have hS₃ := ht.inv.jump (c := join) (r := { m'.add m'.current .always join with current := join })
    rfl rfl rfl rfl rfl hjn₂
  cases hq
  have hm₁ := hnew.trans (hS₁.passes hnew.le hlt₁)
  have hm₂ := Makes.after (hs.makes.mono hm₁.le fun _ => id) hm₁
  have hm₃ := hm₂.before (hS₂.passes hm₂.le (Nat.lt_trans hlt₁ hlt₂))
  have hm₄ := hm₃.trans (ht.makes.mono hm₃.le fun _ => id)
  have hm₅ := hm₄.before (hS₃.passes hm₄.le (Nat.lt_trans hlt₁ (Nat.lt_trans hlt₂ hlt₃)))
  refine ⟨hS₃.inv, hm₅.mono (Nat.le_refl _) ?_, ?_, ?_, ⟨hs.distinct, ht.distinct⟩,
    fun {A F label c} hA hK => ?_⟩
  · rintro id (hid | hid) k
    · rw [find, Option.isSome_or, hid, Bool.true_or]
    · rw [find, Option.isSome_or, hid, Bool.or_true]
  · exact ht.break_.trans (hs.break_.trans (hgen.break_.trans hbreak))
  · exact ht.continue_.trans (hs.continue_.trans (hgen.continue_.trans hcontinue))
  · have hA₃ := hA.makes hnew h₃
    have hA₁ := hS₁.apart hA₃
    have hAm := hs.apart hA₁
    have hA₂ := hS₂.apart hAm
    have hAm' := ht.apart hA₂
    have hKm' := hK.back hS₃.makes ht.inv hAm' rfl rfl
    have hK₂ := hKm'.back ht.makes hS₂.inv hA₂ ht.break_ ht.continue_
    have hKm := hK₂.back hS₂.makes hs.inv hAm rfl rfl
    have hK₁ := hKm.back hs.makes hS₁.inv hA₁ hs.break_ hs.continue_
    have hcond := hS₁.code hA₃ hK₁.keeps
    have hcode := hs.code hA₁ hKm
    have hcode' := ht.code hA₂ hKm'
    rw [hpoint] at hcond
    rw [hS₁.point] at hcode
    rw [hS₂.point] at hcode'
    exact ⟨tb, eb, m.point, m'.point, join, hcond, hcode, hS₂.code hAm hK₂.keeps, hcode',
      hS₃.code hAm' hK.keeps, hS₃.point⟩

theorem while_lowers {e : Expr} (hp : p.Inv)
    (ih : ∀ {p q}, p.Inv → statement s p = .ok q → Lowers env s p q)
    (h : whileStatement e (statement s) p = .ok q) : Lowers env (.while e s) p q := by
  obtain ⟨m, hm, hq⟩ := bind_ok.mp h
  clear h
  obtain ⟨h₃, htest, hbody, hbrk, hnew, hlt₁, hlt₂, hlt₃⟩ := new₃ hp
  have hpoint : p.new.2.new.2.new.2.point = p.point := rfl
  generalize p.new.2.new.2.new.2 = p₃ at *
  generalize p.new.2.new.2.new.1 = brk at *
  generalize p.new.2.new.1 = body at *
  generalize p.new.1 = test at *
  have hS₀ := h₃.jump (c := test) (r := { p₃.add p₃.current .always test with
    current := test, breakBlock := brk, continueBlock := test }) rfl rfl rfl rfl rfl htest
  have hbody₀ := hS₀.held hbody (Nat.ne_of_gt hlt₂)
  have hbrk₀ := hS₀.held hbrk (Nat.ne_of_gt (Nat.lt_trans hlt₂ hlt₃))
  have hloop₀ : ({ p₃.add p₃.current .always test with
    current := test, breakBlock := brk, continueBlock := test } : Parser).breakBlock = brk ∧
      ({ p₃.add p₃.current .always test with
        current := test, breakBlock := brk, continueBlock := test } : Parser).continueBlock = test ∧
      ({ p₃.add p₃.current .always test with
        current := test, breakBlock := brk, continueBlock := test } : Parser).current = test :=
    ⟨rfl, rfl, rfl⟩
  change statement s { condition e body brk { p₃.add p₃.current .always test with
    current := test, breakBlock := brk, continueBlock := test } with current := body } = .ok m at hm
  generalize ({ p₃.add p₃.current .always test with
    current := test, breakBlock := brk, continueBlock := test } : Parser) = q₀ at *
  obtain ⟨hb₀, hc₀, hcur₀⟩ := hloop₀
  have hgen := gen_lowers e hS₀.inv
  have hS₁ := hgen.enters (r := { condition e body brk q₀ with current := body }) (t := body)
    (u := brk) (by rw [condition]; simp only [gen_result]) rfl rfl rfl rfl hbody₀
  have hs := ih hS₁.inv hm
  have hb : m.breakBlock = brk := hs.break_.trans (hgen.break_.trans hb₀)
  have hc : m.continueBlock = test := hs.continue_.trans (hgen.continue_.trans hc₀)
  have hbrk' := hs.held (hS₁.held hbrk₀ (Nat.ne_of_gt hlt₃))
  have hS₂ := hs.inv.jump (c := test) (r := { m.add m.current .always test with
    current := m.breakBlock, continueBlock := p.continueBlock, breakBlock := p.breakBlock })
    rfl rfl rfl rfl rfl (hb.symm ▸ hbrk')
  cases hq
  have hm₀ := hnew.trans (hS₀.passes hnew.le (hcur₀.symm ▸ hlt₁))
  have hm₁ := hm₀.trans (hS₁.passes hm₀.le (Nat.lt_trans hlt₁ hlt₂))
  have hm₂ := Makes.after (hs.makes.mono hm₁.le fun _ => id) hm₁
  have hlast : p.func.lastLabel < m.breakBlock :=
    hb.symm ▸ Nat.lt_trans hlt₁ (Nat.lt_trans hlt₂ hlt₃)
  have hm₃ := hm₂.before (hS₂.passes hm₂.le hlast)
  refine ⟨hS₂.inv, hm₃.mono (Nat.le_refl _) ?_, rfl, rfl, hs.distinct, fun {A F label c} hA hK => ?_⟩
  · exact fun id hid k => hid _
  · have hA₃ := hA.makes hnew h₃
    have hA₀ := hS₀.apart hA₃
    have hA₁ := hS₁.apart hA₀
    have hAm := hs.apart hA₁
    have hKm : Known A F label { c with breakBlock := brk, continueBlock := test } m :=
      hK.before hS₂.makes hs.inv hAm hb.symm hc.symm rfl rfl rfl
    have hK₁ := hKm.back hs.makes hS₁.inv hA₁ hs.break_ hs.continue_
    have hcond := hS₁.code hA₀ hK₁.keeps
    have hcode := hs.code hA₁ hKm
    have hjump := hS₀.code hA₃ (hS₁.keeps_to hA₀ hK₁.keeps)
    rw [hpoint] at hjump
    rw [hS₀.point, hcur₀] at hcond
    rw [hS₁.point] at hcode
    exact ⟨test, body, brk, m.point, hjump, hcond, hcode, hS₂.code hAm hK.keeps,
      hS₂.point.trans (congrArg (fun b => (b, 0)) hb)⟩

theorem do_lowers {e : Expr} (hp : p.Inv)
    (ih : ∀ {p q}, p.Inv → statement s p = .ok q → Lowers env s p q)
    (h : doStatement (statement s) e p = .ok q) : Lowers env (.doWhile s e) p q := by
  obtain ⟨m, hm, hq⟩ := bind_ok.mp h
  clear h
  obtain ⟨h₃, hbody, hbrk, hcont, hnew, hlt₁, hlt₂, hlt₃⟩ := new₃ hp
  have hpoint : p.new.2.new.2.new.2.point = p.point := rfl
  generalize p.new.2.new.2.new.2 = p₃ at *
  generalize p.new.2.new.2.new.1 = cont at *
  generalize p.new.2.new.1 = brk at *
  generalize p.new.1 = body at *
  have hS₀ := h₃.jump (c := body) (r := { p₃.add p₃.current .always body with
    current := body, breakBlock := brk, continueBlock := cont }) rfl rfl rfl rfl rfl hbody
  have hbrk₀ := hS₀.held hbrk (Nat.ne_of_gt hlt₂)
  have hcont₀ := hS₀.held hcont (Nat.ne_of_gt (Nat.lt_trans hlt₂ hlt₃))
  have hloop₀ : ({ p₃.add p₃.current .always body with
    current := body, breakBlock := brk, continueBlock := cont } : Parser).breakBlock = brk ∧
      ({ p₃.add p₃.current .always body with
        current := body, breakBlock := brk, continueBlock := cont } : Parser).continueBlock = cont ∧
      ({ p₃.add p₃.current .always body with
        current := body, breakBlock := brk, continueBlock := cont } : Parser).current = body :=
    ⟨rfl, rfl, rfl⟩
  change statement s { p₃.add p₃.current .always body with
    current := body, breakBlock := brk, continueBlock := cont } = .ok m at hm
  generalize ({ p₃.add p₃.current .always body with
    current := body, breakBlock := brk, continueBlock := cont } : Parser) = q₀ at *
  obtain ⟨hb₀, hc₀, hcur₀⟩ := hloop₀
  have hs := ih hS₀.inv hm
  have hb : m.breakBlock = brk := hs.break_.trans hb₀
  have hc : m.continueBlock = cont := hs.continue_.trans hc₀
  have hcont' := hs.held hcont₀
  have hS₁ := hs.inv.jump (c := m.continueBlock) (r := { m.add m.current .always m.continueBlock with
    current := m.continueBlock }) rfl rfl rfl rfl rfl (hc.symm ▸ hcont')
  have hbrk₁ := hS₁.held (hs.held hbrk₀) (by
    show brk ≠ m.continueBlock
    rw [hc]
    exact Nat.ne_of_lt hlt₃)
  have hloop₁ : ({ m.add m.current .always m.continueBlock with
    current := m.continueBlock } : Parser).breakBlock = m.breakBlock ∧
      ({ m.add m.current .always m.continueBlock with
        current := m.continueBlock } : Parser).continueBlock = m.continueBlock ∧
      ({ m.add m.current .always m.continueBlock with
        current := m.continueBlock } : Parser).current = m.continueBlock := ⟨rfl, rfl, rfl⟩
  generalize ({ m.add m.current .always m.continueBlock with
    current := m.continueBlock } : Parser) = q₁ at *
  obtain ⟨hb₁, hc₁, hcur₁⟩ := hloop₁
  have hgen := gen_lowers e hS₁.inv
  have hb₂ : (condition e body q₁.breakBlock q₁).breakBlock = brk :=
    hgen.break_.trans (hb₁.trans hb)
  have hS₂ := hgen.enters (r := { condition e body q₁.breakBlock q₁ with
      current := (condition e body q₁.breakBlock q₁).breakBlock
      continueBlock := p.continueBlock
      breakBlock := p.breakBlock }) (t := body) (u := q₁.breakBlock)
    (by simp only [condition, gen_result]) rfl rfl rfl rfl (hb₂.symm ▸ hbrk₁)
  cases hq
  have hltc : p.func.lastLabel < cont := Nat.lt_trans hlt₁ (Nat.lt_trans hlt₂ hlt₃)
  have hm₀ := hnew.trans (hS₀.passes hnew.le (hcur₀.symm ▸ hlt₁))
  have hm₁ := Makes.after (hs.makes.mono hm₀.le fun _ => id) hm₀
  have hm₂ := hm₁.before (hS₁.passes hm₁.le (by rw [hcur₁, hc]; exact hltc))
  have hm₃ := hm₂.before (hS₂.passes hm₂.le (by
    show _ < (condition e body q₁.breakBlock q₁).breakBlock
    rw [hb₂]
    exact Nat.lt_trans hlt₁ hlt₂))
  refine ⟨hS₂.inv, hm₃.mono (Nat.le_refl _) ?_, rfl, rfl, hs.distinct, fun {A F label c} hA hK => ?_⟩
  · exact fun id hid k => hid _
  · have hA₃ := hA.makes hnew h₃
    have hA₀ := hS₀.apart hA₃
    have hAm := hs.apart hA₀
    have hA₁ := hS₁.apart hAm
    have hK₁ : Known A F label { c with breakBlock := brk, continueBlock := cont } q₁ :=
      hK.before hS₂.makes hS₁.inv hA₁ (hb₁.trans hb).symm (hc₁.trans hc).symm rfl rfl rfl
    have hKm := hK₁.back hS₁.makes hs.inv hAm hb₁ hc₁
    have hK₀ := hKm.back hs.makes hS₀.inv hA₀ hs.break_ hs.continue_
    have hjump := hS₀.code hA₃ hK₀.keeps
    have hcode := hs.code hA₀ hKm
    have hnext := hS₁.code hAm hK₁.keeps
    have hcond := hS₂.code hA₁ hK.keeps
    rw [hpoint] at hjump
    rw [hS₀.point, hcur₀] at hcode
    rw [hc] at hnext
    rw [hS₁.point, hcur₁, hc, hb₁, hb] at hcond
    exact ⟨body, cont, brk, m.point, hjump, hcode, hnext, hcond,
      hS₂.point.trans (congrArg (fun b => (b, 0)) hb₂)⟩

/-- The targets of `break` and `continue` may be set at any time. -/
theorem loop_lowers (hp : p.Inv) (hf : q.func = p.func) (hcur : q.current = p.current)
    (hlabels : q.labels = p.labels) (hswitch : q.switchBlock = p.switchBlock)
    (hdflt : q.defaultBlock = p.defaultBlock) (hsaw : q.sawDefault = p.sawDefault) :
    q.Inv ∧ (∀ b, p.Held b → q.Held b) ∧ Passes n p q ∧ q.point = p.point := by
  have htouch : Touch (fun _ => False) p q :=
    ⟨hf ▸ rfl, hf ▸ rfl, hf ▸ rfl, fun x _ => hf ▸ rfl, fun _ => False.elim, hlabels, hswitch, hdflt,
      hsaw⟩
  refine ⟨htouch.inv hp (fun _ => False.elim) ?_ ?_, ?_, ?_, ?_⟩
  · rw [hcur, hf]
    exact hp.current
  · rw [hcur]
    exact fun hw => (hp.waiting _ hw).2.2.2 rfl
  · exact fun b hb => htouch.held hb id (hcur ▸ hb.current)
  · exact htouch.passes hp fun b _ hb => ⟨id, hcur ▸ hb.current⟩
  · rw [Parser.point, Parser.point, hf, hcur]

/-- Go on with a block. -/
def jumpTo (p : Parser) (b : BlockId) : Parser := { p.add p.current .always b with current := b }

/-- The test of a `for` statement, in front of its body. -/
def forTest (test : Option Expr) (body : BlockId) (p : Parser) : Parser :=
  { (match test with
    | some e => condition e body p.breakBlock p
    | none => p.add p.current .always body) with current := body }

theorem jumpTo_lowers (hp : p.Inv) (hb : p.Held b) :
    Enters p (jumpTo p b) fun F => Jumps F p.point b :=
  hp.jump (r := jumpTo p b) rfl rfl rfl rfl rfl hb

theorem forTest_lowers (test : Option Expr) (hp : p.Inv) (hb : p.Held b) :
    Enters p (forTest test b p) (fun F =>
      match test with
      | some e => Condition F e p.point b p.breakBlock
      | none => Jumps F p.point b) ∧
    (forTest test b p).breakBlock = p.breakBlock ∧
      (forTest test b p).continueBlock = p.continueBlock ∧ (forTest test b p).current = b := by
  cases test with
  | none => exact ⟨jumpTo_lowers hp hb, rfl, rfl, rfl⟩
  | some e =>
    have hgen := gen_lowers e hp
    exact ⟨hgen.enters (r := forTest (some e) b p)
      (by simp only [forTest, condition, gen_result]) rfl rfl rfl rfl hb, hgen.break_,
      hgen.continue_, rfl⟩

theorem for_lowers {initial test step : Option Expr} (hp : p.Inv)
    (ih : ∀ {p q}, p.Inv → statement s p = .ok q → Lowers env s p q)
    (h : forStatement initial test step (statement s) p = .ok q) :
    Lowers env (.for initial test step s) p q := by
  obtain ⟨m, hm, hq⟩ := bind_ok.mp h
  clear h
  obtain ⟨h₄, hbody, hcont, hbrk, hnew₃, hlt₂, hlt₃, hlt₄⟩ := new₃ (inv_new hp)
  have htst := (held_new hp).new.new.new
  have hnew : Passes p.func.lastLabel p p.new.2.new.2.new.2.new.2 :=
    passes_new.trans (hnew₃.mono (Nat.le_succ _) fun _ => id)
  have hlt₁ : p.func.lastLabel < p.new.1 := Nat.lt_succ_self _
  change p.new.1 < p.new.2.new.1 at hlt₂
  clear hnew₃
  have hpoint : p.new.2.new.2.new.2.new.2.point = p.point := rfl
  generalize p.new.2.new.2.new.2.new.2 = p₄ at *
  generalize p.new.2.new.2.new.2.new.1 = brk at *
  generalize p.new.2.new.2.new.1 = cont at *
  generalize p.new.2.new.1 = body at *
  generalize p.new.1 = tst at *
  obtain ⟨hloop, hheld, hpassl, hpointl⟩ := loop_lowers (n := p.func.lastLabel)
    (q := { p₄ with continueBlock := cont, breakBlock := brk }) h₄ rfl rfl rfl rfl rfl rfl
  have hset : ({ p₄ with continueBlock := cont, breakBlock := brk } : Parser).breakBlock = brk ∧
      ({ p₄ with continueBlock := cont, breakBlock := brk } : Parser).continueBlock = cont :=
    ⟨rfl, rfl⟩
  change statement s (forTest test body (jumpTo (genOpt initial
    { p₄ with continueBlock := cont, breakBlock := brk }) tst)) = .ok m at hm
  generalize ({ p₄ with continueBlock := cont, breakBlock := brk } : Parser) = pl at *
  obtain ⟨hinit, hb₀, hc₀⟩ := genOpt_lowers hloop initial
  have hinit_held : ∀ {b}, p₄.Held b → (genOpt initial pl).Held b :=
    fun hb => hinit.passes.held _ (hheld _ hb).le (hheld _ hb)
  have hS₀ := hinit.enters (jumpTo_lowers hinit.inv (hinit_held htst))
  have hbody₀ := hS₀.held (hheld _ hbody) (Nat.ne_of_gt hlt₂)
  have hcont₀ := hS₀.held (hheld _ hcont) (Nat.ne_of_gt (Nat.lt_trans hlt₂ hlt₃))
  have hbrk₀ := hS₀.held (hheld _ hbrk)
    (Nat.ne_of_gt (Nat.lt_trans hlt₂ (Nat.lt_trans hlt₃ hlt₄)))
  have hloop₀ : (jumpTo (genOpt initial pl) tst).breakBlock = brk ∧
      (jumpTo (genOpt initial pl) tst).continueBlock = cont ∧
      (jumpTo (genOpt initial pl) tst).current = tst :=
    ⟨hb₀.trans hset.1, hc₀.trans hset.2, rfl⟩
  generalize jumpTo (genOpt initial pl) tst = q₀ at *
  obtain ⟨hb₀', hc₀', hcur₀⟩ := hloop₀
  obtain ⟨hS₁, hb₁, hc₁, hcur₁⟩ := forTest_lowers test hS₀.inv hbody₀
  have hcont₁ := hS₁.held hcont₀ (by rw [hcur₁]; exact Nat.ne_of_gt hlt₃)
  have hbrk₁ := hS₁.held hbrk₀ (by rw [hcur₁]; exact Nat.ne_of_gt (Nat.lt_trans hlt₃ hlt₄))
  generalize forTest test body q₀ = q₁ at *
  have hs := ih hS₁.inv hm
  have hb : m.breakBlock = brk := hs.break_.trans (hb₁.trans hb₀')
  have hc : m.continueBlock = cont := hs.continue_.trans (hc₁.trans hc₀')
  have hS₂ := jumpTo_lowers hs.inv (b := m.continueBlock) (hc.symm ▸ hs.held hcont₁)
  have hbrk₂ := hS₂.held (hs.held hbrk₁) (by
    show brk ≠ m.continueBlock
    rw [hc]
    exact Nat.ne_of_gt hlt₄)
  have hloop₂ : (jumpTo m m.continueBlock).breakBlock = brk ∧
      (jumpTo m m.continueBlock).continueBlock = cont ∧
      (jumpTo m m.continueBlock).current = cont := ⟨hb, hc, hc⟩
  change pure { (genOpt step (jumpTo m m.continueBlock)).add
    (genOpt step (jumpTo m m.continueBlock)).current .always tst with
      current := (genOpt step (jumpTo m m.continueBlock)).breakBlock
      continueBlock := p.continueBlock
      breakBlock := p.breakBlock } = Except.ok q at hq
  generalize jumpTo m m.continueBlock = q₂ at *
  obtain ⟨hb₂, hc₂, hcur₂⟩ := hloop₂
  obtain ⟨hstep, hb₃, hc₃⟩ := genOpt_lowers hS₂.inv step
  have hb₃' := hb₃.trans hb₂
  have hbrk₃ := hstep.passes.held _ hbrk₂.le hbrk₂
  have hS₃ := hstep.enters (hstep.inv.jump (c := tst) (r := { (genOpt step q₂).add
    (genOpt step q₂).current .always tst with
      current := (genOpt step q₂).breakBlock
      continueBlock := p.continueBlock
      breakBlock := p.breakBlock }) rfl rfl rfl rfl rfl (hb₃'.symm ▸ hbrk₃))
  cases hq
  have hltb : p.func.lastLabel < body := Nat.lt_trans hlt₁ hlt₂
  have hltc : p.func.lastLabel < cont := Nat.lt_trans hltb hlt₃
  have hml := hnew.trans hpassl
  have hm₀ := hml.trans (hS₀.passes hml.le (hcur₀.symm ▸ hlt₁))
  have hm₁ := hm₀.trans (hS₁.passes hm₀.le (hcur₁.symm ▸ hltb))
  have hm₂ := Makes.after (hs.makes.mono hm₁.le fun _ => id) hm₁
  have hm₃ := hm₂.before (hS₂.passes hm₂.le (hcur₂.symm ▸ hltc))
  have hm₄ := hm₃.before (hS₃.passes hm₃.le (by
    show _ < (genOpt step q₂).breakBlock
    rw [hb₃']
    exact Nat.lt_trans hltc hlt₄))
  refine ⟨hS₃.inv, hm₄.mono (Nat.le_refl _) ?_, rfl, rfl, hs.distinct, fun {A F label c} hA hK => ?_⟩
  · exact fun id hid k => hid _
  · have hAl := hA.makes hml hloop
    have hA₀ := hS₀.apart hAl
    have hA₁ := hS₁.apart hA₀
    have hAm := hs.apart hA₁
    have hA₂ := hS₂.apart hAm
    have hK₂ : Known A F label { c with breakBlock := brk, continueBlock := cont } q₂ :=
      hK.before hS₃.makes hS₂.inv hA₂ hb₂.symm hc₂.symm rfl rfl rfl
    have hKm : Known A F label { c with breakBlock := brk, continueBlock := cont } m :=
      hK₂.before hS₂.makes hs.inv hAm hb.symm hc.symm rfl rfl rfl
    have hK₁ := hKm.back hs.makes hS₁.inv hA₁ hs.break_ hs.continue_
    obtain ⟨hinitial, hjump⟩ := hS₀.code hAl (hS₁.keeps_to hA₀ hK₁.keeps)
    have htest := hS₁.code hA₀ hK₁.keeps
    have hcode := hs.code hA₁ hKm
    have hnext := hS₂.code hAm hK₂.keeps
    obtain ⟨hstepCode, hagain⟩ := hS₃.code hA₂ hK.keeps
    rw [hpointl, hpoint] at hinitial
    rw [hS₀.point, hcur₀, hb₀'] at htest
    rw [hS₁.point, hcur₁] at hcode
    rw [hc] at hnext
    rw [hS₂.point, hcur₂] at hstepCode
    exact ⟨tst, body, cont, brk, _, m.point, _, hinitial, hjump, htest, hcode, hnext, hstepCode,
      hagain, hS₃.point.trans (congrArg (fun b => (b, 0)) hb₃')⟩

end

end Ncc.Stmts
