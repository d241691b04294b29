import Ncc.Stmt.Gen

/-! Leaving the current block, and the blocks of labels, cases and defaults (stmt.c, symbol.c). -/

namespace Ncc.Stmts

/-- What the statement around knows fits the parser. -/
structure Fits (c : Places) (p : Parser) : Prop where
  break_ : c.breakBlock = p.breakBlock
  continue_ : c.continueBlock = p.continueBlock
  dflt : c.defaultBlock = p.defaultBlock
  switch : p.switchBlock ≠ 0 → c.ts = controlTs (p.func.block p.switchBlock) ∧
    ∀ x ∈ (p.func.block p.switchBlock).successors.tail, c.target x.min = x.b

section
variable {p q r : Parser} {A : BlockId → Prop} {b : BlockId} {m n : Nat} {F : Func} {hd : Bool}
  {cs : List Word} {ids : String → Prop} {c c' : Places} {label : String → BlockId} {id : String}

/-- What fits in the end fits before, but for the targets of `break` and `continue`. -/
theorem Fits.before (h : Fits c q) (hm : Makes n hd cs ids p q) (hp : p.Inv)
    (hb : c'.breakBlock = p.breakBlock) (hc : c'.continueBlock = p.continueBlock)
    (hdflt : c'.defaultBlock = c.defaultBlock) (hts : c'.ts = c.ts)
    (htarget : c'.target = c.target) : Fits c' p where
  break_ := hb
  continue_ := hc
  dflt := hdflt.trans (h.dflt.trans hm.defaultBlock)
  switch hs := by
    obtain ⟨new, hcore, -⟩ := hm.switch hs
    obtain ⟨hts', htarget'⟩ := h.switch (hm.switchBlock ▸ hs)
    simp only [Block.core, Prod.mk.injEq] at hcore
    rw [hm.switchBlock, controlTs, hcore.2.1] at hts'
    rw [hm.switchBlock, hcore.2.2, List.tail_append_of_ne_nil (hp.successors_switch hs)] at htarget'
    rw [hts, htarget]
    exact ⟨hts', fun x hx => htarget' x (List.mem_append_left _ hx)⟩

/-- Where the labels are. -/
def Knowing (label : String → BlockId) (p : Parser) : Prop := ∀ id b, p.Knows id b → label id = b

theorem Knowing.before (h : Knowing label q) (hm : Makes n hd cs ids p q) : Knowing label p :=
  fun id b hk => h id b (hm.knows id b hk)

/-- Go to `block`, and go on with a new block. -/
theorem leave_lowers (hp : p.Inv) (block : BlockId) :
    Reads p (leave p block) fun F => Jumps F p.point block := by
  have hnew := inv_new hp
  have hend : Ended [] [⟨.always, block, 0, 0⟩] p.new.2 (leave p block) :=
    hnew.ended_add rfl rfl rfl rfl rfl
  have henters := hend.enters_jump hnew (held_new hp).free
  have hpass : Passes p.func.lastLabel p p.new.2 := passes_new
  have hlast : Passes p.func.lastLabel p.new.2 (leave p block) :=
    henters.passes (Nat.le_succ _) (Nat.lt_succ_self _)
  exact ⟨henters.inv, hpass.trans hlast, fun hA hK => henters.code (hA.makes hpass hnew) hK⟩

/-- What `label_lookup` returns is the label, which is in the table then. -/
structure Looked (id : String) (p : Parser) (r : Label × Parser) : Prop where
  inv : r.2.Inv
  passes : Passes p.func.lastLabel p r.2
  mem : r.1 ∈ r.2.labels
  id : r.1.id = id
  point : r.2.point = p.point
  break_ : r.2.breakBlock = p.breakBlock
  continue_ : r.2.continueBlock = p.continueBlock

theorem labelLookup_lowers (hp : p.Inv) (id : String) : Looked id p (labelLookup id p) := by
  rw [labelLookup]
  cases hfind : p.labels.find? fun x => x.id == id with
  | some x =>
    exact ⟨hp, passes_emit hp [], List.mem_of_find?_eq_some hfind,
      by simpa using List.find?_some hfind, rfl, rfl, rfl⟩
  | none =>
    have hnone : ∀ x ∈ p.labels, x.id ≠ id := by
      intro x hx heq
      exact List.find?_eq_none.mp hfind x hx (beq_iff_eq.mpr heq)
    have hnew := inv_new hp
    have hheld := held_new hp
    have hold : ∀ x ∈ p.labels, x.to_ ≠ p.new.1 := hheld.labels
    refine ⟨⟨hnew.fresh, hnew.current, ?_, ?_, ?_, hnew.dflt, hnew.switch⟩,
      ⟨.refl, ?_, ?_, Nat.le_succ _, rfl, rfl, rfl, rfl, (Bool.or_false _).symm, ?_, ?_,
        fun _ => ⟨rfl, rfl⟩⟩,
      List.mem_append_right _ (List.mem_singleton_self _), rfl, rfl, rfl, rfl⟩
    · rintro b (⟨x, hx, hdef, hb⟩ | hb)
      · rcases List.mem_append.mp hx with hx | hx
        · exact hnew.waiting b (.inl ⟨x, hx, hdef, hb⟩)
        · rw [List.mem_singleton.mp hx] at hb
          subst hb
          exact ⟨hheld.ne_zero, hheld.le, hheld.core, hheld.current⟩
      · exact hnew.waiting b (.inr hb)
    · intro x hx
      rcases List.mem_append.mp hx with hx | hx
      · exact hnew.labels x hx
      · rw [List.mem_singleton.mp hx]
        exact ⟨hheld.ne_zero, hheld.le, fun _ _ => hheld.dflt⟩
    · intro x hx y hy hxy
      rcases List.mem_append.mp hx with hx | hx <;> rcases List.mem_append.mp hy with hy | hy
      · exact hnew.distinct x hx y hy hxy
      · rw [List.mem_singleton.mp hy] at hxy
        exact (hxy.elim (hnone x hx) (hold x hx)).elim
      · rw [List.mem_singleton.mp hx] at hxy
        exact (hxy.elim (fun h => hnone y hy h.symm) fun h => hold y hy h.symm).elim
      · rw [List.mem_singleton.mp hx, List.mem_singleton.mp hy]
    · intro b _ hb
      refine ⟨hb.ne_zero, Nat.le_succ_of_le hb.le, hb.core, hb.current, fun x hx => ?_, hb.dflt⟩
      rcases List.mem_append.mp hx with hx | hx
      · exact hb.labels x hx
      · rw [List.mem_singleton.mp hx]
        exact (Nat.ne_of_lt (Nat.lt_succ_of_le hb.le)).symm
    · rintro id b ⟨x, hx, hk⟩
      exact ⟨x, List.mem_append_left _ hx, hk⟩
    · rintro id' ⟨x, hx, hid, hdef⟩
      rcases List.mem_append.mp hx with hx | hx
      · exact .inl ⟨x, hx, hid, hdef⟩
      · rw [List.mem_singleton.mp hx] at hdef
        cases hdef
    · exact fun _ => ⟨[], by rw [List.append_nil]; rfl, rfl⟩

/-- A jump to the block of a mark, which the parser goes on with. -/
structure MarkLowers (m : Mark) (hd : Bool) (cs : List Word) (p q : Parser) : Prop where
  inv : q.Inv
  makes : Makes p.func.lastLabel hd cs (fun id => m = .label id) p q
  break_ : q.breakBlock = p.breakBlock
  continue_ : q.continueBlock = p.continueBlock
  code : ∀ {A F label c}, p.Apart A → Keeps A q.func F → Knowing label q → Fits c q →
    Jumps F p.point (c.mark label m) ∧ q.point = (c.mark label m, 0)

/-- A step after which the current block goes on with a block that was waiting. -/
theorem Makes.enter (h : Makes n hd cs ids p q) (hq : q.Inv) (hb : q.Free b)
    (hheld : ∀ x ≤ n, q.Held x → x ≠ b) (hpoint : q.point = p.point)
    (hr : r = { q.add q.current .always b with current := b }) :
    r.Inv ∧ Makes n hd cs ids p r ∧ r.point = (b, 0) ∧ Passes n q r ∧
      ∀ {A F}, p.Apart A → Keeps A r.func F → Jumps F p.point b := by
  have hend : Ended [] [⟨.always, b, 0, 0⟩] q r := by
    subst hr
    exact hq.ended_add rfl rfl rfl rfl rfl
  have hcur : r.current = b := by
    rw [hr]
  subst hcur
  have henters := hend.enters_jump hq hb
  have hpass : Passes n q r := hend.passes hq hheld
  refine ⟨henters.inv, h.before hpass, henters.point, hpass, fun hA hK => ?_⟩
  rw [← hpoint]
  exact henters.code (hA.makes h hq) hK

/-- The label `id` is defined, and its block no longer waits. -/
theorem define_lowers (hp : p.Inv) {x : Label} (hx : x ∈ p.labels) (hdef : x.defined = false)
    (hq : q = { p with labels := p.labels.map fun y =>
      if y.id = x.id then { y with defined := true } else y }) :
    q.Inv ∧ Makes n false [] (fun id => x.id = id) p q ∧ q.Free x.to_ := by
  subst hq
  have hsame : ∀ y : Label, (if y.id = x.id then { y with defined := true } else y).id = y.id ∧
      (if y.id = x.id then { y with defined := true } else y).to_ = y.to_ := by
    intro y
    split_ifs
    · exact ⟨rfl, rfl⟩
    · exact ⟨rfl, rfl⟩
  have hwait : ∀ {b}, Parser.Waiting { p with labels := p.labels.map fun y =>
      if y.id = x.id then { y with defined := true } else y } b → p.Waiting b ∧ b ≠ x.to_ := by
    rintro b (⟨z, hz, hzd, rfl⟩ | hb)
    · obtain ⟨y, hy, rfl⟩ := List.mem_map.mp hz
      split_ifs at hzd ⊢ with hid
      refine ⟨.inl ⟨y, hy, hzd, rfl⟩, fun heq => hid ?_⟩
      rw [hp.distinct y hy x hx (.inr heq)]
    · refine ⟨.inr hb, ?_⟩
      obtain ⟨hs, hsaw, rfl⟩ := hb
      exact fun heq => (hp.labels x hx).2.2 hs hsaw heq.symm
  obtain ⟨hne, hle, hcore, hcur⟩ := hp.waiting x.to_ (.inl ⟨x, hx, hdef, rfl⟩)
  refine ⟨⟨hp.fresh, hp.current, fun b hb => hp.waiting b (hwait hb).1, ?_, ?_, hp.dflt, hp.switch⟩,
    ⟨.refl, ?_, ?_, Nat.le_refl _, rfl, rfl, rfl, rfl, (Bool.or_false _).symm, ?_, ?_,
      fun _ => ⟨rfl, rfl⟩⟩,
    ⟨hne, hle, hcore, hcur, fun h => (hwait h).2 rfl⟩⟩
  · intro z hz
    obtain ⟨y, hy, rfl⟩ := List.mem_map.mp hz
    rw [(hsame y).2]
    exact hp.labels y hy
  · intro z hz w hw hzw
    obtain ⟨y, hy, rfl⟩ := List.mem_map.mp hz
    obtain ⟨u, hu, rfl⟩ := List.mem_map.mp hw
    rw [(hsame y).1, (hsame u).1, (hsame y).2, (hsame u).2] at hzw
    rw [hp.distinct y hy u hu hzw]
  · intro b _ hb
    refine ⟨hb.ne_zero, hb.le, hb.core, hb.current, fun z hz => ?_, hb.dflt⟩
    obtain ⟨y, hy, rfl⟩ := List.mem_map.mp hz
    rw [(hsame y).2]
    exact hb.labels y hy
  · rintro id b ⟨y, hy, hid, hb⟩
    refine ⟨_, List.mem_map_of_mem hy, ?_, ?_⟩
    · rw [(hsame y).1, hid]
    · rw [(hsame y).2, hb]
  · rintro id ⟨z, hz, hid, hzd⟩
    obtain ⟨y, hy, rfl⟩ := List.mem_map.mp hz
    rw [(hsame y).1] at hid
    by_cases hxy : y.id = x.id
    · exact .inr (hxy.symm.trans hid)
    · rw [if_neg hxy] at hzd
      exact .inl ⟨y, hy, hid, hzd⟩
  · exact fun _ => ⟨[], by rw [List.append_nil]; rfl, rfl⟩

/-- The default has been seen, and its block no longer waits. -/
theorem default_lowers (hp : p.Inv) (hs : p.switchBlock ≠ 0) (hsaw : p.sawDefault = false)
    (hq : q = { p with sawDefault := true }) :
    q.Inv ∧ Makes n true [] (fun _ => False) p q ∧ q.Free p.defaultBlock := by
  subst hq
  have hwait : ∀ {b}, Parser.Waiting { p with sawDefault := true } b →
      p.Waiting b ∧ b ≠ p.defaultBlock := by
    rintro b (⟨y, hy, hyd, rfl⟩ | ⟨-, hb, -⟩)
    · exact ⟨.inl ⟨y, hy, hyd, rfl⟩, (hp.labels y hy).2.2 hs hsaw⟩
    · cases hb
  obtain ⟨hne, hle, hcore, hcur⟩ := hp.waiting p.defaultBlock (.inr ⟨hs, hsaw, rfl⟩)
  refine ⟨⟨hp.fresh, hp.current, fun b hb => hp.waiting b (hwait hb).1,
    fun x hx => ⟨(hp.labels x hx).1, (hp.labels x hx).2.1, fun _ h => (Bool.noConfusion h)⟩,
    hp.distinct, hp.dflt, hp.switch⟩,
    ⟨.refl, ?_, fun _ _ h => h, Nat.le_refl _, rfl, rfl, rfl, rfl, (Bool.or_true _).symm,
      fun _ h => .inl h, ?_, fun h => absurd h hs⟩,
    ⟨hne, hle, hcore, hcur, fun h => (hwait h).2 rfl⟩⟩
  · exact fun b _ hb => ⟨hb.ne_zero, hb.le, hb.core, hb.current, hb.labels, hb.dflt⟩
  · exact fun _ => ⟨[], by rw [List.append_nil]; rfl, rfl⟩

/-- A case is added to the block of the switch. -/
theorem case_lowers {i : Word} {succ : BlockId} {f : Func} (hp : p.Inv) (hs : p.switchBlock ≠ 0)
    (hf : Switch.blockSwitchCase p.func p.switchBlock i succ = .ok f)
    (hq : q = { p with func := f }) :
    q.Inv ∧ (∀ b, p.Held b → q.Held b) ∧ Edit p.func p.switchBlock
      ((p.func.block p.switchBlock).insns, (p.func.block p.switchBlock).control,
        (p.func.block p.switchBlock).successors ++ [⟨.switch, succ, i, i⟩]) q.func := by
  subst hq
  obtain ⟨cases, hsw, hpoint⟩ := hp.switch hs
  have hspec := Switch.blockSwitchCase_spec hsw hpoint hf
  rw [Switch.blockSwitchCase] at hf
  split at hf
  · cases hf
  obtain rfl := Except.ok.inj hf
  have hedit := edit_addSuccessor (f := p.func) (b := p.switchBlock) rfl .switch succ i i
  have hswne := hp.successors_switch hs
  have hne : ∀ {b}, (p.func.block b).core = untouched → b ≠ p.switchBlock := by
    rintro b hcore rfl
    exact hswne (congrArg (fun core => core.2.2) hcore)
  have hcur : p.current ≠ p.switchBlock := fun h => hswne (h ▸ hp.successors_current)
  refine ⟨⟨fun b hb => ?_, ?_, fun b hb => ?_, hp.labels, hp.distinct, hp.dflt,
    fun _ => ⟨_, hspec.1, hspec.2⟩⟩, fun b hb => ?_, hedit⟩
  · have hcore := hp.fresh b hb
    exact (hedit.others b (hne hcore)).trans hcore
  · refine ⟨hp.current.1, hp.current.2.1, ?_⟩
    obtain ⟨l, hl⟩ := hp.current.2.2
    exact ⟨l, (hedit.others _ hcur).trans hl⟩
  · obtain ⟨hz, hle, hcore, hbc⟩ := hp.waiting b hb
    exact ⟨hz, hle, (hedit.others b (hne hcore)).trans hcore, hbc⟩
  · exact ⟨hb.ne_zero, hb.le, (hedit.others b (hne hb.core)).trans hb.core, hb.current, hb.labels,
      hb.dflt⟩

theorem bind_ok {α β : Type} {x : Except String α} {f : α → Except String β} {b : β} :
    (x >>= f) = .ok b ↔ ∃ a, x = .ok a ∧ f a = .ok b := by
  cases x with
  | error e =>
    constructor
    · intro h
      cases h
    · rintro ⟨a, h, -⟩
      cases h
  | ok a =>
    constructor
    · exact fun h => ⟨a, rfl, h⟩
    · rintro ⟨a', h, h'⟩
      cases h
      exact h'

theorem mark_label_lowers (hp : p.Inv) (h : mark (.label id) p = .ok q) :
    MarkLowers (.label id) false [] p q := by
  obtain ⟨r, hr, hq⟩ := bind_ok.mp h
  cases hq
  have hl := labelLookup_lowers hp id
  rw [labelDefine] at hr
  generalize labelLookup id p = x at *
  dsimp only at hr
  split_ifs at hr with hdef
  cases hr
  obtain rfl := hl.id
  obtain ⟨hinv, hmakes, hfree⟩ := define_lowers (n := p.func.lastLabel) hl.inv hl.mem
    (Bool.eq_false_of_not_eq_true hdef) rfl
  have hall : Makes p.func.lastLabel false [] (fun id => Mark.label x.1.id = .label id) p _ :=
    Makes.after (hmakes.mono (Nat.le_refl _) fun id hid => congrArg Mark.label hid) hl.passes
  have hknows := hmakes.knows x.1.id x.1.to_ ⟨x.1, hl.mem, rfl, rfl⟩
  obtain ⟨y, hy, hyid, hyto⟩ := hknows
  obtain ⟨hr, hmk, hpoint, -, hjump⟩ := hall.enter hinv hfree
    (fun z _ hz => hyto ▸ (hz.labels y hy).symm) hl.point rfl
  refine ⟨hr, hmk, hl.break_, hl.continue_, fun {A F label c} hA hK hlabel _ => ?_⟩
  have hmark : Places.mark label c (.label x.1.id) = x.1.to_ := hlabel _ _ ⟨y, hy, hyid, hyto⟩
  rw [hmark]
  exact ⟨hjump hA hK, hpoint⟩

theorem mark_default_lowers (hp : p.Inv) (h : mark .default p = .ok q) :
    MarkLowers .default true [] p q := by
  obtain ⟨_, hs, hq⟩ := bind_ok.mp h
  unfold inSwitch at hs
  split_ifs at hs with hne
  rw [defaultCase] at hq
  split_ifs at hq with hsaw
  cases hq
  obtain ⟨hinv, hmakes, hfree⟩ := default_lowers hp hne (Bool.eq_false_of_not_eq_true hsaw) rfl
  obtain ⟨hr, hmk, hpoint, -, hjump⟩ := Makes.enter (n := p.func.lastLabel) hmakes hinv hfree
    (fun y _ hy => hy.dflt) rfl rfl
  refine ⟨hr, hmk.mono (Nat.le_refl _) fun _ => False.elim, rfl, rfl,
    fun {A F label c} hA hK _ hc => ?_⟩
  have hmark : Places.mark label c .default = p.defaultBlock := hc.dflt
  rw [hmark]
  exact ⟨hjump hA hK, hpoint⟩

theorem mark_case_lowers {i : Word} (hp : p.Inv) (h : mark (.case i) p = .ok q) :
    MarkLowers (.case i) false [i] p q := by
  obtain ⟨_, hs, hq⟩ := bind_ok.mp h
  unfold inSwitch at hs
  split_ifs at hs with hne
  obtain ⟨f, hf, hq⟩ := bind_ok.mp hq
  cases hq
  have hnew := inv_new hp
  obtain ⟨hinv, hheld, hedit⟩ := case_lowers hnew hne hf rfl
  have hfree := (hheld _ (held_new hp)).free
  have hcore : (f.block p.switchBlock).core = ((p.func.block p.switchBlock).insns,
      (p.func.block p.switchBlock).control, (p.func.block p.switchBlock).successors ++
        [⟨.switch, p.new.1, conNormalize (controlTs (p.func.block p.switchBlock)) i,
          conNormalize (controlTs (p.func.block p.switchBlock)) i⟩]) := hedit.core
  have hkeeps : Keeps (· = p.switchBlock) p.new.2.func f :=
    Edit.keeps (l := (p.func.block p.switchBlock).insns) (b := p.switchBlock) (by
      rw [List.append_nil]
      exact hedit) rfl (.inl rfl)
  have hmakes : Makes p.func.lastLabel false [i] (fun id => Mark.case i = .label id) p
      { p.new.2 with func := f } := by
    refine ⟨hkeeps, fun b _ hb => hheld b hb.new, fun _ _ h => h, ?_, hedit.entry, hedit.exit, rfl,
      rfl, (Bool.or_false _).symm, fun _ h => .inl h, fun _ => ⟨_, hedit.core, rfl⟩,
      fun h => absurd h hne⟩
    show p.func.lastLabel ≤ f.lastLabel
    rw [hedit.lastLabel]
    exact Nat.le_succ _
  have hcur : p.current ≠ p.switchBlock := by
    intro heq
    have hsucc := hp.successors_switch hne
    rw [← heq] at hsucc
    exact hsucc hp.successors_current
  have hpoint : ({ p.new.2 with func := f } : Parser).point = p.point := by
    have hcore := hedit.others p.current hcur
    show (p.current, (f.block p.current).insns.length) = p.point
    rw [Block.insns_eq hcore]
    rfl
  obtain ⟨hr, hmk, hpoint', hpass, hjump⟩ := hmakes.enter hinv hfree
    (fun x hx _ => Nat.ne_of_lt (Nat.lt_succ_of_le hx)) hpoint rfl
  refine ⟨hr, hmk, rfl, rfl, fun {A F label c} hA hK _ hc => ?_⟩
  have hmark : Places.mark label c (.case i) = p.new.1 := by
    obtain ⟨hts, htarget⟩ := Fits.switch
      (hc.before hpass hinv hc.break_ hc.continue_ rfl rfl rfl) hne
    simp only [Block.core, Prod.mk.injEq] at hcore
    have hctl : controlTs (f.block p.switchBlock) = controlTs (p.func.block p.switchBlock) := by
      rw [controlTs, controlTs, hcore.2.1]
    have hlast := htarget ⟨.switch, p.new.1, conNormalize (controlTs (p.func.block p.switchBlock)) i,
      conNormalize (controlTs (p.func.block p.switchBlock)) i⟩ (by
        show _ ∈ (f.block p.switchBlock).successors.tail
        rw [hcore.2.2, List.tail_append_of_ne_nil (hp.successors_switch hne)]
        exact List.mem_append_right _ (List.mem_singleton_self _))
    show c.target (conNormalize c.ts i) = p.new.1
    refine Eq.trans ?_ hlast
    rw [hts]
    show c.target (conNormalize (controlTs (f.block p.switchBlock)) i) = _
    rw [hctl]
  rw [hmark]
  exact ⟨hjump hA hK, hpoint'⟩

end

end Ncc.Stmts
