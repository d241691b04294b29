import Ncc.Stmt.Code

/-! Blocks that hold a function simulate it. -/

namespace Ncc.Stmts

/-! ### The steps of blocks -/

section
variable {env : Env} {f : Func} {p q : Point} {l : List Insn} {o : Option Operand} {s : State}
  {c t e : BlockId}

theorem At.cons {insn : Insn} (h : At f p (insn :: l) q) :
    (f.block p.1).insns[p.2]? = some insn ∧ At f (p.1, p.2 + 1) l q := by
  obtain ⟨rfl, pre, post, hinsns, hlen⟩ := h
  refine ⟨?_, ?_, pre ++ [insn], post, ?_, ?_⟩
  · rw [hinsns, ← hlen, List.getElem?_append_right (Nat.le_refl _), Nat.sub_self]
    rfl
  · simp only [List.length_cons, Prod.mk.injEq, true_and]
    omega
  · rw [hinsns, List.append_assoc]
    rfl
  · rw [List.length_append, hlen]
    rfl

/-- Insns that are found are executed. -/
theorem At.run (h : At f p l q) : (blockStep env f).Run (p, s) l (q, execs env l s) := by
  induction l generalizing p s with
  | nil =>
    obtain ⟨rfl, -⟩ := h
    exact .refl _
  | cons insn l ih =>
    obtain ⟨hinsn, h⟩ := h.cons
    have hstep : blockStep env f (p, s) = some ([insn], ((p.1, p.2 + 1), exec env insn s)) := by
      rw [blockStep]
      simp only [hinsn]
    exact (System.Moves.one hstep).run.trans (ih h)

theorem At.moves {insn : Insn} (h : At f p [insn] q) :
    (blockStep env f).Moves (p, s) [insn] (q, exec env insn s) := by
  obtain ⟨hinsn, rfl, -⟩ := h.cons
  refine .one ?_
  rw [blockStep]
  simp only [hinsn]
  rfl

/-- At the end of a block, control goes where the branch leads. -/
theorem moves_branch (hend : (f.block p.1).insns.length = p.2)
    (hbranch : branch env (f.block p.1) s = some c) :
    (blockStep env f).Moves (p, s) [] ((c, 0), s) := by
  refine .one ?_
  have hnone : (f.block p.1).insns[p.2]? = none := List.getElem?_eq_none (Nat.le_of_eq hend)
  rw [blockStep]
  simp only [hnone, hbranch, Option.map_some]

theorem Jumps.moves (h : Jumps f p c) : (blockStep env f).Moves (p, s) [] ((c, 0), s) := by
  obtain ⟨hend, hcontrol, hsuccs⟩ := h
  refine moves_branch hend ?_
  rw [branch, hcontrol, hsuccs]
  rfl

theorem Selects.moves {target : Word → BlockId} (h : Selects f env p o target) :
    (blockStep env f).Moves (p, s) [] ((target (readOpt env s.regs o), 0), s) :=
  moves_branch h.1 (h.2 s)

/-- After a comparison with zero, one of the codes Z and NZ holds. -/
theorem mem_ccs_cmpZero (ho : (tsOpt o).floating = false) :
    (.z ∈ (exec env (cmpZero o) s).ccs ↔ truth env s o = false) ∧
      (.nz ∈ (exec env (cmpZero o) s).ccs ↔ truth env s o = true) := by
  have hts : (tsOpt o).integral = true := by rw [TypeBits.integral, ho]; rfl
  have hv : conNormalize (tsOpt o) (readOpt env s.regs o) = readOpt env s.regs o := by
    rw [← fit_of_integral hts, fit_readOpt]
  have hz : conNormalize (tsOpt o) 0 = 0 := by cases tsOpt o <;> rfl
  have hccs : (exec env (cmpZero o) s).ccs = Finset.univ.filter fun cc =>
      cmpHolds ((readOpt env s.regs o).setWidth (8 * (tsOpt o).sizeof))
        ((0 : Word).setWidth (8 * (tsOpt o).sizeof)) cc = true := by
    show cmpCodes env (tsOpt o) (readOpt env s.regs o) _ = _
    rw [cmpCodes, ho]
    rfl
  have hcmp : ∀ cc ∈ [ConditionCode.z, .nz], cc ∈ (exec env (cmpZero o) s).ccs ↔
      cmpHolds (readOpt env s.regs o) 0 cc = true := by
    intro cc hcc
    rw [hccs, Finset.mem_filter, Switch.cmpHolds_normalized hts hv hz (by decide) hcc]
    simp
  rw [hcmp .z (by simp), hcmp .nz (by simp), truth]
  simp [cmpHolds]

theorem truth_cmpZero (o' : Option Operand) :
    truth env (exec env (cmpZero o) s) o' = truth env s o' := rfl

theorem Branches.moves (h : Branches f p o t e) (ho : (tsOpt o).floating = false) :
    (blockStep env f).Moves (p, s) [cmpZero o]
      ((if truth env (exec env (cmpZero o) s) o then t else e, 0), exec env (cmpZero o) s) := by
  obtain ⟨q, hat, hend, hcontrol, hsuccs⟩ := h
  have hfirst : (blockStep env f).Moves (p, s) _ _ := hat.moves
  have hsecond : (blockStep env f).Moves (q, exec env (cmpZero o) s) []
      ((if truth env (exec env (cmpZero o) s) o then t else e, 0), exec env (cmpZero o) s) := by
    refine moves_branch hend ?_
    obtain ⟨hz, hnz⟩ : (_ ∈ (exec env (cmpZero o) s).ccs ↔ _) ∧ _ := mem_ccs_cmpZero ho
    rw [branch, hcontrol, hsuccs, truth_cmpZero]
    cases htruth : truth env s o with
    | true => simp [hz, hnz, htruth]
    | false => simp [hz, htruth]
  exact hfirst.trans hsecond.run

end

/-! ### Expressions -/

section
variable {env : Env} {f : Func} {p q : Point} {s : State}

theorem path_log (lor : Bool) (temp : Operand) (left right : Expr) :
    (Expr.log lor temp left right).path env s =
      let s' := execs env (left.test env s) s
      if left.holds env s = lor then left.test env s ++ [moveI temp (if lor then 1 else 0)]
      else left.test env s ++
        (right.test env s' ++ [moveI temp (if right.holds env s' then 1 else 0)]) := rfl

theorem path_quest (temp : Option Operand) (left yes no : Expr) :
    (Expr.quest temp left yes no).path env s =
      let s' := execs env (left.test env s) s
      if left.holds env s then left.test env s ++ (yes.path env s' ++ moveTemp temp yes.result)
      else left.test env s ++ (no.path env s' ++ moveTemp temp no.result) := rfl

/-- After a leaf has been evaluated, control goes where its value says. -/
theorem Branches.test {c : Expr} {m : Point} {t e : BlockId}
    (hrun : (blockStep env f).Run (p, s) (c.path env s) (m, execs env (c.path env s) s))
    (h : Branches f m c.result t e) (ho : (tsOpt c.result).floating = false) :
    (blockStep env f).Moves (p, s) (c.test env s)
      ((if c.holds env s then t else e, 0), execs env (c.test env s) s) := by
  have hmoves := hrun.moves (h.moves ho)
  rw [Expr.holds, Expr.test, execs_append]
  exact hmoves

/-- An expression that is found is evaluated. -/
theorem Expr.Code.run {c : Expr} : ∀ {p q : Point} {s : State}, c.Code f p q → c.Typed →
    (blockStep env f).Run (p, s) (c.path env s) (q, execs env (c.path env s) s) := by
  induction c with
  | leaf o =>
    rintro p _ s rfl -
    exact .refl _
  | unary emit child ih =>
    rintro p q s ⟨m, hchild, hat⟩ ht
    rw [Expr.path, execs_append]
    exact (ih hchild ht).trans hat.run
  | binary emit left right ihl ihr =>
    rintro p q s ⟨m, n, hleft, hright, hat⟩ ⟨htl, htr⟩
    rw [Expr.path, execs_append, execs_append]
    exact (ihl hleft htl).trans ((ihr hright htr).trans hat.run)
  | comma left right ihl ihr =>
    rintro p q s ⟨m, hleft, hright⟩ ⟨htl, htr⟩
    rw [Expr.path, execs_append]
    exact (ihl hleft htl).trans (ihr hright htr)
  | log lor temp left right ihl ihr =>
    rintro p q s ⟨m, n, rb, tb, eb, join, tq, eq, hleft, hl, hright, hr, htrue, htj, hfalse, hfj, rfl⟩
      ⟨htl, htr, hil, hir⟩
    have hset : ∀ (b : Bool) (s : State), (blockStep env f).Run
        ((if b then tb else eb, 0), s) [moveI temp (if b then 1 else 0)]
        ((join, 0), exec env (moveI temp (if b then 1 else 0)) s) := by
      intro b s
      cases b with
      | true => exact htrue.moves.run.trans htj.moves.run
      | false => exact hfalse.moves.run.trans hfj.moves.run
    have hfirst := (Branches.test (ihl (s := s) hleft htl) hl hil).run
    rw [path_log]
    simp only []
    by_cases hb : left.holds env s = lor
    · -- the right operand is not called for
      have hto : (if left.holds env s then (if lor then tb else rb) else
          (if lor then rb else eb)) = if lor then tb else eb := by
        rw [hb]
        cases lor <;> rfl
      rw [hto] at hfirst
      rw [if_pos hb, execs_append]
      exact hfirst.trans (hset lor _)
    · have hto : (if left.holds env s then (if lor then tb else rb) else
          (if lor then rb else eb)) = rb := by
        cases lor <;> cases hholds : left.holds env s <;> simp_all
      rw [hto] at hfirst
      rw [if_neg hb, execs_append, execs_append]
      exact hfirst.trans ((Branches.test (ihr hright htr) hr hir).run.trans (hset _ _))
  | quest temp left yes no ihl ihy ihn =>
    rintro p q s ⟨m, tb, eb, y, yq, n, nq, join, hleft, hl, hyes, hmove, hjump, hno, hmove', hjump',
      rfl⟩ ⟨htl, hty, htn, hil⟩
    have hfirst := (Branches.test (ihl (s := s) hleft htl) hl hil).run
    rw [path_quest]
    simp only []
    cases hholds : left.holds env s with
    | true =>
      rw [hholds] at hfirst
      rw [if_pos rfl, execs_append, execs_append]
      have hlast := (ihy (s := execs env (left.test env s) s) hyes hty).trans
        (hmove.run.trans hjump.moves.run)
      rw [List.append_nil] at hlast
      exact hfirst.trans hlast
    | false =>
      rw [hholds] at hfirst
      rw [if_neg Bool.false_ne_true, execs_append, execs_append]
      have hlast := (ihn (s := execs env (left.test env s) s) hno htn).trans
        (hmove'.run.trans hjump'.moves.run)
      rw [List.append_nil] at hlast
      exact hfirst.trans hlast

theorem CodeOpt.run {c : Option Expr} (h : CodeOpt f c p q) (ht : ∀ x ∈ c, x.Typed) :
    (blockStep env f).Run (p, s) (pathOpt env c s) (q, execs env (pathOpt env c s) s) := by
  cases c with
  | none =>
    obtain rfl : p = q := h
    exact .refl _
  | some c => exact Expr.Code.run h (ht c rfl)

/-- A condition that is found is evaluated, and control goes where it says. -/
theorem Condition.moves {c : Expr} {t e : BlockId} (h : Condition f c p t e) (ht : c.Test) :
    (blockStep env f).Moves (p, s) (c.test env s)
      ((if c.holds env s then t else e, 0), execs env (c.test env s) s) := by
  obtain ⟨m, hcode, hbranch⟩ := h
  exact hbranch.test (hcode.run ht.1) ht.2

end

/-! ### What is left to do -/

section
variable {env : Env} {f : Func} {label : String → BlockId} {x : Sought} {s s' : Stmt} {k k' : Cont}
  {c : Places} {p q : Point} {b : BlockId}

/-- The end of a statement is as good as any other point that goes on to the same block. -/
theorem Cont.Code.afterContinue (h : k.Code env f label c q) (hk : k.afterContinue = some k')
    (hp : Jumps f p c.continueBlock) : ∃ c', k'.Code env f label c' p := by
  induction h with
  | stop _ _ _ => cases hk
  | jump _ _ ih => exact ih hk hp
  | seq _ _ _ ih => exact ih hk hp
  | «while» cond code next typed again rest _ =>
    cases hk
    exact ⟨_, .while cond code next typed hp rest⟩
  | doWhile code next cond typed again rest _ =>
    cases hk
    exact ⟨_, .doWhile code next cond typed hp rest⟩
  | «for» stepCode code typed again rest _ =>
    cases hk
    exact ⟨_, .for stepCode code typed hp rest⟩
  | «switch» leave same rest ih => exact ih hk (same ▸ hp)

/-- A `break` goes to where the statement that it ends is left. -/
theorem Cont.Code.afterBreak (h : k.Code env f label c q) (hk : k.afterBreak = some k') :
    ∃ c', k'.Code env f label c' (c.breakBlock, 0) := by
  induction h with
  | stop _ _ _ => cases hk
  | jump _ _ ih => exact ih hk
  | seq _ _ _ ih => exact ih hk
  | «while» cond code next typed again rest _ =>
    cases hk
    exact ⟨_, rest⟩
  | doWhile code next cond typed again rest _ =>
    cases hk
    exact ⟨_, rest⟩
  | «for» stepCode code typed again rest _ =>
    cases hk
    exact ⟨_, rest⟩
  | «switch» leave same rest _ =>
    cases hk
    exact ⟨_, rest⟩

/-- A statement is found at a point, and so is what is left to do after it. -/
def Found (env : Env) (f : Func) (label : String → BlockId) (s : Stmt) (k : Cont) (p : Point) :
    Prop :=
  ∃ c q, s.Code env f label c p q ∧ k.Code env f label c q ∧ s.Typed

/-- The end of a statement is found where what is left to do is. -/
theorem Cont.Code.found (h : k.Code env f label c q) : Found env f label .empty k q :=
  ⟨c, q, rfl, h, trivial⟩

/-- The block of the mark that is looked for. A case is looked for at the type of the switch. -/
def Sought.Goes (label : String → BlockId) (c : Places) (b : BlockId) : Sought → Prop
  | .label id => label id = b
  | .case ts u => c.ts = ts ∧ c.target u = b
  | .default => c.defaultBlock = b

theorem mark_of_is {m : Mark} (hx : x.Goes label c b) (h : x.is m = true) : c.mark label m = b := by
  cases x <;> cases m <;> simp_all [Sought.is, Places.mark, Sought.Goes]

/-- The statement behind a mark is found at the block of the mark. -/
theorem find_code : ∀ {s : Stmt} {k : Cont} {c : Places} {p q : Point}, s.Code env f label c p q →
    k.Code env f label c q → s.Typed → x.Goes label c b → find x s k = some (s', k') →
    Found env f label s' k' (b, 0) := by
  intro s
  induction s with
  | seq s t ihs iht =>
    rintro k c p q ⟨m, hs, ht⟩ hk ⟨hts, htt⟩ hx hf
    rcases Option.or_eq_some_iff.mp hf with hf | ⟨-, hf⟩
    · exact ihs hs (.seq ht htt hk) hts hx hf
    · exact iht ht hk htt hx hf
  | labelled m s ih =>
    rintro k c p q ⟨hjump, hs⟩ hk ht hx hf
    rw [find] at hf
    split_ifs at hf with his
    · cases hf
      rw [mark_of_is hx his] at hs
      exact ⟨c, q, hs, hk, ht⟩
    · exact ih hs hk ht hx hf
  | ifElse e s t ihs iht =>
    rintro k c p q ⟨tb, eb, m, n, join, hcond, hs, hm, ht, hn, rfl⟩ hk ⟨-, hts, htt⟩ hx hf
    rcases Option.or_eq_some_iff.mp hf with hf | ⟨-, hf⟩
    · exact ihs hs (.jump hm hk) hts hx hf
    · exact iht ht (.jump hn hk) htt hx hf
  | «while» e s ih =>
    rintro k c p q ⟨test, body, brk, m, hp, hcond, hs, hm, rfl⟩ hk ht hx hf
    refine ih hs (.while hcond hs hm ht hm hk) ht.2 ?_ hf
    cases x <;> exact hx
  | doWhile s e ih =>
    rintro k c p q ⟨body, cont, brk, m, hp, hs, hm, hcond, rfl⟩ hk ht hx hf
    refine ih hs (.doWhile hs hm hcond ht hm hk) ht.2 ?_ hf
    cases x <;> exact hx
  | «for» initial test step s ih =>
    rintro k c p q ⟨tst, body, cont, brk, i, m, n, hinit, hi, htest, hs, hm, hstep, hn, rfl⟩ hk
      ⟨hti, ht⟩ hx hf
    have hagain : (Stmt.for none test step s).Code env f label c n (brk, 0) :=
      ⟨tst, body, cont, brk, n, m, n, rfl, hn, htest, hs, hm, hstep, hn, rfl⟩
    refine ih hs (.for hstep hagain ⟨by simp, ht⟩ hm hk) ht.2.2 ?_ hf
    cases x <;> exact hx
  | «switch» e s ih =>
    rintro k c p q ⟨m, body, brk, dflt, target, n, he, hsel, hdflt, hs, hn, hnone, rfl⟩ hk ⟨-, ht⟩
      hx hf
    rw [find] at hf
    split_ifs at hf with henters
    cases x with
    | label id =>
      refine ih hs (.switch hn ?_ hk) ht hx hf
      rfl
    | case ts u => cases henters
    | default => cases henters
  | _ =>
    intro k c p q _ _ _ _ hf
    cases hf

/-- No case for a value is found only if there is none. -/
theorem not_mem_cases {ts : TypeBits} {u : Word} : ∀ {s : Stmt} {k : Cont},
    find (.case ts u) s k = none → u ∉ s.cases.map (conNormalize ts) := by
  intro s
  induction s with
  | seq s t ihs iht =>
    intro k hf
    obtain ⟨hs, ht⟩ := Option.or_eq_none_iff.mp hf
    rw [Stmt.cases, List.map_append, List.mem_append]
    exact not_or.mpr ⟨ihs hs, iht ht⟩
  | ifElse e s t ihs iht =>
    intro k hf
    obtain ⟨hs, ht⟩ := Option.or_eq_none_iff.mp hf
    rw [Stmt.cases, List.map_append, List.mem_append]
    exact not_or.mpr ⟨ihs hs, iht ht⟩
  | labelled m s ih =>
    intro k hf
    rw [find] at hf
    split_ifs at hf with his
    cases m with
    | case i =>
      rw [Stmt.cases, List.map_cons, List.mem_cons]
      refine not_or.mpr ⟨fun h => his ?_, ih hf⟩
      rw [h]
      exact beq_self_eq_true _
    | label id => exact ih hf
    | default => exact ih hf
  | «while» e s ih => exact fun hf => ih hf
  | doWhile s e ih => exact fun hf => ih hf
  | «for» initial test step s ih => exact fun hf => ih hf
  | _ => exact fun _ => List.not_mem_nil

/-- No default is found only if there is none. -/
theorem hasDefault_eq_false : ∀ {s : Stmt} {k : Cont},
    find .default s k = none → s.hasDefault = false := by
  intro s
  induction s with
  | seq s t ihs iht =>
    intro k hf
    obtain ⟨hs, ht⟩ := Option.or_eq_none_iff.mp hf
    rw [Stmt.hasDefault, ihs hs, iht ht]
    rfl
  | ifElse e s t ihs iht =>
    intro k hf
    obtain ⟨hs, ht⟩ := Option.or_eq_none_iff.mp hf
    rw [Stmt.hasDefault, ihs hs, iht ht]
    rfl
  | labelled m s ih =>
    intro k hf
    rw [find] at hf
    split_ifs at hf with his
    cases m with
    | case i => exact ih hf
    | label id => exact ih hf
    | default => exact absurd rfl his
  | «while» e s ih => exact fun hf => ih hf
  | doWhile s e ih => exact fun hf => ih hf
  | «for» initial test step s ih => exact fun hf => ih hf
  | _ => exact fun _ => rfl

end

/-! ### The simulation -/

/-- A bound for the steps that show nothing and are no steps of the blocks. -/
def Stmt.size : Stmt → Nat
  | .empty => 1
  | .seq s t => s.size + t.size + 2
  | .labelled _ s | .while _ s | .doWhile s _ | .switch _ s => s.size + 2
  | .for initial _ _ s => s.size + 2 + if initial.isSome then 1 else 0
  | .ifElse _ s t => s.size + t.size + 2
  | _ => 2

def Cont.size : Cont → Nat
  | .stop => 0
  | .seq t k => t.size + k.size + 1
  | .while _ t k => t.size + k.size + 2
  | .doWhile _ _ k | .for _ _ _ k | .switch k => k.size

def Config.size (c : Config) : Nat := c.stmt.size + c.cont.size

theorem size_afterContinue {k k' : Cont} (h : k.afterContinue = some k') : k'.size ≤ k.size := by
  induction k with
  | stop => cases h
  | seq t k ih =>
    have := ih h
    rw [Cont.size]
    omega
  | «switch» k ih => exact ih h
  | _ =>
    cases h
    exact Nat.le_refl _

/-- The blocks of the function hold its body. -/
structure Holds (env : Env) (f : Func) (label : String → BlockId) (body : Stmt) (start : BlockId) :
    Prop where
  entry : Jumps f (f.entry, 0) start
  code : ∃ q, body.Code env f label {} (start, 0) q ∧ Jumps f q f.exit
  exit : (f.block f.exit).core = ([], none, [])
  labels : ∀ id, label id ≠ 0 → (find (.label id) body .stop).isSome
  typed : body.Typed

/-- The blocks are where the statement to execute is found, or have been left. -/
def Matches (env : Env) (f : Func) (label : String → BlockId) (c : Config) (x : Point × State) :
    Prop :=
  x.2 = c.state ∧ (Found env f label c.stmt c.cont x.1 ∨
    c.stmt = .empty ∧ c.cont = .stop ∧ x.1 = (f.exit, 0))

/-- The blocks get to where a step goes on. -/
def Follows (env : Env) (f : Func) (label : String → BlockId) (n : Nat) (p : Point) (s : State)
    (r : List Insn × Config) : Prop :=
  ∃ x, Matches env f label r.2 x ∧ ((blockStep env f).Moves (p, s) r.1 x ∨
    (blockStep env f).Run (p, s) r.1 x ∧ r.2.size < n)

section
variable {env : Env} {f : Func} {label : String → BlockId} {body stmt stmt' : Stmt}
  {start : BlockId} {c : Config} {p q : Point} {s : State} {l : List Insn} {places : Places}
  {k k' : Cont} {n : Nat} {r : List Insn × Config}

theorem Follows.of_moves (h : (blockStep env f).Moves (p, s) l (q, execs env l s))
    (hfound : Found env f label stmt k q) : Follows env f label n p s (go env s l stmt k) :=
  ⟨(q, execs env l s), ⟨rfl, .inl hfound⟩, .inl h⟩

theorem Follows.of_run (h : (blockStep env f).Run (p, s) l (q, execs env l s))
    (hfound : Found env f label stmt k q) (hn : stmt.size + k.size < n) :
    Follows env f label n p s (go env s l stmt k) :=
  ⟨(q, execs env l s), ⟨rfl, .inl hfound⟩, .inr ⟨h, hn⟩⟩

/-- Steps that show nothing may come first. -/
theorem Follows.after (h : Follows env f label n q s r)
    (hmoves : (blockStep env f).Moves (p, s) [] (q, s)) : Follows env f label n p s r := by
  obtain ⟨x, hx, h | ⟨h, -⟩⟩ := h
  · exact ⟨x, hx, .inl (hmoves.trans h.run)⟩
  · exact ⟨x, hx, .inl (hmoves.trans h)⟩

/-- After a condition, control is where it goes on. -/
theorem Condition.follows {e : Expr} {t u : BlockId} (h : Condition f e p t u) (he : e.Test)
    (ht : Found env f label stmt k (t, 0)) (hu : Found env f label stmt' k' (u, 0))
    (hr : (if e.holds env s then some (go env s (e.test env s) stmt k)
      else some (go env s (e.test env s) stmt' k')) = some r) : Follows env f label n p s r := by
  have hmoves : (blockStep env f).Moves (p, s) _ _ := h.moves he
  split_ifs at hr with hholds
  · cases hr
    rw [if_pos hholds] at hmoves
    exact .of_moves hmoves ht
  · cases hr
    rw [if_neg hholds] at hmoves
    exact .of_moves hmoves hu

/-- What is left to do is resumed. -/
theorem Cont.Code.follows (h : k.Code env f label places p) (hr : resume env s k = some r)
    (hn : k.size < n) : Follows env f label n p s r := by
  induction h with
  | stop _ _ _ => cases hr
  | jump to_ _ ih => exact (ih hr hn).after to_.moves
  | seq code typed rest _ =>
    cases hr
    exact .of_run (.refl _) ⟨_, _, code, rest, typed⟩ (Nat.lt_of_succ_lt hn)
  | «while» cond code next typed again rest _ =>
    cases hr
    rw [Cont.size] at hn
    refine .of_run (.refl _) ⟨_, _, ⟨_, _, _, _, again, cond, code, next, rfl⟩, rest, typed⟩ ?_
    rw [Stmt.size]
    omega
  | doWhile code next cond typed again rest _ =>
    have hbody : Found env f label _ (.doWhile _ _ _) (_, 0) :=
      ⟨_, _, code, .doWhile code next cond typed next rest, typed.2⟩
    exact (cond.follows typed.1 hbody rest.found hr).after again.moves
  | «for» stepCode code typed again rest _ =>
    cases hr
    exact .of_moves (again.moves.trans (stepCode.run typed.2.2.1)) ⟨_, _, code, rest, typed⟩
  | «switch» leave same rest _ =>
    cases hr
    exact .of_moves leave.moves rest.found

/-- A `goto` finds the statement behind its label. -/
theorem Holds.goto (h : Holds env f label body start) {id : String}
    (hf : find (.label id) body .stop = some (stmt, k)) : Found env f label stmt k (label id, 0) := by
  obtain ⟨q, hcode, hexit⟩ := h.code
  refine find_code hcode (.stop hexit rfl rfl) h.typed ?_ hf
  rfl

/-- `switch` finds the statement that it selects. -/
theorem select_found {b : Stmt} {ts : TypeBits} {u : Word} {target : Word → BlockId}
    {body dflt brk : BlockId} {m : Point} {outer : Places}
    (hcode : b.Code env f label ⟨brk, outer.continueBlock, dflt, ts, target⟩ (body, 0) m)
    (hjump : Jumps f m brk) (hk : k.Code env f label outer (brk, 0)) (ht : b.Typed)
    (hdflt : u ∉ b.cases.map (conNormalize ts) → target u = dflt)
    (hnone : b.hasDefault = false → Jumps f (dflt, 0) brk) :
    Found env f label (select ts u b k).1 (select ts u b k).2 (target u, 0) := by
  have hswitch : Cont.Code env f label (.switch k) ⟨brk, outer.continueBlock, dflt, ts, target⟩ m := by
    refine .switch hjump ?_ hk
    rfl
  rw [select]
  cases hcase : find (.case ts u) b (.switch k) with
  | some r =>
    obtain ⟨s', k'⟩ := r
    refine find_code hcode hswitch ht ?_ hcase
    exact ⟨rfl, rfl⟩
  | none =>
    rw [Option.none_or, hdflt (not_mem_cases hcase)]
    cases hfind : find .default b (.switch k) with
    | some r =>
      obtain ⟨s', k'⟩ := r
      refine find_code hcode hswitch ht ?_ hfind
      rfl
    | none =>
      -- neither a case nor a default: the default block goes on behind the switch
      exact ⟨outer, (dflt, 0), rfl, .jump (hnone (hasDefault_eq_false hfind)) hk, trivial⟩

/-- The blocks follow a `for` whose initial expression has been evaluated. -/
theorem for_follows {test step : Option Expr} {b : Stmt}
    (hcode : (Stmt.for none test step b).Code env f label places p q)
    (hk : k.Code env f label places q) (ht : (Stmt.for none test step b).Typed)
    (hr : Stmts.step env body ⟨.for none test step b, k, s⟩ = some r) :
    Follows env f label n p s r := by
  obtain ⟨tst, body', cont, brk, i, m, j, rfl, hi, htest, hb, hm, hstep, hn, rfl⟩ := hcode
  have hagain : (Stmt.for none test step b).Code env f label places j (brk, 0) :=
    ⟨tst, body', cont, brk, j, m, j, rfl, hn, htest, hb, hm, hstep, hn, rfl⟩
  have hbody : Found env f label b (.for test step b k) (body', 0) :=
    ⟨_, m, hb, .for hstep hagain ht hm hk, ht.2.2.2⟩
  cases test with
  | some e => exact (Condition.follows htest (ht.2.1 e rfl) hbody hk.found hr).after hi.moves
  | none =>
    cases hr
    exact .of_moves (hi.moves.trans (Jumps.moves htest).run) hbody

/-- The blocks follow a step of a statement. -/
theorem Holds.follows (h : Holds env f label body start)
    (hcode : stmt.Code env f label places p q) (hk : k.Code env f label places q) (ht : stmt.Typed)
    (hr : step env body ⟨stmt, k, s⟩ = some r) :
    Follows env f label (stmt.size + k.size) p s r := by
  cases stmt with
  | empty =>
    obtain rfl : p = q := hcode
    exact hk.follows hr (by rw [Stmt.size]; omega)
  | seq b t =>
    obtain ⟨m, hb, ht'⟩ := hcode
    cases hr
    refine .of_run (.refl _) ⟨_, _, hb, .seq ht' ht.2 hk, ht.1⟩ ?_
    rw [Stmt.size, Cont.size]
    omega
  | expr e =>
    cases hr
    refine .of_run (Expr.Code.run hcode ht) hk.found ?_
    simp only [Stmt.size]
    omega
  | asm insn =>
    cases hr
    exact .of_moves hcode.moves hk.found
  | labelled m b =>
    cases hr
    exact .of_moves hcode.1.moves ⟨_, _, hcode.2, hk, ht⟩
  | goto id =>
    obtain ⟨x, hx, rfl⟩ := Option.map_eq_some_iff.mp hr
    exact .of_moves hcode.2.moves (h.goto hx)
  | «break» =>
    obtain ⟨k', hk', rfl⟩ := Option.map_eq_some_iff.mp hr
    obtain ⟨c, hafter⟩ := hk.afterBreak hk'
    exact .of_moves hcode.2.moves hafter.found
  | «continue» =>
    obtain ⟨k', hk', rfl⟩ := Option.map_eq_some_iff.mp hr
    obtain ⟨c, hafter⟩ := hk.afterContinue hk' hcode.2
    refine .of_run (.refl _) hafter.found ?_
    have := size_afterContinue hk'
    simp only [Stmt.size]
    omega
  | «return» e =>
    obtain ⟨m, j, he, hret, hexit⟩ := hcode
    cases hr
    have hstop : Cont.Code env f label .stop {} j := .stop hexit rfl rfl
    refine .of_moves ?_ hstop.found
    rw [execs_append]
    exact (he.run ht).moves hret.moves
  | ifElse e b t =>
    obtain ⟨tb, eb, m, j, join, hcond, hb, hm, ht', hn, rfl⟩ := hcode
    refine hcond.follows ht.1 ⟨_, m, hb, .jump hm hk, ht.2.1⟩ ⟨_, j, ht', .jump hn hk, ht.2.2⟩ ?_
    rw [← hr, step]
    cases e.holds env s <;> rfl
  | «while» e b =>
    obtain ⟨test, body', brk, m, hp, hcond, hb, hm, rfl⟩ := hcode
    have hbody : Found env f label b (.while e b k) (body', 0) :=
      ⟨_, m, hb, .while hcond hb hm ht hm hk, ht.2⟩
    exact (hcond.follows ht.1 hbody hk.found hr).after hp.moves
  | doWhile b e =>
    obtain ⟨body', cont, brk, m, hp, hb, hm, hcond, rfl⟩ := hcode
    cases hr
    exact .of_moves hp.moves ⟨_, m, hb, .doWhile hb hm hcond ht hm hk, ht.2⟩
  | «for» initial test step b =>
    cases initial with
    | none => exact for_follows hcode hk ht hr
    | some e =>
      obtain ⟨tst, body', cont, brk, i, m, j, hinit, hi, hrest⟩ := hcode
      cases hr
      refine .of_run (Expr.Code.run hinit (ht.1 e rfl)) ⟨places, q, ?_, hk, ?_⟩ ?_
      · exact ⟨tst, body', cont, brk, i, m, j, rfl, hi, hrest⟩
      · exact ⟨by simp, ht.2⟩
      · simp [Stmt.size]
  | «switch» e b =>
    obtain ⟨m, body', brk, dflt, target, j, he, hsel, hdflt, hb, hn, hnone, rfl⟩ := hcode
    cases hr
    have hrun : (blockStep env f).Moves (p, s) _ _ := (he.run ht.1).moves hsel.moves
    rw [List.append_nil] at hrun
    exact .of_moves hrun (select_found hb hn hk ht.2 (hdflt _) hnone)

/-- Where nothing is left to do, the blocks go to the exit block. -/
theorem Cont.Code.exits (h : k.Code env f label places p) (hk : k = .stop) :
    (blockStep env f).Run (p, s) [] ((f.exit, 0), s) := by
  induction h with
  | stop exit _ _ => exact exit.moves.run
  | jump to_ _ ih => exact to_.moves.run.trans (ih hk)
  | _ => cases hk

/-- A `break` that has a target is in a loop or a switch. -/
theorem Cont.Code.afterBreak_isSome (h : k.Code env f label places p)
    (hne : places.breakBlock ≠ 0) : k.afterBreak.isSome := by
  induction h with
  | stop _ hzero _ => exact absurd hzero hne
  | jump _ _ ih => exact ih hne
  | seq _ _ _ ih => exact ih hne
  | _ => rfl

/-- A `continue` that has a target is in a loop. -/
theorem Cont.Code.afterContinue_isSome (h : k.Code env f label places p)
    (hne : places.continueBlock ≠ 0) : k.afterContinue.isSome := by
  induction h with
  | stop _ _ hzero => exact absurd hzero hne
  | jump _ _ ih => exact ih hne
  | seq _ _ _ ih => exact ih hne
  | «switch» _ same _ ih => exact ih (same ▸ hne)
  | _ => rfl

theorem resume_eq_none (h : resume env s k = none) : k = .stop := by
  cases k with
  | stop => rfl
  | doWhile b e k =>
    rw [resume] at h
    split_ifs at h
  | _ => cases h

/-- The function halts only at its end. -/
theorem Holds.halts (h : Holds env f label body start)
    (hcode : stmt.Code env f label places p q) (hk : k.Code env f label places q)
    (hnone : step env body ⟨stmt, k, s⟩ = none) : stmt = .empty ∧ k = .stop := by
  cases stmt with
  | empty => exact ⟨rfl, resume_eq_none hnone⟩
  | goto id =>
    have hfound := h.labels id hcode.1
    rw [Option.map_eq_none_iff.mp hnone] at hfound
    cases hfound
  | «break» =>
    have hafter := hk.afterBreak_isSome hcode.1
    rw [Option.map_eq_none_iff.mp hnone] at hafter
    cases hafter
  | «continue» =>
    have hafter := hk.afterContinue_isSome hcode.1
    rw [Option.map_eq_none_iff.mp hnone] at hafter
    cases hafter
  | «while» e b =>
    rw [step] at hnone
    split_ifs at hnone
  | «for» initial test step b =>
    cases initial with
    | some e => cases hnone
    | none =>
      cases test with
      | none => cases hnone
      | some e =>
        rw [Stmts.step] at hnone
        split_ifs at hnone
  | _ => cases hnone

/-- Nothing is executed in the exit block. -/
theorem Holds.exit_halts (h : Holds env f label body start) :
    blockStep env f ((f.exit, 0), s) = none := by
  have hexit := h.exit
  simp only [Block.core, Prod.mk.injEq] at hexit
  rw [blockStep]
  simp only [hexit.1, List.getElem?_nil, branch, hexit.2.1, hexit.2.2, List.find?_nil,
    Option.map_none]

/-- The blocks that hold a function simulate it. -/
theorem Holds.simulation (h : Holds env f label body start) :
    (step env body).Simulation (blockStep env f) (Matches env f label) Config.size where
  step := by
    rintro ⟨stmt, k, s⟩ c' ⟨p, s'⟩ l ⟨rfl, hm⟩ hs
    rcases hm with ⟨c, q, hcode, hk, ht⟩ | ⟨rfl, rfl, -⟩
    · exact h.follows hcode hk ht hs
    · cases hs
  halt := by
    rintro ⟨stmt, k, s⟩ ⟨p, s'⟩ ⟨rfl, hm⟩ hs
    rcases hm with ⟨c, q, hcode, hk, ht⟩ | ⟨rfl, rfl, rfl⟩
    · obtain ⟨rfl, rfl⟩ := h.halts hcode hk hs
      obtain rfl : p = q := hcode
      exact ⟨_, hk.exits rfl, h.exit_halts, rfl, .inr ⟨rfl, rfl, rfl⟩⟩
    · exact ⟨_, .refl _, h.exit_halts, rfl, .inr ⟨rfl, rfl, rfl⟩⟩

/-- The function starts where its body is found. -/
theorem Holds.starts (h : Holds env f label body start) (s : State) :
    ∃ x, (blockStep env f).Run ((f.entry, 0), s) [] x ∧
      Matches env f label ⟨body, .stop, s⟩ x := by
  obtain ⟨q, hcode, hexit⟩ := h.code
  exact ⟨_, h.entry.moves.run, rfl, .inl ⟨{}, q, hcode, .stop hexit rfl rfl, h.typed⟩⟩

end

end Ncc.Stmts
