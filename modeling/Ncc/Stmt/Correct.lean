import Ncc.Stmt.LowerSwitch

/-! The blocks that the parser makes of a function do what the function does. -/

namespace Ncc.Stmts

section
variable {env : Env} {p q : Parser}

/-- The code of every statement is made. -/
theorem statement_lowers (s : Stmt) : ∀ {p q : Parser}, p.Inv → statement s p = .ok q →
    Lowers env s p q := by
  induction s with
  | empty =>
    intro p q hp h
    cases h
    exact empty_lowers hp
  | seq s t ihs iht =>
    intro p q hp h
    obtain ⟨m, hm, h⟩ := bind_ok.mp h
    have hs := ihs hp hm
    exact seq_lowers hs (iht hs.inv h)
  | expr e =>
    intro p q hp h
    cases h
    have hgen := gen_lowers e hp
    exact hgen.reads.lowers rfl rfl trivial hgen.break_ hgen.continue_ fun hcode _ => hcode
  | asm insn =>
    intro p q hp h
    cases h
    exact (reads_emit hp [insn]).lowers rfl rfl trivial rfl rfl fun hat _ => hat
  | labelled k s ih =>
    intro p q hp h
    obtain ⟨m, hm, h⟩ := bind_ok.mp h
    have hinv : m.Inv := by
      cases k with
      | label id => exact (mark_label_lowers hp hm).inv
      | case i => exact (mark_case_lowers hp hm).inv
      | default => exact (mark_default_lowers hp hm).inv
    exact labelled_lowers hp hm (ih hinv h)
  | goto id =>
    intro p q hp h
    cases h
    exact goto_lowers hp id
  | «break» => exact fun hp h => break_lowers hp h
  | «continue» => exact fun hp h => continue_lowers hp h
  | «return» e =>
    intro p q hp h
    cases h
    exact return_lowers hp e
  | ifElse e s t ihs iht => exact fun hp h => if_lowers hp ihs iht h
  | «while» e s ih => exact fun hp h => while_lowers hp ih h
  | doWhile s e ih => exact fun hp h => do_lowers hp ih h
  | «for» initial test step s ih => exact fun hp h => for_lowers hp ih h
  | «switch» e s ih => exact fun hp h => switch_lowers hp ih h

theorem core_funcNew {n : Nat} {b : BlockId} (hb : b ≠ n + 1) :
    ((funcNew n).func.block b).core = untouched := by
  show ((blockAddSuccessor _ (n + 1) .always (n + 2)).block b).core = _
  rw [core_addSuccessor_ne hb]
  rfl

/-- The parser knows nothing when the body of a function begins. -/
theorem inv_funcNew (n : Nat) : (funcNew n).Inv := by
  refine ⟨fun b hb => core_funcNew ?_, ?_, ?_, ?_, ?_, Nat.zero_le _, fun h => absurd rfl h⟩
  · exact Nat.ne_of_gt (Nat.lt_of_le_of_lt (Nat.le_add_right _ 2) hb)
  · exact ⟨Nat.succ_ne_zero _, Nat.le_succ _, [], core_funcNew (Nat.succ_ne_self _)⟩
  · rintro b (⟨x, hx, -⟩ | ⟨h, -⟩)
    · cases hx
    · exact absurd rfl h
  · intro x hx
    cases hx
  · intro x hx
    cases hx

/-- The exit block is left alone. -/
theorem held_exit (n : Nat) : (funcNew n).Held (funcNew n).func.exit where
  ne_zero := Nat.succ_ne_zero _
  le := Nat.le_refl _
  core := core_funcNew (Nat.ne_of_gt (Nat.le_succ _))
  current := Nat.succ_ne_self _
  labels x hx := by cases hx
  dflt := Nat.succ_ne_zero _

/-- The labels that the parser knows in the end. -/
def labelOf (p : Parser) (id : String) : BlockId :=
  ((p.labels.find? fun x => x.id == id).map Label.to_).getD 0

theorem labelOf_eq (hp : p.Inv) {x : Label} (hx : x ∈ p.labels) : labelOf p x.id = x.to_ := by
  rw [labelOf]
  cases hfind : p.labels.find? fun y => y.id == x.id with
  | none => exact absurd (beq_self_eq_true _) (List.find?_eq_none.mp hfind x hx)
  | some y =>
    have hid : y.id = x.id := by simpa using List.find?_some hfind
    rw [hp.distinct y (List.mem_of_find?_eq_some hfind) x hx (.inl hid)]
    rfl

theorem exists_of_labelOf {id : String} (h : labelOf p id ≠ 0) : ∃ x ∈ p.labels, x.id = id := by
  rw [labelOf] at h
  cases hfind : p.labels.find? fun y => y.id == id with
  | none =>
    rw [hfind] at h
    exact absurd rfl h
  | some x => exact ⟨x, List.mem_of_find?_eq_some hfind, by simpa using List.find?_some hfind⟩

theorem symbolCheckLabels_ok {u : Unit} (h : symbolCheckLabels p = .ok u) :
    ∀ x ∈ p.labels, x.defined = true := by
  intro x hx
  unfold symbolCheckLabels at h
  cases hnone : p.labels.find? fun x => !x.defined with
  | some y =>
    rw [hnone] at h
    cases h
  | none => simpa using List.find?_eq_none.mp hnone x hx

/-- No label is gone to that is not in the function. -/
theorem Lowers.found {n : Nat} {body : Stmt} {u : Unit} (h : Lowers env body (funcNew n) p)
    (hcheck : symbolCheckLabels p = .ok u) {id : String} (hid : labelOf p id ≠ 0) :
    (find (.label id) body .stop).isSome := by
  obtain ⟨x, hx, hxid⟩ := exists_of_labelOf hid
  have hdef := symbolCheckLabels_ok hcheck x hx
  rcases h.makes.defines id ⟨x, hx, hxid, hdef⟩ with ⟨y, hy, -⟩ | hfound
  · cases hy
  · exact hfound _

theorem point_funcNew (n : Nat) : (funcNew n).point = (n + 2, 0) := by
  have hinsns : ((funcNew n).func.block (n + 2)).insns = [] :=
    congrArg (fun core => core.1) (core_funcNew (Nat.succ_ne_self _))
  show (n + 2, ((funcNew n).func.block (n + 2)).insns.length) = _
  rw [hinsns]
  rfl

/-- The entry block goes to the block in which the body begins. -/
theorem core_entry (n : Nat) : ((funcNew n).func.block (n + 1)).core =
    ([] ++ [], none, [⟨.always, n + 2, 0, 0⟩]) := by
  show ((blockAddSuccessor _ (n + 1) .always (n + 2)).block (n + 1)).core = _
  exact core_addSuccessor rfl .always (n + 2) 0 0

/-- Every `break` is in a loop or a switch or `b`, every `continue` is in a loop or `c`, and the
    labels that statements go to are `ok`. -/
def Stmt.Legal (ok : String → Prop) : Stmt → (b c : Prop) → Prop
  | .break, b, _ => b
  | .continue, _, c => c
  | .goto id, _, _ => ok id
  | .seq s t, b, c | .ifElse _ s t, b, c => s.Legal ok b c ∧ t.Legal ok b c
  | .labelled _ s, b, c => s.Legal ok b c
  | .while _ s, _, _ | .doWhile s _, _, _ | .for _ _ _ s, _, _ => s.Legal ok True True
  | .switch _ s, _, c => s.Legal ok True c
  | _, _, _ => True

/-- Statements that are found have places to go to. -/
theorem Stmt.Code.legal {f : Func} {label : String → BlockId} {ok : String → Prop}
    (hok : ∀ id, label id ≠ 0 → ok id) {s : Stmt} : ∀ {c : Places} {p q : Point} {b d : Prop},
    s.Code env f label c p q → (c.breakBlock ≠ 0 → b) → (c.continueBlock ≠ 0 → d) →
    s.Legal ok b d := by
  induction s with
  | «break» => exact fun h hb _ => hb h.1
  | «continue» => exact fun h _ hd => hd h.1
  | goto id => exact fun h _ _ => hok id h.1
  | seq s t ihs iht =>
    rintro c p q b d ⟨m, hs, ht⟩ hb hd
    exact ⟨ihs hs hb hd, iht ht hb hd⟩
  | ifElse e s t ihs iht =>
    rintro c p q b d ⟨tb, eb, m, n, join, -, hs, -, ht, -⟩ hb hd
    exact ⟨ihs hs hb hd, iht ht hb hd⟩
  | labelled k s ih => exact fun h hb hd => ih h.2 hb hd
  | «while» e s ih =>
    rintro c p q b d ⟨test, body, brk, m, -, -, hs, -⟩ - -
    exact ih hs (fun _ => trivial) fun _ => trivial
  | doWhile s e ih =>
    rintro c p q b d ⟨body, cont, brk, m, -, hs, -⟩ - -
    exact ih hs (fun _ => trivial) fun _ => trivial
  | «for» initial test step s ih =>
    rintro c p q b d ⟨tst, body, cont, brk, i, m, n, -, -, -, hs, -⟩ - -
    exact ih hs (fun _ => trivial) fun _ => trivial
  | «switch» e s ih =>
    rintro c p q b d ⟨m, body, brk, dflt, target, n, -, -, -, hs, -⟩ - hd
    exact ih hs (fun _ => trivial) hd
  | _ => exact fun _ _ _ => trivial

/-- The blocks that the parser makes hold the body of the function. -/
theorem functionDefinition_found (env : Env) {n : Nat} {body : Stmt} {f : Func}
    (h : functionDefinition n body = .ok f) : ∃ label start, (body.Typed →
      Holds env f label body start) ∧ (∃ p q, body.Code env f label {} p q) ∧
      (∀ id, label id ≠ 0 → (find (.label id) body .stop).isSome) ∧
      body.cases = [] ∧ body.hasDefault = false ∧ body.Distinct := by
  obtain ⟨p, hp, h⟩ := bind_ok.mp h
  obtain ⟨_, hcheck, h⟩ := bind_ok.mp h
  cases h
  have hL : Lowers env body (funcNew n) p := statement_lowers body (inv_funcNew n) hp
  have hend : Ended [] [⟨.always, p.func.exit, 0, 0⟩] p (p.add p.current .always p.func.exit) :=
    hL.inv.ended_add rfl rfl rfl rfl rfl
  have hK : Keeps (fun b => b = 0) p.func (p.add p.current .always p.func.exit).func :=
    hend.touch.keeps
  have hA : (funcNew n).Apart fun b => b = 0 := ⟨rfl, fun b hb hne => absurd hb hne⟩
  have hzero : p.switchBlock = 0 := hL.makes.switchBlock
  have hfits : Fits {} p := ⟨hL.break_.symm, hL.continue_.symm, hL.makes.defaultBlock.symm,
    fun hs => absurd hzero hs⟩
  have hknown : Known (fun b => b = 0) (p.add p.current .always p.func.exit).func (labelOf p) {} p :=
    ⟨hK, rfl, fun id b hk => by
      obtain ⟨x, hx, rfl, rfl⟩ := hk
      exact labelOf_eq hL.inv hx, hfits⟩
  have hcode := hL.code hA hknown
  rw [point_funcNew] at hcode
  have hlabels : ∀ id, labelOf p id ≠ 0 → (find (.label id) body .stop).isSome :=
    fun _ hid => hL.found hcheck hid
  refine ⟨labelOf p, n + 2, fun ht => ⟨?_, ⟨p.point, hcode, ?_⟩, ?_, hlabels, ht⟩, ⟨_, _, hcode⟩,
    hlabels, (hL.makes.outside rfl).2, (hL.makes.outside rfl).1, hL.distinct⟩
  · have hentry : (p.add p.current .always p.func.exit).func.entry = n + 1 := hL.makes.entry
    have hzero' : ¬ n + 1 = 0 := Nat.succ_ne_zero n
    obtain ⟨_, ⟨rfl, -⟩, hjump⟩ := closes_of_core [] (core_entry n) (List.cons_ne_nil _ _)
      (hL.makes.keeps_to hA hK) hzero'
    rw [hentry]
    exact hjump
  · exact hend.jumps (A := fun b => b = 0) .refl hL.inv.current.1
  · have hheld : p.Held p.func.exit := hL.makes.exit ▸ hL.held (held_exit n)
    exact (hend.touch.others _ hheld.current).trans hheld.core

/-- `while (1) { switch (1) { case 1: break; default: continue; } x: if (1 && 1) goto x; }` -/
def sample : Stmt :=
  .while one (.seq (.switch one (.seq (.labelled (.case 1) .break) (.labelled .default .continue)))
    (.labelled (.label "x") (.ifElse (.log false temp one one) (.goto "x") .empty)))
where
  one : Expr := .leaf (some (operandI .int 1 none))
  temp : Operand := operandI .int 0 none

theorem typed_sample : sample.Typed :=
  ⟨⟨trivial, rfl⟩, ⟨trivial, trivial, trivial⟩, ⟨⟨trivial, trivial, rfl, rfl⟩, rfl⟩, trivial,
    trivial⟩

theorem accepts_sample : ∃ f, functionDefinition 0 sample = .ok f := ⟨_, rfl⟩

/-- What the statement functions accept is well formed: no `break`, `continue`, `case` or `default`
    stands outside the statements it is for, no two cases of a switch are the same, and every
    label that is gone to is in the function. -/
theorem functionDefinition_legal {n : Nat} {body : Stmt} {f : Func}
    (h : functionDefinition n body = .ok f) :
    body.Legal (fun id => (find (.label id) body .stop).isSome) False False ∧
      body.cases = [] ∧ body.hasDefault = false ∧ body.Distinct := by
  obtain ⟨label, start, -, ⟨p, q, hcode⟩, hlabels, hcases, hdflt, hdistinct⟩ :=
    functionDefinition_found default h
  have hlegal := Stmt.Code.legal hlabels hcode (fun hb => hb rfl) fun hd => hd rfl
  exact ⟨hlegal, hcases, hdflt, hdistinct⟩

theorem functionDefinition_legal_sample :
    sample.Legal (fun id => (find (.label id) sample .stop).isSome) False False ∧
      sample.cases = [] ∧ sample.hasDefault = false ∧ sample.Distinct := by
  obtain ⟨f, hf⟩ := accepts_sample
  exact functionDefinition_legal hf

/-- The blocks of a function show what its body shows: the same insns are executed in the same
    order, as far as one looks, also when there is no end to it. -/
theorem functionDefinition_shows_iff {n : Nat} {body : Stmt} {f : Func}
    (h : functionDefinition n body = .ok f) (ht : body.Typed) (env : Env) (s : State)
    (l : List Insn) : (step env body).Shows ⟨body, .stop, s⟩ l ↔
      (blockStep env f).Shows ((f.entry, 0), s) l := by
  obtain ⟨label, start, hf, -⟩ := functionDefinition_found env h
  have hf := hf ht
  obtain ⟨x, hrun, hmatch⟩ := hf.starts s
  rw [hrun.shows_iff]
  exact hf.simulation.shows_iff hmatch l

theorem functionDefinition_shows_iff_sample : ∃ f, functionDefinition 0 sample = .ok f ∧
    ∀ env s l, (step env sample).Shows ⟨sample, .stop, s⟩ l ↔
      (blockStep env f).Shows ((f.entry, 0), s) l := by
  obtain ⟨f, hf⟩ := accepts_sample
  exact ⟨f, hf, functionDefinition_shows_iff hf typed_sample⟩

/-- Blocks that have halted are at the exit block. -/
theorem Holds.at_exit {f : Func} {label : String → BlockId} {body : Stmt} {start : BlockId}
    {c : Config} {x : Point × State} (h : Holds env f label body start)
    (hm : Matches env f label c x) (hc : step env body c = none)
    (hx : blockStep env f x = none) : x = ((f.exit, 0), c.state) := by
  obtain ⟨stmt, k, s⟩ := c
  obtain ⟨p, s'⟩ := x
  obtain ⟨rfl, ⟨c, q, hcode, hk, -⟩ | ⟨rfl, rfl, rfl⟩⟩ := hm
  · obtain ⟨rfl, rfl⟩ := h.halts hcode hk hc
    obtain rfl : p = q := hcode
    obtain ⟨n, hexit⟩ := hk.exits (s := s') rfl
    exact (hexit.of_halted hx).2.symm
  · rfl

/-- The blocks of a function come to the exit block, and only there do they halt, with the state
    and after the insns with which the body ends. -/
theorem functionDefinition_ends_iff {n : Nat} {body : Stmt} {f : Func}
    (h : functionDefinition n body = .ok f) (ht : body.Typed) (env : Env) (s : State)
    (l : List Insn) (x : Point × State) : (blockStep env f).Ends ((f.entry, 0), s) l x ↔
      x.1 = (f.exit, 0) ∧ ∃ c, (step env body).Ends ⟨body, .stop, s⟩ l c ∧ c.state = x.2 := by
  obtain ⟨label, start, hf, -⟩ := functionDefinition_found env h
  have hf := hf ht
  obtain ⟨y, hrun, hmatch⟩ := hf.starts s
  constructor
  · intro hends
    obtain ⟨c, hc, hm⟩ := hf.simulation.ends_back hmatch (hends.of_run hrun)
    have hx := hf.at_exit hm hc.2 hends.2
    rw [hx]
    exact ⟨rfl, c, hc, rfl⟩
  · rintro ⟨hexit, c, hc, hs⟩
    obtain ⟨x', hx', hm⟩ := hf.simulation.ends hmatch hc
    have hat := hf.at_exit hm hc.2 hx'.2
    have hx : x' = x := by
      rw [hat, hs, ← hexit]
    exact hx ▸ hx'.after hrun

theorem functionDefinition_ends_iff_sample : ∃ f, functionDefinition 0 sample = .ok f ∧
    ∀ env s l x, (blockStep env f).Ends ((f.entry, 0), s) l x ↔
      x.1 = (f.exit, 0) ∧ ∃ c, (step env sample).Ends ⟨sample, .stop, s⟩ l c ∧ c.state = x.2 := by
  obtain ⟨f, hf⟩ := accepts_sample
  exact ⟨f, hf, functionDefinition_ends_iff hf typed_sample⟩

end

end Ncc.Stmts
