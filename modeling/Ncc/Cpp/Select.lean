import Ncc.Cpp.Directive

/-! Conditional inclusion selects the right lines (cpp/directive.c).

    What should happen is defined on nested groups, without a stack: `Group.select` selects in each
    conditional the first group whose condition is true. The induction on the nesting carries that
    the flags on top of the stack say whether the current group is selected; it breaks at an #elif
    after the selected group, which leaves them as they are, and at #include and #line, which do not
    look at them. -/

namespace Ncc.Cpp

section
variable (o : Outside)

/-! ### Nested groups -/

/-- Directives that open a conditional. -/
def Directive.opens : Directive → Bool
  | .if_ | .ifdef | .ifndef => true
  | _ => false

/-- Directives that delimit the groups of a conditional. -/
def Directive.delimits : Directive → Bool
  | .if_ | .ifdef | .ifndef | .elif | .else_ | .endif => true
  | _ => false

mutual

/-- A properly nested sequence of lines: lines that delimit no group, and conditionals. -/
inductive Group where
  | nil
  | line (l : Line) (rest : Group)
  | cond (i : Line) (body : Group) (tail : Tail) (rest : Group)

/-- What follows the first group of a conditional. -/
inductive Tail where
  | endif (l : Line)
  | else_ (l : Line) (body : Group) (e : Line)
  | elif (l : Line) (body : Group) (tail : Tail)

end

mutual

/-- The lines in order. -/
def Group.lines : Group → List Line
  | .nil => []
  | .line l rest => l :: rest.lines
  | .cond i body tail rest => i :: (body.lines ++ (tail.lines ++ rest.lines))

/-- The lines in order. -/
def Tail.lines : Tail → List Line
  | .endif l => [l]
  | .else_ l body e => l :: (body.lines ++ [e])
  | .elif l body tail => l :: (body.lines ++ tail.lines)

end

/-- The line delimits no group. -/
def Line.isPlain (l : Line) : Bool :=
  match directiveOf l.tokens with
  | some (d, _) => !d.delimits
  | none => true

/-- The line opens a conditional, and #ifdef and #ifndef name just an identifier. -/
def Line.isOpening (l : Line) : Bool :=
  match directiveOf l.tokens with
  | some (.if_, _) => true
  | some (.ifdef, [t]) | some (.ifndef, [t]) => t.cls == .ident
  | _ => false

/-- The line is an #elif with a condition. -/
def Line.isElif (l : Line) : Bool :=
  match directiveOf l.tokens with
  | some (.elif, _ :: _) => true
  | _ => false

/-- The line is the given directive and nothing else. -/
def Line.isJust (l : Line) (d : Directive) : Bool := directiveOf l.tokens = some (d, [])

mutual

/-- Every delimiter is a well-formed directive of its kind. -/
def Group.wellFormed : Group → Bool
  | .nil => true
  | .line l rest => l.isPlain && rest.wellFormed
  | .cond i body tail rest =>
    i.isOpening && body.wellFormed && tail.wellFormed && rest.wellFormed

/-- Every delimiter is a well-formed directive of its kind. -/
def Tail.wellFormed : Tail → Bool
  | .endif l => l.isJust .endif
  | .else_ l body e => l.isJust .else_ && body.wellFormed && e.isJust .endif
  | .elif l body tail => l.isElif && body.wellFormed && tail.wellFormed

end

/-- What a line has to do with the conditionals around it. -/
inductive Role where
  /-- It lies in a group, which is selected or not. -/
  | member (selected : Bool)
  /-- It delimits a group; the flag tells of an #elif that the group before it was selected. -/
  | delimiter (afterTaken : Bool)
  deriving DecidableEq, Repr

/-- What should happen at one line: the world that the line meets, and what it leaves. -/
structure Event where
  line : Line
  role : Role
  world : World
  after : World
  out : List Token

/-- What is left after the line. -/
def Event.entry (e : Event) : Except String Entry := .ok (e.after, e.out)

/-- A line that delimits a group changes nothing and is not copied. -/
def delimiter (l : Line) (w : World) (afterTaken : Bool) : Event :=
  ⟨l, .delimiter afterTaken, w, w, []⟩

/-- A line that is not selected has no effect. A selected line of text is copied, and a selected
    directive does what it does outside of any conditional. -/
def member (selected : Bool) (w : World) (l : Line) : Except String Event :=
  match selected, directiveOf l.tokens with
  | false, _ => .ok ⟨l, .member false, w, w, []⟩
  | true, none => .ok ⟨l, .member true, w, w, l.tokens⟩
  | true, some _ => do
    let (w', _, out) ← directive o w [] l.tokens
    return ⟨l, .member true, w, w', out⟩

/-- The outcome of a condition that has to be a whole expression. -/
def whole (r : Except String (Bool × List Token)) : Except String Bool := do
  let (cond, l) ← r
  if l.isEmpty then return cond else throw "trailing garbage after directive"

/-- The outcome of the condition on a line, which only matters where groups are open. -/
def outcome (isOpen : Bool) (w : World) (l : Line) : Except String Bool :=
  match isOpen, directiveOf l.tokens with
  | false, _ | _, none => .ok false
  | true, some (.ifdef, l) => whole (isDefined w l)
  | true, some (.ifndef, l) => (whole (isDefined w l)).map not
  | true, some (_, l) => whole (o.evaluate w l)

mutual

/-- What should happen to a nested sequence of lines, given whether the group around it is selected:
    of each conditional in a selected group the first group whose condition is true is selected, and
    the #else group if none is. The world at the end, and the events in order. -/
def Group.select (selected : Bool) (w : World) : Group → Except String (World × List Event)
  | .nil => .ok (w, [])
  | .line l rest => do
    let e ← member o selected (deliver w l) l
    let (w, es) ← rest.select selected e.after
    return (w, e :: es)
  | .cond i body tail rest => do
    let w := deliver w i
    let cond ← outcome o selected w i
    let (w₁, es₁) ← body.select (selected && cond) w
    let (w₂, es₂) ← tail.select (selected && cond) (selected && !cond) w₁
    let (w₃, es₃) ← rest.select selected w₂
    return (w₃, delimiter i w false :: (es₁ ++ (es₂ ++ es₃)))

/-- The rest of a conditional: whether the group before was selected, and whether the group around
    the conditional is selected and no group of the conditional has been so far. -/
def Tail.select (taken isOpen : Bool) (w : World) : Tail → Except String (World × List Event)
  | .endif l => .ok (deliver w l, [delimiter l (deliver w l) false])
  | .else_ l body e => do
    let w := deliver w l
    let (w₁, es) ← body.select isOpen w
    return (deliver w₁ e, delimiter l w false :: (es ++ [delimiter e (deliver w₁ e) false]))
  | .elif l body tail => do
    let w := deliver w l
    let cond ← outcome o isOpen w l
    let (w₁, es₁) ← body.select (isOpen && cond) w
    let (w₂, es₂) ← tail.select (isOpen && cond) (isOpen && !cond) w₁
    return (w₂, delimiter l w taken :: (es₁ ++ es₂))

end

/-- A #line directive that names the line and the path that are current already. -/
def LineCurrent (w : World) (list : List Token) : Prop :=
  ∃ t rest n, listStripAll list = t :: rest ∧ t.cls = .number ∧ tokenConvertNumber t = .ok n ∧
    (n.i - 1).setWidth 32 = w.input.lineNo ∧ w.needSync = true ∧
    (rest = [] ∨ ∃ p rest', rest = p :: rest' ∧ p.cls = .string ∧ p.text = w.input.path)

/-- What `directive` can take without harm in a group that is not selected: anything but #include,
    and #line only where it names what is current. -/
def Idle (w : World) (l : Line) : Prop :=
  match directiveOf l.tokens with
  | some (.include_, _) => False
  | some (.line, list) => LineCurrent w list
  | _ => True

/-- The line is none that `directive` gets wrong: no #include or #line in a group that is not
    selected, and no #elif after the group that is. -/
def Event.Clean (e : Event) : Prop :=
  match e.role with
  | .member selected => selected = true ∨ Idle e.world e.line
  | .delimiter afterTaken => afterTaken = false


/-! ### One line -/

theorem isOpening_cases {l : Line} (h : l.isOpening) :
    (∃ list, directiveOf l.tokens = some (.if_, list)) ∨
    (∃ t, t.cls = .ident ∧ directiveOf l.tokens = some (.ifdef, [t])) ∨
    (∃ t, t.cls = .ident ∧ directiveOf l.tokens = some (.ifndef, [t])) := by
  rw [Line.isOpening] at h
  split at h
  · next list hd => exact .inl ⟨list, hd⟩
  · next t hd => exact .inr (.inl ⟨t, eq_of_beq h, hd⟩)
  · next t hd => exact .inr (.inr ⟨t, eq_of_beq h, hd⟩)
  · cases h

theorem isElif_cases {l : Line} (h : l.isElif) :
    ∃ t list, directiveOf l.tokens = some (.elif, t :: list) := by
  rw [Line.isElif] at h
  split at h
  · next t list hd => exact ⟨t, list, hd⟩
  · cases h

theorem isJust_iff {l : Line} {d : Directive} :
    l.isJust d = true ↔ directiveOf l.tokens = some (d, []) := decide_eq_true_iff

theorem whole_ok {r : Except String (Bool × List Token)} {b : Bool} (h : whole r = .ok b) :
    r = .ok (b, []) := by
  obtain m | ⟨c, l⟩ := r
  · cases h
  · cases l with
    | nil => cases h; rfl
    | cons t l => cases h

@[simp] theorem copying_nil : copying [] = true := rfl

@[simp] theorem copying_cons (st : State) (below : List State) :
    copying (st :: below) = st.copying := rfl

/-- `directive` once the directive on the line is known. -/
theorem directive_eq_ok {w w' : World} {stack stack' : List State} {list l out : List Token}
    {d : Directive} (h : directiveOf list = some (d, l)) (hp : d ≠ .pragma) :
    directive o w stack list = .ok (w', stack', out) ↔
      ∃ l', execute o w stack l d = .ok (w', stack', l') ∧
        (copying stack' = true → l' = []) ∧ out = [] := by
  have hd : directive o w stack list = execute o w stack l d >>= fun r =>
      if copying r.2.1 then
        if r.2.2.isEmpty then .ok (r.1, r.2.1, []) else .error "trailing garbage after directive"
      else .ok (r.1, r.2.1, []) := by
    rw [directive, h]
    cases d <;> first | exact absurd rfl hp | rfl
  rw [hd, bind_ok]
  constructor
  · rintro ⟨⟨w₁, stack₁, l₁⟩, hr, hif⟩
    dsimp only at hif
    split at hif
    · split at hif
      · next hl => cases hif; exact ⟨l₁, hr, fun _ => by simpa using hl, rfl⟩
      · cases hif
    · next hc => cases hif; exact ⟨l₁, hr, fun h => absurd h hc, rfl⟩
  · rintro ⟨l', hr, hl, rfl⟩
    refine ⟨_, hr, ?_⟩
    cases hc : copying stack' with
    | true => simp [hl hc]
    | false => simp

/-- A directive that delimits no group leaves the stack alone, and the stack only tells it whether
    the line is copied. -/
theorem execute_plain {d : Directive} (h : d.delimits = false) {stack : List State}
    (hc : copying stack = true) (w : World) (l : List Token) :
    execute o w stack l d = (execute o w [] l d).map fun r => (r.1, stack, r.2.2) := by
  cases d <;> cases h <;> simp only [execute, hc, copying_nil, if_true]
  all_goals
    first
      | rfl
      | (generalize macroDefine _ _ = r; cases r <;> rfl)
      | (generalize macroUndef _ _ = r; cases r <;> rfl)
      | (generalize doError _ = r; cases r <;> rfl)
      | (generalize doInclude _ _ _ = r; cases r <;> rfl)
      | (generalize doLine _ _ = r; cases r <;> rfl)

/-- A plain line in a selected group is treated as outside of any conditional. -/
theorem directive_selected {w : World} {stack : List State} {l : Line} (hc : copying stack = true)
    (hl : l.isPlain) {e : Event} (h : member o true w l = .ok e) :
    directive o w stack l.tokens = .ok (e.after, stack, e.out) := by
  rw [Line.isPlain] at hl
  cases hd : directiveOf l.tokens with
  | none =>
    simp only [member, hd] at h
    cases h
    simp only [directive, hd, hc, if_true]
  | some p =>
    obtain ⟨d, list⟩ := p
    rw [hd] at hl
    have hn : d.delimits = false := by simpa using hl
    simp only [member, hd] at h
    obtain ⟨⟨w', stack', out⟩, hdir, he⟩ := bind_ok.mp h
    cases he
    by_cases hp : d = .pragma
    · subst hp
      simp only [directive, hd, hc, copying_nil, if_true] at hdir ⊢
      cases hdir
      rfl
    · obtain ⟨l', hr, hgarbage, rfl⟩ := (directive_eq_ok o hd hp).mp hdir
      have hst := execute_plain o hn copying_nil w list
      rw [hr] at hst
      cases hst
      refine (directive_eq_ok o hd hp).mpr ⟨l', ?_, fun _ => hgarbage rfl, rfl⟩
      rw [execute_plain o hn hc, hr]
      rfl

theorem inputOpen_below {w w' : World} {path : String} {search : Search}
    (h : inputOpen o w path search = .ok w') : w'.below = w.input :: w.below := by
  rw [inputOpen] at h
  split at h
  · cases h
  · split at h
    · cases h; rfl
    · cases h

/-- An #include that succeeds puts its input on top of the stack. -/
theorem doInclude_below {w w' : World} {list l : List Token}
    (h : doInclude o w list = .ok (w', l)) : w'.below = w.input :: w.below := by
  obtain ⟨list', -, h⟩ := bind_ok.mp h
  cases list' with
  | nil => cases h
  | cons t l' =>
    dsimp only at h
    split at h
    · obtain ⟨w₁, hw, h⟩ := bind_ok.mp h
      cases h
      exact inputOpen_below o hw
    · split at h
      · obtain ⟨p, -, h⟩ := bind_ok.mp h
        obtain ⟨q, -, h⟩ := bind_ok.mp h
        obtain ⟨w₁, hw, h⟩ := bind_ok.mp h
        cases h
        exact inputOpen_below o hw
      · cases h

/-- A #line that names what is current already is the only one without effect. -/
theorem doLine_current {w : World} {list : List Token} :
    (∃ l, doLine w list = .ok (w, l)) ↔ LineCurrent w list := by
  constructor
  · rintro ⟨l, h⟩
    obtain ⟨⟨t, rest⟩, ht, h⟩ := bind_ok.mp h
    obtain ⟨⟨path, rest'⟩, hp, h⟩ := bind_ok.mp h
    obtain ⟨n, hn, h⟩ := bind_ok.mp h
    obtain ⟨hlist, hcls⟩ := listMatch_ok ht
    have hw := congrArg Prod.fst (Except.ok.inj h)
    have hinput : _ = w.input := congrArg World.input hw
    have hsync : true = w.needSync := congrArg World.needSync hw
    refine ⟨t, rest, n, hlist, hcls, hn, congrArg Input.lineNo hinput, hsync.symm, ?_⟩
    rw [linePath] at hp
    cases rest with
    | nil => exact .inl rfl
    | cons p rest'' =>
      right
      obtain ⟨⟨p', r'⟩, hm, hp⟩ := map_ok.mp (hp : ((listMatch _ _).map _) = _)
      obtain ⟨hl, hs⟩ := listMatch_ok hm
      cases hl
      cases hp
      exact ⟨p, rest'', rfl, hs, congrArg Input.path hinput⟩
  · rintro ⟨t, rest, n, hlist, hcls, hn, hno, hsync, hpath⟩
    have ht : listMatch (listStripAll list) .number = .ok (t, rest) := by
      rw [hlist, listMatch, if_pos hcls]
    have hnew : ∀ path : Option Token, (path.map Token.text).getD w.input.path = w.input.path →
        { w with input := ⟨(path.map Token.text).getD w.input.path, (n.i - 1).setWidth 32⟩,
                 needSync := true } = w := by
      intro path hpath
      rw [hpath, hno, ← hsync]
    obtain rfl | ⟨p, rest', rfl, hp, hpp⟩ := hpath
    · refine ⟨[], bind_ok.mpr ⟨_, ht, bind_ok.mpr ⟨(none, []), rfl, bind_ok.mpr ⟨n, hn, ?_⟩⟩⟩⟩
      exact congrArg (fun w' => Except.ok (w', [])) (hnew none rfl)
    · have hm : linePath (p :: rest') = .ok (some p, rest') := by
        simp only [linePath, List.isEmpty_cons, listMatch, if_pos hp]
        rfl
      refine ⟨rest', bind_ok.mpr ⟨_, ht, bind_ok.mpr ⟨_, hm, bind_ok.mpr ⟨n, hn, ?_⟩⟩⟩⟩
      exact congrArg (fun w' => Except.ok (w', rest')) (hnew (some p) hpp)

theorem execute_stack {d : Directive} (h : d.delimits = false) {w w' : World}
    {stack stack' : List State} {l l' : List Token}
    (hr : execute o w stack l d = .ok (w', stack', l')) : stack' = stack := by
  cases d <;> cases h <;> simp only [execute] at hr
  all_goals
    try split at hr
    all_goals
      first
        | (cases hr <;> rfl)
        | (obtain ⟨r, -, hr⟩ := map_ok.mp hr; cases hr; rfl)

/-- A line that delimits no group leaves the stack alone. -/
theorem directive_stack {w w' : World} {stack stack' : List State} {l : Line} {out : List Token}
    (hl : l.isPlain) (h : directive o w stack l.tokens = .ok (w', stack', out)) :
    stack' = stack := by
  rw [Line.isPlain] at hl
  cases hd : directiveOf l.tokens with
  | none => simp only [directive, hd] at h; cases h; rfl
  | some p =>
    obtain ⟨d, list⟩ := p
    rw [hd] at hl
    have hn : d.delimits = false := by simpa using hl
    by_cases hp : d = .pragma
    · subst hp
      simp only [directive, hd] at h
      cases h
      rfl
    · obtain ⟨l', hr, -⟩ := (directive_eq_ok o hd hp).mp h
      exact execute_stack o hn hr

/-- A plain line in a group that is skipped has no effect, unless it is #include or #line. -/
theorem directive_skipped {w : World} {stack : List State} {l : Line} (hc : copying stack = false)
    (hl : l.isPlain) : directive o w stack l.tokens = .ok (w, stack, []) ↔ Idle w l := by
  rw [Line.isPlain] at hl
  cases hd : directiveOf l.tokens with
  | none => simp only [directive, Idle, hd, hc, Bool.false_eq_true, if_false]
  | some p =>
    obtain ⟨d, list⟩ := p
    rw [hd] at hl
    have hn : d.delimits = false := by simpa using hl
    by_cases hp : d = .pragma
    · subst hp
      simp only [directive, Idle, hd, hc, Bool.false_eq_true, if_false]
    rw [directive_eq_ok o hd hp]
    simp only [hc, Bool.false_eq_true, false_imp_iff, and_true, Idle, hd]
    cases d with
    | include_ =>
      rw [iff_false]
      rintro ⟨l', h⟩
      obtain ⟨⟨w', l''⟩, hr, h⟩ := map_ok.mp h
      cases h
      have := congrArg List.length (doInclude_below o hr)
      exact absurd this (by simp)
    | line =>
      change _ ↔ LineCurrent w list
      rw [← doLine_current]
      constructor
      · rintro ⟨l', h⟩
        obtain ⟨⟨w', l''⟩, hr, h⟩ := map_ok.mp h
        cases h
        exact ⟨_, hr⟩
      · rintro ⟨r, h⟩
        exact ⟨r, by simp only [execute, h, Except.map]⟩
    | pragma => exact absurd rfl hp
    | if_ | ifdef | ifndef | elif | else_ | endif => cases hn
    | define | undef | unknown | error | empty =>
      simp only [execute, hc, Bool.false_eq_true, if_false]
      exact ⟨fun _ => trivial, fun _ => ⟨_, rfl⟩⟩

/-- The flags on top of the stack between two groups of a conditional: whether the group before was
    selected, and whether one may still be. -/
def between (taken isOpen : Bool) : State := ⟨taken, !isOpen, false⟩

/-- An opening directive pushes the flags for its group. -/
theorem directive_opening {w : World} {stack : List State} {l : Line} {cond : Bool}
    (hl : l.isOpening) (h : outcome o (copying stack) w l = .ok cond) :
    directive o w stack l.tokens =
      .ok (w, between (copying stack && cond) (copying stack && !cond) :: stack, []) := by
  have hpush : ∀ c, (copying stack = true → c = cond) →
      statePush stack c = between (copying stack && cond) (copying stack && !cond) :: stack := by
    intro c hcc
    rw [statePush]
    cases hc : copying stack with
    | false => rfl
    | true => rw [hcc hc]; cases cond <;> rfl
  obtain ⟨list, hd⟩ | ⟨t, ht, hd⟩ | ⟨t, ht, hd⟩ := isOpening_cases hl
  · rw [directive_eq_ok o hd (by decide)]
    cases hc : copying stack with
    | false =>
      rw [hc] at hpush
      refine ⟨list, ?_, by simp [between], rfl⟩
      simp only [execute, doIf, hc, Bool.false_eq_true, if_false]
      rw [hpush false (by simp)]
      rfl
    | true =>
      rw [hc] at h hpush
      simp only [outcome, hd] at h
      refine ⟨[], ?_, fun _ => rfl, rfl⟩
      simp only [execute, doIf, hc, if_true, whole_ok h, bind, Except.bind]
      rw [hpush cond (fun _ => rfl)]
      rfl
  all_goals
    obtain ⟨b, hb⟩ : ∃ b, isDefined w [t] = .ok (b, []) :=
      ⟨_, by simp only [isDefined, listMatch, if_pos ht]; rfl⟩
    rw [directive_eq_ok o hd (by decide)]
    refine ⟨[], ?_, fun _ => rfl, rfl⟩
    simp only [execute, hb, Except.map]
    rw [hpush]
    intro hc
    rw [hc] at h
    simp only [outcome, hd, hb] at h
    cases h
    rfl

/-- An #elif after a group that was not selected sets the flags for its group. -/
theorem directive_elif {w : World} {stack : List State} {l : Line} {isOpen cond : Bool}
    (hl : l.isElif) (h : outcome o isOpen w l = .ok cond) :
    directive o w (between false isOpen :: stack) l.tokens =
      .ok (w, between (isOpen && cond) (isOpen && !cond) :: stack, []) := by
  obtain ⟨t, list, hd⟩ := isElif_cases hl
  rw [directive_eq_ok o hd (by decide)]
  cases isOpen with
  | false => exact ⟨t :: list, rfl, by simp [between], rfl⟩
  | true =>
    simp only [outcome, hd] at h
    refine ⟨[], ?_, fun _ => rfl, rfl⟩
    simp only [execute, doElif, between, whole_ok h, bind, Except.bind, Except.map]
    cases cond <;> rfl

/-- An #elif after the group that was selected is an error: the group is still being copied, and
    its condition is taken for trailing garbage. -/
theorem directive_elif_taken {w : World} {stack : List State} {l : Line} (hl : l.isElif)
    (r : World × List State × List Token) :
    directive o w (between true false :: stack) l.tokens ≠ .ok r := by
  obtain ⟨t, list, hd⟩ := isElif_cases hl
  obtain ⟨w', stack', out⟩ := r
  rw [Ne, directive_eq_ok o hd (by decide)]
  rintro ⟨l', hr, hl', -⟩
  cases hr
  cases hl' rfl

/-- #else selects its group when none has been. -/
theorem directive_else {w : World} {stack : List State} {l : Line} {taken isOpen : Bool}
    (hl : l.isJust .else_) :
    directive o w (between taken isOpen :: stack) l.tokens =
      .ok (w, ⟨isOpen, !isOpen, true⟩ :: stack, []) := by
  rw [directive_eq_ok o (isJust_iff.mp hl) (by decide)]
  exact ⟨[], by simp [execute, doElse, between, Except.map], fun _ => rfl, rfl⟩

/-- #endif pops the flags. -/
theorem directive_endif {w : World} {st : State} {stack : List State} {l : Line}
    (hl : l.isJust .endif) : directive o w (st :: stack) l.tokens = .ok (w, stack, []) := by
  rw [directive_eq_ok o (isJust_iff.mp hl) (by decide)]
  exact ⟨[], rfl, fun _ => rfl, rfl⟩

/-! ### Runs -/

/-- The results of a run are the expected ones as long as the lines are clean, and `rest` after
    them; otherwise they do not begin with the expected ones. -/
def Follows (expected results rest : List (Except String Entry)) (clean : Prop) : Prop :=
  (clean → results = expected ++ rest) ∧ (¬ clean → ¬ expected <+: results)

theorem Follows.nil (r : List (Except String Entry)) {c : Prop} (hc : c) : Follows [] r r c :=
  ⟨fun _ => rfl, fun h => absurd hc h⟩

theorem Follows.append {e₁ e₂ r r₁ r₂ : List (Except String Entry)} {c₁ c₂ : Prop}
    (h₁ : Follows e₁ r r₁ c₁) (h₂ : Follows e₂ r₁ r₂ c₂) :
    Follows (e₁ ++ e₂) r r₂ (c₁ ∧ c₂) := by
  refine ⟨fun ⟨hc₁, hc₂⟩ => ?_, fun hc hp => ?_⟩
  · rw [h₁.1 hc₁, h₂.1 hc₂, List.append_assoc]
  · have hc₁ : c₁ := by
      by_contra hc₁
      exact h₁.2 hc₁ ((List.prefix_append e₁ e₂).trans hp)
    rw [h₁.1 hc₁, List.prefix_append_right_inj] at hp
    exact h₂.2 (fun hc₂ => hc ⟨hc₁, hc₂⟩) hp

theorem Follows.step {e : Event} {w : World} {stack stack' : List State} {ls : List Line}
    (hw : e.world = deliver w e.line)
    (h : e.Clean → directive o e.world stack e.line.tokens = .ok (e.after, stack', e.out))
    (hn : ¬ e.Clean → ∀ st, directive o e.world stack e.line.tokens ≠ .ok (e.after, st, e.out)) :
    Follows [e.entry] (run o w stack (e.line :: ls)) (run o e.after stack' ls) e.Clean := by
  rw [run, ← hw]
  refine ⟨fun hc => by rw [h hc]; rfl, fun hc hp => ?_⟩
  split at hp
  · cases (List.cons_prefix_cons.mp hp).1
  · next w' st out hd =>
    cases (List.cons_prefix_cons.mp hp).1
    exact hn hc st hd

theorem member_false {w : World} {l : Line} {e : Event} (h : member o false w l = .ok e) :
    e = ⟨l, .member false, w, w, []⟩ := (Except.ok.inj h).symm

theorem member_ok {selected : Bool} {w : World} {l : Line} {e : Event}
    (h : member o selected w l = .ok e) :
    e.line = l ∧ e.role = .member selected ∧ e.world = w := by
  cases selected with
  | false => rw [member_false o h]; exact ⟨rfl, rfl, rfl⟩
  | true =>
    cases hd : directiveOf l.tokens with
    | none => simp only [member, hd] at h; cases h; exact ⟨rfl, rfl, rfl⟩
    | some p =>
      simp only [member, hd] at h
      obtain ⟨r, -, h⟩ := bind_ok.mp h
      cases h
      exact ⟨rfl, rfl, rfl⟩

/-- The run over one plain line. -/
theorem run_member {selected : Bool} {w : World} {stack : List State} {l : Line} {e : Event}
    (hl : l.isPlain) (hc : copying stack = selected)
    (h : member o selected (deliver w l) l = .ok e) (ls : List Line) :
    Follows [e.entry] (run o w stack (l :: ls)) (run o e.after stack ls) e.Clean := by
  obtain ⟨rfl, hrole, hw⟩ := member_ok o h
  have hskip : selected = false → (directive o e.world stack e.line.tokens =
      .ok (e.after, stack, e.out) ↔ Idle e.world e.line) := by
    rintro rfl
    have he := member_false o h
    have hafter : e.after = e.world := by rw [he]
    have hout : e.out = [] := by rw [he]
    rw [hafter, hout]
    exact directive_skipped o hc hl
  have hclean : e.Clean ↔ selected = true ∨ Idle e.world e.line := by rw [Event.Clean, hrole]
  refine Follows.step o hw (fun hc' => ?_) (fun hc' st hd => hc' ?_)
  · cases hs : selected with
    | true => subst hs; rw [hw]; exact directive_selected o hc hl h
    | false => exact (hskip hs).mpr ((hclean.mp hc').resolve_left (by rw [hs]; decide))
  · rw [hclean]
    cases hs : selected with
    | true => exact .inl rfl
    | false =>
      rw [directive_stack o hl hd] at hd
      exact .inr ((hskip hs).mp hd)

/-- The run over one line that delimits a group. -/
theorem run_delimiter {w : World} {stack stack' : List State} {l : Line} {afterTaken : Bool}
    (h : afterTaken = false →
      directive o (deliver w l) stack l.tokens = .ok (deliver w l, stack', []))
    (hn : afterTaken = true → ∀ r, directive o (deliver w l) stack l.tokens ≠ .ok r)
    (ls : List Line) :
    Follows [(delimiter l (deliver w l) afterTaken).entry] (run o w stack (l :: ls))
      (run o (deliver w l) stack' ls) (delimiter l (deliver w l) afterTaken).Clean :=
  Follows.step o (e := delimiter l (deliver w l) afterTaken) rfl h
    fun hc st => hn (by simpa [Event.Clean, delimiter] using hc) _

/-- The run over one line that delimits a group and is clean. -/
theorem run_delimiter_clean {w : World} {stack stack' : List State} {l : Line}
    (h : directive o (deliver w l) stack l.tokens = .ok (deliver w l, stack', []))
    (ls : List Line) :
    Follows [(delimiter l (deliver w l) false).entry] (run o w stack (l :: ls))
      (run o (deliver w l) stack' ls) (delimiter l (deliver w l) false).Clean :=
  run_delimiter o (fun _ => h) (fun h => absurd h Bool.false_ne_true) ls

mutual

/-- The run over a nested sequence of lines: by induction on the nesting, the flags on top of the
    stack say whether the lines are selected. -/
theorem Group.follows : ∀ (g : Group) {selected : Bool} {w w' : World} {stack : List State}
    {es : List Event}, g.wellFormed → copying stack = selected →
    g.select o selected w = .ok (w', es) → ∀ ls : List Line,
    Follows (es.map Event.entry) (run o w stack (g.lines ++ ls)) (run o w' stack ls)
      (∀ e ∈ es, e.Clean)
  | .nil, _, w, w', stack, es, _, _, h, ls => by
    cases h
    exact Follows.nil _ (by simp)
  | .line l rest, selected, w, w', stack, es, hg, hc, h, ls => by
    simp only [Group.wellFormed, Bool.and_eq_true] at hg
    rw [Group.select] at h
    obtain ⟨e, he, h⟩ := bind_ok.mp h
    obtain ⟨⟨w₁, es₁⟩, hrest, h⟩ := bind_ok.mp h
    cases h
    have hline := run_member o hg.1 hc he (rest.lines ++ ls)
    have := hline.append (rest.follows hg.2 hc hrest ls)
    simpa [Group.lines] using this
  | .cond i body tail rest, selected, w, w', stack, es, hg, hc, h, ls => by
    simp only [Group.wellFormed, Bool.and_eq_true] at hg
    obtain ⟨⟨⟨hi, hbody⟩, htail⟩, hrest⟩ := hg
    rw [Group.select] at h
    obtain ⟨cond, hcond, h⟩ := bind_ok.mp h
    obtain ⟨⟨w₁, es₁⟩, h₁, h⟩ := bind_ok.mp h
    obtain ⟨⟨w₂, es₂⟩, h₂, h⟩ := bind_ok.mp h
    obtain ⟨⟨w₃, es₃⟩, h₃, h⟩ := bind_ok.mp h
    cases h
    subst hc
    have hopening := run_delimiter_clean o (directive_opening o hi hcond)
      (body.lines ++ (tail.lines ++ (rest.lines ++ ls)))
    have hbetween : copying (between (copying stack && cond) (copying stack && !cond) :: stack) =
        (copying stack && cond) := rfl
    have := (hopening.append (body.follows hbody hbetween h₁ _)).append
      ((tail.follows htail (by cases copying stack <;> cases cond <;> rfl) h₂ _).append
        (rest.follows hrest rfl h₃ ls))
    simpa [Group.lines, or_imp, forall_and, and_assoc] using this

/-- The run over the rest of a conditional. -/
theorem Tail.follows : ∀ (t : Tail) {taken isOpen : Bool} {w w' : World} {stack : List State}
    {es : List Event}, t.wellFormed → (taken && isOpen) = false →
    t.select o taken isOpen w = .ok (w', es) → ∀ ls : List Line,
    Follows (es.map Event.entry) (run o w (between taken isOpen :: stack) (t.lines ++ ls))
      (run o w' stack ls) (∀ e ∈ es, e.Clean)
  | .endif l, taken, isOpen, w, w', stack, es, ht, _, h, ls => by
    cases h
    have hendif : directive o (deliver w l) (between taken isOpen :: stack) l.tokens = _ :=
      directive_endif o ht
    simpa [Tail.lines] using run_delimiter_clean o hendif ls
  | .else_ l body e, taken, isOpen, w, w', stack, es, ht, _, h, ls => by
    simp only [Tail.wellFormed, Bool.and_eq_true] at ht
    obtain ⟨⟨hl, hbody⟩, he⟩ := ht
    rw [Tail.select] at h
    obtain ⟨⟨w₁, es₁⟩, h₁, h⟩ := bind_ok.mp h
    cases h
    have helse : directive o (deliver w l) (between taken isOpen :: stack) l.tokens = _ :=
      directive_else o hl
    have hendif : directive o (deliver w₁ e) (⟨isOpen, !isOpen, true⟩ :: stack) e.tokens = _ :=
      directive_endif o he
    have hflags : copying (⟨isOpen, !isOpen, true⟩ :: stack) = isOpen := rfl
    have := ((run_delimiter_clean o helse (body.lines ++ (e :: ls))).append
      (body.follows hbody hflags h₁ _)).append (run_delimiter_clean o hendif ls)
    simpa [Tail.lines, or_imp, forall_and, and_assoc] using this
  | .elif l body tail, taken, isOpen, w, w', stack, es, ht, hto, h, ls => by
    simp only [Tail.wellFormed, Bool.and_eq_true] at ht
    obtain ⟨⟨hl, hbody⟩, htail⟩ := ht
    rw [Tail.select] at h
    obtain ⟨cond, hcond, h⟩ := bind_ok.mp h
    obtain ⟨⟨w₁, es₁⟩, h₁, h⟩ := bind_ok.mp h
    obtain ⟨⟨w₂, es₂⟩, h₂, h⟩ := bind_ok.mp h
    cases h
    have hclean : taken = false → directive o (deliver w l) (between taken isOpen :: stack)
        l.tokens = .ok (deliver w l, between (isOpen && cond) (isOpen && !cond) :: stack, []) := by
      rintro rfl
      exact directive_elif o hl hcond
    have hdirty : taken = true → ∀ r,
        directive o (deliver w l) (between taken isOpen :: stack) l.tokens ≠ .ok r := by
      rintro rfl
      rw [Bool.true_and] at hto
      rw [hto]
      exact directive_elif_taken o hl
    have hbetween : copying (between (isOpen && cond) (isOpen && !cond) :: stack) =
        (isOpen && cond) := rfl
    have := ((run_delimiter o hclean hdirty (body.lines ++ (tail.lines ++ ls))).append
      (body.follows hbody hbetween h₁ _)).append
      (tail.follows htail (by cases isOpen <;> cases cond <;> rfl) h₂ ls)
    simpa [Tail.lines, or_imp, forall_and, and_assoc] using this

end

end

/-- An identifier. -/
def word (s : String) : Token := { cls := .ident, text := s }

end Ncc.Cpp
