import Ncc.Cpp.Evaluate
import Ncc.Cpp.Constant

/-! Reading the constant expressions of C89 (cpp/evaluate.c).

    A constant expression is a tree over the tokens of its operators. The evaluator reads the tokens
    of a tree that follows the grammar as that tree: each function takes the longest expression of
    its level and computes along it. -/

namespace Ncc.Cpp

/-- A constant expression, with the tokens of its operators. -/
inductive Expr where
  | num (c : Constant)
  | chr (c : CharConstant)
  | ident (name : String)
  | un (op : Token) (e : Expr)
  | bin (l : Expr) (op : Token) (r : Expr)
  | cond (c : Expr) (quest : Token) (t : Expr) (colon : Token) (f : Expr)
  | comma (l : Expr) (op : Token) (r : Expr)
  | paren (lp : Token) (e : Expr) (rp : Token)

namespace Expr

/-- The tokens in order. -/
def tokens : Expr → List Token
  | num c => [c.token]
  | chr c => [c.token]
  | ident name => [{ cls := .ident, text := name }]
  | un op e => op :: e.tokens
  | bin l op r => l.tokens ++ op :: r.tokens
  | cond c quest t colon f => c.tokens ++ quest :: (t.tokens ++ colon :: f.tokens)
  | comma l op r => l.tokens ++ op :: r.tokens
  | paren lp e rp => lp :: (e.tokens ++ [rp])

/-- The tokens that `expression` sees: `undefined` has replaced the identifiers by 0. -/
def ready : Expr → List Token
  | num c => [c.token]
  | chr c => [c.token]
  | ident _ => [tokenInt 0]
  | un op e => op :: e.ready
  | bin l op r => l.ready ++ op :: r.ready
  | cond c quest t colon f => c.ready ++ quest :: (t.ready ++ colon :: f.ready)
  | comma l op r => l.ready ++ op :: r.ready
  | paren lp e rp => lp :: (e.ready ++ [rp])

/-- The level in the grammar: 0 for a unary expression, the precedence of a binary operator, 11 for a
    conditional expression and 12 for an expression. -/
def level : Expr → Nat
  | bin _ op _ => op.cls.prec
  | cond .. => 11
  | comma .. => 12
  | _ => 0

/-- The prefix operators. -/
def isPrefix (op : TokenClass) : Bool := op == .plus || op == .minus || op == .tilde || op == .not

/-- The grammar of C89. Binary operators associate to the left. -/
def grammatical : Expr → Bool
  | num _ | chr _ | ident _ => true
  | un op e => Expr.isPrefix op.cls && e.level == 0 && e.grammatical
  | bin l op r =>
    op.cls.prec != 0 && decide (l.level ≤ op.cls.prec) && decide (r.level < op.cls.prec) &&
      l.grammatical && r.grammatical
  | cond c quest t colon f =>
    quest.cls == .quest && colon.cls == .colon && decide (c.level ≤ 10) && decide (f.level ≤ 11) &&
      c.grammatical && t.grammatical && f.grammatical
  | comma l op r => op.cls == .comma && decide (r.level ≤ 11) && l.grammatical && r.grammatical
  | paren lp e rp => lp.cls == .lparen && rp.cls == .rparen && e.grammatical

/-- The evaluation along the tree: every operand is computed, from left to right. -/
def run : Expr → Except String Token
  | num c => tokenConvertNumber c.token
  | chr c => tokenConvertChar c.token
  | ident _ => .ok (tokenInt 0)
  | un op e => e.run.map (prefixed op.cls)
  | bin l op r => do
    let left ← l.run
    let right ← r.run
    operate op.cls left right
  | cond c _ t _ f => do
    let control ← c.run
    let left ← t.run
    let right ← f.run
    return if control.i ≠ 0 then left else right
  | comma l _ r => do
    let _ ← l.run
    r.run
  | paren _ e _ => e.run

end Expr

theorem prec_le (c : TokenClass) : c.prec ≤ 10 := by cases c <;> decide

/-- No operator of the levels up to `p` is at the head. -/
def Closed (p : Nat) (l : List Token) : Prop := ∀ t ∈ l.head?, t.cls.prec = 0 ∨ p < t.cls.prec

theorem Closed.mono {p q : Nat} {l : List Token} (h : Closed q l) (hpq : p ≤ q) : Closed p l :=
  fun t ht => (h t ht).imp_right fun hlt => by omega

/-- The result of a tree, with the tokens after it. -/
def attach (e : Expr) (rest : List Token) : Except String (Token × List Token) :=
  e.run.map fun v => (v, rest)

theorem attach_ok {e : Expr} {rest : List Token} {a : Token × List Token}
    (h : attach e rest = .ok a) : e.run = .ok a.1 ∧ a.2 = rest := by
  obtain ⟨v, hv, rfl⟩ := map_ok.mp h
  exact ⟨hv, rfl⟩

theorem attach_error {e : Expr} {rest : List Token} {m : String}
    (h : attach e rest = .error m) : e.run = .error m := by
  rw [attach] at h
  cases hr : e.run with
  | error m' => rw [hr] at h; cases h; rfl
  | ok v => rw [hr] at h; cases h

attribute [grind =] Expr.ready Expr.run attach Cpp.unary Cpp.binary Cpp.binaryLoop Cpp.ternary
  Cpp.expression

/-- What comes of the tree's result when the call goes on with it. -/
def Goes (e : Expr) (k : Nat → Token → Except String (Token × List Token))
    (r : Except String (Token × List Token)) : Prop :=
  (∀ m, e.run = .error m → r = .error m) ∧ ∀ v, e.run = .ok v → Yields (fun n => k n v) r

/-- Going on after a call that reads the tree. -/
theorem Goes.bind {e : Expr} {rest : List Token} {f : Nat → Except String (Token × List Token)}
    {k : Nat → Token × List Token → Except String (Token × List Token)}
    {r : Except String (Token × List Token)} (hf : Yields f (attach e rest))
    (hk : Goes e (fun n v => k n (v, rest)) r) : Yields (fun n => f n >>= k n) r := by
  refine hf.bind (fun m hm => hk.1 m (attach_error hm)) fun a ha => ?_
  obtain ⟨hv, hrest⟩ := attach_ok ha
  have := hk.2 a.1 hv
  rwa [← hrest] at this

theorem Goes.attach (e : Expr) (rest : List Token) :
    Goes e (fun _ v => .ok (v, rest)) (attach e rest) :=
  ⟨fun m hm => by rw [Cpp.attach, hm]; rfl, fun v hv => by rw [Cpp.attach, hv]; exact Yields.const _⟩

/-- What each function of the evaluator makes of the tokens of a tree. -/
structure Parses (e : Expr) : Prop where
  /-- `binary` goes on with its loop after an operand of its level. -/
  loop : ∀ p, e.level ≤ p + 1 → p + 1 ≤ 10 → ∀ rest, Closed p rest → ∀ r,
    Goes e (fun n v => binaryLoop n (p + 1) v rest) r →
    Yields (fun n => binary n (p + 1) (e.ready ++ rest)) r
  /-- `binary` stops before an operator of a higher level. -/
  binary : ∀ p, e.level ≤ p → p ≤ 10 → ∀ rest, Closed p rest →
    Yields (fun n => binary n p (e.ready ++ rest)) (attach e rest)
  ternary : e.level ≤ 11 → ∀ rest, Closed 10 rest → listNextIs rest .quest = false →
    Yields (fun n => ternary n (e.ready ++ rest)) (attach e rest)
  /-- `expression` goes on after a comma. -/
  comma : ∀ op rest, op.cls = .comma → ∀ r, Goes e (fun n _ => expression n rest) r →
    Yields (fun n => expression n (e.ready ++ op :: rest)) r
  expression : ∀ rest, Closed 10 rest → listNextIs rest .quest = false →
    listNextIs rest .comma = false →
    Yields (fun n => expression n (e.ready ++ rest)) (attach e rest)

/-- The loop of `binary` ends at the tokens after its level. -/
theorem yields_loop_end {p : Nat} (hp : 0 < p) {rest : List Token} (hc : Closed p rest) (v : Token) :
    Yields (fun n => binaryLoop n p v rest) (.ok (v, rest)) := by
  apply Yields.succ
  cases rest with
  | nil => exact Yields.of_eq fun n => by rw [binaryLoop]
  | cons op l =>
    refine Yields.of_eq fun n => ?_
    have := hc op rfl
    rw [binaryLoop, if_pos (by omega)]

/-- At the end of its loop `binary` returns. -/
theorem full_of_loop {e : Expr} {p : Nat} (hloop : ∀ rest, Closed p rest → ∀ r,
      Goes e (fun n v => binaryLoop n (p + 1) v rest) r →
      Yields (fun n => binary n (p + 1) (e.ready ++ rest)) r)
    (rest : List Token) (hc : Closed (p + 1) rest) :
    Yields (fun n => binary n (p + 1) (e.ready ++ rest)) (attach e rest) := by
  refine hloop rest (hc.mono (Nat.le_succ _)) _ ⟨fun m hm => ?_, fun v hv => ?_⟩
  · rw [attach, hm]; rfl
  · rw [attach, hv]
    exact yields_loop_end (Nat.succ_pos _) hc v

/-- Both statements about `binary` follow, level by level, from the lowest one that reads the tree. -/
theorem binary_climb {e : Expr} {p : Nat}
    (hfull : ∀ rest, Closed p rest → Yields (fun n => binary n p (e.ready ++ rest)) (attach e rest)) :
    ∀ k, p + k ≤ 10 →
      (∀ rest, Closed (p + k) rest →
        Yields (fun n => binary n (p + k) (e.ready ++ rest)) (attach e rest)) ∧
      (∀ rest, p + k + 1 ≤ 10 → Closed (p + k) rest → ∀ r,
        Goes e (fun n v => binaryLoop n (p + k + 1) v rest) r →
        Yields (fun n => binary n (p + k + 1) (e.ready ++ rest)) r) := by
  have hloop : ∀ q, (∀ rest, Closed q rest →
      Yields (fun n => binary n q (e.ready ++ rest)) (attach e rest)) →
      ∀ rest, Closed q rest → ∀ r, Goes e (fun n v => binaryLoop n (q + 1) v rest) r →
      Yields (fun n => binary n (q + 1) (e.ready ++ rest)) r := by
    intro q hq rest hc r hr
    apply Yields.succ
    simp only [Cpp.binary]
    exact Goes.bind (hq rest hc) hr
  intro k
  induction k with
  | zero => exact fun _ => ⟨hfull, fun rest _ hc r hr => hloop p hfull rest hc r hr⟩
  | succ k ih =>
    intro hk
    obtain ⟨-, hstep⟩ := ih (by omega)
    have hnext := full_of_loop fun rest hc r hr => hstep rest hk hc r hr
    exact ⟨hnext, fun rest _ hc r hr => hloop _ hnext rest hc r hr⟩

theorem listNextIs_cons {t : Token} {cls : TokenClass} {l : List Token} (h : t.cls ≠ .space) :
    listNextIs (t :: l) cls = (t.cls == cls) := by
  rw [listNextIs, listSkipSpaces_cons h, listFirstIs]

/-- A tree that `binary` reads up to the highest level is read by `ternary`. -/
theorem ternary_of_binary {e : Expr}
    (h : ∀ rest, Closed 10 rest → Yields (fun n => binary n 10 (e.ready ++ rest)) (attach e rest))
    (rest : List Token) (hc : Closed 10 rest) (hq : listNextIs rest .quest = false) :
    Yields (fun n => ternary n (e.ready ++ rest)) (attach e rest) := by
  apply Yields.succ
  simp only [ternary]
  refine Goes.bind (h rest hc) ?_
  simp only [hq, Bool.false_eq_true, if_false]
  exact Goes.attach e rest

/-- `ternary` is called by `expression`, which goes on after a comma. -/
theorem comma_of_ternary {e : Expr}
    (h : ∀ rest, Closed 10 rest → listNextIs rest .quest = false →
      Yields (fun n => ternary n (e.ready ++ rest)) (attach e rest))
    (op : Token) (rest : List Token) (hop : op.cls = .comma)
    (r : Except String (Token × List Token)) (hr : Goes e (fun n _ => expression n rest) r) :
    Yields (fun n => expression n (e.ready ++ op :: rest)) r := by
  have hsp : op.cls ≠ .space := by rw [hop]; decide
  have hc : Closed 10 (op :: rest) := by
    intro t ht
    cases ht
    rw [hop]
    exact .inl rfl
  have hq : listNextIs (op :: rest) .quest = false := by rw [listNextIs_cons hsp, hop]; rfl
  apply Yields.succ
  simp only [expression]
  refine Goes.bind (h _ hc hq) ?_
  simp only [listNextIs_cons hsp, hop, beq_self_eq_true, if_true, List.tail_cons]
  exact hr

theorem expression_of_ternary {e : Expr}
    (h : ∀ rest, Closed 10 rest → listNextIs rest .quest = false →
      Yields (fun n => ternary n (e.ready ++ rest)) (attach e rest))
    (rest : List Token) (hc : Closed 10 rest) (hq : listNextIs rest .quest = false)
    (hcomma : listNextIs rest .comma = false) :
    Yields (fun n => expression n (e.ready ++ rest)) (attach e rest) := by
  apply Yields.succ
  simp only [expression]
  refine Goes.bind (h rest hc hq) ?_
  simp only [hcomma, Bool.false_eq_true, if_false]
  exact Goes.attach e rest

/-- A tree below the conditional level, from the lowest level that reads it. -/
theorem Parses.of_level {e : Expr} (hl : e.level ≤ 10)
    (hfull : ∀ rest, Closed e.level rest →
      Yields (fun n => Cpp.binary n e.level (e.ready ++ rest)) (attach e rest))
    (hloop : ∀ p, e.level = p + 1 → ∀ rest, Closed p rest → ∀ r,
      Goes e (fun n v => binaryLoop n (p + 1) v rest) r →
      Yields (fun n => Cpp.binary n (p + 1) (e.ready ++ rest)) r) : Parses e := by
  have hbinary : ∀ p, e.level ≤ p → p ≤ 10 → ∀ rest, Closed p rest →
      Yields (fun n => Cpp.binary n p (e.ready ++ rest)) (attach e rest) := by
    intro p hp hp10
    obtain ⟨k, rfl⟩ := Nat.exists_eq_add_of_le hp
    exact (binary_climb hfull k hp10).1
  have hternary := ternary_of_binary (hbinary 10 hl (Nat.le_refl _))
  refine ⟨fun p hp hp10 rest hc r hr => ?_, hbinary, fun _ => hternary, comma_of_ternary hternary,
    expression_of_ternary hternary⟩
  obtain hlt | heq := Nat.lt_or_eq_of_le hp
  · obtain ⟨k, rfl⟩ := Nat.exists_eq_add_of_le (Nat.le_of_lt_succ hlt)
    exact (binary_climb hfull k (by omega)).2 rest hp10 hc r hr
  · exact hloop p heq rest hc r hr

/-- A unary expression. -/
theorem Parses.of_unary {e : Expr} (hl : e.level = 0)
    (h : ∀ rest, Yields (fun n => Cpp.unary n (e.ready ++ rest)) (attach e rest)) : Parses e := by
  refine Parses.of_level (by omega) (fun rest _ => ?_) fun p hp => by omega
  rw [hl]
  apply Yields.succ
  simp only [Cpp.binary]
  exact h rest

theorem Parses.unary {e : Expr} (h : Parses e) (hl : e.level = 0) (rest : List Token) :
    Yields (fun n => Cpp.unary n (e.ready ++ rest)) (attach e rest) := by
  have hclosed : Closed 0 rest := fun t _ => Nat.eq_zero_or_pos _
  have := (h.binary 0 (by omega) (by omega) rest hclosed).pred
  simpa only [Cpp.binary] using this

theorem parses_num (c : Constant) : Parses (.num c) := by
  refine Parses.of_unary rfl fun rest => Yields.succ (Yields.of_eq fun n => ?_)
  simp only [Expr.ready, List.singleton_append, Cpp.unary, Constant.token]
  rfl

theorem parses_chr (c : CharConstant) : Parses (.chr c) := by
  refine Parses.of_unary rfl fun rest => Yields.succ (Yields.of_eq fun n => ?_)
  simp only [Expr.ready, List.singleton_append, Cpp.unary, CharConstant.token]
  rfl

theorem parses_ident (name : String) : Parses (.ident name) := by
  refine Parses.of_unary rfl fun rest => Yields.succ (Yields.of_eq fun n => ?_)
  simp only [Expr.ready, List.singleton_append, Cpp.unary, tokenInt]
  rfl

theorem parses_un {op : Token} {e : Expr} (he : Parses e) (hl : e.level = 0)
    (hop : Expr.isPrefix op.cls = true) : Parses (.un op e) := by
  refine Parses.of_unary rfl fun rest => Yields.succ ?_
  have hunary : ∀ n l, Cpp.unary (n + 1) (op :: l) =
      (Cpp.unary n l).map fun r => (prefixed op.cls r.1, r.2) := by
    intro n l
    rw [Cpp.unary]
    cases hcls : op.cls <;> rw [hcls] at hop <;> cases hop
  have hattach : attach (.un op e) rest =
      (attach e rest).map fun r => (prefixed op.cls r.1, r.2) := by
    rw [attach, attach, Expr.run]
    cases e.run <;> rfl
  simp only [Expr.ready, List.cons_append, hunary, hattach]
  exact (he.unary hl rest).comp (g := fun _ x => x.map fun r => (prefixed op.cls r.1, r.2))
    (Yields.const _)

/-- A token of no level, and neither `?` nor a comma, ends an expression. -/
theorem ends_expression {t : Token} {l : List Token} (h : t.cls = .rparen ∨ t.cls = .colon) :
    Closed 10 (t :: l) ∧ listNextIs (t :: l) .quest = false ∧
      listNextIs (t :: l) .comma = false := by
  have hsp : t.cls ≠ .space := by obtain h | h := h <;> rw [h] <;> decide
  rw [listNextIs_cons hsp, listNextIs_cons hsp]
  refine ⟨fun u hu => ?_, ?_, ?_⟩
  · cases hu
    obtain h | h := h <;> rw [h] <;> exact .inl rfl
  · obtain h | h := h <;> rw [h] <;> rfl
  · obtain h | h := h <;> rw [h] <;> rfl

theorem parses_paren {lp rp : Token} {e : Expr} (he : Parses e) (hlp : lp.cls = .lparen)
    (hrp : rp.cls = .rparen) : Parses (.paren lp e rp) := by
  refine Parses.of_unary rfl fun rest => Yields.succ ?_
  obtain ⟨hc, hq, hcomma⟩ := ends_expression (l := rest) (.inl hrp)
  have hready : (Expr.paren lp e rp).ready ++ rest = lp :: (e.ready ++ rp :: rest) := by
    simp [Expr.ready]
  simp only [hready, Cpp.unary, hlp]
  refine Goes.bind (he.expression _ hc hq hcomma) ?_
  simp only [listFirstIs, hrp, beq_self_eq_true, if_true, List.tail_cons]
  exact Goes.attach e rest

theorem parses_bin {l r : Expr} {op : Token} (hl : Parses l) (hr : Parses r)
    (hop : op.cls.prec ≠ 0) (hll : l.level ≤ op.cls.prec) (hrl : r.level < op.cls.prec) :
    Parses (.bin l op r) := by
  obtain ⟨q, hq⟩ : ∃ q, op.cls.prec = q + 1 := Nat.exists_eq_succ_of_ne_zero hop
  have hq10 : q + 1 ≤ 10 := hq ▸ prec_le op.cls
  have hloop : ∀ rest, Closed q rest → ∀ res,
      Goes (.bin l op r) (fun n v => binaryLoop n (q + 1) v rest) res →
      Yields (fun n => Cpp.binary n (q + 1) ((Expr.bin l op r).ready ++ rest)) res := by
    intro rest hc res hres
    have hready : (Expr.bin l op r).ready ++ rest = l.ready ++ op :: (r.ready ++ rest) := by
      simp [Expr.ready]
    rw [hready]
    have hcop : Closed q (op :: (r.ready ++ rest)) := by
      intro t ht
      cases ht
      omega
    refine hl.loop q (by omega) hq10 _ hcop res ⟨fun m hm => ?_, fun v hv => Yields.succ ?_⟩
    · exact hres.1 m (by rw [Expr.run, hm]; rfl)
    -- the loop reads the operator and the right operand, and goes on with the result
    · simp only [binaryLoop, hq, ne_eq, not_true_eq_false, if_false, Nat.add_sub_cancel]
      refine Goes.bind (hr.binary q (by omega) (by omega) rest hc)
        ⟨fun m hm => ?_, fun w hw => ?_⟩
      · exact hres.1 m (by rw [Expr.run, hv, hm]; rfl)
      · have hrun : (Expr.bin l op r).run = operate op.cls v w := by rw [Expr.run, hv, hw]; rfl
        simp only [← hrun]
        cases hx : (Expr.bin l op r).run with
        | error m =>
          rw [hres.1 m hx]
          exact Yields.const _
        | ok x => exact hres.2 x hx
  have hlevel : (Expr.bin l op r).level = q + 1 := hq
  refine Parses.of_level (by omega) ?_ fun p hp => ?_
  · rw [hlevel]
    exact full_of_loop hloop
  · obtain rfl : p = q := by omega
    exact hloop

theorem parses_cond {c t f : Expr} {quest colon : Token} (hc : Parses c) (ht : Parses t)
    (hf : Parses f) (hq : quest.cls = .quest) (hcolon : colon.cls = .colon) (hcl : c.level ≤ 10)
    (hfl : f.level ≤ 11) : Parses (.cond c quest t colon f) := by
  have hternary : ∀ rest, Closed 10 rest → listNextIs rest .quest = false →
      Yields (fun n => Cpp.ternary n ((Expr.cond c quest t colon f).ready ++ rest))
        (attach (.cond c quest t colon f) rest) := by
    intro rest hclosed hnq
    have hready : (Expr.cond c quest t colon f).ready ++ rest =
        c.ready ++ quest :: (t.ready ++ colon :: (f.ready ++ rest)) := by
      simp [Expr.ready]
    have hsp : quest.cls ≠ .space := by rw [hq]; decide
    have hcquest : Closed 10 (quest :: (t.ready ++ colon :: (f.ready ++ rest))) := by
      intro u hu
      cases hu
      rw [hq]
      exact .inl rfl
    obtain ⟨hccolon, hnqcolon, hnccolon⟩ := ends_expression (l := f.ready ++ rest) (.inr hcolon)
    rw [hready]
    apply Yields.succ
    simp only [Cpp.ternary]
    refine Goes.bind (hc.binary 10 hcl (Nat.le_refl _) _ hcquest) ⟨fun m hm => ?_, fun v hv => ?_⟩
    · rw [attach, Expr.run, hm]; rfl
    simp only [listNextIs_cons hsp, hq, beq_self_eq_true, if_true, List.tail_cons]
    refine Goes.bind (ht.expression _ hccolon hnqcolon hnccolon) ⟨fun m hm => ?_, fun w hw => ?_⟩
    · rw [attach, Expr.run, hv, hm]; rfl
    simp only [listFirstIs, hcolon, beq_self_eq_true, if_true, List.tail_cons]
    refine Goes.bind (hf.ternary hfl rest hclosed hnq) ⟨fun m hm => ?_, fun x hx => ?_⟩
    · rw [attach, Expr.run, hv, hw, hm]; rfl
    · rw [attach, Expr.run, hv, hw, hx]
      exact Yields.const _
  exact ⟨fun p hp hp10 => absurd (hp.trans hp10) (by decide : ¬ 11 ≤ 10),
    fun p hp hp10 => absurd (hp.trans hp10) (by decide : ¬ 11 ≤ 10), fun _ => hternary,
    comma_of_ternary hternary, expression_of_ternary hternary⟩

theorem parses_comma {l r : Expr} {op : Token} (hl : Parses l) (hr : Parses r)
    (hop : op.cls = .comma) : Parses (.comma l op r) := by
  have hready : ∀ rest, (Expr.comma l op r).ready ++ rest = l.ready ++ op :: (r.ready ++ rest) := by
    intro rest
    simp [Expr.ready]
  have hrun : ∀ v, l.run = .ok v → (Expr.comma l op r).run = r.run := by
    intro v hv
    rw [Expr.run, hv]
    rfl
  have herror : ∀ m, l.run = .error m → (Expr.comma l op r).run = .error m := by
    intro m hm
    rw [Expr.run, hm]
    rfl
  refine ⟨fun p hp hp10 => absurd (hp.trans hp10) (by decide : ¬ 12 ≤ 10),
    fun p hp hp10 => absurd (hp.trans hp10) (by decide : ¬ 12 ≤ 10),
    fun h => absurd h (by decide : ¬ 12 ≤ 11), fun op' rest hop' res hres => ?_,
    fun rest hc hq hcomma => ?_⟩
  · rw [hready]
    refine hl.comma op _ hop res ⟨fun m hm => hres.1 m (herror m hm), fun v hv => ?_⟩
    have hgoes : Goes r (fun n _ => Cpp.expression n rest) res := by
      rw [Goes, ← hrun v hv]
      exact hres
    exact hr.comma op' rest hop' res hgoes
  · rw [hready]
    refine hl.comma op _ hop _ ⟨fun m hm => ?_, fun v hv => ?_⟩
    · rw [attach, herror m hm]; rfl
    · rw [attach, hrun v hv]
      exact hr.expression rest hc hq hcomma

/-- The evaluator reads every expression of the grammar as the tree that the grammar gives it, and
    computes along the tree. -/
theorem parses : ∀ e : Expr, e.grammatical = true → Parses e
  | .num c, _ => parses_num c
  | .chr c, _ => parses_chr c
  | .ident name, _ => parses_ident name
  | .un op e, h => by
    simp only [Expr.grammatical, Bool.and_eq_true, beq_iff_eq] at h
    exact parses_un (parses e h.2) h.1.2 h.1.1
  | .bin l op r, h => by
    simp only [Expr.grammatical, Bool.and_eq_true, bne_iff_ne, decide_eq_true_eq] at h
    obtain ⟨⟨⟨⟨hop, hl⟩, hr⟩, hgl⟩, hgr⟩ := h
    exact parses_bin (parses l hgl) (parses r hgr) hop hl hr
  | .cond c quest t colon f, h => by
    simp only [Expr.grammatical, Bool.and_eq_true, beq_iff_eq, decide_eq_true_eq] at h
    obtain ⟨⟨⟨⟨⟨⟨hq, hcolon⟩, hcl⟩, hfl⟩, hc⟩, ht⟩, hf⟩ := h
    exact parses_cond (parses c hc) (parses t ht) (parses f hf) hq hcolon hcl hfl
  | .comma l op r, h => by
    simp only [Expr.grammatical, Bool.and_eq_true, beq_iff_eq, decide_eq_true_eq] at h
    exact parses_comma (parses l h.1.2) (parses r h.2) h.1.1.1
  | .paren lp e rp, h => by
    simp only [Expr.grammatical, Bool.and_eq_true, beq_iff_eq] at h
    exact parses_paren (parses e h.2) h.1.1 h.1.2

end Ncc.Cpp
