import Ncc.Tree

/-! Cast optimizations (cast.c).

    `castTreeOpt` removes casts that change no bits, or whose bits are not kept. Two of its rules go
    wrong. A reinterpreting cast is removed by retyping what is under it, and a division, modulo or
    right shift then works with the other signedness. And of two widening casts the inner one is
    removed also when it widens a negative value to an unsigned type. -/

namespace Ncc.Cast

/-- T_SAME_CLASS. -/
def sameClass (t u : TypeBits) : Bool := t.floating == u.floating

/-- A completely useless cast, no change of type. -/
def castUseless : Tree → Bool
  | .cast ts t => decide (ts = t.ts)
  | _ => false

/-- A change of interpretation: from one discrete type to another of the same size. -/
def castReinterpret : Tree → Bool
  | .cast ts t => ts.integral && t.ts.integral && decide (ts.sizeof = t.ts.sizeof)
  | _ => false

/-- Widens the representation within a class. -/
def castWiden : Tree → Bool
  | .cast ts t => sameClass ts t.ts && decide (ts.sizeof > t.ts.sizeof)
  | _ => false

/-- Narrows the representation within a class. -/
def castNarrow : Tree → Bool
  | .cast ts t => sameClass ts t.ts && decide (ts.sizeof < t.ts.sizeof)
  | _ => false

/-- Changes the type class. -/
def castReclass : Tree → Bool
  | .cast ts t => !sameClass ts t.ts
  | _ => false

/-- `tree_chop_unary`: assigns the type of the root to its child. -/
def treeChopUnary : Tree → Tree
  | .cast ts t | .unary _ ts t => t.retype ts
  | t => t

/-- `con_normalize` on the root, if it is a constant. -/
def treeNormalizeCon : Tree → Tree
  | .con ts c => .con ts (conNormalize ts c)
  | t => t

/-- Does `cast_tree_opt` chop the root off? -/
def chops : Tree → Bool
  | .cast ts t =>
    castUseless (.cast ts t) || (castReinterpret (.cast ts t) && !t.fieldFetch) ||
      (castWiden (.cast ts t) && castWiden t) || (castNarrow (.cast ts t) && castWiden t) ||
      (castNarrow (.cast ts t) && castNarrow t) || (castReclass (.cast ts t) && castWiden t)
  | _ => false

/-- What is left when the root is chopped off. -/
def chopped (t : Tree) : Tree := treeNormalizeCon (treeChopUnary t)

/-- The condition of `cast_opt_unary`, for a cast over a unary operator. -/
def sinksUnary (ts : TypeBits) (op : UnaryOp) (ts' : TypeBits) (t : Tree) : Bool :=
  castNarrow (.cast ts (.unary op ts' t)) && ts.integral && op.twos

/-- The condition of `cast_opt_binary`, for a cast over a binary operator. -/
def sinksBinary (ts : TypeBits) (op : BinaryOp) (ts' : TypeBits) (l r : Tree) : Bool :=
  castNarrow (.cast ts (.binary op ts' l r)) && ts.integral && op.twos &&
    (castNarrow l || castNarrow r || castWiden l || castWiden r)

theorem size_retype (ts : TypeBits) (t : Tree) : (t.retype ts).size = t.size := by cases t <;> rfl

theorem size_chopped {t : Tree} (h : chops t = true) : (chopped t).size < t.size := by
  cases t with
  | cast ts t =>
    have hsize : (chopped (.cast ts t)).size = (t.retype ts).size := by
      unfold chopped treeChopUnary
      cases t <;> rfl
    rw [hsize, size_retype]
    exact Nat.lt_succ_self _
  | _ => exact nomatch h

/-- `cast_tree_opt`. -/
def castTreeOpt (t : Tree) : Tree :=
  if _h : chops t = true then castTreeOpt (chopped t)
  else
    match t with
    | .cast ts (.unary op ts' t) =>
      if sinksUnary ts op ts' t then .unary op ts (castTreeOpt (.cast ts t))
      else .cast ts (.unary op ts' t)
    | .cast ts (.binary op ts' l r) =>
      if sinksBinary ts op ts' l r then
        .binary op ts (castTreeOpt (.cast ts l)) (castTreeOpt (.cast ts r))
      else .cast ts (.binary op ts' l r)
    | t => t
termination_by t.size
decreasing_by
  · exact size_chopped _h
  · simp only [Tree.size]; omega
  · simp only [Tree.size]; omega
  · simp only [Tree.size]; omega

/-! ### Bits -/

section
variable {ts t u : TypeBits} {a b v : Word}

/-- Above the bits that the type keeps there are copies of the sign bit, or zeros. -/
theorem getLsbD_conNormalize (h : ts.integral = true) (w : Word) {i : Nat} (hi : i < 64) :
    (conNormalize ts w).getLsbD i = if i < 8 * ts.sizeof then w.getLsbD i
      else ts.signed && w.getLsbD (8 * ts.sizeof - 1) := by
  have hpos := (sizeof_pos ts).1
  rw [conNormalize_eq h]
  cases ts.signed with
  | true =>
    simp only [if_true, BitVec.getLsbD_signExtend, hi, decide_true, Bool.true_and, low,
      BitVec.getLsbD_setWidth, BitVec.msb_setWidth]
    split
    · rename_i hlt; rw [decide_eq_true hlt, Bool.true_and]
    · rw [decide_eq_true (by omega : 0 < 8 * ts.sizeof), Bool.true_and]
  | false =>
    simp only [Bool.false_eq_true, if_false, low, BitVec.getLsbD_setWidth, hi, decide_true,
      Bool.true_and, Bool.false_and]
    split <;> rename_i hlt <;> simp [hlt]

/-- The sign of a word that fits the type, at every bit the type does not keep. -/
theorem getLsbD_of_fits (h : ts.integral = true) (hv : conNormalize ts v = v) {i : Nat}
    (hi : i < 64) (hw : 8 * ts.sizeof ≤ i) : v.getLsbD i = v.msb := by
  have hle := (sizeof_pos ts).2
  have hbit : ∀ j < 64, 8 * ts.sizeof ≤ j →
      v.getLsbD j = (ts.signed && v.getLsbD (8 * ts.sizeof - 1)) := fun j hj hwj => by
    conv_lhs => rw [← hv]
    rw [getLsbD_conNormalize h v hj, if_neg (by omega)]
  rw [BitVec.msb_eq_getLsbD_last, hbit i hi hw, hbit 63 (by omega) (by omega)]

/-- A word that fits a narrower type keeps its value in a wider one, unless the wider one has no
    negative numbers. -/
theorem conNormalize_of_fits (ht : t.integral = true) (hu : u.integral = true)
    (hs : t.sizeof < u.sizeof) (hv : conNormalize t v = v) (hok : u.signed = true ∨ v.msb = false) :
    conNormalize u v = v := by
  apply BitVec.eq_of_getLsbD_eq
  intro i hi
  have hle := (sizeof_pos u).2
  rw [getLsbD_conNormalize hu v hi]
  split
  · rfl
  · rw [getLsbD_of_fits ht hv hi (by omega), getLsbD_of_fits ht hv (by omega) (by omega)]
    rcases hok with hok | hok <;> simp [hok]

/-- Widening twice is widening once, unless a negative value is widened to an unsigned type. -/
theorem widen_iff (hts : ts.integral = true) (hu : u.integral = true) (ht : t.integral = true)
    (hs : u.sizeof < ts.sizeof) (hs' : t.sizeof < u.sizeof) (hv : conNormalize t v = v) :
    conNormalize ts v = conNormalize ts (conNormalize u v) ↔
      u.signed = true ∨ 0 ≤ v.toInt := by
  have hmsb : 0 ≤ v.toInt ↔ v.msb = false := by
    constructor
    · intro h
      rw [← Bool.not_eq_true]
      exact fun hneg => absurd h (not_le.mpr (BitVec.toInt_neg_of_msb_true hneg))
    · exact BitVec.toInt_nonneg_of_msb_false
  rw [hmsb]
  constructor
  · intro h
    by_contra hno
    obtain ⟨hu', hneg⟩ := not_or.mp hno
    have hle := (sizeof_pos ts).2
    -- the lowest bit that the inner type does not keep
    have hbit := congrArg (fun x => BitVec.getLsbD x (8 * u.sizeof)) h
    simp only [getLsbD_conNormalize hts _ (show 8 * u.sizeof < 64 by omega),
      getLsbD_conNormalize hu _ (show 8 * u.sizeof < 64 by omega)] at hbit
    rw [if_pos (by omega), if_pos (by omega), if_neg (by omega),
      getLsbD_of_fits ht hv (by omega) (by omega)] at hbit
    simp_all
  · intro hok
    rw [conNormalize_of_fits ht hu hs' hv hok]

end

/-! ### Operators -/

/-- The operators that treat signed and unsigned words differently, where the type of the node says
    which they are. -/
def signful : BinaryOp → Bool
  | .div | .mod | .shr | .divasg | .modasg | .shrasg => true
  | _ => false

section
variable {ts t u : TypeBits} {a b v : Word} {op : BinaryOp}

/-- The bits of a sum, a product and so on depend on those of the operands. -/
theorem low_twos (hop : op.twos = true) (hu : u.integral = true) (hs : ts.sizeof ≤ u.sizeof)
    (tl tl' : TypeBits) {a b a' b' : Word} (hts : ts.integral = true)
    (ha : low ts a = low ts a') (hb : low ts b = low ts b') :
    low ts (binaryWord op u tl a b) = low ts (binaryWord op ts tl' a' b') := by
  have hle : 8 * ts.sizeof ≤ 64 := by have := (sizeof_pos ts).2; omega
  have hl : ∀ w, low ts (conNormalize u w) = low ts w := low_conNormalize hu hs
  have hl' : ∀ w, low ts (conNormalize ts w) = low ts w := low_conNormalize_self hts
  simp only [low] at ha hb hl hl' ⊢
  cases op <;> first
    | exact absurd hop (by decide)
    | simp [binaryWord, BinaryOp.insn, arith, aluBinary, BitVec.setWidth_add _ _ hle,
        BitVec.setWidth_mul _ _ hle, BitVec.setWidth_neg_of_le hle, BitVec.sub_eq_add_neg, hl, hl',
        ha, hb]

theorem low_unaryWord {op : UnaryOp} (ha : low ts a = low ts b) :
    low ts (unaryWord op a) = low ts (unaryWord op b) := by
  have hle : 8 * ts.sizeof ≤ 64 := by have := (sizeof_pos ts).2; omega
  simp only [low] at ha ⊢
  cases op with
  | neg => simp only [unaryWord, BitVec.setWidth_neg_of_le hle, ha]
  | com => simp only [unaryWord, BitVec.setWidth_not hle, ha]
  | rvalue => exact ha

/-- The other operators do not care about the signedness of the node. -/
theorem low_binaryWord (hop : signful op = false) (hts : ts.integral = true)
    (hu : u.integral = true) (hs : ts.sizeof = u.sizeof) (tl : TypeBits) (a b : Word) :
    low ts (binaryWord op ts tl a b) = low ts (binaryWord op u tl a b) := by
  have hle : 8 * ts.sizeof ≤ 64 := by have := (sizeof_pos ts).2; omega
  have hl : ∀ w, low ts (conNormalize u w) = low ts w := low_conNormalize hu hs.le
  have hl' : ∀ w, low ts (conNormalize ts w) = low ts w := low_conNormalize_self hts
  simp only [low] at hl hl' ⊢
  cases op <;> first
    | exact absurd hop (by decide)
    | rfl
    | simp [binaryWord, BinaryOp.insn, arith, aluBinary, BitVec.setWidth_add _ _ hle,
        BitVec.setWidth_mul _ _ hle, BitVec.setWidth_neg_of_le hle, BitVec.sub_eq_add_neg,
        BitVec.setWidth_shiftLeft_of_le hle, hl, hl', hs]

end

/-! ### Chopping the root off -/

/-- The chop keeps the value: the operator under a reinterpreting cast gives the same bits, signed
    or unsigned, and no negative value is widened to an unsigned type on its way to a wider one. -/
def HarmlessChop (env : Nat → Word) : Tree → Prop
  | .cast ts (.binary op ts' l r) => signful op = true →
      low ts (binaryWord op ts l.ts (l.eval env) (r.eval env)) =
        low ts (binaryWord op ts' l.ts (l.eval env) (r.eval env))
  | .cast ts (.cast ts' t) => castWiden (.cast ts (.cast ts' t)) = true →
      ts'.signed = true ∨ 0 ≤ (t.eval env).toInt
  | _ => True

/-- Every chop on the way keeps the value. -/
def Harmless (env : Nat → Word) (t : Tree) : Prop :=
  if _h : chops t = true then HarmlessChop env t ∧ Harmless env (chopped t)
  else
    match t with
    | .cast ts (.unary op ts' t) => sinksUnary ts op ts' t = true → Harmless env (.cast ts t)
    | .cast ts (.binary op ts' l r) => sinksBinary ts op ts' l r = true →
        Harmless env (.cast ts l) ∧ Harmless env (.cast ts r)
    | _ => True
termination_by t.size
decreasing_by
  · exact size_chopped _h
  · simp only [Tree.size]; omega
  · simp only [Tree.size]; omega
  · simp only [Tree.size]; omega

/-- A cast is moved down to both operands of a binary operator. -/
def splits (t : Tree) : Bool :=
  if _h : chops t = true then splits (chopped t)
  else
    match t with
    | .cast ts (.unary op ts' t) => sinksUnary ts op ts' t && splits (.cast ts t)
    | .cast ts (.binary op ts' l r) => sinksBinary ts op ts' l r
    | _ => false
termination_by t.size
decreasing_by
  · exact size_chopped _h
  · simp only [Tree.size]; omega

section
variable {env : Nat → Word} {t : Tree} {ts ts' : TypeBits}

theorem eval_fits (env : Nat → Word) (t : Tree) :
    conNormalize t.ts (t.eval env) = t.eval env := by
  cases t <;> exact conNormalize_self ..

theorem eval_chopped_cast (ts : TypeBits) (t : Tree) :
    (chopped (.cast ts t)).eval env = (t.retype ts).eval env := by
  cases t with
  | con ts' c => exact conNormalize_self ts c
  | _ => rfl

theorem Tree.Integral.root (h : t.Integral) : t.ts.integral = true := by
  cases t <;> first | exact h | exact h.1

theorem integral_retype (h : t.Integral) (hts : ts.integral = true) : (t.retype ts).Integral := by
  cases t <;> first | exact hts | exact ⟨hts, h.2⟩

theorem integral_chopped (h : t.Integral) (hc : chops t = true) : (chopped t).Integral := by
  cases t with
  | cast ts t =>
    have := integral_retype h.2 h.1
    cases t <;> exact this
  | _ => exact nomatch hc

theorem sameClass_of_integral (h : ts.integral = true) (h' : ts'.integral = true) :
    sameClass ts ts' = true := by
  cases ts <;> cases ts' <;> first | rfl | exact absurd h (by decide) | exact absurd h' (by decide)

section
variable (h : (Tree.cast ts t).Integral)
include h

theorem castWiden_iff : castWiden (.cast ts t) = true ↔ t.ts.sizeof < ts.sizeof := by
  simp only [castWiden, sameClass_of_integral h.1 (Tree.Integral.root h.2), Bool.true_and,
    decide_eq_true_eq, gt_iff_lt]

theorem castNarrow_iff : castNarrow (.cast ts t) = true ↔ ts.sizeof < t.ts.sizeof := by
  simp only [castNarrow, sameClass_of_integral h.1 (Tree.Integral.root h.2), Bool.true_and,
    decide_eq_true_eq]

theorem castReclass_eq : castReclass (.cast ts t) = false := by
  simp only [castReclass, sameClass_of_integral h.1 (Tree.Integral.root h.2), Bool.not_true]

end

theorem cast_of_castWiden (h : castWiden t = true) : ∃ ts' t', t = .cast ts' t' := by
  cases t <;> first | exact ⟨_, _, rfl⟩ | exact absurd h Bool.false_ne_true

theorem cast_of_castNarrow (h : castNarrow t = true) : ∃ ts' t', t = .cast ts' t' := by
  cases t <;> first | exact ⟨_, _, rfl⟩ | exact absurd h Bool.false_ne_true

/-- Which casts of integral trees are chopped off, by the sizes of the types. -/
theorem sizeof_of_chops (h : (Tree.cast ts t).Integral) (hc : chops (.cast ts t) = true) :
    ts.sizeof = t.ts.sizeof ∨ ∃ ts' t', t = .cast ts' t' ∧
      (t'.ts.sizeof < ts'.sizeof ∨ ts.sizeof < ts'.sizeof) := by
  simp only [chops, Bool.or_eq_true, Bool.and_eq_true] at hc
  rcases hc with ((((hu | ⟨hr, _⟩) | ⟨_, hw⟩) | ⟨_, hw⟩) | ⟨hn, hn'⟩) | ⟨hr, _⟩
  · exact .inl (congrArg TypeBits.sizeof (of_decide_eq_true hu))
  · simp only [castReinterpret, Bool.and_eq_true, decide_eq_true_eq] at hr
    exact .inl hr.2
  · obtain ⟨ts', t', rfl⟩ := cast_of_castWiden hw
    exact .inr ⟨ts', t', rfl, .inl ((castWiden_iff h.2).mp hw)⟩
  · obtain ⟨ts', t', rfl⟩ := cast_of_castWiden hw
    exact .inr ⟨ts', t', rfl, .inl ((castWiden_iff h.2).mp hw)⟩
  · obtain ⟨ts', t', rfl⟩ := cast_of_castNarrow hn'
    exact .inr ⟨ts', t', rfl, .inr ((castNarrow_iff h).mp hn)⟩
  · rw [castReclass_eq h] at hr
    exact absurd hr Bool.false_ne_true

theorem chop_iff (h : t.Integral) (hc : chops t = true) :
    (chopped t).eval env = t.eval env ↔ HarmlessChop env t := by
  cases t with
  | cast ts t =>
    have hts := h.1
    have hroot := Tree.Integral.root h.2
    rw [eval_chopped_cast]
    have hsize := sizeof_of_chops h hc
    cases t with
    | cast ts' t' =>
      have hts' : ts'.integral = true := h.2.1
      show conNormalize ts (t'.eval env) = conNormalize ts (conNormalize ts' (t'.eval env)) ↔ _
      by_cases hle : ts.sizeof ≤ ts'.sizeof
      · refine iff_of_true (conNormalize_conNormalize hts hts' hle _).symm fun hw => ?_
        have := (castWiden_iff h).mp hw
        simp only [Tree.ts_cast] at this
        omega
      · have hlt : t'.ts.sizeof < ts'.sizeof := by
          rcases hsize with hs | ⟨_, _, he, hs⟩
          · exact absurd hs.le hle
          · obtain ⟨rfl, rfl⟩ := Tree.cast.inj he
            omega
        rw [widen_iff hts hts' (Tree.Integral.root h.2.2) (by omega) hlt (eval_fits env t')]
        have hw : castWiden (.cast ts (.cast ts' t')) = true :=
          (castWiden_iff h).mpr (not_le.mp hle)
        simp only [HarmlessChop, hw, true_implies]
    | binary op ts' l r =>
      have hs : ts.sizeof = ts'.sizeof := by
        rcases hsize with hs | ⟨_, _, he, _⟩
        · exact hs
        · exact nomatch he
      show conNormalize ts (binaryWord op ts l.ts (l.eval env) (r.eval env)) =
        conNormalize ts (conNormalize ts' (binaryWord op ts' l.ts (l.eval env) (r.eval env))) ↔ _
      have hts' : ts'.integral = true := hroot
      rw [conNormalize_conNormalize hts hts' hs.le, conNormalize_eq_iff hts]
      cases hop : signful op with
      | true => simp only [HarmlessChop, hop, true_implies]
      | false =>
        refine iff_of_true (low_binaryWord hop hts hts' hs _ _ _) fun hsf => ?_
        exact absurd (hop.symm.trans hsf) Bool.false_ne_true
    | _ =>
      refine iff_of_true ?_ trivial
      have hs : ts.sizeof = _ := hsize.resolve_right fun ⟨_, _, he, _⟩ => nomatch he
      exact (conNormalize_conNormalize hts hroot hs.le _).symm
  | _ => exact nomatch hc

end

/-! ### The whole tree -/

section
variable {env : Nat → Word} {t : Tree} {ts : TypeBits}

theorem harmless_of_chops (h : chops t = true) :
    Harmless env t ↔ HarmlessChop env t ∧ Harmless env (chopped t) := by
  rw [Harmless, dif_pos h]

theorem castTreeOpt_of_chops (h : chops t = true) : castTreeOpt t = castTreeOpt (chopped t) := by
  rw [castTreeOpt, dif_pos h]

theorem splits_of_chops (h : chops t = true) : splits t = splits (chopped t) := by
  rw [splits, dif_pos h]

/-- A tree that is no cast is left alone. -/
theorem harmless_of_not_cast (h : ∀ ts' t', t ≠ .cast ts' t') : Harmless env t := by
  cases t with
  | cast ts' t' => exact absurd rfl (h ts' t')
  | _ =>
    rw [Harmless, dif_neg (by exact Bool.false_ne_true)]
    trivial

theorem castNarrow_of_widen {t' : Tree} (hs : t.ts.sizeof < ts.sizeof) (ht : t'.ts = t.ts) :
    castNarrow (.cast ts t') = false := by
  rw [castNarrow, ht, decide_eq_false (not_lt.mpr hs.le), Bool.and_false]

/-- A widening cast is not moved down. -/
theorem harmless_of_widen (hs : t.ts.sizeof < ts.sizeof) (hc : ¬ chops (.cast ts t) = true) :
    Harmless env (.cast ts t) := by
  rw [Harmless, dif_neg hc]
  cases t with
  | unary op ts' t =>
    intro hsk
    rw [sinksUnary, castNarrow_of_widen hs rfl] at hsk
    exact absurd hsk Bool.false_ne_true
  | binary op ts' l r =>
    intro hsk
    rw [sinksBinary, castNarrow_of_widen hs rfl] at hsk
    exact absurd hsk Bool.false_ne_true
  | _ => trivial

/-- The result of a widening cast to a narrower type than `long` is negative only if it is signed. -/
theorem signed_of_msb {u : TypeBits} {v : Word} (hu : u.integral = true) (hs : u.sizeof < 8)
    (h : (conNormalize u v).msb = true) : u.signed = true := by
  rw [BitVec.msb_eq_getLsbD_last, getLsbD_conNormalize hu v (by omega), if_neg (by omega)] at h
  exact ((Bool.and_eq_true ..).mp h).1

/-- A negative value that is widened goes through signed types only, and every chop keeps it. -/
theorem harmless_of_neg : ∀ {t : Tree}, (Tree.cast ts t).Integral → t.ts.sizeof < ts.sizeof →
    (t.eval env).msb = true → Harmless env (.cast ts t) := by
  intro t
  induction t with
  | cast ts' t' ih =>
    intro h hs hneg
    by_cases hc : chops (.cast ts (.cast ts' t')) = true
    · rw [harmless_of_chops hc]
      have hlt : t'.ts.sizeof < ts'.sizeof := by
        rcases sizeof_of_chops h hc with hs' | ⟨_, _, he, hs'⟩
        · exact absurd hs'.symm hs.ne
        · obtain ⟨rfl, rfl⟩ := Tree.cast.inj he
          exact hs'.resolve_right (not_lt.mpr (le_of_lt hs))
      have hle := (sizeof_pos ts).2
      have hsigned : ts'.signed = true := signed_of_msb h.2.1 (lt_of_lt_of_le hs hle) hneg
      have hsame : conNormalize ts' (t'.eval env) = t'.eval env :=
        conNormalize_of_fits (Tree.Integral.root h.2.2) h.2.1 hlt (eval_fits env t') (.inl hsigned)
      rw [Tree.eval, hsame] at hneg
      exact ⟨fun _ => .inl hsigned, ih ⟨h.1, h.2.2⟩ (lt_trans hlt hs) hneg⟩
    · exact harmless_of_widen hs hc
  | _ =>
    intro h hs _
    refine harmless_of_widen hs fun hc => ?_
    rcases sizeof_of_chops h hc with hs' | ⟨_, _, he, _⟩
    · exact absurd hs'.symm hs.ne
    · exact nomatch he

/-- Once a chop has changed the value, no later one does. -/
theorem harmless_chopped (h : t.Integral) (hc : chops t = true) (hbad : ¬ HarmlessChop env t) :
    Harmless env (chopped t) := by
  cases t with
  | cast ts t =>
    cases t with
    | binary op ts' l r => exact harmless_of_not_cast fun _ _ => nofun
    | cast ts' t' =>
      have hchop : chopped (.cast ts (.cast ts' t')) = .cast ts t' := rfl
      simp only [HarmlessChop, Classical.not_imp, not_or, not_le] at hbad
      obtain ⟨hw, hunsigned, hneg⟩ := hbad
      have hs := (castWiden_iff h).mp hw
      rw [hchop]
      have hlt : t'.ts.sizeof < ts'.sizeof := by
        rcases sizeof_of_chops h hc with hs' | ⟨_, _, he, hs'⟩
        · exact absurd hs'.symm hs.ne
        · obtain ⟨rfl, rfl⟩ := Tree.cast.inj he
          exact hs'.resolve_right (not_lt.mpr (le_of_lt hs))
      refine harmless_of_neg ⟨h.1, h.2.2⟩ (lt_trans hlt hs) ?_
      cases hm : (t'.eval env).msb with
      | true => rfl
      | false => exact absurd (BitVec.toInt_nonneg_of_msb_false hm) (not_le.mpr hneg)
    | _ => exact absurd trivial hbad
  | _ => exact nomatch hc

theorem ts_chopped (h : chops t = true) : (chopped t).ts = t.ts := by
  cases t with
  | cast ts t => cases t <;> rfl
  | _ => exact nomatch h

theorem eval_binary_low {op : BinaryOp} {ts' : TypeBits} {l r l' r' : Tree} (hop : op.twos = true)
    (hts : ts.integral = true) (hts' : ts'.integral = true) (hs : ts.sizeof ≤ ts'.sizeof)
    (hl : l'.eval env = conNormalize ts (l.eval env))
    (hr : r'.eval env = conNormalize ts (r.eval env)) :
    (Tree.binary op ts l' r').eval env = (Tree.cast ts (.binary op ts' l r)).eval env := by
  show conNormalize ts _ = conNormalize ts (conNormalize ts' _)
  rw [conNormalize_conNormalize hts hts' hs, conNormalize_eq_iff hts]
  refine (low_twos hop hts' hs _ _ hts ?_ ?_).symm
  · rw [hl, low_conNormalize_self hts]
  · rw [hr, low_conNormalize_self hts]

theorem eval_unary_low {op : UnaryOp} {ts' : TypeBits} {t t' : Tree}
    (hts : ts.integral = true) (hts' : ts'.integral = true) (hs : ts.sizeof ≤ ts'.sizeof)
    (ht : t'.eval env = conNormalize ts (t.eval env)) :
    (Tree.unary op ts t').eval env = (Tree.cast ts (.unary op ts' t)).eval env := by
  show conNormalize ts _ = conNormalize ts (conNormalize ts' _)
  rw [conNormalize_conNormalize hts hts' hs, conNormalize_eq_iff hts]
  refine low_unaryWord ?_
  rw [ht, low_conNormalize_self hts]

theorem castTreeOpt_unary {op : UnaryOp} {ts' : TypeBits}
    (hc : ¬ chops (.cast ts (.unary op ts' t)) = true) :
    castTreeOpt (.cast ts (.unary op ts' t)) =
      if sinksUnary ts op ts' t then .unary op ts (castTreeOpt (.cast ts t))
      else .cast ts (.unary op ts' t) := by
  rw [castTreeOpt, dif_neg hc]

theorem castTreeOpt_binary {op : BinaryOp} {ts' : TypeBits} {l r : Tree}
    (hc : ¬ chops (.cast ts (.binary op ts' l r)) = true) :
    castTreeOpt (.cast ts (.binary op ts' l r)) =
      if sinksBinary ts op ts' l r then
        .binary op ts (castTreeOpt (.cast ts l)) (castTreeOpt (.cast ts r))
      else .cast ts (.binary op ts' l r) := by
  rw [castTreeOpt, dif_neg hc]

/-- The tree is not a cast over an operator. -/
def Stuck (t : Tree) : Prop :=
  (∀ ts op ts' t', t ≠ .cast ts (.unary op ts' t')) ∧
    ∀ ts op ts' l r, t ≠ .cast ts (.binary op ts' l r)

theorem castTreeOpt_stuck (hc : ¬ chops t = true) (h : Stuck t) : castTreeOpt t = t := by
  cases t with
  | cast ts t =>
    rw [castTreeOpt, dif_neg hc]
    cases t with
    | unary op ts' t => exact absurd rfl (h.1 ts op ts' t)
    | binary op ts' l r => exact absurd rfl (h.2 ts op ts' l r)
    | _ => rfl
  | _ => rw [castTreeOpt, dif_neg hc]

/-- Induction along `castTreeOpt`. -/
theorem castTreeOpt_induction {motive : Tree → Prop}
    (chop : ∀ t, chops t = true → motive (chopped t) → motive t)
    (unary : ∀ ts op ts' t, ¬ chops (.cast ts (.unary op ts' t)) = true →
      (sinksUnary ts op ts' t = true → motive (.cast ts t)) → motive (.cast ts (.unary op ts' t)))
    (binary : ∀ ts op ts' l r, ¬ chops (.cast ts (.binary op ts' l r)) = true →
      (sinksBinary ts op ts' l r = true → motive (.cast ts l) ∧ motive (.cast ts r)) →
        motive (.cast ts (.binary op ts' l r)))
    (stuck : ∀ t, ¬ chops t = true → Stuck t → motive t) (t : Tree) : motive t := by
  induction t using castTreeOpt.induct with
  | case1 t hc ih => exact chop t hc ih
  | case2 ts op ts' t hc _ ih => exact unary ts op ts' t hc fun _ => ih
  | case3 ts op ts' t hc hs => exact unary ts op ts' t hc fun h => absurd h hs
  | case4 ts op ts' l r hc _ ihl ihr => exact binary ts op ts' l r hc fun _ => ⟨ihl, ihr⟩
  | case5 ts op ts' l r hc hs => exact binary ts op ts' l r hc fun h => absurd h hs
  | case6 t hc hu hb =>
    refine stuck t hc ⟨fun ts op ts' t' he => ?_, fun ts op ts' l r he => ?_⟩
    · subst he; exact hu ts op ts' t' hc rfl HEq.rfl
    · subst he; exact hb ts op ts' l r hc rfl HEq.rfl

theorem le_of_sinksUnary {op : UnaryOp} {ts' : TypeBits}
    (h : (Tree.cast ts (.unary op ts' t)).Integral) (hs : sinksUnary ts op ts' t = true) :
    ts.sizeof ≤ ts'.sizeof := by
  simp only [sinksUnary, Bool.and_eq_true] at hs
  exact le_of_lt ((castNarrow_iff h).mp hs.1.1)

theorem of_sinksBinary {op : BinaryOp} {ts' : TypeBits} {l r : Tree}
    (h : (Tree.cast ts (.binary op ts' l r)).Integral) (hs : sinksBinary ts op ts' l r = true) :
    op.twos = true ∧ ts.sizeof ≤ ts'.sizeof := by
  simp only [sinksBinary, Bool.and_eq_true] at hs
  exact ⟨hs.1.2, le_of_lt ((castNarrow_iff h).mp hs.1.1.1)⟩

theorem ts_castTreeOpt (t : Tree) : (castTreeOpt t).ts = t.ts := by
  induction t using castTreeOpt_induction with
  | chop t hc ih => rw [castTreeOpt_of_chops hc, ih, ts_chopped hc]
  | unary ts op ts' t hc _ => rw [castTreeOpt_unary hc]; split <;> rfl
  | binary ts op ts' l r hc _ => rw [castTreeOpt_binary hc]; split <;> rfl
  | stuck t hc hst => rw [castTreeOpt_stuck hc hst]

theorem low_unaryWord_inj {op : UnaryOp} {a b : Word}
    (h : low ts (unaryWord op a) = low ts (unaryWord op b)) : low ts a = low ts b := by
  have hle : 8 * ts.sizeof ≤ 64 := by have := (sizeof_pos ts).2; omega
  simp only [low] at h ⊢
  cases op with
  | neg =>
    simp only [unaryWord, BitVec.setWidth_neg_of_le hle] at h
    exact neg_injective h
  | com =>
    simp only [unaryWord, BitVec.setWidth_not hle] at h
    exact BitVec.not_inj.mp h
  | rvalue => exact h

/-- Where every chop keeps the value of its tree, the optimized tree has the value of the tree. -/
theorem eval_castTreeOpt {t : Tree} (h : t.Integral) (hh : Harmless env t) :
    (castTreeOpt t).eval env = t.eval env := by
  induction t using castTreeOpt_induction with
  | chop t hc ih =>
    rw [castTreeOpt_of_chops hc]
    obtain ⟨hchop, hrest⟩ := (harmless_of_chops hc).mp hh
    rw [ih (integral_chopped h hc) hrest]
    exact (chop_iff h hc).mpr hchop
  | unary ts op ts' t hc ih =>
    rw [castTreeOpt_unary hc]
    split
    · rename_i hs
      rw [Harmless, dif_neg hc] at hh
      refine eval_unary_low h.1 h.2.1 (le_of_sinksUnary h hs) ?_
      exact ih hs ⟨h.1, h.2.2⟩ (hh hs)
    · rfl
  | binary ts op ts' l r hc ih =>
    rw [castTreeOpt_binary hc]
    split
    · rename_i hs
      rw [Harmless, dif_neg hc] at hh
      obtain ⟨hl, hr⟩ := hh hs
      obtain ⟨ihl, ihr⟩ := ih hs
      obtain ⟨hop, hle⟩ := of_sinksBinary h hs
      exact eval_binary_low hop h.1 h.2.1 hle (ihl ⟨h.1, h.2.2.1⟩ hl) (ihr ⟨h.1, h.2.2.2⟩ hr)
    · rfl
  | stuck t hc hst => rw [castTreeOpt_stuck hc hst]

/-- Conversely, unless a cast is moved down to both operands of a binary operator, where two
    changes may make up for each other. -/
theorem harmless_of_eval {t : Tree} (h : t.Integral) (hs : splits t = false)
    (he : (castTreeOpt t).eval env = t.eval env) : Harmless env t := by
  induction t using castTreeOpt_induction with
  | chop t hc ih =>
    rw [harmless_of_chops hc]
    rw [castTreeOpt_of_chops hc] at he
    rw [splits_of_chops hc] at hs
    have hint := integral_chopped h hc
    by_cases hchop : HarmlessChop env t
    · exact ⟨hchop, ih hint hs (he.trans ((chop_iff h hc).mpr hchop).symm)⟩
    · rw [eval_castTreeOpt hint (harmless_chopped h hc hchop)] at he
      exact absurd ((chop_iff h hc).mp he) hchop
  | unary ts op ts' t hc ih =>
    rw [Harmless, dif_neg hc]
    intro hsk
    rw [castTreeOpt_unary hc, if_pos hsk] at he
    rw [splits, dif_neg hc] at hs
    simp only [hsk, Bool.true_and] at hs
    refine ih hsk ⟨h.1, h.2.2⟩ hs ?_
    have hsame : (Tree.unary op ts (.cast ts t)).eval env =
        (Tree.cast ts (.unary op ts' t)).eval env :=
      eval_unary_low h.1 h.2.1 (le_of_sinksUnary h hsk) rfl
    have hlow : low ts ((castTreeOpt (.cast ts t)).eval env) = low ts ((Tree.cast ts t).eval env) :=
      low_unaryWord_inj ((conNormalize_eq_iff h.1).mp (he.trans hsame.symm))
    rw [← conNormalize_eq_iff h.1] at hlow
    have hts : (castTreeOpt (.cast ts t)).ts = ts := ts_castTreeOpt _
    calc (castTreeOpt (.cast ts t)).eval env
        = conNormalize ts ((castTreeOpt (.cast ts t)).eval env) := by
          conv_lhs => rw [← eval_fits, hts]
      _ = conNormalize ts ((Tree.cast ts t).eval env) := hlow
      _ = (Tree.cast ts t).eval env := eval_fits env (.cast ts t)
  | binary ts op ts' l r hc ih =>
    rw [Harmless, dif_neg hc]
    intro hsk
    rw [splits, dif_neg hc] at hs
    exact absurd (hsk.symm.trans hs) Bool.noConfusion
  | stuck t hc hst =>
    rw [Harmless, dif_neg hc]
    split
    · exact absurd rfl (hst.1 _ _ _ _)
    · exact absurd rfl (hst.2 _ _ _ _ _)
    · trivial

end

/-- `cast_tree_opt` keeps the value of a tree of integral types where every chop does; and unless a
    cast is moved down to both operands of a binary operator, only there. -/
theorem castTreeOpt_sound (env : Nat → Word) (t : Tree) (h : t.Integral) :
    (Harmless env t → (castTreeOpt t).eval env = t.eval env) ∧
      (splits t = false → (castTreeOpt t).eval env = t.eval env → Harmless env t) :=
  ⟨eval_castTreeOpt h, harmless_of_eval h⟩

/-- `(int) (a / b)` with unsigned operands. -/
def divTree : Tree := .cast .int (.binary .div .uint (.sym .uint 0) (.sym .uint 1))

theorem castTreeOpt_div : ¬ ∀ (env : Nat → Word) (t : Tree), t.Integral →
    (castTreeOpt t).eval env = t.eval env := by
  intro h
  -- 0xFFFFFFFE / 2 is 0x7FFFFFFF, and -2 / 2 is -1
  have hdiv := h (fun n => if n = 0 then 0xFFFFFFFE else 2) divTree
    ⟨rfl, rfl, rfl, rfl⟩
  have hopt : castTreeOpt divTree = .binary .div .int (.sym .uint 0) (.sym .uint 1) := by
    have hc : chops divTree = true := by decide
    have hchop : chopped divTree = .binary .div .int (.sym .uint 0) (.sym .uint 1) := rfl
    rw [castTreeOpt_of_chops hc, hchop, castTreeOpt_stuck (by decide)
      ⟨fun _ _ _ _ => by simp, fun _ _ _ _ _ => by simp⟩]
  rw [hopt] at hdiv
  revert hdiv
  decide

/-- `(long) (int) c` with a `signed char`. -/
def widenTree : Tree := .cast .long (.cast .int (.sym .schar 0))

theorem castTreeOpt_sound_widen : (castTreeOpt widenTree).eval (fun _ => 0xFF) =
    widenTree.eval (fun _ => 0xFF) ∧ Harmless (fun _ => 0xFF) widenTree := by
  have hc : chops widenTree = true := by decide
  have hchop : chopped widenTree = .cast .long (.sym .schar 0) := rfl
  obtain ⟨hsound, hexact⟩ := castTreeOpt_sound (fun _ => 0xFF) widenTree ⟨rfl, rfl, rfl⟩
  have heval := hsound ((harmless_of_chops hc).mpr
    ⟨fun _ => .inl rfl, harmless_of_neg ⟨rfl, rfl⟩ (by decide) (by decide)⟩)
  refine ⟨heval, hexact ?_ heval⟩
  rw [splits_of_chops hc, hchop, splits, dif_neg (by decide)]

end Ncc.Cast
