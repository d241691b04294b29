import Ncc.Gen.Eval

/-! Unsigned comparisons with zero (sign.c).

    A comparison of an unsigned value with zero is a test for equality, or it is always true or
    always false. In the latter case the tree is freed with all that its operand does. -/

namespace Ncc.Gen

/-- E_GT, E_GTEQ, E_LT and E_LTEQ. -/
def relational : BinaryOp → Bool
  | .gt | .gteq | .lt | .lteq => true
  | _ => false

theorem relational_cases {op : BinaryOp} (hop : relational op = true) :
    op = .gt ∨ op = .gteq ∨ op = .lt ∨ op = .lteq := by
  cases op <;> simp_all [relational]

/-- The operator that `sign_tree_opt` puts in place of another one when it commutes the operands. -/
def mirror : BinaryOp → BinaryOp
  | .gt => .lt
  | .gteq => .lteq
  | .lt => .gt
  | .lteq => .gteq
  | op => op

theorem relational_mirror {op : BinaryOp} (hop : relational op = true) :
    relational (mirror op) = true := by
  obtain rfl | rfl | rfl | rfl := relational_cases hop <;> rfl

/-- The last `switch` of `sign_tree_opt`: the zero is on the right. -/
def signTree (op : BinaryOp) (ty : Ty) (left right : Tree) : Tree :=
  match op with
  | .gt => .binary .neq ty left right
  | .lt => treeI .int 0
  | .gteq => treeI .int 1
  | .lteq => .binary .eq ty left right
  | op => .binary op ty left right

/-- `sign_tree_opt`. -/
def signTreeOpt : Tree → Tree
  | .binary op ty left right =>
    if relational op then
      if !left.ty.discrete || left.ty.signed then .binary op ty left right
      else if left.zero then signTree (mirror op) ty right left
      else if right.zero then signTree op ty left right
      else .binary op ty left right
    else .binary op ty left right
  | tree => tree

/-- The operator of a comparison that is always true or always false of an unsigned value, and the
    operand that is freed with it. -/
def dropped : Tree → Option Tree
  | .binary op _ left right =>
    if !left.ty.discrete || left.ty.signed then none
    else if left.zero then
      if op = .gt ∨ op = .lteq then some right else none
    else if right.zero then
      if op = .lt ∨ op = .gteq then some left else none
    else none
  | _ => none

section
variable {env : Env} {op : BinaryOp} {ty : Ty} {left right tree : Tree} {s : State} {a b : Word}

/-! ### Comparisons -/

theorem eval_rel (hop : relational op = true ∨ op = .eq ∨ op = .neq) :
    (Tree.binary op ty left right).eval env s =
      (genRel env op left.ty (left.eval env s).1 (right.eval env (left.eval env s).2).1,
        (right.eval env (left.eval env s).2).2) := by
  cases op <;> first | rfl | simp [relational] at hop

/-- A zero of a discrete type is the word 0, and it does nothing. -/
theorem eval_zero (hz : tree.zero = true) (hd : tree.ty.bits.integral = true) :
    tree.eval env s = (0, s) := by
  obtain ⟨ty, c, rfl⟩ : ∃ ty c, tree = .con ty c none := by
    unfold Tree.zero at hz
    split at hz
    · exact ⟨_, _, rfl⟩
    · cases hz
  have hf : ty.floating = false := by
    cases ty with
    | scalar ts => exact (Bool.not_eq_true' _).mp hd
    | _ => rfl
  have hc : c = 0 := by simpa [Tree.zero, hf] using hz
  have hn : conNormalize ty.bits 0 = 0 := by cases ty.bits <;> decide
  subst hc
  exact Prod.ext ((read_con hd 0 s.vars).trans hn) rfl

theorem signed_bits (ty : Ty) : ty.signed = ty.bits.signed := by
  cases ty <;> rfl

/-- The machine type decides how operands are compared. -/
theorem genRel_congr {tl tr : Ty} (h : tl.bits = tr.bits) :
    genRel env op tl a b = genRel env op tr a b := by
  unfold genRel
  rw [signed_bits, h, signed_bits]

/-- Zero on the left is zero on the right of the operator's mirror image. -/
theorem genRel_mirror (hd : ty.bits.integral = true) (hop : relational op = true) :
    genRel env op ty a b = genRel env (mirror op) ty b a := by
  rw [genRel_integral hd, genRel_integral hd]
  cases op <;> first | (unfold mirror relCc; cases ty.signed <;> rfl) | cases hop

/-- What `sign_tree_opt` makes of an unsigned comparison with zero. -/
theorem genRel_zero (hd : ty.bits.integral = true) (hs : ty.signed = false) :
    genRel env .gt ty a 0 = genRel env .neq ty a 0 ∧
      genRel env .lteq ty a 0 = genRel env .eq ty a 0 ∧
      genRel env .lt ty a 0 = 0 ∧ genRel env .gteq ty a 0 = 1 := by
  have hz : (0 : Word).setWidth (8 * ty.bits.sizeof) = 0 := by simp
  simp only [genRel_integral hd, hs, relCc, Bool.false_eq_true, if_false, cmpHolds, hz]
  generalize a.setWidth (8 * ty.bits.sizeof) = x
  have hlt : x.ult 0 = false := by
    rw [BitVec.ult_eq_decide]
    simp
  have hpos : BitVec.ult 0 x = (x != 0) := by
    rw [BitVec.ult_eq_decide, bne, beq_eq_decide, ← decide_not]
    exact decide_eq_decide.mpr (BitVec.pos_iff_ne_zero x)
  rw [hlt, hpos]
  exact ⟨rfl, congrArg truth (by rw [bne, Bool.not_not]), rfl, rfl⟩

/-! ### sign_tree_opt -/

/-- A comparison whose zero is on the right. -/
theorem eval_signTree (hop : relational op = true) (hd : left.ty.bits.integral = true)
    (hs : left.ty.signed = false) (hr : right.ty.bits = left.ty.bits) (hz : right.zero = true)
    (s : State) :
    (signTree op ty left right).eval env s = (Tree.binary op ty left right).eval env s ↔
      (op = .lt ∨ op = .gteq → (left.eval env s).2 = s) := by
  have hzero : ∀ s, right.eval env s = (0, s) := fun s => eval_zero hz (hr ▸ hd)
  obtain ⟨hgt, hlteq, hlt, hgteq⟩ := @genRel_zero env left.ty (left.eval env s).1 hd hs
  have heval : ∀ op, (relational op = true ∨ op = .eq ∨ op = .neq) →
      (Tree.binary op ty left right).eval env s =
        (genRel env op left.ty (left.eval env s).1 0, (left.eval env s).2) := by
    intro op h
    rw [eval_rel h, hzero]
  rw [heval op (.inl hop)]
  obtain rfl | rfl | rfl | rfl := relational_cases hop
  · rw [hgt]
    exact iff_of_true (heval .neq (.inr (.inr rfl))) (by simp)
  · rw [hgteq]
    change (1, s) = (1, _) ↔ _
    rw [Prod.mk.injEq]
    exact ⟨fun h _ => h.2.symm, fun h => ⟨rfl, (h (.inr rfl)).symm⟩⟩
  · rw [hlt]
    change (0, s) = (0, _) ↔ _
    rw [Prod.mk.injEq]
    exact ⟨fun h _ => h.2.symm, fun h => ⟨rfl, (h (.inl rfl)).symm⟩⟩
  · rw [hlteq]
    exact iff_of_true (heval .eq (.inr (.inl rfl))) (by simp)

/-- A comparison with the zero on the left is evaluated like its mirror image. -/
theorem eval_mirror (hop : relational op = true) (hd : left.ty.bits.integral = true)
    (hr : right.ty.bits = left.ty.bits) (hz : left.zero = true) (s : State) :
    (Tree.binary (mirror op) ty right left).eval env s =
      (Tree.binary op ty left right).eval env s := by
  have hzero : ∀ s, left.eval env s = (0, s) := fun s => eval_zero hz hd
  rw [eval_rel (.inl hop), eval_rel (.inl (relational_mirror hop)), hzero, hzero]
  refine Prod.ext ?_ rfl
  dsimp only
  rw [genRel_mirror hd hop, genRel_congr hr]

/-- The two trees do the same in every state, unless the operand that is freed does something. The
    operands of a comparison have one type, once the usual conversions have been made. -/
theorem signTreeOpt_iff (env : Env) (op : BinaryOp) (ty : Ty) (left right : Tree)
    (hty : right.ty.bits = left.ty.bits) :
    (∀ s, (signTreeOpt (.binary op ty left right)).eval env s =
        (Tree.binary op ty left right).eval env s) ↔
      ∀ tree ∈ dropped (.binary op ty left right), ∀ s, (tree.eval env s).2 = s := by
  unfold signTreeOpt dropped
  dsimp only
  by_cases hop : relational op = true
  swap
  · have hne : ¬ (op = .gt ∨ op = .lteq) ∧ ¬ (op = .lt ∨ op = .gteq) := by
      constructor <;> rintro (rfl | rfl) <;> exact hop rfl
    simp [hop, hne.1, hne.2]
  rw [if_pos hop]
  by_cases hd : (!left.ty.discrete || left.ty.signed) = true
  · simp [hd]
  rw [if_neg hd, if_neg hd]
  simp only [Bool.or_eq_true, Bool.not_eq_true', not_or, Bool.not_eq_false, Bool.not_eq_true] at hd
  have hint : left.ty.bits.integral = true := by
    have hdisc := hd.1
    cases hl : left.ty <;> rw [hl] at hdisc <;> first | exact hdisc | rfl
  have hopt : ∀ p : Prop, ∀ [Decidable p], ∀ x : Tree,
      (∀ tree ∈ (if p then some x else none), ∀ s, (tree.eval env s).2 = s) ↔
        (p → ∀ s, (x.eval env s).2 = s) := by
    intro p _ x
    split <;> simp_all
  split
  · rename_i hz
    have hs : right.ty.signed = false := by rw [signed_bits, hty, ← signed_bits, hd.2]
    have hz' := fun s => @eval_signTree env (mirror op) ty right left (relational_mirror hop)
      (hty ▸ hint) hs hty.symm hz s
    simp only [eval_mirror hop hint hty hz] at hz'
    have hm : (mirror op = .lt ∨ mirror op = .gteq) ↔ (op = .gt ∨ op = .lteq) := by
      obtain rfl | rfl | rfl | rfl := relational_cases hop <;> simp [mirror]
    rw [hopt, forall_congr' hz', hm]
    exact forall_comm
  · split
    · rename_i hz
      rw [hopt, forall_congr' fun s => eval_signTree hop hint hd.2 hty hz s]
      exact forall_comm
    · simp

/-- `x > 0u`. -/
theorem signTreeOpt_gt :
    (signTreeOpt (.binary .gt (.scalar .int) (.sym (.scalar .uint) 1) (treeI .uint 0))).eval
        default =
      (Tree.binary .gt (.scalar .int) (.sym (.scalar .uint) 1) (treeI .uint 0)).eval default :=
  funext ((signTreeOpt_iff default .gt (.scalar .int) (.sym (.scalar .uint) 1) (treeI .uint 0)
    rfl).mpr (fun _ h => nomatch h))

/-- `f() >= 0u` does not call the function. -/
theorem signTreeOpt_call : ¬ ∀ (env : Env) (op : BinaryOp) (ty : Ty) (left right : Tree)
    (s : State), relational op = true → left.ty.discrete = true → left.ty.signed = false →
    right.ty.bits = left.ty.bits → (left.zero = true ∨ right.zero = true) →
    (signTreeOpt (.binary op ty left right)).eval env s =
      (Tree.binary op ty left right).eval env s := by
  intro h
  have ht := congrArg (fun r => r.2.trace.length) (h default .gteq (.scalar .int)
    (.call (.scalar .uint) (.sym (.pointer false none) 1) .none) (treeI .uint 0)
    ⟨fun _ => 0, fun _ => 0, []⟩ rfl rfl rfl rfl (.inr rfl))
  exact absurd ht (by decide)

end

end Ncc.Gen
