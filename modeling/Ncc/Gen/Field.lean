import Ncc.Gen.Eval

/-! Bit-fields (field.c, gen.c).

    A test of a field against zero, and an assignment that clears or fills it, work on the host word
    in place. Both are followed bit by bit. The assignments become E_ANDASG and E_ORASG, and their
    value is that of the host word. -/

namespace Ncc.Gen

/-- The tail of `field_tree_opt`, for E_ASG: `i` is the constant as it lies in the host word. -/
def fieldAsg (ty tl tr : Ty) (left : Tree) (mask i c : Word) (child : Tree) : Tree :=
  if i = 0 then
    .binary .andasg ty (.fetch tl (child.retype child.ty.unfield)) (.con tr (~~~mask) none)
  else if i = mask then
    .binary .orasg ty (.fetch tl (child.retype child.ty.unfield)) (.con tr mask none)
  else .binary .asg ty left (.con tr c none)

/-- `field_tree_opt` of a tree that `tree_normalize` has seen. -/
def fieldTree : Tree → Tree
  | .binary op ty (.fetch tl child) right =>
    match child.ty.fieldPtr with
    | none => .binary op ty (.fetch tl child) right
    | some f =>
      let mask := fieldMask f
      match op with
      | .eq | .neq =>
        if right.zero then
          .binary op ty
            (.binary .and tl (.fetch tl (child.retype child.ty.unfield))
              (.con (.scalar tl.bits) mask none))
            right
        else .binary op ty (.fetch tl child) right
      | .asg =>
        match right with
        | .con tr c none =>
          fieldAsg ty tl tr (.fetch tl child) mask ((c <<< f.shift) &&& mask) c child
        | right => .binary .asg ty (.fetch tl child) right
      | op => .binary op ty (.fetch tl child) right
  | tree => tree

/-- `field_tree_opt`. -/
def fieldTreeOpt (tree : Tree) : Tree := fieldTree tree.normalize

/-! ### Bits -/

section
variable {env : Env} {ts : TypeBits} {f : Field} {a b w old value : Word} {j n : Nat}

theorem hostBits_le (ts : TypeBits) : 8 * ts.sizeof ≤ 64 := by
  have := (sizeof_pos ts).2
  omega

/-- What a type makes of a word depends on the bits it keeps. -/
theorem conNormalize_eq_iff_bits (h : ts.integral = true) : conNormalize ts a = conNormalize ts b ↔
    ∀ j < 8 * ts.sizeof, a.getLsbD j = b.getLsbD j := by
  rw [conNormalize_eq_iff h]
  constructor
  · intro he j hj
    have hbit := congrArg (fun x => x.getLsbD j) he
    simpa [low, BitVec.getLsbD_setWidth, hj] using hbit
  · intro hall
    apply BitVec.eq_of_getLsbD_eq
    intro j hj
    simp only [low, BitVec.getLsbD_setWidth, hj, decide_true, Bool.true_and]
    exact hall j hj

/-- The bits that a type keeps, and those that it extends. -/
theorem getLsbD_conNormalize (h : ts.integral = true) (hj : j < 64) :
    (conNormalize ts w).getLsbD j =
      if j < 8 * ts.sizeof then w.getLsbD j
      else ts.signed && w.getLsbD (8 * ts.sizeof - 1) := by
  have hle := hostBits_le ts
  have hpos := (sizeof_pos ts).1
  rw [conNormalize_eq h]
  cases hs : ts.signed
  · simp [low, BitVec.getLsbD_setWidth, hj]
  · have hmsb : (BitVec.setWidth (8 * ts.sizeof) w).msb = w.getLsbD (8 * ts.sizeof - 1) := by
      rw [BitVec.msb_eq_getLsbD_last, BitVec.getLsbD_setWidth]
      simp [show 8 * ts.sizeof - 1 < 8 * ts.sizeof by omega]
    simp only [if_true, low, BitVec.getLsbD_signExtend, BitVec.getLsbD_setWidth, hj, decide_true,
      Bool.true_and, hmsb]
    split <;> simp_all

/-- The mask has the bits of the field. -/
theorem getLsbD_fieldMask (hj : j < 64) (hf : f.size + f.shift ≤ 64) :
    (fieldMask f).getLsbD j = decide (f.shift ≤ j ∧ j < f.size + f.shift) := by
  have hones : (-1 : Word) = BitVec.allOnes 64 := by decide
  rw [fieldMask, hones]
  simp only [BitVec.getLsbD_shiftLeft, BitVec.getLsbD_ushiftRight, BitVec.getLsbD_allOnes, hj,
    decide_true, Bool.true_and]
  by_cases hle : f.shift ≤ j
  · have hlt : (64 - f.size + (j - f.shift) < 64) ↔ j < f.size + f.shift := by omega
    simp [hle, hlt]
  · simp [hle]

/-! ### Insns -/

theorem arithWord_integral (h : ts.integral = true) {op : InsnOp}
    (hop : op ∈ [.and, .or, .shl, .shr]) :
    arithWord env op ts a b = conNormalize ts (aluBinary op ts a b) := by
  have hf : ts.floating = false := (Bool.not_eq_true' _).mp h
  unfold arithWord
  rw [fit_of_integral h]
  simp only [List.mem_cons, List.not_mem_nil, or_false] at hop
  rcases hop with rfl | rfl | rfl | rfl <;> simp [exprValue, hf]

/-- A shift by less than the width of the host word. -/
theorem getLsbD_shl (h : ts.integral = true) (hn : n < 64) (hj : j < 8 * ts.sizeof) :
    (arithWord env .shl ts a (BitVec.ofNat 64 n)).getLsbD j =
      (decide (n ≤ j) && a.getLsbD (j - n)) := by
  have hle := hostBits_le ts
  rw [arithWord_integral h (by simp), getLsbD_conNormalize h (by omega), if_pos hj]
  have hmod : n % 2 ^ 64 % 64 = n := by omega
  simp only [aluBinary, BitVec.toNat_ofNat, hmod, BitVec.getLsbD_shiftLeft]
  by_cases hnj : n ≤ j
  · simp [hnj, show j < 64 by omega]
  · simp [hnj, show j < n by omega]

/-- A shift to the right brings in what extends the word. -/
theorem getLsbD_shr (h : ts.integral = true) (hn : n < 8 * ts.sizeof) (hj : j < 8 * ts.sizeof)
    (ha : conNormalize ts a = a) : (arithWord env .shr ts a (BitVec.ofNat 64 n)).getLsbD j =
      if n + j < 8 * ts.sizeof then a.getLsbD (n + j)
      else ts.signed && a.getLsbD (8 * ts.sizeof - 1) := by
  have hle := hostBits_le ts
  rw [arithWord_integral h (by simp), getLsbD_conNormalize h (by omega), if_pos hj]
  have hmod : n % 2 ^ 64 % 64 = n := by omega
  have hext : ∀ k < 64, a.getLsbD k = if k < 8 * ts.sizeof then a.getLsbD k
      else ts.signed && a.getLsbD (8 * ts.sizeof - 1) := by
    intro k hk
    conv_lhs => rw [← ha, getLsbD_conNormalize h hk]
  have hj64 : j < 64 := by omega
  simp only [aluBinary, BitVec.toNat_ofNat, hmod]
  by_cases hlt : n + j < 64
  · rw [← hext _ hlt]
    split
    · rw [BitVec.getLsbD_sshiftRight, if_pos hlt]
      simp [show ¬ 64 ≤ j by omega]
    · exact BitVec.getLsbD_ushiftRight a n j
  · have hge : ¬ n + j < 8 * ts.sizeof := by omega
    rw [if_neg hge]
    split
    · rename_i hs
      have hmsb : a.msb = a.getLsbD (8 * ts.sizeof - 1) := by
        rw [BitVec.msb_eq_getLsbD_last, hext 63 (by omega), hs, Bool.true_and]
        split
        · congr 1
          omega
        · rfl
      rw [BitVec.getLsbD_sshiftRight, if_neg hlt, hmsb, hs]
      simp [show ¬ 64 ≤ j by omega]
    · rename_i hs
      rw [BitVec.getLsbD_ushiftRight, BitVec.getLsbD_of_ge _ _ (by omega)]
      simp [hs]

/-- The field is brought to the right, and its sign with it. -/
theorem getLsbD_extract (h : ts.integral = true) (hsize : 1 ≤ f.size)
    (hf : f.size + f.shift ≤ 8 * ts.sizeof) (hj : j < 8 * ts.sizeof) :
    (extract env ts f w).getLsbD j =
      if j < f.size then w.getLsbD (j + f.shift)
      else ts.signed && w.getLsbD (f.size + f.shift - 1) := by
  have hle := hostBits_le ts
  unfold extract
  dsimp only
  rw [getLsbD_shr h (by omega) hj (by rw [arithWord_integral h (by simp), conNormalize_self])]
  have hbit : ∀ k < 8 * ts.sizeof, 8 * ts.sizeof - (f.size + f.shift) ≤ k →
      (arithWord env .shl ts w (BitVec.ofNat 64 (8 * ts.sizeof - (f.size + f.shift)))).getLsbD k =
        w.getLsbD (k - (8 * ts.sizeof - (f.size + f.shift))) := by
    intro k hk hge
    rw [getLsbD_shl h (by omega) hk]
    simp [hge]
  by_cases hlt : j < f.size
  · rw [if_pos (by omega), if_pos hlt, hbit _ (by omega) (by omega)]
    congr 1
    omega
  · rw [if_neg (by omega), if_neg hlt, hbit _ (by omega) (by omega)]
    congr 2
    omega

/-- The field takes the low bits of the value, and the rest of the host word stays. -/
theorem getLsbD_insert (h : ts.integral = true) (hsize : 1 ≤ f.size)
    (hf : f.size + f.shift ≤ 8 * ts.sizeof) (hj : j < 8 * ts.sizeof) :
    (insert env ts f old value).getLsbD j =
      if f.shift ≤ j ∧ j < f.size + f.shift then value.getLsbD (j - f.shift)
      else old.getLsbD j := by
  have hle := hostBits_le ts
  have hj64 : j < 64 := by omega
  have hones : (-1 : Word) = BitVec.allOnes 64 := by decide
  unfold insert
  dsimp only
  rw [arithWord_integral h (by simp), getLsbD_conNormalize h hj64, if_pos hj]
  simp only [aluBinary, BitVec.getLsbD_or]
  rw [arithWord_integral h (by simp), getLsbD_conNormalize h hj64, if_pos hj,
    arithWord_integral h (by simp), getLsbD_conNormalize h hj64, if_pos hj]
  simp only [aluBinary, BitVec.getLsbD_and]
  rw [getLsbD_shl h (by omega) hj, getLsbD_conNormalize h hj64, if_pos hj,
    getLsbD_conNormalize h hj64, if_pos hj]
  simp only [BitVec.getLsbD_and, BitVec.getLsbD_not, hj64, decide_true, Bool.true_and,
    getLsbD_fieldMask hj64 (show f.size + f.shift ≤ 64 by omega), hones,
    BitVec.getLsbD_ushiftRight, BitVec.getLsbD_allOnes]
  by_cases hle' : f.shift ≤ j
  · by_cases hlt : j < f.size + f.shift
    · simp [hle', hlt]
    · have hin : 64 - 8 * ts.sizeof + j < 64 := by omega
      simp [hle', hlt, hin]
  · have hin : 64 - 8 * ts.sizeof + j < 64 := by omega
    simp [hle', hin]

/-! ### Assignments that clear or fill the field -/

/-- The bits of the host word that are not the field's are all `x`. -/
def RestIs (ts : TypeBits) (f : Field) (w : Word) (x : Bool) : Prop :=
  ∀ j < 8 * ts.sizeof, ¬ (f.shift ≤ j ∧ j < f.size + f.shift) → w.getLsbD j = x

/-- The constant as it lies in the host word. -/
def placed (f : Field) (c : Word) : Word := (c <<< f.shift) &&& fieldMask f

theorem getLsbD_placed (hf : f.size + f.shift ≤ 64) (hj : j < 64) : (placed f value).getLsbD j =
    (decide (f.shift ≤ j ∧ j < f.size + f.shift) && value.getLsbD (j - f.shift)) := by
  rw [placed, BitVec.getLsbD_and, getLsbD_fieldMask hj hf, BitVec.getLsbD_shiftLeft]
  by_cases hle : f.shift ≤ j
  · simp [hj, hle, show ¬ j < f.shift by omega, Bool.and_comm]
  · simp [hle]

/-- Words that fit a type are equal when the bits it keeps are. -/
theorem eq_iff_bits (h : ts.integral = true) (ha : conNormalize ts a = a)
    (hb : conNormalize ts b = b) : a = b ↔ ∀ j < 8 * ts.sizeof, a.getLsbD j = b.getLsbD j := by
  rw [← conNormalize_eq_iff_bits h, ha, hb]

theorem arithWord_fits (h : ts.integral = true) (op : InsnOp) :
    conNormalize ts (arithWord env op ts a b) = arithWord env op ts a b := by
  rw [← fit_of_integral h]
  exact fit_fit ts _

theorem insert_fits (h : ts.integral = true) :
    conNormalize ts (insert env ts f old value) = insert env ts f old value :=
  arithWord_fits h .or

theorem extract_fits (h : ts.integral = true) :
    conNormalize ts (extract env ts f w) = extract env ts f w :=
  arithWord_fits h .shr

/-- A word that is masked with the bits of the field, or with the others. -/
theorem getLsbD_and (h : ts.integral = true) (hj : j < 8 * ts.sizeof) :
    (arithWord env .and ts a (conNormalize ts b)).getLsbD j = (a.getLsbD j && b.getLsbD j) := by
  have hle := hostBits_le ts
  rw [arithWord_integral h (by simp), getLsbD_conNormalize h (by omega), if_pos hj]
  simp only [aluBinary, BitVec.getLsbD_and]
  rw [getLsbD_conNormalize h (by omega), if_pos hj]

theorem getLsbD_or (h : ts.integral = true) (hj : j < 8 * ts.sizeof) :
    (arithWord env .or ts a (conNormalize ts b)).getLsbD j = (a.getLsbD j || b.getLsbD j) := by
  have hle := hostBits_le ts
  rw [arithWord_integral h (by simp), getLsbD_conNormalize h (by omega), if_pos hj]
  simp only [aluBinary, BitVec.getLsbD_or]
  rw [getLsbD_conNormalize h (by omega), if_pos hj]

section
variable (h : ts.integral = true) (hsize : 1 ≤ f.size) (hf : f.size + f.shift ≤ 8 * ts.sizeof)
include h hsize hf

/-- To insert a constant that is placed as zeros is to clear the field. -/
theorem insert_zero (hz : placed f value = 0) :
    insert env ts f old (conNormalize ts value) =
      arithWord env .and ts old (conNormalize ts (~~~fieldMask f)) := by
  have hle := hostBits_le ts
  rw [eq_iff_bits h (insert_fits h) (arithWord_fits h _)]
  intro j hj
  have hbit := congrArg (fun w => w.getLsbD j) hz
  rw [getLsbD_insert h hsize hf hj, getLsbD_and h hj, BitVec.getLsbD_not,
    getLsbD_fieldMask (by omega) (by omega)]
  simp only [@getLsbD_placed f value j (show f.size + f.shift ≤ 64 by omega)
    (by omega)] at hbit
  split
  · rename_i hin
    rw [getLsbD_conNormalize h (by omega), if_pos (by omega)]
    simpa [hin] using hbit
  · rename_i hin
    simp [hin, show j < 64 by omega]

/-- To insert a constant that is placed as ones is to fill the field. -/
theorem insert_mask (hm : placed f value = fieldMask f) :
    insert env ts f old (conNormalize ts value) =
      arithWord env .or ts old (conNormalize ts (fieldMask f)) := by
  have hle := hostBits_le ts
  rw [eq_iff_bits h (insert_fits h) (arithWord_fits h _)]
  intro j hj
  have hbit := congrArg (fun w => w.getLsbD j) hm
  rw [getLsbD_insert h hsize hf hj, getLsbD_or h hj, getLsbD_fieldMask (by omega) (by omega)]
  simp only [@getLsbD_placed f value j (show f.size + f.shift ≤ 64 by omega)
    (by omega), getLsbD_fieldMask (j := j) (f := f) (by omega) (by omega)] at hbit
  split
  · rename_i hin
    rw [getLsbD_conNormalize h (by omega), if_pos (by omega)]
    simpa [hin] using hbit
  · rename_i hin
    simp [hin]

/-- The field of a host word that has been cleared is zero, and so is the word when the rest is. -/
theorem extract_cleared :
    extract env ts f (arithWord env .and ts old (conNormalize ts (~~~fieldMask f))) =
      arithWord env .and ts old (conNormalize ts (~~~fieldMask f)) ↔ RestIs ts f old false := by
  have hle := hostBits_le ts
  rw [eq_iff_bits h (extract_fits h) (arithWord_fits h _)]
  have hbit : ∀ j < 8 * ts.sizeof,
      (arithWord env .and ts old (conNormalize ts (~~~fieldMask f))).getLsbD j =
        (old.getLsbD j && !decide (f.shift ≤ j ∧ j < f.size + f.shift)) := by
    intro j hj
    rw [getLsbD_and h hj, BitVec.getLsbD_not, getLsbD_fieldMask (by omega) (by omega)]
    simp [show j < 64 by omega]
  have hext : ∀ j < 8 * ts.sizeof, (extract env ts f
      (arithWord env .and ts old (conNormalize ts (~~~fieldMask f)))).getLsbD j = false := by
    intro j hj
    rw [getLsbD_extract h hsize hf hj]
    split
    · rw [hbit _ (by omega)]
      simp [show j < f.size by omega]
    · rw [hbit _ (by omega)]
      simp [show f.shift ≤ f.size + f.shift - 1 by omega,
        show f.size + f.shift - 1 < f.size + f.shift by omega]
  refine forall₂_congr fun j hj => ?_
  rw [hext j hj, hbit j hj]
  by_cases hin : f.shift ≤ j ∧ j < f.size + f.shift <;> simp [hin]

/-- The field of a host word that has been filled has all its bits set; the word is the same when
    the rest is the sign of that. -/
theorem extract_filled :
    extract env ts f (arithWord env .or ts old (conNormalize ts (fieldMask f))) =
      arithWord env .or ts old (conNormalize ts (fieldMask f)) ↔
    if ts.signed then RestIs ts f old true else f.shift = 0 ∧ RestIs ts f old false := by
  have hle := hostBits_le ts
  rw [eq_iff_bits h (extract_fits h) (arithWord_fits h _)]
  have hbit : ∀ j < 8 * ts.sizeof,
      (arithWord env .or ts old (conNormalize ts (fieldMask f))).getLsbD j =
        (old.getLsbD j || decide (f.shift ≤ j ∧ j < f.size + f.shift)) := by
    intro j hj
    rw [getLsbD_or h hj, getLsbD_fieldMask (by omega) (by omega)]
  have hext : ∀ j < 8 * ts.sizeof, (extract env ts f
      (arithWord env .or ts old (conNormalize ts (fieldMask f)))).getLsbD j =
        (decide (j < f.size) || ts.signed) := by
    intro j hj
    rw [getLsbD_extract h hsize hf hj]
    split
    · rw [hbit _ (by omega)]
      simp [show j < f.size by omega]
    · rename_i hlt
      rw [hbit _ (by omega)]
      simp [hlt, show f.shift ≤ f.size + f.shift - 1 by omega,
        show f.size + f.shift - 1 < f.size + f.shift by omega]
  rw [forall₂_congr fun j hj => by rw [hext j hj, hbit j hj]]
  cases ts.signed with
  | true =>
    simp only [Bool.or_true, if_true]
    refine forall₂_congr fun j hj => ?_
    rw [@eq_comm _ true]
    by_cases hin : f.shift ≤ j ∧ j < f.size + f.shift <;> simp [hin]
  | false =>
    simp only [Bool.or_false, Bool.false_eq_true, if_false]
    constructor
    · intro hall
      have hlast := hall (f.size + f.shift - 1) (by omega)
      have hshift : f.shift = 0 := by
        simp only [show f.shift ≤ f.size + f.shift - 1 ∧ f.size + f.shift - 1 < f.size + f.shift by
          omega, and_self, decide_true, Bool.or_true, decide_eq_true_eq] at hlast
        omega
      refine ⟨hshift, fun j hj hout => ?_⟩
      have hj' := hall j hj
      rw [decide_eq_false (show ¬ j < f.size by omega), decide_eq_false hout] at hj'
      simpa using hj'.symm
    · rintro ⟨hshift, hrest⟩ j hj
      by_cases hin : f.shift ≤ j ∧ j < f.size + f.shift
      · simp [hin, show j < f.size by omega]
      · rw [hrest j hj hin, decide_eq_false hin, decide_eq_false (by omega)]
        rfl

/-- A field is zero when its bits of the host word are. -/
theorem extract_eq_zero :
    extract env ts f old = 0 ↔ arithWord env .and ts old (conNormalize ts (fieldMask f)) = 0 := by
  have hle := hostBits_le ts
  have hz : conNormalize ts 0 = 0 := by cases ts <;> decide
  rw [eq_iff_bits h (extract_fits h) hz, eq_iff_bits h (arithWord_fits h _) hz]
  constructor
  · intro hall j hj
    rw [getLsbD_and h hj, getLsbD_fieldMask (by omega) (by omega)]
    by_cases hin : f.shift ≤ j ∧ j < f.size + f.shift
    · have hbit := hall (j - f.shift) (by omega)
      rw [getLsbD_extract h hsize hf (by omega), if_pos (by omega),
        Nat.sub_add_cancel hin.1] at hbit
      rw [hbit]
      simp
    · simp [hin]
  · intro hall j hj
    have hbit : ∀ k, f.shift ≤ k → k < f.size + f.shift → old.getLsbD k = false := by
      intro k hk hlt
      have hk' := hall k (by omega)
      rw [getLsbD_and h (by omega), getLsbD_fieldMask (by omega) (by omega)] at hk'
      simpa [hk, hlt] using hk'
    rw [getLsbD_extract h hsize hf hj]
    split
    · rw [hbit _ (by omega) (by omega)]
      simp
    · rw [hbit _ (by omega) (by omega)]
      simp

end

/-- A word that fits its type is compared with zero. -/
theorem genRel_eq_zero {ty : Ty} (h : ty.bits.integral = true) (ha : conNormalize ty.bits a = a) :
    genRel env .eq ty a 0 = truth (decide (a = 0)) ∧
      genRel env .neq ty a 0 = truth (!decide (a = 0)) := by
  have hz : conNormalize ty.bits 0 = 0 := by cases ty.bits <;> decide
  have hiff : low ty.bits a = low ty.bits 0 ↔ a = 0 := by rw [← conNormalize_eq_iff h, ha, hz]
  have hbeq : (a.setWidth (8 * ty.bits.sizeof) == (0 : Word).setWidth (8 * ty.bits.sizeof)) =
      decide (a = 0) := by
    rw [beq_eq_decide]
    exact decide_eq_decide.mpr hiff
  rw [genRel_integral h, genRel_integral h]
  simp only [relCc, cmpHolds, bne, hbeq, and_self]

/-! ### field_tree_opt -/

variable {op : BinaryOp} {ty : Ty} {child left right tree : Tree} {v : Bool} {s : State} {c : Word}

/-- A pointer to the host word of a field is the pointer to the field. -/
theorem eval_unfield (hc : child.ty = .pointer v (some f)) :
    (child.retype child.ty.unfield).eval env s = child.eval env s ∧
      (child.retype child.ty.unfield).ty = .pointer v none := by
  cases child with
  | addrof ty child =>
    obtain rfl : ty = .pointer v (some f) := hc
    cases child <;> exact ⟨rfl, rfl⟩
  | none | forest => cases hc
  | sym ty x =>
    obtain rfl : ty = .pointer v (some f) := hc
    refine ⟨?_, rfl⟩
    simp only [Tree.retype, Tree.eval, State.sym, Tree.ty, Ty.unfield]
    cases env.addr x <;> rfl
  | con ty | call ty | cast ty | fetch ty | unary op ty | binary op ty | quest ty | blkasg ty =>
    obtain rfl : ty = .pointer v (some f) := hc
    exact ⟨rfl, rfl⟩

/-- A constant has no side effects. -/
theorem eval_con (h : ts.integral = true) :
    (Tree.con (.scalar ts) c none).eval env s = (conNormalize ts c, s) :=
  Prod.ext (read_con h c s.vars) rfl

section
variable (h : ts.integral = true) (hsize : 1 ≤ f.size) (hf : f.size + f.shift ≤ 8 * ts.sizeof)
variable (hc : child.ty = .pointer v (some f))

/-- The host word that the pointer designates. -/
def hostWord (env : Env) (ts : TypeBits) (child : Tree) (s : State) : Word :=
  fit ts (loadWord (child.eval env s).2.mem (child.eval env s).1 ts.sizeof)

/-- The state after it has been loaded. -/
def loaded (env : Env) (ts : TypeBits) (child : Tree) (s : State) : State :=
  (genLoad (.scalar ts) child.ty (child.eval env s).1 (child.eval env s).2).2

include hc in
theorem eval_fieldFetch : (Tree.fetch (.scalar ts) child).eval env s =
    (extract env ts f (hostWord env ts child s), loaded env ts child s) := by
  simp only [Tree.eval, Place.read, genLoad, hc, Ty.fieldPtr, hostWord, loaded, Ty.bits]

include hc in
/-- The pointer to the host word designates it, too. -/
theorem eval_hostFetch :
    (Tree.fetch (.scalar ts) (child.retype child.ty.unfield)).eval env s =
      (hostWord env ts child s, loaded env ts child s) := by
  obtain ⟨heval, hty⟩ := @eval_unfield env f child v s hc
  generalize child.retype child.ty.unfield = host at heval hty ⊢
  simp only [Tree.eval, Place.read, genLoad, hty, heval, Ty.fieldPtr, Ty.volatilePtr, hostWord,
    loaded, Ty.bits, hc]

include h hsize hf hc in
/-- A field is tested against zero in its host word. -/
theorem eval_fieldTest (hop : op = .eq ∨ op = .neq) :
    (Tree.binary op ty (.binary .and (.scalar ts)
      (.fetch (.scalar ts) (child.retype child.ty.unfield)) (.con (.scalar ts) (fieldMask f) none))
      (.con (.scalar ts) 0 none)).eval env s =
    (Tree.binary op ty (.fetch (.scalar ts) child) (.con (.scalar ts) 0 none)).eval env s := by
  have hz : conNormalize ts 0 = 0 := by cases ts <;> decide
  have hrel : ∀ l r : Tree, (Tree.binary op ty l r).eval env s =
      (genRel env op l.ty (l.eval env s).1 (r.eval env (l.eval env s).2).1,
        (r.eval env (l.eval env s).2).2) := by
    intro l r
    rcases hop with rfl | rfl <;> rw [Tree.eval]
  rw [hrel, hrel, eval_and, eval_con h, eval_con h, eval_hostFetch hc, eval_fieldFetch hc,
    eval_con h, hz]
  refine Prod.ext ?_ rfl
  change genRel env op (.scalar ts) _ 0 = genRel env op (.scalar ts) _ 0
  obtain ⟨heq, hneq⟩ := @genRel_eq_zero env _ (.scalar ts) h (@extract_fits env ts f
    (hostWord env ts child s) h)
  obtain ⟨heq', hneq'⟩ := @genRel_eq_zero env _ (.scalar ts) h (@arithWord_fits env ts
    (hostWord env ts child s) (conNormalize ts (fieldMask f)) h .and)
  have hiff := @extract_eq_zero env ts f (hostWord env ts child s) h hsize hf
  rcases hop with rfl | rfl
  · exact heq'.trans ((congrArg truth (decide_eq_decide.mpr hiff.symm)).trans heq.symm)
  · refine hneq'.trans (Eq.trans ?_ hneq.symm)
    rw [decide_eq_decide.mpr hiff.symm]

include h hc in
/-- The value of a constant that is assigned to the field, and the word that is stored. -/
theorem eval_fieldStore :
    (Tree.binary .asg ty (.fetch (.scalar ts) child) (.con (.scalar ts) c none)).eval env s =
      (extract env ts f (insert env ts f (hostWord env ts child s) (conNormalize ts c)),
        genStore ts (child.eval env s).1
          (insert env ts f (hostWord env ts child s) (conNormalize ts c))
          (loaded env ts child s)) := by
  have hty : (Tree.con (.scalar ts) c none).ty = .scalar ts := rfl
  rw [eval_asg, eval_con h, hty]
  simp only [Tree.place, Place.write, genLoad, hc, Ty.fieldPtr, hostWord, loaded, Ty.bits]

include h hc in
/-- E_ANDASG and E_ORASG on the host word. -/
theorem eval_hostStore {mask : Word} (hop : op = .andasg ∨ op = .orasg) :
    (Tree.binary op ty (.fetch (.scalar ts) (child.retype child.ty.unfield))
      (.con (.scalar ts) mask none)).eval env s =
      (arithWord env (op.insn.getD .add) ts (hostWord env ts child s) (conNormalize ts mask),
        genStore ts (child.eval env s).1
          (arithWord env (op.insn.getD .add) ts (hostWord env ts child s) (conNormalize ts mask))
          (loaded env ts child s)) := by
  obtain ⟨heval, hty⟩ := @eval_unfield env f child v s hc
  have hne : op ≠ .post := by rcases hop with rfl | rfl <;> decide
  generalize child.retype child.ty.unfield = host at heval hty ⊢
  have hfetch : (Tree.fetch (.scalar ts) host).ty = .scalar ts := rfl
  rw [eval_compound (by rcases hop with rfl | rfl <;> rfl), eval_con h, hfetch]
  simp only [Tree.place, genCompound, Place.read, Place.write, genLoad, hty, heval, Ty.fieldPtr,
    Ty.volatilePtr, hostWord, loaded, Ty.bits, hc, if_neg hne]

/-- The value of an assignment to the field is the host word when the field alone matters. -/
def FieldIsWord (ts : TypeBits) (f : Field) (old c : Word) : Prop :=
  (placed f c = 0 → RestIs ts f old false) ∧
    (placed f c = fieldMask f →
      if ts.signed then RestIs ts f old true else f.shift = 0 ∧ RestIs ts f old false)

include h hsize hf hc in
/-- The trees that `field_tree_opt` is about: a test of a field, or an assignment of a constant.
    The rewritten one leaves the same state, and it yields the same value unless it is an
    assignment and the rest of the host word shows. -/
theorem eval_fieldTree (hop : op = .eq ∨ op = .neq ∨ op = .asg) :
    let tree := Tree.binary op ty (.fetch (.scalar ts) child) (.con (.scalar ts) c none)
    ((fieldTree tree).eval env s).2 = (tree.eval env s).2 ∧
      (((fieldTree tree).eval env s).1 = (tree.eval env s).1 ↔
        (op = .asg → FieldIsWord ts f (hostWord env ts child s) c)) := by
  have hfp : child.ty.fieldPtr = some f := by rw [hc]; rfl
  have hle := hostBits_le ts
  have hne : fieldMask f ≠ 0 := by
    intro hm
    have hbit := congrArg (fun w => w.getLsbD f.shift) hm
    simp only [getLsbD_fieldMask (f := f) (j := f.shift) (by omega) (by omega)] at hbit
    simp [show f.shift < f.size + f.shift by omega] at hbit
  have htest : op = .eq ∨ op = .neq →
      (fieldTree (.binary op ty (.fetch (.scalar ts) child)
          (.con (.scalar ts) c none))).eval env s =
        (Tree.binary op ty (.fetch (.scalar ts) child) (.con (.scalar ts) c none)).eval env s := by
    intro hop
    by_cases hz : (Tree.con (.scalar ts) c none).zero = true
    · have hfl : (Ty.scalar ts).floating = false := (Bool.not_eq_true' _).mp h
      have hc0 : c = 0 := by simpa [Tree.zero, hfl] using hz
      subst hc0
      rw [← eval_fieldTest h hsize hf hc hop]
      rcases hop with rfl | rfl <;> simp only [fieldTree, hfp, hz, if_true, Ty.bits]
    · rcases hop with rfl | rfl <;> simp [fieldTree, hfp, hz]
  intro tree
  rcases hop with rfl | rfl | rfl
  · rw [htest (.inl rfl)]
    exact ⟨rfl, by simp [tree]⟩
  · rw [htest (.inr rfl)]
    exact ⟨rfl, by simp [tree]⟩
  · have hfield : fieldTree tree = fieldAsg ty (.scalar ts) (.scalar ts) (.fetch (.scalar ts) child)
        (fieldMask f) (placed f c) c child := by
      simp only [tree, fieldTree, hfp, placed]
    rw [hfield, fieldAsg, show tree.eval env s = _ from eval_fieldStore h hc]
    simp only [forall_const]
    split
    · rename_i hz
      rw [eval_hostStore h hc (.inl rfl), insert_zero h hsize hf hz]
      refine ⟨rfl, Iff.trans eq_comm ((extract_cleared h hsize hf).trans ?_)⟩
      exact ⟨fun hr => ⟨fun _ => hr, fun hm => absurd (hm ▸ hz) hne⟩, fun hw => hw.1 hz⟩
    · rename_i hz
      split
      · rename_i hm
        rw [eval_hostStore h hc (.inr rfl), insert_mask h hsize hf hm]
        refine ⟨rfl, Iff.trans eq_comm ((extract_filled h hsize hf).trans ?_)⟩
        exact ⟨fun hr => ⟨fun h0 => absurd h0 hz, fun _ => hr⟩, fun hw => hw.2 hm⟩
      · rename_i hm
        rw [eval_fieldStore h hc]
        exact ⟨rfl, iff_of_true rfl ⟨fun h0 => absurd h0 hz, fun h1 => absurd h1 hm⟩⟩

include h in
/-- A test of a field does the same with its operands commuted. -/
theorem eval_normalize (hop : op = .eq ∨ op = .neq ∨ op = .asg)
    (hn : tree.normalize = .binary op ty (.fetch (.scalar ts) child) (.con (.scalar ts) c none)) :
    tree.normalize.eval env s = tree.eval env s := by
  unfold Tree.normalize at hn ⊢
  split at hn
  · rename_i op' ty' left right
    split at hn <;> rename_i hsw
    · simp only [Tree.binary.injEq] at hn
      obtain ⟨rfl, rfl, rfl, rfl⟩ := hn
      rw [if_pos hsw]
      have hint : (Ty.scalar ts).bits.integral = true := h
      have hsym : ∀ a b : Word,
          genRel env op' (.scalar ts) a b = genRel env op' (.scalar ts) b a := by
        intro a b
        rw [genRel_integral hint, genRel_integral hint]
        rcases hop with rfl | rfl | rfl
        · simp only [relCc, cmpHolds, Bool.beq_comm]
        · simp only [relCc, cmpHolds, bne_comm]
        · cases hsw
      have hrel : ∀ l r : Tree, (Tree.binary op' ty' l r).eval env s =
          (genRel env op' l.ty (l.eval env s).1 (r.eval env (l.eval env s).2).1,
            (r.eval env (l.eval env s).2).2) := by
        intro l r
        rcases hop with rfl | rfl | rfl
        · rw [Tree.eval]
        · rw [Tree.eval]
        · cases hsw
      rw [hrel, hrel, eval_con h, eval_con h]
      exact Prod.ext (hsym _ _) rfl
    · rw [if_neg hsw]
  · rfl

end

/-- `field_tree_opt` preserves what a test of a field and an assignment of a constant to it do, and
    what they yield, unless the assignment is one that clears or fills the field and the rest of
    the host word shows in its value. -/
theorem fieldTreeOpt_iff (env : Env) (s : State) (op : BinaryOp) (ty : Ty) (ts : TypeBits)
    (child tree : Tree) (v : Bool) (f : Field) (c : Word)
    (hop : op = .eq ∨ op = .neq ∨ op = .asg) (h : ts.integral = true) (hsize : 1 ≤ f.size)
    (hf : f.size + f.shift ≤ 8 * ts.sizeof) (hc : child.ty = .pointer v (some f))
    (hn : tree.normalize = .binary op ty (.fetch (.scalar ts) child) (.con (.scalar ts) c none)) :
    ((fieldTreeOpt tree).eval env s).2 = (tree.eval env s).2 ∧
      (((fieldTreeOpt tree).eval env s).1 = (tree.eval env s).1 ↔
        (op = .asg → FieldIsWord ts f (hostWord env ts child s) c)) := by
  rw [fieldTreeOpt, ← eval_normalize h hop hn, hn]
  exact eval_fieldTree h hsize hf hc hop

/-- `a.f = 0` of a field whose host word has no other bits set. -/
theorem fieldTreeOpt_clear :
    ((fieldTreeOpt (.binary .asg (.scalar .uint)
      (.fetch (.scalar .uint) (.sym (.pointer false (some ⟨3, 2⟩)) 1))
      (.con (.scalar .uint) 0 none))).eval default ⟨fun _ => 0, fun _ => 0, []⟩).2 =
    ((Tree.binary .asg (.scalar .uint)
      (.fetch (.scalar .uint) (.sym (.pointer false (some ⟨3, 2⟩)) 1))
      (.con (.scalar .uint) 0 none)).eval default ⟨fun _ => 0, fun _ => 0, []⟩).2 :=
  (fieldTreeOpt_iff default _ .asg _ .uint (.sym (.pointer false (some ⟨3, 2⟩)) 1) _ false ⟨3, 2⟩ 0
    (.inr (.inr rfl)) rfl (by decide) (by decide) rfl rfl).1

/-- `x = a.f = 0` gives `x` the neighbours of the field. -/
theorem fieldTreeOpt_chained : ¬ ∀ (env : Env) (s : State) (ty : Ty) (ts : TypeBits) (child : Tree)
    (f : Field) (c : Word), ts.integral = true → 1 ≤ f.size → f.size + f.shift ≤ 8 * ts.sizeof →
    child.ty = .pointer false (some f) →
    let tree := Tree.binary .asg ty (.fetch (.scalar ts) child) (.con (.scalar ts) c none)
    ((fieldTreeOpt tree).eval env s).1 = (tree.eval env s).1 := by
  intro hall
  exact absurd (hall default ⟨fun _ => 0, fun _ => 1, []⟩ (.scalar .uint) .uint
    (.sym (.pointer false (some ⟨3, 2⟩)) 1) ⟨3, 2⟩ 0 rfl (by decide) (by decide) rfl) (by decide)

end

end Ncc.Gen
