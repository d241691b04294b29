import Ncc.Composite

/-! The typing of `==`, `!=` and of the arms of `?:` (expr.c: `map_binary` and its helpers).

    Only the types of the operands matter here, and whether one is a null constant. The operands of
    `==` and `!=` are brought into an order (E_SWAP), those of `?:` are not: a null constant is
    converted on the right only. `typing_symmetric_iff` says that nothing else depends on the order. -/

namespace Ncc

/-- The loop of `type_requalify`: the qualifiers of `dst` give way to those of `src`, node by node. -/
def requalify : CType → Option CType → CType
  | .basic ts _, src => .basic ts ((src.map CType.quals).getD 0)
  | .strun tag _, src => .strun tag ((src.map CType.quals).getD 0)
  | .ptr _ t, src => .ptr ((src.map CType.quals).getD 0) (requalify t (src.bind CType.next))
  | .array _ n e, src =>
    .array ((src.map CType.quals).getD 0) n (requalify e (src.bind CType.next))
  | .oldFunc _ r, src => .oldFunc ((src.map CType.quals).getD 0) (requalify r (src.bind CType.next))
  | .func _ v fs r, src =>
    .func ((src.map CType.quals).getD 0) v fs (requalify r (src.bind CType.next))

/-- `type_requalify`. -/
def typeRequalify (dst src : CType) : CType := requalify dst (some src)

/-! ### Operands -/

/-- What matters of a tree: its type, and whether `tree_simplify` makes it a TREE_NULL_CON. -/
structure TypedTree where
  type : CType
  nullCon : Bool
  integral : nullCon = true → type.integral = true

/-- A tree that is no null constant. -/
def TypedTree.of (type : CType) : TypedTree := ⟨type, false, nofun⟩

/-- The type after `promote` (PROMOTE_NORMAL). -/
def promoteType : CType → CType
  | .basic .void q => .basic .void q
  | .basic .char _ | .basic .schar _ | .basic .uchar _ | .basic .short _ | .basic .ushort _ =>
    .basic .int 0
  | .basic ts _ => .basic ts 0
  | .strun tag q => .strun tag q
  | .ptr _ t => .ptr 0 t
  | .array q _ e => .ptr q e
  | .oldFunc q r => .ptr 0 (.oldFunc q r)
  | .func q v fs r => .ptr 0 (.func q v fs r)

theorem integral_promoteType {t : CType} (h : t.integral = true) :
    (promoteType t).integral = true := by
  cases t with
  | basic ts q => cases ts <;> first | rfl | exact nomatch h
  | _ => exact nomatch h

/-- `promote`. -/
def promote (t : TypedTree) : TypedTree :=
  ⟨promoteType t.type, t.nullCon, fun h => integral_promoteType (t.integral h)⟩

/-- The symmetric operators, and the `:` that joins the arms of `?:`. -/
inductive SymOp where
  | eqeq | noteq | colon
  deriving DecidableEq, Repr

/-- E_SWAP. -/
def SymOp.swap : SymOp → Bool
  | .eqeq | .noteq => true
  | .colon => false

/-- E_INT. -/
def SymOp.int : SymOp → Bool
  | .eqeq | .noteq => true
  | .colon => false

/-- The text of the token. -/
def SymOp.text : SymOp → String
  | .eqeq => "=="
  | .noteq => "!="
  | .colon => ":"

/-- `pointer_left`. -/
def pointerLeft (op : SymOp) (x : TypedTree × TypedTree) : TypedTree × TypedTree :=
  if op.swap && x.2.type.isPtr then (x.2, x.1) else x

/-- `null_constant`. -/
def nullConstant (x : TypedTree × TypedTree) : TypedTree × TypedTree :=
  if x.1.type.isPtr && x.2.type.integral && x.2.nullCon then (x.1, .of x.1.type) else x

/-- The type `void *`. -/
def voidptr : CType := .ptr 0 (.basic .void 0)

/-- `permute0`. -/
def permute0 (t : TypedTree) (type : CType) : TypedTree := .of (typeRequalify type t.type)

/-- `permute_voids`: PERMUTE_VOIDS_VOID for `:`, PERMUTE_VOIDS_LEFT for the others. -/
def permuteVoids (op : SymOp) (x : TypedTree × TypedTree) : TypedTree × TypedTree :=
  if (x.1.type.isPtr && x.2.type.isPtr) && (x.1.type.isVoidPtr || x.2.type.isVoidPtr) then
    if op = .colon then (permute0 x.1 voidptr, permute0 x.2 voidptr)
    else (x.1, permute0 x.2 x.1.type)
  else x

/-- The entries of `operands[]` for an operator. -/
def operandClasses : SymOp → List ((CType → Bool) × (CType → Bool))
  | .colon => [(CType.arith, CType.arith), (CType.isPtr, CType.isPtr),
      (CType.isStrun, CType.isStrun), (CType.isVoid, CType.isVoid)]
  | _ => [(CType.arith, CType.arith), (CType.isPtr, CType.isPtr)]

/-- The flags `check_operands` passes to `type_compat`. -/
def operandFlags : SymOp → CompatFlags
  | .colon => { mergeQuals := true }
  | _ => {}

/-- `check_operands`: the type of the left operand, updated. -/
def checkOperands (op : SymOp) (left right : CType) : Except String CType :=
  let incompatible := "incompatible operands to binary " ++ op.text
  if (operandClasses op).any fun c => c.1 left && c.2 right then
    if (left.isPtr && right.isPtr) || (left.isStrun && right.isStrun) then
      match typeCompat left right (operandFlags op) with
      | (.ok, left) => .ok left
      | (.error, _) => .error incompatible
      | (.discard, _) => .error "discards qualifiers"
    else .ok left
  else .error incompatible

/-- The type the usual arithmetic conversions end with: the loop of `usuals` over the type bits from
    T_LDOUBLE down to T_INT. -/
def usualTs (l r : Basic) : Basic :=
  (([.ldouble, .double, .float, .ulong, .long, .uint] : List Basic).find?
    fun ts => decide (ts = l) || decide (ts = r)).getD .int

/-- `usuals`: the types of both operands. -/
def usuals : CType → CType → CType × CType
  | .basic l ql, .basic r qr =>
    if l.arith && r.arith then
      let left := if usualTs l r = l then CType.basic l ql else .basic r qr
      let right := if usualTs l r = r then CType.basic r qr else left
      (left, right)
    else (.basic l ql, .basic r qr)
  | left, right => (left, right)

/-- `map_binary` from the check of the operands on: the type of the tree. -/
def mapChecked (op : SymOp) (x : TypedTree × TypedTree) : Except String CType :=
  match checkOperands op x.1.type x.2.type with
  | .error e => .error e
  | .ok left => .ok (if op.int then .basic .int 0 else (usuals left x.2.type).1)

/-- `map_binary`: the type of the tree it builds. -/
def mapBinary (left right : TypedTree) (op : SymOp) : Except String CType :=
  mapChecked op (permuteVoids op (nullConstant (pointerLeft op (left, promote right))))

/-! ### What is asked of it -/

/-- An operand of the operators: its promoted type is arithmetic, or a pointer. -/
def TypedTree.Operand (t : TypedTree) : Prop :=
  (promoteType t.type).arith = true ∨ (promoteType t.type).isPtr = true

/-- The operator takes the operands; its callers promote the left one. -/
def Accepts (op : SymOp) (l r : TypedTree) : Prop := ∃ t, mapBinary (promote l) r op = .ok t

/-- The typing does not depend on the order: both orders are accepted, or none; and two arms of a
    conditional have result types in both orders that are compatible and identically qualified, and
    that point to a type with the qualifiers of both. -/
def SymmetricTyping (op : SymOp) (l r : TypedTree) : Prop :=
  (Accepts op l r ↔ Accepts op r l) ∧
    ∀ t t', op = .colon → mapBinary (promote l) r op = .ok t → mapBinary (promote r) l op = .ok t' →
      (typeCompat t t' { quals := true }).1 = .ok ∧
        ∀ ql tl qr tr, promoteType l.type = .ptr ql tl → promoteType r.type = .ptr qr tr →
          ∃ q u, t = .ptr q u ∧ u.quals = tl.quals ||| tr.quals

/-- One arm of the conditional is a pointer, and the other a null constant. -/
def NullArm (op : SymOp) (l r : TypedTree) : Prop :=
  op = .colon ∧ ((promoteType l.type).isPtr = true ∧ r.nullCon = true ∨
    l.nullCon = true ∧ (promoteType r.type).isPtr = true)

/-! ### Qualifiers -/

mutual

/-- Without composing and merging, `type_compat` leaves its first type alone. -/
theorem update_id {fl : CompatFlags} (hc : fl.compose = false) (hg : fl.mergeQuals = false)
    (first : Bool) : ∀ d s : CType, update fl first d s = d
  | .basic ts d, s => by rw [update, mergedQuals_eq hg]
  | .strun tag d, s => by rw [update, mergedQuals_eq hg]
  | .ptr d t, s => by
      cases s with
      | ptr _ t' => rw [update, mergedQuals_eq hg, update_id hc hg false t t']
      | _ => rfl
  | .array d n e, s => by
      cases s with
      | array _ m e' =>
        rw [update, mergedQuals_eq hg, update_id hc hg false e e', composeElements, hc]
        rfl
      | _ => rfl
  | .oldFunc d r, s => by
      cases s with
      | oldFunc _ r' => rw [update, mergedQuals_eq hg, update_id hc hg false r r']
      | func _ v fs r' =>
        rw [update, mergedQuals_eq hg, update_id hc hg false r r', hc, if_neg (by simp)]
      | _ => rfl
  | .func d v fs r, s => by
      cases s with
      | oldFunc _ r' => rw [update, mergedQuals_eq hg, update_id hc hg false r r']
      | func _ v' fs' r' =>
        rw [update, mergedQuals_eq hg, update_id hc hg false r r', hc, updateFormals_id fs fs']
      | _ => rfl

theorem updateFormals_id : ∀ d s : Formals, updateFormals false d s = d
  | .nil, s => by simp [updateFormals]
  | .cons id reg t rest, s => by
      cases s with
      | nil => rfl
      | cons id' reg' t' rest' =>
        rw [updateFormals, update_id rfl rfl true t t', updateFormals_id rest rest']

end

/-- The flags with which the arms of `?:` are checked. -/
abbrev mergeFlags : CompatFlags := { mergeQuals := true }

theorem mergedQuals_merge (first : Bool) (d s : Quals) :
    mergedQuals mergeFlags first d s = d ||| s := rfl

/-- The qualifiers merged from both sides are the same. -/
theorem Compat.merge {k first : Bool} {d s : CType} : Compat false k d s →
    Compat true false (update mergeFlags first d s) (update mergeFlags first s d)
  | @Compat.basic _ _ ts d s _ => by
      rw [update, update, mergedQuals_merge, mergedQuals_merge]
      exact .basic (Or.inr (Or.inr (BitVec.or_comm d s)))
  | @Compat.strun _ _ tag d s _ => by
      rw [update, update, mergedQuals_merge, mergedQuals_merge]
      exact .strun (Or.inr (Or.inr (BitVec.or_comm d s)))
  | @Compat.ptr _ _ d s _ _ _ h => by
      rw [update, update, mergedQuals_merge, mergedQuals_merge]
      exact .ptr (Or.inr (Or.inr (BitVec.or_comm d s))) h.merge
  | @Compat.array _ _ d s _ _ _ _ _ hn h => by
      rw [update, update, mergedQuals_merge, mergedQuals_merge]
      exact .array (Or.inr (Or.inr (BitVec.or_comm d s))) hn h.merge
  | @Compat.oldOld _ _ d s _ _ _ h => by
      rw [update, update, mergedQuals_merge, mergedQuals_merge]
      exact .oldOld (Or.inr (Or.inr (BitVec.or_comm d s))) h.merge
  | @Compat.oldNew _ _ d s _ _ _ _ _ h => by
      rw [update, update, mergedQuals_merge, mergedQuals_merge, if_neg (by simp)]
      exact .oldNew (Or.inr (Or.inr (BitVec.or_comm d s))) h.merge
  | @Compat.newOld _ _ d s _ _ _ _ _ h => by
      rw [update, update, mergedQuals_merge, mergedQuals_merge, if_neg (by simp)]
      exact .newOld (Or.inr (Or.inr (BitVec.or_comm d s))) h.merge
  | @Compat.newNew _ _ d s _ _ _ _ _ _ hf h => by
      rw [update, update, mergedQuals_merge, mergedQuals_merge, updateFormals_id,
        updateFormals_id]
      exact .newNew (Or.inr (Or.inr (BitVec.or_comm d s))) hf h.merge

theorem quals_update_merge {k first : Bool} {d s : CType} (h : Compat false k d s) :
    (update mergeFlags first d s).quals = d.quals ||| s.quals := by
  cases h <;> rfl

/-- Requalifying keeps the type apart from its qualifiers. -/
theorem compat_requalify (k : Bool) : ∀ (d : CType) (s : Option CType),
    Compat false k d (requalify d s)
  | .basic .., _ => .basic (Or.inr (Or.inl rfl))
  | .strun .., _ => .strun (Or.inr (Or.inl rfl))
  | .ptr _ t, _ => .ptr (Or.inr (Or.inl rfl)) (compat_requalify false t _)
  | .array _ _ e, _ =>
    .array (Or.inr (Or.inl rfl)) (Or.inr (Or.inr rfl)) (compat_requalify false e _)
  | .oldFunc _ r, _ => .oldOld (Or.inr (Or.inl rfl)) (compat_requalify false r _)
  | .func _ _ fs r, _ => .newNew (Or.inr (Or.inl rfl)) (.refl fs) (compat_requalify false r _)

/-! ### What the check accepts -/

section
variable {op : SymOp} {ql qr : Quals} {tl tr : CType}

/-- Two pointers: they have to be compatible, and the left one may gain qualifiers. -/
theorem checkOperands_ptr :
    (Compat false false (.ptr ql tl) (.ptr qr tr) ∧
      checkOperands op (.ptr ql tl) (.ptr qr tr) =
        .ok (update (operandFlags op) true (.ptr ql tl) (.ptr qr tr))) ∨
    (¬ Compat false false (.ptr ql tl) (.ptr qr tr) ∧
      ∀ t, checkOperands op (.ptr ql tl) (.ptr qr tr) ≠ .ok t) := by
  have hclass : (operandClasses op).any (fun c => c.1 (.ptr ql tl) && c.2 (.ptr qr tr)) = true := by
    cases op <;> rfl
  have hmore : (operandFlags op).moreQuals = false := by cases op <;> rfl
  have hquals : (operandFlags op).quals = false := by cases op <;> rfl
  have hskip : (operandFlags op).skip = false := by cases op <;> rfl
  have hans := typeCompat_answers hmore (.ptr ql tl) (.ptr qr tr)
  rw [hquals, hskip] at hans
  unfold checkOperands
  simp only [hclass, if_true, CType.isPtr, Bool.and_self, Bool.true_or]
  rcases hans with ⟨hc, hx⟩ | ⟨hc, hx⟩
  · rw [hx]; exact Or.inl ⟨hc, rfl⟩
  · refine Or.inr ⟨hc, fun t => ?_⟩
    generalize typeCompat (.ptr ql tl) (.ptr qr tr) (operandFlags op) = y at hx ⊢
    obtain ⟨ret, dst⟩ := y
    obtain rfl : ret = .error := hx
    intro h
    cases h

theorem checkOperands_arith {l r : Basic} (hl : l.arith = true) (hr : r.arith = true) :
    checkOperands op (.basic l ql) (.basic r qr) = .ok (.basic l ql) := by
  have hclass : (operandClasses op).any (fun c => c.1 (.basic l ql) && c.2 (.basic r qr)) = true := by
    cases op <;> simp [operandClasses, CType.arith, hl, hr]
  unfold checkOperands
  rw [if_pos hclass]
  rfl

/-- A pointer and an arithmetic operand: refused, in either order. -/
theorem checkOperands_mixed {b : Basic} (hb : b.arith = true) (t : CType) :
    checkOperands op (.ptr ql tl) (.basic b qr) ≠ .ok t ∧
      checkOperands op (.basic b qr) (.ptr ql tl) ≠ .ok t := by
  have hvoid : b ≠ .void := by rintro rfl; cases hb
  have hl : (operandClasses op).any (fun c => c.1 (.ptr ql tl) && c.2 (.basic b qr)) = false := by
    cases op <;> simp [operandClasses, CType.arith, CType.isPtr, CType.isStrun, CType.isVoid]
  have hr : (operandClasses op).any (fun c => c.1 (.basic b qr) && c.2 (.ptr ql tl)) = false := by
    cases op <;> simp [operandClasses, CType.arith, CType.isPtr, CType.isStrun, CType.isVoid]
  unfold checkOperands
  rw [hl, hr]
  constructor <;> rintro ⟨⟩

end

/-! ### Pointers -/

section
variable {op : SymOp} {x : TypedTree × TypedTree} {ql qr : Quals} {tl tr : CType}

/-- Two pointers can be brought to compatible types. -/
def PointersOk (l r : CType) : Prop :=
  l.isVoidPtr = true ∨ r.isVoidPtr = true ∨ Compat false false l r

theorem PointersOk.symm {l r : CType} (h : PointersOk l r) : PointersOk r l := by
  rcases h with h | h | h
  · exact Or.inr (Or.inl h)
  · exact Or.inl h
  · exact Or.inr (Or.inr h.symm)

/-- A type that is compatible with `void` is `void`. -/
theorem Compat.isVoid {q k : Bool} {d s : CType} (h : Compat q k d s) : d.isVoid = s.isVoid := by
  cases h with
  | @basic _ _ ts => cases ts <;> rfl
  | _ => rfl

theorem typeRequalify_voidptr : typeRequalify voidptr (.ptr ql tl) = .ptr ql (.basic .void tl.quals) :=
  rfl

/-- What `permute_voids` makes of the types of two pointers. -/
theorem permuteVoids_ptr (hl : x.1.type = .ptr ql tl) (hr : x.2.type = .ptr qr tr) :
    ∃ ul ur, (permuteVoids op x).1.type = .ptr ql ul ∧ ul.quals = tl.quals ∧
      (∃ qr', (permuteVoids op x).2.type = .ptr qr' ur ∧ (op = .colon → qr' = qr)) ∧
      (op = .colon → ur.quals = tr.quals) ∧
      (Compat false false (permuteVoids op x).1.type (permuteVoids op x).2.type ↔
        PointersOk x.1.type x.2.type) := by
  have hptr : (x.1.type.isPtr && x.2.type.isPtr) = true := by rw [hl, hr]; rfl
  unfold permuteVoids
  rw [hptr, Bool.true_and]
  by_cases hvoid : (x.1.type.isVoidPtr || x.2.type.isVoidPtr) = true
  · have hok : PointersOk x.1.type x.2.type :=
      ((Bool.or_eq_true ..).mp hvoid).imp_right Or.inl
    rw [if_pos hvoid]
    split
    · refine ⟨.basic .void tl.quals, .basic .void tr.quals, ?_, rfl, ⟨qr, ?_, fun _ => rfl⟩,
        fun _ => rfl, iff_of_true ?_ hok⟩
      · simp only [permute0, TypedTree.of, hl, typeRequalify_voidptr]
      · simp only [permute0, TypedTree.of, hr, typeRequalify_voidptr]
      · simp only [permute0, TypedTree.of, hl, hr, typeRequalify_voidptr]
        exact .ptr (Or.inr (Or.inl rfl)) (.basic (Or.inr (Or.inl rfl)))
    · rename_i hop
      have hreq : (permute0 x.2 x.1.type).type = typeRequalify (.ptr ql tl) x.2.type := by
        rw [← hl]; rfl
      refine ⟨tl, _, hl, rfl, ⟨_, hreq, fun h => absurd h hop⟩, fun h => absurd h hop,
        iff_of_true ?_ hok⟩
      rw [hreq, hl]
      exact compat_requalify false _ _
  · rw [if_neg hvoid]
    refine ⟨tl, tr, hl, rfl, ⟨qr, hr, fun _ => rfl⟩, fun _ => rfl, fun h => Or.inr (Or.inr h), ?_⟩
    rintro (h | h | h)
    · exact absurd ((Bool.or_eq_true ..).mpr (Or.inl h)) hvoid
    · exact absurd ((Bool.or_eq_true ..).mpr (Or.inr h)) hvoid
    · exact h

theorem mapChecked_ptr (hl : x.1.type = .ptr ql tl) (hr : x.2.type = .ptr qr tr) :
    (∃ t, mapChecked op (permuteVoids op x) = .ok t) ↔ PointersOk x.1.type x.2.type := by
  obtain ⟨ul, ur, hl', _, ⟨qr', hr', _⟩, _, hok⟩ := @permuteVoids_ptr op _ _ _ _ _ hl hr
  rw [← hok, hl', hr', mapChecked, hl', hr']
  rcases @checkOperands_ptr op ql qr' ul ur with ⟨hc, hx⟩ | ⟨hc, hx⟩
  · rw [hx]; exact iff_of_true ⟨_, rfl⟩ hc
  · refine iff_of_false ?_ hc
    rintro ⟨t, ht⟩
    split at ht
    · cases ht
    · exact hx _ ‹_›

/-- The arms of a conditional are treated alike. -/
theorem permuteVoids_swap (x : TypedTree × TypedTree) : permuteVoids .colon (x.2, x.1) =
    ((permuteVoids .colon x).2, (permuteVoids .colon x).1) := by
  unfold permuteVoids
  simp only [Bool.and_comm x.2.type.isPtr, Bool.or_comm x.2.type.isVoidPtr, if_true]
  split <;> rfl

/-- The type of a conditional between pointers. -/
theorem mapChecked_colon (hl : x.1.type = .ptr ql tl) (hr : x.2.type = .ptr qr tr) {t : CType}
    (h : mapChecked .colon (permuteVoids .colon x) = .ok t) :
    t = update mergeFlags true (permuteVoids .colon x).1.type (permuteVoids .colon x).2.type ∧
      Compat false false (permuteVoids .colon x).1.type (permuteVoids .colon x).2.type := by
  obtain ⟨ul, ur, hl', _, ⟨qr', hr', _⟩, _, _⟩ := @permuteVoids_ptr .colon _ _ _ _ _ hl hr
  rw [mapChecked, hl', hr'] at h
  rw [hl', hr']
  rcases @checkOperands_ptr .colon ql qr' ul ur with ⟨hc, hx⟩ | ⟨_, hx⟩
  · rw [hx] at h
    exact ⟨(Except.ok.inj h).symm, hc⟩
  · split at h
    · exact nomatch h
    · exact absurd ‹_› (hx _)

end

/-! ### Promoted operands -/

/-- The arithmetic types that are left after promotion. -/
def Basic.promoted : Basic → Bool
  | .int | .uint | .long | .ulong | .float | .double | .ldouble => true
  | _ => false

theorem Basic.arith_of_promoted {b : Basic} (h : b.promoted = true) : b.arith = true := by
  cases b <;> first | rfl | exact nomatch h

/-- An operand is arithmetic, or a pointer that is no null constant. -/
theorem TypedTree.Operand.cases {t : TypedTree} (h : t.Operand) :
    (∃ b, promoteType t.type = .basic b 0 ∧ b.promoted = true) ∨
      ∃ q u, promoteType t.type = .ptr q u ∧ t.nullCon = false := by
  obtain ⟨type, nullCon, hint⟩ := t
  have hnull : type.integral = false → nullCon = false := by
    intro hno
    cases nullCon with
    | false => rfl
    | true => exact absurd (hint rfl) (by simp [hno])
  cases type with
  | basic ts q =>
    cases ts with
    | void => exact (h.elim nofun nofun)
    | char | schar | uchar | short | ushort => exact Or.inl ⟨.int, rfl, rfl⟩
    | _ => exact Or.inl ⟨_, rfl, rfl⟩
  | strun tag q => exact (h.elim nofun nofun)
  | _ => exact Or.inr ⟨_, _, rfl, hnull rfl⟩

/-- The usual arithmetic conversions end with the type of one of the operands. -/
theorem usualTs_mem {a b : Basic} (ha : a.promoted = true) (hb : b.promoted = true) :
    usualTs a b = a ∨ usualTs a b = b := by
  revert ha hb
  cases a <;> cases b <;> decide

theorem usualTs_comm (a b : Basic) : usualTs a b = usualTs b a := by
  simp only [usualTs, Bool.or_comm]

theorem usuals_left {a b : Basic} (ha : a.promoted = true) (hb : b.promoted = true) :
    (usuals (.basic a 0) (.basic b 0)).1 = .basic (usualTs a b) 0 := by
  have harith : (a.arith && b.arith) = true := by
    rw [Basic.arith_of_promoted ha, Basic.arith_of_promoted hb]; rfl
  simp only [usuals, harith, if_true]
  split
  · rename_i h; rw [h]
  · rename_i h; rw [(usualTs_mem ha hb).resolve_left h]

/-! ### The four kinds of operand pairs -/

section
variable {op : SymOp} {l r : TypedTree} {ql qr : Quals} {tl tr : CType} {a b : Basic}

/-- Two arithmetic operands. -/
theorem mapBinary_arith (hl : promoteType l.type = .basic a 0) (ha : a.promoted = true)
    (hr : promoteType r.type = .basic b 0) (hb : b.promoted = true) :
    mapBinary (promote l) r op = .ok (if op.int then .basic .int 0 else .basic (usualTs a b) 0) := by
  have hl' : (promote l).type = .basic a 0 := hl
  have hr' : (promote r).type = .basic b 0 := hr
  have hx : permuteVoids op (nullConstant (pointerLeft op (promote l, promote r))) =
      (promote l, promote r) := by
    simp [pointerLeft, nullConstant, permuteVoids, hl', hr', CType.isPtr]
  rw [mapBinary, hx, mapChecked]
  simp only [hl', hr', checkOperands_arith (Basic.arith_of_promoted ha) (Basic.arith_of_promoted hb),
    usuals_left ha hb]

/-- A pointer on the left, and an arithmetic operand on the right. -/
theorem nullable_iff (hl : l.type = .ptr ql tl) (hr : r.type = .basic b 0) (hb : b.promoted = true) :
    (∃ t, mapChecked op (permuteVoids op (nullConstant (l, r))) = .ok t) ↔ r.nullCon = true := by
  by_cases hn : r.nullCon = true
  · have hint : r.type.integral = true := r.integral hn
    have hx : nullConstant (l, r) = (l, .of l.type) := by
      simp [nullConstant, hl, CType.isPtr, hint, hn]
    rw [hx, mapChecked_ptr (x := (l, .of l.type)) hl hl]
    exact iff_of_true (Or.inr (Or.inr (.refl false false _))) hn
  · have hx : permuteVoids op (nullConstant (l, r)) = (l, r) := by
      simp [nullConstant, permuteVoids, hl, hr, CType.isPtr, hn]
    rw [hx, mapChecked, hl, hr]
    refine iff_of_false ?_ hn
    rintro ⟨t, ht⟩
    split at ht
    · cases ht
    · exact (checkOperands_mixed (Basic.arith_of_promoted hb) _).1 ‹_›

/-- An arithmetic operand on the left, and a pointer on the right. -/
theorem colon_mixed (hl : l.type = .basic b 0) (hb : b.promoted = true) (hr : r.type = .ptr qr tr)
    (t : CType) : mapChecked .colon (permuteVoids .colon (nullConstant (l, r))) ≠ .ok t := by
  have hx : permuteVoids .colon (nullConstant (l, r)) = (l, r) := by
    simp [nullConstant, permuteVoids, hl, hr, CType.isPtr]
  rw [hx, mapChecked, hl, hr]
  intro ht
  split at ht
  · cases ht
  · exact (checkOperands_mixed (Basic.arith_of_promoted hb) _).2 ‹_›

theorem accepts_arith (hl : promoteType l.type = .basic a 0) (ha : a.promoted = true)
    (hr : promoteType r.type = .basic b 0) (hb : b.promoted = true) : Accepts op l r :=
  ⟨_, mapBinary_arith hl ha hr hb⟩

/-- A pointer and an arithmetic operand: the latter has to be a null constant. -/
theorem accepts_ptr_arith (hl : promoteType l.type = .ptr ql tl)
    (hr : promoteType r.type = .basic b 0) (hb : b.promoted = true) :
    Accepts op l r ↔ r.nullCon = true := by
  have hx : pointerLeft op (promote l, promote r) = (promote l, promote r) := by
    have hr' : (promote r).type = .basic b 0 := hr
    simp [pointerLeft, hr', CType.isPtr]
  unfold Accepts mapBinary
  rw [hx]
  exact nullable_iff (r := promote r) hl hr hb

/-- So it is in the other order, if the operands are swapped; otherwise they are refused. -/
theorem accepts_arith_ptr (hl : promoteType l.type = .basic b 0) (hb : b.promoted = true)
    (hr : promoteType r.type = .ptr qr tr) :
    Accepts op l r ↔ op.swap = true ∧ l.nullCon = true := by
  have hr' : (promote r).type = .ptr qr tr := hr
  unfold Accepts mapBinary
  cases hs : op.swap with
  | true =>
    have hx : pointerLeft op (promote l, promote r) = (promote r, promote l) := by
      simp [pointerLeft, hs, hr', CType.isPtr]
    rw [hx]
    rw [nullable_iff (r := promote l) hr hl hb]
    exact ⟨fun h => ⟨rfl, h⟩, fun h => h.2⟩
  | false =>
    have hop : op = .colon := by cases op <;> first | rfl | cases hs
    have hx : pointerLeft op (promote l, promote r) = (promote l, promote r) := by
      simp [pointerLeft, hs]
    rw [hx, hop]
    refine iff_of_false ?_ (by simp)
    rintro ⟨t, ht⟩
    exact colon_mixed hl hb hr t ht

/-- Two pointers. -/
theorem accepts_ptr (hl : promoteType l.type = .ptr ql tl) (hr : promoteType r.type = .ptr qr tr) :
    Accepts op l r ↔ PointersOk (promoteType l.type) (promoteType r.type) := by
  have hl' : (promote l).type = .ptr ql tl := hl
  have hr' : (promote r).type = .ptr qr tr := hr
  have hnull : ∀ x : TypedTree × TypedTree, x.2.type.integral = false → nullConstant x = x := by
    intro x hx
    simp [nullConstant, hx]
  unfold Accepts mapBinary
  cases hs : op.swap with
  | true =>
    have hx : pointerLeft op (promote l, promote r) = (promote r, promote l) := by
      simp [pointerLeft, hs, hr', CType.isPtr]
    rw [hx, hnull _ (by rw [hl']; rfl), mapChecked_ptr hr' hl']
    exact ⟨PointersOk.symm, PointersOk.symm⟩
  | false =>
    have hx : pointerLeft op (promote l, promote r) = (promote l, promote r) := by
      simp [pointerLeft, hs]
    rw [hx, hnull _ (by rw [hr']; rfl), mapChecked_ptr hl' hr']
    rfl

/-- The conditional between two pointers is checked as it stands. -/
theorem mapBinary_colon_ptr (hr : promoteType r.type = .ptr qr tr) :
    mapBinary (promote l) r .colon = mapChecked .colon (permuteVoids .colon (promote l, promote r)) := by
  have hr' : (promote r).type = .ptr qr tr := hr
  have hx : nullConstant (pointerLeft .colon (promote l, promote r)) = (promote l, promote r) := by
    simp [pointerLeft, SymOp.swap, nullConstant, hr', CType.integral]
  rw [mapBinary, hx]

end

/-! ### Symmetry -/

/-- The order does not matter for two arithmetic operands. -/
theorem symmetricTyping_arith {op : SymOp} {l r : TypedTree} {a b : Basic}
    (hl : promoteType l.type = .basic a 0) (ha : a.promoted = true)
    (hr : promoteType r.type = .basic b 0) (hb : b.promoted = true) : SymmetricTyping op l r := by
  refine ⟨iff_of_true (accepts_arith hl ha hr hb) (accepts_arith hr hb hl ha), ?_⟩
  rintro t t' rfl ht ht'
  rw [mapBinary_arith hl ha hr hb] at ht
  rw [mapBinary_arith hr hb hl ha, usualTs_comm] at ht'
  obtain rfl : _ = t := Except.ok.inj ht
  obtain rfl : _ = t' := Except.ok.inj ht'
  refine ⟨(typeCompat_ok_iff rfl).mpr (.refl true false _), fun ql tl qr tr hpl => ?_⟩
  rw [hl] at hpl
  exact nomatch hpl

/-- The order does not matter for two pointers. -/
theorem symmetricTyping_ptr {op : SymOp} {l r : TypedTree} {ql qr : Quals} {tl tr : CType}
    (hl : promoteType l.type = .ptr ql tl) (hr : promoteType r.type = .ptr qr tr) :
    SymmetricTyping op l r := by
  refine ⟨?_, ?_⟩
  · rw [accepts_ptr hl hr, accepts_ptr hr hl]
    exact ⟨PointersOk.symm, PointersOk.symm⟩
  rintro t t' rfl ht ht'
  rw [mapBinary_colon_ptr hr] at ht
  rw [mapBinary_colon_ptr hl] at ht'
  obtain ⟨rfl, hc⟩ := mapChecked_colon (x := (promote l, promote r)) hl hr ht
  obtain ⟨rfl, _⟩ := mapChecked_colon (x := (promote r, promote l)) hr hl ht'
  rw [permuteVoids_swap (promote l, promote r)]
  refine ⟨(typeCompat_ok_iff rfl).mpr hc.merge, fun ql' tl' qr' tr' hpl hpr => ?_⟩
  obtain ⟨rfl, rfl⟩ := CType.ptr.inj (hl.symm.trans hpl)
  obtain ⟨rfl, rfl⟩ := CType.ptr.inj (hr.symm.trans hpr)
  obtain ⟨ul, ur, hl', hul, ⟨qr', hr', _⟩, hur, _⟩ :=
    @permuteVoids_ptr .colon (promote l, promote r) _ _ _ _ hl hr
  rw [hl', hr'] at hc ⊢
  cases hc with
  | ptr _ htarget =>
    refine ⟨_, _, rfl, ?_⟩
    rw [quals_update_merge htarget, hul, hur rfl]

/-- A pointer and an arithmetic operand: the order matters to a conditional with a null constant. -/
theorem symmetricTyping_mixed {op : SymOp} {l r : TypedTree} {q : Quals} {u : CType} {b : Basic}
    (hl : promoteType l.type = .ptr q u) (hr : promoteType r.type = .basic b 0)
    (hb : b.promoted = true) :
    (SymmetricTyping op l r ↔ ¬ (op = .colon ∧ r.nullCon = true)) ∧
      (SymmetricTyping op r l ↔ ¬ (op = .colon ∧ r.nullCon = true)) := by
  have hlr : Accepts op l r ↔ r.nullCon = true := accepts_ptr_arith hl hr hb
  have hrl : Accepts op r l ↔ op.swap = true ∧ r.nullCon = true := accepts_arith_ptr hr hb hl
  have hswap : op.swap = true ↔ op ≠ .colon := by cases op <;> simp [SymOp.swap]
  have hboth : (Accepts op l r ↔ Accepts op r l) ↔ ¬ (op = .colon ∧ r.nullCon = true) := by
    rw [hlr, hrl, hswap]
    tauto
  -- a conditional in the order that is refused has no type
  have hno : op = .colon → ∀ t, mapBinary (promote r) l op ≠ .ok t := fun hop t ht =>
    (hswap.mp (hrl.mp ⟨t, ht⟩).1) hop
  exact ⟨⟨fun h => hboth.mp h.1, fun h => ⟨hboth.mpr h, fun t t' hop _ ht' => absurd ht' (hno hop t')⟩⟩,
    ⟨fun h => hboth.mp h.1.symm, fun h => ⟨(hboth.mpr h).symm, fun t t' hop ht _ =>
      absurd ht (hno hop t)⟩⟩⟩

/-- The typing of `==`, `!=` and of the arms of `?:` does not depend on the order of the operands,
    except where one arm is a pointer and the other a null constant. -/
theorem typing_symmetric_iff (op : SymOp) (l r : TypedTree) (hl : l.Operand) (hr : r.Operand) :
    SymmetricTyping op l r ↔ ¬ NullArm op l r := by
  rcases hl.cases with ⟨a, hl, ha⟩ | ⟨ql, tl, hl, hln⟩ <;>
    rcases hr.cases with ⟨b, hr, hb⟩ | ⟨qr, tr, hr, hrn⟩
  · refine iff_of_true (symmetricTyping_arith hl ha hr hb) ?_
    simp [NullArm, hl, hr, CType.isPtr]
  · rw [(symmetricTyping_mixed hr hl ha).2]
    simp [NullArm, hl, hr, CType.isPtr]
  · rw [(symmetricTyping_mixed hl hr hb).1]
    simp [NullArm, hl, hr, CType.isPtr]
  · refine iff_of_true (symmetricTyping_ptr hl hr) ?_
    simp [NullArm, hln, hrn]

/-- `p == q` with `int *p` and `const int *q`. -/
theorem typing_symmetric_const :
    SymmetricTyping .eqeq (.of (.ptr 0 (.basic .int 0))) (.of (.ptr 0 (.basic .int Quals.const))) ↔
      ¬ NullArm .eqeq (.of (.ptr 0 (.basic .int 0))) (.of (.ptr 0 (.basic .int Quals.const))) :=
  typing_symmetric_iff _ _ _ (Or.inr rfl) (Or.inr rfl)

/-- `c ? p : 0` is accepted, and `c ? 0 : p` is not. -/
theorem not_typing_symmetric : ¬ ∀ (op : SymOp) (l r : TypedTree), l.Operand → r.Operand →
    SymmetricTyping op l r := by
  intro hall
  have hsym := hall .colon (.of (.ptr 0 (.basic .int 0))) ⟨.basic .int 0, true, fun _ => rfl⟩
    (Or.inr rfl) (Or.inl rfl)
  have hok : Accepts .colon (.of (.ptr 0 (.basic .int 0))) ⟨.basic .int 0, true, fun _ => rfl⟩ :=
    ⟨.ptr 0 (.basic .int 0), rfl⟩
  obtain ⟨t, ht⟩ := hsym.1.mp hok
  exact nomatch ht

end Ncc
