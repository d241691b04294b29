import Ncc.Gen.Normal
import Ncc.Lib.Fuel

/-! Reassociation (algebra.c).

    A constant on the right of an associative operator changes places with what stands beside the
    nearest other constant below it, and `tree_simplify` folds the two. Words are compared in the
    bits that the width of the operands has; what is neither a constant nor the same operator is a
    leaf, with any value. -/

namespace Ncc.Gen

/-- E_ASSOC. -/
def assoc : BinaryOp → Bool
  | .xor | .mul | .add | .and | .or => true
  | _ => false

/-- `find_constant`: the nearest subtree whose operand is a constant, with the exchange that follows
    it. The left operand of that subtree, which is returned, makes room for `x`. -/
def exchange (op : BinaryOp) (x : Tree) : Tree → Option (Tree × Tree)
  | .binary op' ty left right =>
    if op' ≠ op then none
    else if left.pureCon then some (.binary op' ty x left, right)
    else if right.pureCon then some (.binary op' ty x right, left)
    else
      match exchange op x right with
      | some (right, y) => some (.binary op' ty left right, y)
      | none =>
        match exchange op x left with
        | some (left, y) => some (.binary op' ty left right, y)
        | none => none
  | _ => none

/-- The loop of `algebra_tree_opt` up to `tree_simplify`: the tree it ends with, or the one that is
    to be simplified. -/
def algebraTurn : Tree → Tree ⊕ Tree
  | .binary op ty left right =>
    if assoc op then
      match (Tree.binary op ty left right).normalize with
      | .binary op ty left right =>
        if ty.discrete && right.pureCon then
          match exchange op right left with
          | some (left, x) => .inr (.binary op ty left x)
          | none => .inl (.binary op ty left right)
        else .inl (.binary op ty left right)
      | tree => .inl tree
    else .inl (.binary op ty left right)
  | tree => .inl tree

/-- `algebra_tree_opt`; nothing when the host stops. -/
def algebraTreeOpt (host : Host) : Nat → Tree → Option Tree
  | 0, _ => none
  | n + 1, tree =>
    match algebraTurn tree with
    | .inl tree => some tree
    | .inr tree => (tree.simplify host).bind (algebraTreeOpt host n)

/-! ### The operands of one operator -/

/-- The operator on words. -/
def opWord (op : BinaryOp) (a b : Word) : Word := aluBinary (op.insn.getD .add) .ulong a b

section
variable (addr : Symbol → Word) (ρ : Tree → Word) (op : BinaryOp) (ts : TypeBits)

/-- The value of a tree, when the leaves have the values `ρ`. -/
def value : Tree → Word
  | .con _ c none => c
  | .con _ c (some x) => addr x + c
  | .binary op' ty left right =>
    if op' = op then opWord op (value left) (value right) else ρ (.binary op' ty left right)
  | tree => ρ tree

/-- The leaves, from left to right; of the constants, only the symbols count. -/
def leaves : Tree → List Tree
  | .con _ _ none => []
  | .con _ _ (some x) => [.con .void 0 (some x)]
  | .binary op' ty left right =>
    if op' = op then leaves left ++ leaves right else [.binary op' ty left right]
  | tree => [tree]

/-- The operators have discrete types of the width of `ts`. -/
def Spine : Tree → Prop
  | .binary op' ty left right =>
    op' = op → (ty.discrete = true ∧ ty.bits.sizeof = ts.sizeof) ∧ Spine left ∧ Spine right
  | _ => True

end

section
variable {host : Host} {addr : Symbol → Word} {ρ : Tree → Word} {op : BinaryOp} {ts : TypeBits}
variable {ty : Ty} {left right tree result x y : Tree} {a b c : Word}

theorem assoc_swap (h : assoc op = true) : op.swap = true := by
  cases op <;> first | rfl | cases h

theorem assoc_cases (h : assoc op = true) :
    op = .xor ∨ op = .mul ∨ op = .add ∨ op = .and ∨ op = .or := by
  cases op <;> simp_all [assoc]

theorem opWord_comm (h : assoc op = true) (a b : Word) : opWord op a b = opWord op b a := by
  obtain rfl | rfl | rfl | rfl | rfl := assoc_cases h
  · exact BitVec.xor_comm a b
  · exact BitVec.mul_comm a b
  · exact BitVec.add_comm a b
  · exact BitVec.and_comm a b
  · exact BitVec.or_comm a b

theorem opWord_assoc (h : assoc op = true) (a b c : Word) :
    opWord op (opWord op a b) c = opWord op a (opWord op b c) := by
  obtain rfl | rfl | rfl | rfl | rfl := assoc_cases h
  · exact BitVec.xor_assoc a b c
  · exact BitVec.mul_assoc a b c
  · exact BitVec.add_assoc a b c
  · exact BitVec.and_assoc a b c
  · exact BitVec.or_assoc a b c

/-- The low bits of the result depend on those of the operands. -/
theorem low_opWord (h : assoc op = true) {a' b' : Word} (ha : low ts a = low ts a')
    (hb : low ts b = low ts b') : low ts (opWord op a b) = low ts (opWord op a' b') := by
  have hcongr : ∀ {i}, op.twos = true → op.insn = some i →
      low ts (aluBinary i .ulong a b) = low ts (aluBinary i .ulong a' b') := by
    intro i htwos hi
    have hts : ∀ a b, aluBinary i .ulong a b = aluBinary i ts a b := by
      intro a b
      cases op <;> cases htwos <;> cases hi <;> rfl
    rw [hts, hts]
    exact low_aluBinary htwos hi ha hb
  obtain rfl | rfl | rfl | rfl | rfl := assoc_cases h <;> exact hcongr rfl rfl

/-- What the host makes of two constants. -/
theorem foldI_eq (h : assoc op = true) (hty : ty.discrete = true) (hs : ty.bits.sizeof = ts.sizeof)
    (a b : Word) : ∃ c, foldI op ty a b = some c ∧ low ts c = low ts (opWord op a b) := by
  have hint : ty.bits.integral = true := by
    cases ty <;> first | exact hty | rfl
  have hlow : ∀ w : Word, low ts (conNormalize ty.bits w) = low ts w :=
    fun w => low_conNormalize hint hs.ge w
  refine ⟨conNormalize ty.bits (opWord op a b), ?_, hlow _⟩
  obtain rfl | rfl | rfl | rfl | rfl := assoc_cases h <;>
    simp [foldI, BinaryOp.insn, conFoldBinary, opWord, aluBinary]

theorem not_floating (hty : ty.discrete = true) : ty.floating = false := by
  cases ty with
  | scalar ts => exact (Bool.not_eq_true' _).mp hty
  | _ => rfl

theorem foldAny_eq (hty : ty.discrete = true) (a b : Word) :
    foldAny host op ty a b = foldI op ty a b := by
  rw [foldAny, not_floating hty]
  rfl

/-- The tree is a node of the operator, or a constant. -/
def Rooted (op : BinaryOp) (t : Tree) : Prop :=
  (∃ ty left right, t = .binary op ty left right) ∨ ∃ ty c x, t = .con ty c x

/-- A tree with the operator at its root has become another one. -/
structure Folds (addr : Symbol → Word) (ρ : Tree → Word) (op : BinaryOp) (ts : TypeBits)
    (left right result : Tree) : Prop where
  rooted : Rooted op result
  spine : Spine op ts result
  value : low ts (value addr ρ op result) =
    low ts (opWord op (value addr ρ op left) (value addr ρ op right))
  leaves : (leaves op result).Perm (leaves op left ++ leaves op right)

/-- The node as it is. -/
theorem folds_node (hty : ty.discrete = true) (hs : ty.bits.sizeof = ts.sizeof)
    (hl : Spine op ts left) (hr : Spine op ts right) :
    Folds addr ρ op ts left right (.binary op ty left right) where
  rooted := .inl ⟨_, _, _, rfl⟩
  spine := fun _ => ⟨⟨hty, hs⟩, hl, hr⟩
  value := by rw [value, if_pos rfl]
  leaves := by rw [leaves, if_pos rfl]

theorem Folds.comm (h : assoc op = true) (hf : Folds addr ρ op ts left right result) :
    Folds addr ρ op ts right left result where
  rooted := hf.rooted
  spine := hf.spine
  value := by rw [hf.value, opWord_comm h]
  leaves := hf.leaves.trans List.perm_append_comm

theorem foldPure_eq (h : assoc op = true) (hne : op ≠ .add) (hty : ty.discrete = true) :
    Tree.foldPure host op ty left right a b =
      (foldI op ty a b).map fun c => .con ty c none := by
  obtain rfl | rfl | rfl | rfl | rfl := assoc_cases h <;> first
    | rfl
    | (rw [Tree.foldPure, foldAny_eq hty])
    | exact absurd rfl hne

/-- `simplify0` folds two constants, and leaves other operands alone. -/
theorem foldConstants_folds (h : assoc op = true) (hty : ty.discrete = true)
    (hs : ty.bits.sizeof = ts.sizeof) (hl : Spine op ts left) (hr : Spine op ts right) :
    ∃ t, Tree.foldConstants host op ty left right = some t ∧ Folds addr ρ op ts left right t := by
  have hsub : op ≠ .sub := by rintro rfl; cases h
  unfold Tree.foldConstants
  split
  · rename_i tl a sl tr b sr
    rw [if_neg (fun hh => hsub hh.1)]
    obtain ⟨c, hc, hlow⟩ := foldI_eq h hty hs a b
    split
    · rename_i hadd
      obtain ⟨rfl, rfl | rfl⟩ := hadd
      · rw [foldAny_eq hty, hc]
        refine ⟨_, rfl, .inr ⟨_, _, _, rfl⟩, trivial, ?_, ?_⟩
        · cases sl with
          | none => exact hlow
          | some x =>
            change low ts (opWord .add (addr x) c) = low ts (opWord .add (opWord .add (addr x) a) b)
            rw [opWord_assoc h]
            exact low_opWord h rfl hlow
        · cases sl <;> exact .refl _
      · exact absurd rfl hsub
    · rename_i hadd
      split
      · rename_i hnone
        obtain ⟨rfl, rfl⟩ := hnone
        rw [foldPure_eq h (fun he => hadd ⟨rfl, .inl he⟩) hty, hc]
        exact ⟨_, rfl, .inr ⟨_, _, _, rfl⟩, trivial, hlow, .refl _⟩
      · exact ⟨_, rfl, folds_node hty hs hl hr⟩
  · exact ⟨_, rfl, folds_node hty hs hl hr⟩

/-- The operands may have been commuted before. -/
theorem simplify0_folds (h : assoc op = true) (hty : ty.discrete = true)
    (hs : ty.bits.sizeof = ts.sizeof) (hl : Spine op ts left) (hr : Spine op ts right) :
    ∃ t, Tree.simplify0 host (.binary op ty left right) = some t ∧
      Folds addr ρ op ts left right t := by
  have hbin : ∀ l r, Tree.simplifyBinary host op ty l r = Tree.foldConstants host op ty l r := by
    intro l r
    obtain rfl | rfl | rfl | rfl | rfl := assoc_cases h <;> rfl
  simp only [Tree.simplify0, assoc_swap h, Bool.true_and, hbin]
  split
  · obtain ⟨t, ht, hf⟩ := @foldConstants_folds host addr ρ op ts ty right left h hty hs hr hl
    exact ⟨t, ht, hf.comm h⟩
  · exact foldConstants_folds h hty hs hl hr

/-! ### tree_simplify on the operands -/

/-- The simplified tree, if the host does not stop. -/
def simp (host : Host) (t : Tree) : Tree := (t.simplify host).getD t

/-- `tree_simplify` brings a leaf into a tree of the same value. -/
def LeafOk (host : Host) (addr : Symbol → Word) (ρ : Tree → Word) (op : BinaryOp) (ts : TypeBits)
    (l : Tree) : Prop :=
  ∃ t, l.simplify host = some t ∧ Spine op ts t ∧
    low ts (value addr ρ op t) = low ts (value addr ρ op l)

/-- The leaves of a tree, when each of them has been simplified. -/
def simpLeaves (host : Host) (op : BinaryOp) (t : Tree) : List Tree :=
  (leaves op t).flatMap fun l => leaves op (simp host l)

/-- What `tree_simplify` makes of a tree of one operator. -/
structure SpineSimplified (host : Host) (addr : Symbol → Word) (ρ : Tree → Word) (op : BinaryOp)
    (ts : TypeBits) (t r : Tree) : Prop where
  simplify : t.simplify host = some r
  rooted : ∀ ty left right, t = .binary op ty left right → Rooted op r
  spine : Spine op ts r
  value : low ts (value addr ρ op r) = low ts (value addr ρ op t)
  leaves : (leaves op r).Perm (simpLeaves host op t)

theorem simplified_leaf {t : Tree} (ht : leaves op t = [t])
    (hne : ∀ ty left right, t ≠ .binary op ty left right) (hok : LeafOk host addr ρ op ts t) :
    ∃ r, SpineSimplified host addr ρ op ts t r := by
  obtain ⟨r, hr, hsp, hv⟩ := hok
  refine ⟨r, hr, fun ty left right he => absurd he (hne ty left right), hsp, hv, ?_⟩
  rw [simpLeaves, ht, List.flatMap_singleton, simp, hr]
  exact .refl _

/-- `tree_simplify` keeps the value, and every leaf. -/
theorem simplify_spine (h : assoc op = true) : ∀ (t : Tree), Spine op ts t →
    (∀ l ∈ leaves op t, LeafOk host addr ρ op ts l) →
    ∃ r, SpineSimplified host addr ρ op ts t r := by
  intro t
  induction t with
  | con ty c x =>
    intro _ _
    refine ⟨_, rfl, fun _ _ _ he => ?_, trivial, rfl, ?_⟩
    · cases he
    · cases x <;> exact .refl _
  | binary op' ty l r ihl ihr =>
    intro hsp hok
    by_cases ho : op' = op
    · subst ho
      obtain ⟨⟨hty, hs⟩, hl, hr⟩ := hsp rfl
      have hmem : ∀ u, u ∈ leaves op' l ∨ u ∈ leaves op' r → LeafOk host addr ρ op' ts u := by
        intro u hu
        refine hok u ?_
        rw [leaves, if_pos rfl]
        exact List.mem_append.mpr hu
      obtain ⟨l', hl'⟩ := ihl hl fun u hu => hmem u (.inl hu)
      obtain ⟨r', hr'⟩ := ihr hr fun u hu => hmem u (.inr hu)
      obtain ⟨t, ht, hf⟩ :=
        @simplify0_folds host addr ρ op' ts ty l' r' h hty hs hl'.spine hr'.spine
      refine ⟨t, ?_, fun _ _ _ _ => hf.rooted, hf.spine, ?_, ?_⟩
      · rw [Tree.simplify, hl'.simplify, Option.bind_some, hr'.simplify, Option.bind_some, ht]
      · rw [hf.value, value, if_pos rfl]
        exact low_opWord h hl'.value hr'.value
      · refine hf.leaves.trans ?_
        rw [simpLeaves, leaves, if_pos rfl, List.flatMap_append]
        exact hl'.leaves.append hr'.leaves
    · have hleaf : leaves op (.binary op' ty l r) = [.binary op' ty l r] := by
        rw [leaves, if_neg ho]
      refine simplified_leaf hleaf (fun _ _ _ he => ?_) (hok _ (hleaf ▸ List.mem_singleton_self _))
      cases he
      exact ho rfl
  | _ =>
    intro _ hok
    refine simplified_leaf rfl (fun _ _ _ he => ?_) (hok _ (List.mem_singleton_self _))
    cases he

/-- The leaves of a tree are not nodes of the operator. -/
theorem leaves_leaf : ∀ {t l : Tree}, l ∈ leaves op t → leaves op l = [l] ∧ Spine op ts l := by
  intro t
  induction t with
  | con ty c x =>
    intro l hl
    cases x with
    | none => exact absurd hl List.not_mem_nil
    | some x =>
      obtain rfl := List.mem_singleton.mp hl
      exact ⟨rfl, trivial⟩
  | binary op' ty left right ihl ihr =>
    intro l hl
    rw [leaves] at hl
    split at hl
    · exact (List.mem_append.mp hl).elim ihl ihr
    · rename_i ho
      obtain rfl := List.mem_singleton.mp hl
      exact ⟨by rw [leaves, if_neg ho], fun he => absurd he ho⟩
  | _ =>
    intro l hl
    obtain rfl := List.mem_singleton.mp hl
    exact ⟨rfl, trivial⟩

/-- The leaves of a normal tree are normal. -/
theorem normal_leaves : ∀ {t : Tree}, t.Normal host → ∀ l ∈ leaves op t, l.Normal host := by
  intro t
  induction t with
  | con ty c x =>
    intro _ l hl
    cases x with
    | none => exact absurd hl List.not_mem_nil
    | some x =>
      obtain rfl := List.mem_singleton.mp hl
      exact rfl
  | binary op' ty left right ihl ihr =>
    intro hn l hl
    obtain ⟨hc, -⟩ := hn.below
    rw [leaves] at hl
    split at hl
    · exact (List.mem_append.mp hl).elim (ihl (hc left (by simp [Tree.children])) l)
        (ihr (hc right (by simp [Tree.children])) l)
    · obtain rfl := List.mem_singleton.mp hl
      exact hn
  | _ =>
    intro hn l hl
    obtain rfl := List.mem_singleton.mp hl
    exact hn

/-- The leaves of a normal tree stay. -/
theorem simpLeaves_normal {t : Tree} (hn : t.Normal host) :
    simpLeaves host op t = leaves op t ∧ ∀ l ∈ leaves op t, LeafOk host addr ρ op ts l := by
  have hsimp : ∀ l ∈ leaves op t, leaves op (simp host l) = [l] := by
    intro l hl
    have hl' : l.simplify host = some l := normal_leaves hn l hl
    rw [simp, hl', Option.getD_some]
    exact (@leaves_leaf op ts t l hl).1
  constructor
  · rw [simpLeaves, List.flatMap_congr hsimp, List.flatMap_singleton']
  · intro l hl
    exact ⟨l, normal_leaves hn l hl, (leaves_leaf hl).2, rfl⟩

/-! ### The exchange -/

/-- Two constants stand side by side. -/
def Foldable (op : BinaryOp) : Tree → Prop
  | .binary op' _ left right =>
    op' = op ∧ ((left.pureCon = true ∧ right.pureCon = true) ∨ Foldable op left ∨ Foldable op right)
  | _ => False

/-- Folding makes the tree smaller. -/
theorem size_simplify_lt (h : assoc op = true) : ∀ {t r : Tree}, Foldable op t →
    t.simplify host = some r → r.size < t.size := by
  intro t
  induction t with
  | binary op' ty left right ihl ihr =>
    intro r hf hr
    obtain ⟨rfl, hf⟩ := hf
    obtain ⟨l', hl', hr⟩ := Option.bind_eq_some_iff.mp hr
    obtain ⟨r', hr', hr⟩ := Option.bind_eq_some_iff.mp hr
    have hle := Tree.size_simplify_le left hl'
    have hre := Tree.size_simplify_le right hr'
    have hsize : r.size ≤ (Tree.binary op' ty l' r').size :=
      (Tree.simplify0_simplified hr).size_le
    simp only [Tree.size] at hsize ⊢
    obtain ⟨hlp, hrp⟩ | hfl | hfr := hf
    · obtain ⟨tl, a, rfl⟩ := Tree.pureCon_eq hlp
      obtain ⟨tr, b, rfl⟩ := Tree.pureCon_eq hrp
      cases hl'
      cases hr'
      simp only [Tree.simplify0, assoc_swap h, Tree.pureCon, Bool.and_true, if_true] at hr
      obtain ⟨-, hpure⟩ | ⟨_, _, _, rfl⟩ | rfl := Tree.simplifyBinary_cases hr
      · cases (hpure rfl rfl).symm.trans (assoc_swap h)
      · simp only [Tree.size]
        omega
      · simp only [Tree.size, Tree.retype]
        omega
    · have := ihl hfl hl'
      omega
    · have := ihr hfr hr'
      omega
  | _ => exact fun hf _ => hf.elim

/-- The exchange moves operands about, and puts the two constants side by side. -/
theorem exchange_spec (h : assoc op = true) : ∀ {t x r y : Tree}, exchange op x t = some (r, y) →
    Spine op ts t → Spine op ts x →
    (Spine op ts r ∧ Spine op ts y) ∧
      opWord op (value addr ρ op r) (value addr ρ op y) =
        opWord op (value addr ρ op t) (value addr ρ op x) ∧
      (leaves op r ++ leaves op y).Perm (leaves op t ++ leaves op x) ∧
      r.size + y.size = t.size + x.size ∧ (x.pureCon = true → Foldable op r) := by
  intro t
  induction t with
  | binary op' ty left right ihl ihr =>
    intro x r y he hsp hx
    unfold exchange at he
    split at he
    · cases he
    rename_i ho
    obtain rfl : op' = op := not_not.mp ho
    obtain ⟨hty, hl, hr⟩ := hsp rfl
    have hval : ∀ l r, value addr ρ op' (.binary op' ty l r) =
        opWord op' (value addr ρ op' l) (value addr ρ op' r) := by
      intro l r
      rw [value, if_pos rfl]
    have hlv : ∀ l r, leaves op' (.binary op' ty l r) = leaves op' l ++ leaves op' r := by
      intro l r
      rw [leaves, if_pos rfl]
    have : Std.Associative (opWord op') := ⟨opWord_assoc h⟩
    have : Std.Commutative (opWord op') := ⟨opWord_comm h⟩
    split at he
    · -- the constant on the left
      rename_i hp
      obtain ⟨rfl, rfl⟩ := Prod.mk.inj (Option.some.inj he)
      refine ⟨⟨fun _ => ⟨hty, hx, hl⟩, hr⟩, ?_, ?_, ?_, fun hxp => ⟨rfl, .inl ⟨hxp, hp⟩⟩⟩
      · rw [hval, hval]
        ac_rfl
      · rw [hlv, hlv]
        exact List.perm_iff_count.mpr fun u => by simp only [List.count_append]; omega
      · simp only [Tree.size]
        omega
    split at he
    · -- the constant on the right
      rename_i hp
      obtain ⟨rfl, rfl⟩ := Prod.mk.inj (Option.some.inj he)
      refine ⟨⟨fun _ => ⟨hty, hx, hr⟩, hl⟩, ?_, ?_, ?_, fun hxp => ⟨rfl, .inl ⟨hxp, hp⟩⟩⟩
      · rw [hval, hval]
        ac_rfl
      · rw [hlv, hlv]
        exact List.perm_iff_count.mpr fun u => by simp only [List.count_append]; omega
      · simp only [Tree.size]
        omega
    split at he
    · rename_i right' y' hsome
      obtain ⟨rfl, rfl⟩ := Prod.mk.inj (Option.some.inj he)
      obtain ⟨⟨hr', hy⟩, hv, hperm, hsize, hfold⟩ := ihr hsome hr hx
      refine ⟨⟨fun _ => ⟨hty, hl, hr'⟩, hy⟩, ?_, ?_, ?_, fun hxp => ⟨rfl, .inr (.inr (hfold hxp))⟩⟩
      · rw [hval, hval, opWord_assoc h, hv, opWord_assoc h]
      · rw [hlv, hlv, List.append_assoc, List.append_assoc]
        exact hperm.append_left _
      · simp only [Tree.size]
        omega
    split at he
    · rename_i left' y' hsome
      obtain ⟨rfl, rfl⟩ := Prod.mk.inj (Option.some.inj he)
      obtain ⟨⟨hl', hy⟩, hv, hperm, hsize, hfold⟩ := ihl hsome hl hx
      refine ⟨⟨fun _ => ⟨hty, hl', hr⟩, hy⟩, ?_, ?_, ?_, fun hxp => ⟨rfl, .inr (.inl (hfold hxp))⟩⟩
      · rw [hval, hval]
        calc opWord op' (opWord op' (value addr ρ op' left') (value addr ρ op' right))
              (value addr ρ op' y')
            = opWord op' (opWord op' (value addr ρ op' left') (value addr ρ op' y'))
                (value addr ρ op' right) := by ac_rfl
          _ = opWord op' (opWord op' (value addr ρ op' left) (value addr ρ op' x))
                (value addr ρ op' right) := by rw [hv]
          _ = _ := by ac_rfl
      · rw [hlv, hlv]
        refine List.perm_iff_count.mpr fun u => ?_
        have := List.perm_iff_count.mp hperm u
        simp only [List.count_append] at this ⊢
        omega
      · simp only [Tree.size]
        omega
    · cases he
  | _ =>
    intro x r y he
    cases he

/-! ### The loop -/

/-- What one turn makes of the tree: it ends with the same operands, or it goes on with them and
    with two constants side by side. -/
theorem algebraTurn_spec (h : assoc op = true) (hsp : Spine op ts (.binary op ty left right)) :
    let t := Tree.binary op ty left right
    ∃ r, Spine op ts r ∧ value addr ρ op r = value addr ρ op t ∧
      (leaves op r).Perm (leaves op t) ∧ r.size = t.size ∧
      (algebraTurn t = .inl r ∨
        algebraTurn t = .inr r ∧ Foldable op r ∧ ∃ ty l x, r = .binary op ty l x) := by
  intro t
  have hval : ∀ l r, value addr ρ op (.binary op ty l r) =
      opWord op (value addr ρ op l) (value addr ρ op r) := by
    intro l r
    rw [value, if_pos rfl]
  have hlv : ∀ l r, leaves op (.binary op ty l r) = leaves op l ++ leaves op r := by
    intro l r
    rw [leaves, if_pos rfl]
  obtain ⟨l, r, hnorm, hspn, hvn, hpn, hsn⟩ : ∃ l r, t.normalize = .binary op ty l r ∧
      Spine op ts (.binary op ty l r) ∧
      value addr ρ op (.binary op ty l r) = value addr ρ op t ∧
      (leaves op (.binary op ty l r)).Perm (leaves op t) ∧
      (Tree.binary op ty l r).size = t.size := by
    obtain ⟨hty, hl, hr⟩ := hsp rfl
    simp only [t, Tree.normalize, assoc_swap h, Bool.true_and]
    split
    · refine ⟨_, _, rfl, fun _ => ⟨hty, hr, hl⟩, ?_, ?_, ?_⟩
      · rw [hval, hval, opWord_comm h]
      · rw [hlv, hlv]
        exact List.perm_append_comm
      · simp only [Tree.size]
        omega
    · exact ⟨_, _, rfl, hsp, rfl, .refl _, rfl⟩
  obtain ⟨hty, hl, hr⟩ := hspn rfl
  simp only [algebraTurn, h, if_true, t] at hnorm ⊢
  rw [hnorm]
  dsimp only
  split
  · rename_i hc
    obtain ⟨-, hrp⟩ := Bool.and_eq_true_iff.mp hc
    split
    · rename_i l' x hsome
      obtain ⟨⟨hl', hx⟩, hv, hperm, hsize, hfold⟩ :=
        @exchange_spec addr ρ op ts h l r l' x hsome hl hr
      refine ⟨.binary op ty l' x, fun _ => ⟨hty, hl', hx⟩, ?_, ?_, ?_,
        .inr ⟨rfl, ⟨rfl, .inr (.inl (hfold hrp))⟩, _, _, _, rfl⟩⟩
      · rw [hval, hv, ← hval]
        exact hvn
      · rw [hlv]
        exact (hlv l r ▸ hperm).trans hpn
      · rw [← hsn]
        simp only [Tree.size]
        omega
    · exact ⟨_, hspn, hvn, hpn, hsn, .inl rfl⟩
  · exact ⟨_, hspn, hvn, hpn, hsn, .inl rfl⟩

/-- What becomes of a tree of one operator. -/
structure Reassociated (host : Host) (addr : Symbol → Word) (ρ : Tree → Word) (op : BinaryOp)
    (ts : TypeBits) (t r : Tree) : Prop where
  yields : Yields (fun n => algebraTreeOpt host n t) (some r)
  spine : Spine op ts r
  value : low ts (value addr ρ op r) = low ts (value addr ρ op t)
  leaves : (leaves op r).Perm (leaves op t) ∨ (leaves op r).Perm (simpLeaves host op t)

/-- Each turn folds two constants, so the tree becomes smaller. -/
theorem algebraTreeOpt_reassociated (h : assoc op = true) : ∀ (n : Nat) (t : Tree), t.size ≤ n →
    Rooted op t → Spine op ts t → (∀ l ∈ leaves op t, LeafOk host addr ρ op ts l) →
    ∃ r, Reassociated host addr ρ op ts t r := by
  intro n
  induction n with
  | zero =>
    intro t ht
    have := Tree.size_pos t
    omega
  | succ n ih =>
    intro t ht hroot hsp hok
    obtain ⟨ty, left, right, rfl⟩ | ⟨ty, c, x, rfl⟩ := hroot
    · obtain ⟨r, hspr, hvr, hpr, hsr, hturn⟩ :=
        @algebraTurn_spec addr ρ op ts ty left right h hsp
      obtain hturn | ⟨hturn, hfold, ty', l, x, rfl⟩ := hturn
      · refine ⟨r, Yields.succ (.of_eq fun n => ?_), hspr, by rw [hvr], .inl hpr⟩
        simp only [algebraTreeOpt, hturn]
      · obtain ⟨u, hu⟩ := simplify_spine h _ hspr fun l hl => hok l (hpr.mem_iff.mp hl)
        have hn : u.Normal host := Tree.normal_of_simplify _ hu.simplify
        have hlt : u.size < (Tree.binary op ty' l x).size := size_simplify_lt h hfold hu.simplify
        obtain ⟨hself, hok'⟩ := @simpLeaves_normal host addr ρ op ts u hn
        obtain ⟨r, hr⟩ := ih u (by omega) (hu.rooted _ _ _ rfl) hu.spine hok'
        refine ⟨r, Yields.succ ?_, hr.spine, by rw [hr.value, hu.value, hvr], .inr ?_⟩
        · simpa only [algebraTreeOpt, hturn, hu.simplify, Option.bind_some] using hr.yields
        · have hrest : (leaves op r).Perm (leaves op u) := by
            obtain hp | hp := hr.leaves
            · exact hp
            · rwa [hself] at hp
          exact (hrest.trans hu.leaves).trans (hpr.flatMap_right _)
    · refine ⟨_, Yields.succ (.of_eq fun n => rfl), hsp, rfl, .inl (.refl _)⟩

/-- Reassociation terminates; it keeps the value in the bits that the operands have, and every leaf,
    as it is or as `tree_simplify` leaves it. -/
theorem algebraTreeOpt_sound (host : Host) (addr : Symbol → Word) (ρ : Tree → Word) (op : BinaryOp)
    (ts : TypeBits) (ty : Ty) (left right : Tree) (h : assoc op = true)
    (hsp : Spine op ts (.binary op ty left right))
    (hok : ∀ l ∈ leaves op (.binary op ty left right), LeafOk host addr ρ op ts l) :
    ∃ r, Reassociated host addr ρ op ts (.binary op ty left right) r :=
  algebraTreeOpt_reassociated h _ _ le_rfl (.inl ⟨_, _, _, rfl⟩) hsp hok

/-- A host without floating-point arithmetic. -/
def Host.integer : Host := ⟨id, fun _ a _ => a, fun _ _ _ => true, fun _ _ a => a⟩

/-- `(1 + x) + 3`. -/
theorem algebraTreeOpt_sum : ∃ r, Reassociated .integer (fun _ => 0) (fun _ => 5) .add .int
    (.binary .add (.scalar .int)
      (.binary .add (.scalar .int) (treeI .int 1) (.sym (.scalar .int) 1)) (treeI .int 3)) r :=
  algebraTreeOpt_sound _ _ _ .add .int _ _ _ rfl
    (fun _ => ⟨⟨rfl, rfl⟩, fun _ => ⟨⟨rfl, rfl⟩, trivial, trivial⟩, trivial⟩)
    (fun l hl => by
      obtain rfl := List.mem_singleton.mp hl
      exact ⟨_, rfl, trivial, rfl⟩)

end

end Ncc.Gen
