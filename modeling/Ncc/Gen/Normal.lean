import Ncc.Gen.Tree

/-! What `tree_simplify` leaves (tree.c).

    `simplify0` keeps a node, commutes its operands, folds it into a constant or keeps one of its
    children. So a tree never grows, and a tree that has been simplified stays as it is. -/

namespace Ncc.Gen

variable {host : Host} {op : BinaryOp} {ty : Ty} {left right tree result : Tree} {a b : Word}

namespace Tree

/-- The trees below the root. -/
def children : Tree → List Tree
  | none | con _ _ _ | sym _ _ => []
  | cast _ t | fetch _ t | addrof _ t | unary _ _ t => [t]
  | call _ l r | binary _ _ l r | blkasg _ _ l r | forest l r => [l, r]
  | quest _ c l r => [c, l, r]

/-! ### simplify0 -/

@[simp] theorem size_retype (t : Tree) : (t.retype ty).size = t.size := by
  cases t <;> rfl

theorem size_pos (t : Tree) : 0 < t.size := by
  cases t <;> simp only [size] <;> omega

theorem pureCon_eq (h : tree.pureCon = true) : ∃ ty c, tree = con ty c .none := by
  unfold pureCon at h
  split at h
  · exact ⟨_, _, rfl⟩
  · cases h

/-- A fold of pure constants is a constant; only a division by zero stays. -/
theorem foldPure_cases (hne : op ≠ .add) (h : foldPure host op ty left right a b = some result) :
    (result = binary op ty left right ∧ op.swap = false) ∨ ∃ ty c x, result = con ty c x := by
  cases op <;> simp only [foldPure] at h
  case add => exact absurd rfl hne
  case div | mod =>
    split at h
    · exact .inl ⟨(Option.some.inj h).symm, rfl⟩
    · obtain ⟨c, -, rfl⟩ := Option.map_eq_some_iff.mp h
      exact .inr ⟨_, _, _, rfl⟩
  all_goals first
    | exact .inl ⟨(Option.some.inj h).symm, rfl⟩
    | exact .inr ⟨_, _, _, (Option.some.inj h).symm⟩
    | (obtain ⟨c, -, rfl⟩ := Option.map_eq_some_iff.mp h; exact .inr ⟨_, _, _, rfl⟩)

theorem foldConstants_cases (h : foldConstants host op ty left right = some result) :
    (result = binary op ty left right ∧
      (left.pureCon = true → right.pureCon = true → op.swap = false)) ∨
    ∃ ty c x, result = con ty c x := by
  unfold foldConstants at h
  split at h
  · split at h
    · obtain ⟨c, -, rfl⟩ := Option.map_eq_some_iff.mp h
      exact .inr ⟨_, _, _, rfl⟩
    · split at h
      · obtain ⟨c, -, rfl⟩ := Option.map_eq_some_iff.mp h
        exact .inr ⟨_, _, _, rfl⟩
      · rename_i hadd
        split at h
        · rename_i hnone
          have hne : op ≠ .add := fun he => hadd ⟨hnone.1, .inl he⟩
          exact (foldPure_cases hne h).imp (fun hr => ⟨by rw [hr.1], fun _ _ => hr.2⟩) id
        · rename_i hnone
          refine .inl ⟨(Option.some.inj h).symm, fun hl hr => absurd ?_ hnone⟩
          obtain ⟨_, _, hl⟩ := pureCon_eq hl
          obtain ⟨_, _, hr⟩ := pureCon_eq hr
          cases hl
          cases hr
          exact ⟨rfl, rfl⟩
  · rename_i hcon
    refine .inl ⟨(Option.some.inj h).symm, fun hl hr => ?_⟩
    obtain ⟨_, _, rfl⟩ := pureCon_eq hl
    obtain ⟨_, _, rfl⟩ := pureCon_eq hr
    exact absurd rfl (hcon _ _ _ _ _ _ rfl)

/-- What becomes of a binary operator that `tree_normalize` has seen. -/
theorem simplifyBinary_cases (h : simplifyBinary host op ty left right = some result) :
    (result = binary op ty left right ∧
      (left.pureCon = true → right.pureCon = true → op.swap = false)) ∨
    (∃ ty c x, result = con ty c x) ∨ result = right.retype ty := by
  unfold simplifyBinary at h
  split at h
  · split at h
    · exact .inr (.inr (Option.some.inj h).symm)
    · split at h
      · exact .inr (.inl ⟨_, _, _, (Option.some.inj h).symm⟩)
      · exact .inl ⟨(Option.some.inj h).symm, fun _ _ => rfl⟩
  · split at h
    · exact .inr (.inl ⟨_, _, _, (Option.some.inj h).symm⟩)
    · split at h
      · exact .inr (.inr (Option.some.inj h).symm)
      · exact .inl ⟨(Option.some.inj h).symm, fun _ _ => rfl⟩
  · exact (foldConstants_cases h).imp id .inl

/-- What becomes of a node: it stays, its operands are commuted, it is folded, or a child is kept. -/
inductive Simplified (host : Host) : Tree → Tree → Prop
  | keep {t : Tree} : simplify0 host t = some t → Simplified host t t
  | commute {op : BinaryOp} {ty : Ty} {l r : Tree} : l.pureCon = true → r.pureCon = false →
      simplifyBinary host op ty r l = some (binary op ty r l) →
      Simplified host (binary op ty l r) (binary op ty r l)
  | fold {t : Tree} {ty : Ty} {c : Word} {x : Option Symbol} : Simplified host t (con ty c x)
  | child {t u : Tree} {ty : Ty} : u ∈ t.children → Simplified host t (u.retype ty)

theorem simplify0_simplified (h : simplify0 host tree = some result) :
    Simplified host tree result := by
  have hall := h
  unfold simplify0 at h
  split at h
  case h_1 =>
    obtain rfl := Option.some.inj h
    exact .child (by simp [children])
  case h_2 | h_3 | h_4 =>
    obtain rfl := Option.some.inj h
    exact .fold
  case h_5 op ty left right =>
    split at h
    · rename_i hsw
      obtain ⟨hswap, hl⟩ := Bool.and_eq_true_iff.mp hsw
      obtain ⟨rfl, hpure⟩ | ⟨_, _, _, rfl⟩ | rfl := simplifyBinary_cases h
      · refine .commute hl ?_ h
        cases hr : right.pureCon
        · rfl
        · cases (hpure hr hl).symm.trans hswap
      · exact .fold
      · exact .child (by simp [children])
    · obtain ⟨rfl, -⟩ | ⟨_, _, _, rfl⟩ | rfl := simplifyBinary_cases h
      · exact .keep hall
      · exact .fold
      · exact .child (by simp [children])
  case h_6 =>
    split at h
    · obtain rfl := Option.some.inj h
      exact .child (by simp [children])
    · split at h
      · obtain rfl := Option.some.inj h
        exact .child (by simp [children])
      · obtain rfl := Option.some.inj h
        exact .keep hall
  case h_7 =>
    obtain rfl := Option.some.inj h
    exact .keep hall

theorem size_lt_of_mem_children {t u : Tree} (h : u ∈ t.children) : u.size < t.size := by
  cases t <;> simp only [children, List.mem_cons, List.not_mem_nil, or_false] at h <;>
    simp only [size] <;> grind

theorem Simplified.size_le (h : Simplified host tree result) : result.size ≤ tree.size := by
  cases h with
  | keep => exact le_rfl
  | commute =>
    simp only [size]
    omega
  | fold => exact size_pos tree
  | child hu =>
    rw [size_retype]
    exact (size_lt_of_mem_children hu).le

/-! ### tree_simplify -/

theorem size_eq (t : Tree) : t.size = (t.children.map size).sum + 1 := by
  cases t <;> simp [size, children]
  all_goals omega

/-- TREE_DESCEND. -/
def descend (host : Host) : Tree → Option Tree
  | call ty child args =>
    (child.simplify host).bind fun child => (args.simplify host).map fun args => call ty child args
  | cast ty child => (child.simplify host).map fun child => cast ty child
  | fetch ty child => (child.simplify host).map fun child => fetch ty child
  | addrof ty child => (child.simplify host).map fun child => addrof ty child
  | unary op ty child => (child.simplify host).map fun child => unary op ty child
  | binary op ty left right =>
    (left.simplify host).bind fun left => (right.simplify host).map fun right =>
      binary op ty left right
  | quest ty test left right =>
    (test.simplify host).bind fun test => (left.simplify host).bind fun left =>
      (right.simplify host).map fun right => quest ty test left right
  | blkasg ty n left right =>
    (left.simplify host).bind fun left => (right.simplify host).map fun right =>
      blkasg ty n left right
  | forest first rest =>
    (first.simplify host).bind fun first => (rest.simplify host).map fun rest => forest first rest
  | tree => some tree

/-- A post-order walk. -/
theorem simplify_eq (t : Tree) : t.simplify host = (t.descend host).bind (simplify0 host) := by
  cases t <;> simp only [simplify, descend, Option.bind_some, Option.bind_assoc,
    Function.comp_def, simplify0, Option.map_eq_bind]

/-- The children have been simplified, and nothing else has changed. -/
theorem descend_children {t u : Tree} (h : t.descend host = some u) :
    List.Forall₂ (fun c d => c.simplify host = some d) t.children u.children := by
  cases t with
  | none | con | sym =>
    obtain rfl := Option.some.inj h
    exact .nil
  | cast | fetch | addrof | unary =>
    obtain ⟨c, hc, rfl⟩ := Option.map_eq_some_iff.mp h
    exact .cons hc .nil
  | call | binary | blkasg | forest =>
    obtain ⟨c, hc, h⟩ := Option.bind_eq_some_iff.mp h
    obtain ⟨d, hd, rfl⟩ := Option.map_eq_some_iff.mp h
    exact .cons hc (.cons hd .nil)
  | quest =>
    obtain ⟨c, hc, h⟩ := Option.bind_eq_some_iff.mp h
    obtain ⟨d, hd, h⟩ := Option.bind_eq_some_iff.mp h
    obtain ⟨e, he, rfl⟩ := Option.map_eq_some_iff.mp h
    exact .cons hc (.cons hd (.cons he .nil))

theorem descend_self {t : Tree} (h : ∀ c ∈ t.children, c.simplify host = some c) :
    t.descend host = some t := by
  cases t <;> simp_all [descend, children]

/-- The root is what it was. -/
theorem descend_eq {t u : Tree} (h : t.descend host = some u) (hc : u.children = t.children) :
    u = t := by
  have hself : t.descend host = some t := by
    refine descend_self fun c hm => ?_
    have hall := descend_children h
    rw [hc] at hall
    exact List.forall₂_same.mp hall c hm
  exact Option.some.inj (h.symm.trans hself)

theorem descend_size {t u : Tree} (h : t.descend host = some u)
    (hle : ∀ c ∈ t.children, ∀ d, c.simplify host = some d → d.size ≤ c.size) :
    u.size ≤ t.size := by
  rw [size_eq, size_eq]
  have hsum : (u.children.map size).sum ≤ (t.children.map size).sum := by
    have hall := descend_children h
    revert hle hall
    generalize t.children = l
    generalize u.children = m
    intro hle hall
    induction hall with
    | nil => exact le_rfl
    | cons hcd _ ih =>
      simp only [List.map_cons, List.sum_cons]
      have hd := hle _ (List.mem_cons_self ..) _ hcd
      have hrest := ih fun c hm => hle c (List.mem_cons_of_mem _ hm)
      omega
  omega

/-- A tree never grows. -/
theorem size_simplify_le (t : Tree) : ∀ {r : Tree}, t.simplify host = some r → r.size ≤ t.size := by
  intro r h
  rw [simplify_eq] at h
  obtain ⟨u, hu, h⟩ := Option.bind_eq_some_iff.mp h
  refine (simplify0_simplified h).size_le.trans (descend_size hu fun c hm d hd => ?_)
  exact size_simplify_le c hd
termination_by t.size
decreasing_by exact size_lt_of_mem_children hm

/-! ### Normal trees -/

theorem exists_of_forall₂ {R : Tree → Tree → Prop} : ∀ {l m : List Tree}, List.Forall₂ R l m →
    ∀ d ∈ m, ∃ c ∈ l, R c d
  | _, _, .cons hR hall, d, hd => by
    obtain rfl | hd := List.mem_cons.mp hd
    · exact ⟨_, List.mem_cons_self .., hR⟩
    · obtain ⟨c, hc, hcd⟩ := exists_of_forall₂ hall d hd
      exact ⟨c, List.mem_cons_of_mem _ hc, hcd⟩

/-- `tree_simplify` leaves the tree alone. -/
def Normal (host : Host) (t : Tree) : Prop := t.simplify host = some t

/-- What is below the root of a normal tree is normal, and the root is not simplified. -/
theorem Normal.below {t : Tree} (h : Normal host t) :
    (∀ c ∈ t.children, Normal host c) ∧ simplify0 host t = some t := by
  have hs := h
  rw [Normal, simplify_eq] at hs
  obtain ⟨u, hu, hs⟩ := Option.bind_eq_some_iff.mp hs
  have hall := descend_children hu
  have hsize : u.size ≤ t.size := descend_size hu fun c _ d hd => size_simplify_le c hd
  generalize hr : t = r at hs
  cases simplify0_simplified hs with
  | keep =>
    obtain rfl := hr
    exact ⟨fun c hm => List.forall₂_same.mp hall c hm, hs⟩
  | commute hl hrp =>
    subst hr
    cases hall with
    | cons hrl hall =>
      cases hall with
      | cons hlr _ =>
        obtain ⟨_, _, rfl⟩ := pureCon_eq hl
        cases hlr
        rw [hl] at hrp
        cases hrp
  | fold =>
    subst hr
    exact ⟨fun c hm => absurd hm List.not_mem_nil, rfl⟩
  | child hm =>
    have hlt := size_lt_of_mem_children hm
    rw [hr, size_retype] at hsize
    omega

theorem normal_of_children {t : Tree} (hc : ∀ c ∈ t.children, Normal host c)
    (h : simplify0 host t = some t) : Normal host t := by
  rw [Normal, simplify_eq, descend_self hc]
  exact h

@[simp] theorem children_retype (t : Tree) : (t.retype ty).children = t.children := by
  cases t <;> rfl

/-- No child is the node, whatever its type. -/
theorem retype_ne {t u : Tree} (h : u ∈ t.children) : u.retype ty ≠ t := by
  intro he
  have hlt := size_lt_of_mem_children h
  rw [← he, size_retype] at hlt
  exact lt_irrefl _ hlt

theorem foldPure_retype {ty' : Ty} {l r : Tree}
    (h : foldPure host op ty left right a b = some (binary op ty l r)) :
    foldPure host op ty' left right a b = some (binary op ty' left right) := by
  cases op <;> simp only [foldPure] at h ⊢
  case div | mod =>
    split at h
    · rename_i hz
      exact if_pos hz
    · obtain ⟨c, -, hc⟩ := Option.map_eq_some_iff.mp h
      cases hc
  all_goals first
    | rfl
    | cases h
    | (obtain ⟨c, -, hc⟩ := Option.map_eq_some_iff.mp h; cases hc)

theorem foldConstants_retype {ty' : Ty} {l r : Tree}
    (h : foldConstants host op ty left right = some (binary op ty l r)) :
    foldConstants host op ty' left right = some (binary op ty' left right) := by
  unfold foldConstants at h ⊢
  split at h
  · rename_i tl a sl tr b sr
    split at h
    · obtain ⟨c, -, hc⟩ := Option.map_eq_some_iff.mp h
      cases hc
    · rename_i hsub
      rw [if_neg hsub]
      split at h
      · obtain ⟨c, -, hc⟩ := Option.map_eq_some_iff.mp h
        cases hc
      · rename_i hadd
        rw [if_neg hadd]
        split at h
        · rename_i hnone
          rw [if_pos hnone]
          exact foldPure_retype h
        · rename_i hnone
          rw [if_neg hnone]
  · rfl

/-- The type of a binary operator does not decide whether it is folded. -/
theorem simplifyBinary_retype {ty' : Ty}
    (h : simplifyBinary host op ty left right = some (binary op ty left right)) :
    simplifyBinary host op ty' left right = some (binary op ty' left right) := by
  have hne : right.retype ty ≠ binary op ty left right := retype_ne (by simp [children])
  cases op <;> simp only [simplifyBinary] at h ⊢
  case land | lor =>
    split at h
    · first | exact absurd (Option.some.inj h) hne | cases h
    · rename_i hnz
      rw [if_neg hnz]
      split at h
      · first | exact absurd (Option.some.inj h) hne | cases h
      · rename_i hz
        rw [if_neg hz]
  all_goals exact foldConstants_retype h

/-- The type of the root does not matter. -/
theorem Normal.retype {t : Tree} (h : Normal host t) : Normal host (t.retype ty) := by
  obtain ⟨hc, h0⟩ := h.below
  refine normal_of_children (by rwa [children_retype]) ?_
  cases t with
  | unary op ty' child =>
    cases op with
    | rvalue => exact absurd (Option.some.inj h0) (retype_ne (by simp [children]))
    | neg | com =>
      cases child with
      | con _ _ x => cases x <;> first | rfl | cases h0
      | _ => rfl
  | cast ty' child =>
    cases child with
    | con _ _ x => cases x <;> first | rfl | cases h0
    | _ => rfl
  | binary op ty' left right =>
    simp only [Tree.retype, simplify0] at h0 ⊢
    split at h0
    · rename_i hsw
      obtain ⟨hswap, hl⟩ := Bool.and_eq_true_iff.mp hsw
      obtain ⟨he, hpure⟩ | ⟨_, _, _, he⟩ | he := simplifyBinary_cases h0
      · simp only [binary.injEq, true_and] at he
        obtain ⟨rfl, -⟩ := he
        cases (hpure hl hl).symm.trans hswap
      · cases he
      · exact absurd he.symm (retype_ne (by simp [children]))
    · rename_i hsw
      rw [if_neg hsw]
      exact simplifyBinary_retype h0
  | quest ty' test left right =>
    simp only [Tree.retype, simplify0] at h0 ⊢
    split at h0
    · exact absurd (Option.some.inj h0) (retype_ne (by simp [children]))
    · rename_i hnz
      rw [if_neg hnz]
      split at h0
      · exact absurd (Option.some.inj h0) (retype_ne (by simp [children]))
      · rename_i hz
        rw [if_neg hz]
  | _ => rfl

/-- A tree that has been simplified stays as it is. -/
theorem normal_of_simplify (t : Tree) : ∀ {r : Tree}, t.simplify host = some r → Normal host r := by
  intro r h
  rw [simplify_eq] at h
  obtain ⟨u, hu, h⟩ := Option.bind_eq_some_iff.mp h
  have hc : ∀ d ∈ u.children, Normal host d := by
    intro d hd
    obtain ⟨c, hm, hcd⟩ := exists_of_forall₂ (descend_children hu) d hd
    exact normal_of_simplify c hcd
  cases simplify0_simplified h with
  | keep => exact normal_of_children hc h
  | @commute op ty l r hl hr hs =>
    have hcr : ∀ d ∈ (binary op ty r l).children, Normal host d := by
      intro d hd
      exact hc d (by simpa [children, or_comm] using hd)
    refine normal_of_children hcr ?_
    simp only [simplify0, hr, Bool.and_false, Bool.false_eq_true, if_false]
    exact hs
  | fold => rfl
  | child hm => exact (hc _ hm).retype
termination_by t.size
decreasing_by exact size_lt_of_mem_children hm

end Tree

end Ncc.Gen
