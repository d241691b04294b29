import Ncc.Decl.Strun

/-! Declarators and array dimensions (expr.c: `int_expression`, `size_expression`; decl.c:
    `declarator`).

    A dimension is a `long` when it is parsed, an `int` when it is returned and a `size_t` in the
    type. `dimension_spec` says what becomes of it, and `sizes_exact_iff` that all sizes are exact if
    and only if no dimension was changed on the way. -/

namespace Ncc.Decl

/-! ### Constant expressions -/

/-- What matters of the tree of a constant expression: whether it is E_CON, whether it has a symbol
    then, its type and `con.i`. -/
structure ConstTree where
  con : Bool
  sym : Bool
  type : CType
  i : BitVec 64

/-- `static_expression`, for a tree that is simplified. -/
def staticExpression (tree : ConstTree) : Except String ConstTree :=
  if tree.con then .ok tree else .error "constant expression required"

/-- `int_expression`; `warn` is INT_EXPRESSION_WARN. -/
def intExpression (ts : List Basic) (warn : Bool) (tree : ConstTree) : Except String Int :=
  (staticExpression tree).bind fun tree =>
    let i := tree.i.toInt
    if tree.sym || !tree.type.integral then .error "integer constant expression required"
    else if .int ∈ ts ∧ -2 ^ 31 ≤ i ∧ i ≤ 2 ^ 31 - 1 then .ok i
    else if (.uint ∈ ts ∨ .int ∈ ts) ∧ 0 ≤ i ∧ i ≤ 2 ^ 32 - 1 then .ok i
    else if .long ∈ ts ∨ .ulong ∈ ts then .ok i
    else if warn then .ok i
    else .error "integer expression out of range"

/-- `size_expression`, which returns an `int`. -/
def sizeExpression (tree : ConstTree) : Except String Int :=
  (intExpression [.uint] false tree).bind fun i =>
    let i := toInt i
    if i > maxObjectSize then .error "size expression out of range" else .ok i

/-- `nr_elements` of an array with a dimension. -/
def dimension (tree : ConstTree) : Except String Nat :=
  (sizeExpression tree).bind fun i =>
    if toSize i = 0 then .error "zero dimension not permitted" else .ok (toSize i)

/-- The dimension is that of the constant that was written. -/
def Kept (tree : ConstTree) : Prop := ∀ n, dimension tree = .ok n → (n : Int) = tree.i.toInt

theorem toSize_toInt_small {i : Int} (h0 : 0 ≤ i) (h : i < 2 ^ 31) : (toSize (toInt i) : Int) = i := by
  rw [toInt_eq h0 h, toSize]
  omega

theorem toSize_toInt_large {i : Int} (h0 : 2 ^ 31 ≤ i) (h : i < 2 ^ 32) :
    (toSize (toInt i) : Int) = 2 ^ 64 - 2 ^ 32 + i := by
  have hint : toInt i = i - 2 ^ 32 := by
    rw [toInt, Int.bmod_def]
    omega
  rw [hint, toSize]
  omega

theorem sizeExpression_ok {tree : ConstTree} {i : Int} (h : sizeExpression tree = .ok i) :
    0 ≤ tree.i.toInt ∧ tree.i.toInt < 2 ^ 32 ∧ i = toInt tree.i.toInt ∧ i ≤ maxObjectSize := by
  obtain ⟨j, hj, hsize⟩ := bind_ok.mp h
  obtain ⟨t, ht, hint⟩ := bind_ok.mp hj
  obtain rfl : tree = t := by
    rw [staticExpression] at ht
    by_cases hcon : tree.con = true
    · rw [if_pos hcon] at ht
      exact Except.ok.inj ht
    · rw [if_neg hcon] at ht
      exact nomatch ht
  obtain ⟨h0, h1, rfl⟩ : 0 ≤ tree.i.toInt ∧ tree.i.toInt ≤ 2 ^ 32 - 1 ∧ tree.i.toInt = j := by
    simp only [List.mem_singleton, reduceCtorEq, or_false, true_and, Bool.false_eq_true, if_false,
      false_and] at hint
    split at hint
    · exact nomatch hint
    · split at hint
      · exact ⟨‹_ ∧ _›.1, ‹_ ∧ _›.2, Except.ok.inj hint⟩
      · exact nomatch hint
  by_cases hbig : toInt tree.i.toInt > maxObjectSize
  · rw [if_pos hbig] at hsize
    exact nomatch hsize
  · rw [if_neg hbig] at hsize
    obtain rfl := Except.ok.inj hsize
    exact ⟨h0, by omega, rfl, by omega⟩

/-- What becomes of the constant of a dimension. -/
theorem dimension_spec {tree : ConstTree} {n : Nat} (h : dimension tree = .ok n) :
    tree.i.toInt < 2 ^ 32 ∧
      (tree.i.toInt < 2 ^ 31 → (n : Int) = tree.i.toInt ∧ n ≤ maxObjectSize) ∧
      (2 ^ 31 ≤ tree.i.toInt → (n : Int) = 2 ^ 64 - 2 ^ 32 + tree.i.toInt) := by
  obtain ⟨i, hi, hn⟩ := bind_ok.mp h
  obtain ⟨h0, h1, rfl, hle⟩ := sizeExpression_ok hi
  have hn' : toSize (toInt tree.i.toInt) = n := by
    split at hn
    · exact nomatch hn
    · exact Except.ok.inj hn
  refine ⟨h1, fun hsmall => ?_, fun hlarge => ?_⟩
  · have hkept := toSize_toInt_small h0 hsmall
    rw [toInt_eq h0 hsmall] at hle
    rw [← hn']
    omega
  · rw [← hn']
    exact toSize_toInt_large hlarge h1

/-- An accepted dimension is kept if and only if it is less than 2³¹. -/
theorem kept_iff {tree : ConstTree} {n : Nat} (h : dimension tree = .ok n) :
    Kept tree ↔ tree.i.toInt < 2 ^ 31 := by
  obtain ⟨hlt, hsmall, hlarge⟩ := dimension_spec h
  constructor
  · intro hkept
    have hn := hkept n h
    by_contra hge
    have hn' := hlarge (by omega)
    omega
  · intro hlt' m hm
    obtain rfl := Except.ok.inj (h.symm.trans hm)
    exact (hsmall hlt').1

/-! ### Declarators -/

/-- What follows the name in a declarator: a dimension or none in brackets, or arguments. -/
inductive Suffix where
  | array (dim : Option ConstTree)
  | oldArguments
  | protoArguments (variadic : Bool) (formals : Formals)

/-- A declarator: `declarator0` with a name or nothing, or with another declarator, in front of the
    suffixes; or a pointer. -/
inductive Declarator where
  | name (suffixes : List Suffix)
  | group (inner : Declarator) (suffixes : List Suffix)
  | pointer (quals : Quals) (inner : Declarator)

/-- The nodes that a declarator appends to a type. -/
inductive TypeNode where
  | ptr (quals : Quals)
  | array (nrElements : Nat)
  | oldFunc
  | func (variadic : Bool) (formals : Formals)

/-- The node of a suffix. -/
def suffixNode : Suffix → Except String TypeNode
  | .array none => .ok (.array 0)
  | .array (some tree) => (dimension tree).map .array
  | .oldArguments => .ok .oldFunc
  | .protoArguments variadic formals => .ok (.func variadic formals)

/-- The loop of `declarator0`. -/
def suffixNodes : List Suffix → Except String (List TypeNode)
  | [] => .ok []
  | s :: ss =>
    (suffixNode s).bind fun node => (suffixNodes ss).map fun nodes => node :: nodes

/-- `declarator`. -/
def declarator : Declarator → Except String (List TypeNode)
  | .name suffixes => suffixNodes suffixes
  | .group inner suffixes =>
    (declarator inner).bind fun nodes => (suffixNodes suffixes).map fun rest => nodes ++ rest
  | .pointer quals inner => (declarator inner).map fun nodes => nodes ++ [.ptr quals]

/-- The type that begins with a node. -/
def TypeNode.onto : TypeNode → CType → CType
  | ptr quals, t => .ptr quals t
  | array n, t => .array 0 n t
  | oldFunc, t => .oldFunc 0 t
  | func variadic formals, t => .func 0 variadic formals t

/-- `type_qualify`: the qualifiers of an array are those of its elements. -/
def typeQualify (quals : Quals) : CType → CType
  | .array q n e => .array q n (typeQualify quals e)
  | t => t.setQuals (t.quals ||| quals)

/-- The base type with its qualifiers, and the declarator in front of it. -/
def withDeclarator (base : CType) (quals : Quals) (d : Declarator) : Except String CType :=
  (declarator d).map fun nodes => nodes.foldr TypeNode.onto (typeQualify quals base)

/-- What names the base of a declaration: a basic type, a tag, or a typedef name, which stands for
    its own declaration. -/
inductive Spec where
  | basic (ts : Basic)
  | strun (tag : Nat)
  | typedef (spec : Spec) (quals : Quals) (d : Declarator)

/-- The type that `specifiers` finds, without the qualifiers. -/
def specType : Spec → Except String CType
  | .basic ts => .ok (.basic ts 0)
  | .strun tag => .ok (.strun tag 0)
  | .typedef spec quals d =>
    (specType spec).bind fun base =>
      (withDeclarator base quals d).bind fun t => (typeValidate false true t).map fun _ => t

/-- The type of a declaration, before `type_validate`. -/
def declaredType (spec : Spec) (quals : Quals) (d : Declarator) : Except String CType :=
  (specType spec).bind fun base => withDeclarator base quals d

/-! ### The dimensions of a declaration -/

/-- The dimensions that are written in a suffix. -/
def Suffix.dims : Suffix → List ConstTree
  | array (some tree) => [tree]
  | _ => []

/-- The dimensions that are written in a declarator. -/
def Declarator.dims : Declarator → List ConstTree
  | name suffixes => suffixes.flatMap Suffix.dims
  | group inner suffixes => inner.dims ++ suffixes.flatMap Suffix.dims
  | pointer _ inner => inner.dims

/-- The dimensions that are written in a declaration, those of its typedefs included. -/
def Spec.dims : Spec → List ConstTree
  | basic _ | strun _ => []
  | typedef spec _ d => spec.dims ++ d.dims

/-- The dimensions of an accepted declarator were accepted one by one. -/
theorem suffixNodes_accepted : ∀ {ss : List Suffix} {nodes : List TypeNode},
    suffixNodes ss = .ok nodes →
      (∀ c ∈ ss.flatMap Suffix.dims, ∃ n, dimension c = .ok n) ∧
      ∀ n, TypeNode.array n ∈ nodes →
        n = 0 ∨ ∃ c ∈ ss.flatMap Suffix.dims, dimension c = .ok n
  | [], nodes, h => by
    obtain rfl := Except.ok.inj h
    exact ⟨nofun, nofun⟩
  | s :: ss, nodes, h => by
    obtain ⟨node, hnode, hrest⟩ := bind_ok.mp h
    obtain ⟨rest, hss, rfl⟩ := map_ok.mp hrest
    obtain ⟨hacc, harr⟩ := suffixNodes_accepted hss
    rw [List.flatMap_cons]
    refine ⟨fun c hc => ?_, fun n hn => ?_⟩
    · rcases List.mem_append.mp hc with hc | hc
      · cases s with
        | array dim =>
          cases dim with
          | none => exact nomatch hc
          | some tree =>
            obtain rfl := List.mem_singleton.mp hc
            obtain ⟨n, hn, -⟩ := map_ok.mp hnode
            exact ⟨n, hn⟩
        | _ => exact nomatch hc
      · exact hacc c hc
    · rcases List.mem_cons.mp hn with rfl | hn
      · cases s with
        | array dim =>
          cases dim with
          | none => exact Or.inl (TypeNode.array.inj (Except.ok.inj hnode)).symm
          | some tree =>
            obtain ⟨m, hm, hmn⟩ := map_ok.mp hnode
            obtain rfl := TypeNode.array.inj hmn
            exact Or.inr ⟨tree, List.mem_append_left _ (List.mem_singleton_self tree), hm⟩
        | _ => exact nomatch hnode
      · exact (harr n hn).imp_right fun ⟨c, hc, h⟩ => ⟨c, List.mem_append_right _ hc, h⟩

/-- The dimensions of an accepted declarator were accepted one by one, and the arrays have no other
    ones. -/
theorem declarator_accepted : ∀ {d : Declarator} {nodes : List TypeNode},
    declarator d = .ok nodes →
      (∀ c ∈ d.dims, ∃ n, dimension c = .ok n) ∧
      ∀ n, TypeNode.array n ∈ nodes → n = 0 ∨ ∃ c ∈ d.dims, dimension c = .ok n
  | .name ss, nodes, h => suffixNodes_accepted h
  | .group inner ss, nodes, h => by
    obtain ⟨nodes, hinner, hrest⟩ := bind_ok.mp h
    obtain ⟨rest, hss, rfl⟩ := map_ok.mp hrest
    obtain ⟨hacc, harr⟩ := declarator_accepted hinner
    obtain ⟨hacc', harr'⟩ := suffixNodes_accepted hss
    rw [Declarator.dims]
    refine ⟨fun c hc => (List.mem_append.mp hc).elim (hacc c) (hacc' c), fun n hn => ?_⟩
    rcases List.mem_append.mp hn with hn | hn
    · exact (harr n hn).imp_right fun ⟨c, hc, h⟩ => ⟨c, List.mem_append_left _ hc, h⟩
    · exact (harr' n hn).imp_right fun ⟨c, hc, h⟩ => ⟨c, List.mem_append_right _ hc, h⟩
  | .pointer q inner, nodes, h => by
    obtain ⟨nodes, hinner, rfl⟩ := map_ok.mp h
    obtain ⟨hacc, harr⟩ := declarator_accepted hinner
    refine ⟨hacc, fun n hn => harr n ?_⟩
    simpa using hn

/-! ### Types of small dimensions -/

/-- No array dimension anywhere in the type exceeds MAX_OBJECT_SIZE. -/
def smallDims : CType → Bool
  | .array _ n e => decide (n ≤ maxObjectSize) && smallDims e
  | .ptr _ t => smallDims t
  | .oldFunc _ r => smallDims r
  | .func _ _ _ r => smallDims r
  | _ => true

theorem bounded_of_smallDims : ∀ {t : CType}, smallDims t = true → bounded t = true
  | .array q n e, h => by
    obtain ⟨hn, he⟩ : n ≤ maxObjectSize ∧ smallDims e = true := by simpa [smallDims] using h
    simpa [bounded, bounded_of_smallDims he] using hn
  | .basic .., _ | .strun .., _ | .ptr .., _ | .oldFunc .., _ | .func .., _ => rfl

theorem smallDims_setQuals (q : Quals) (t : CType) : smallDims (t.setQuals q) = smallDims t := by
  cases t <;> rfl

theorem smallDims_typeQualify (q : Quals) : ∀ t : CType,
    smallDims (typeQualify q t) = smallDims t
  | .array q' n e => by
    rw [typeQualify, smallDims, smallDims, smallDims_typeQualify q e]
  | .basic .. | .strun .. | .ptr .. | .oldFunc .. | .func .. => smallDims_setQuals _ _

theorem smallDims_foldr {base : CType} (hbase : smallDims base = true) : ∀ {nodes : List TypeNode},
    (∀ n, TypeNode.array n ∈ nodes → n ≤ maxObjectSize) →
      smallDims (nodes.foldr TypeNode.onto base) = true
  | [], _ => hbase
  | node :: nodes, h => by
    have hrest := smallDims_foldr hbase fun n hn => h n (List.mem_cons_of_mem _ hn)
    rw [List.foldr_cons]
    cases node with
    | array n => simpa [TypeNode.onto, smallDims, hrest] using h n List.mem_cons_self
    | ptr q => exact hrest
    | oldFunc => exact hrest
    | func v fs => exact hrest

theorem withDeclarator_spec {base t : CType} {quals : Quals} {d : Declarator}
    (h : withDeclarator base quals d = .ok t) :
    (∀ c ∈ d.dims, ∃ n, dimension c = .ok n) ∧
      ((∀ c ∈ d.dims, c.i.toInt < 2 ^ 31) → smallDims base = true → smallDims t = true) := by
  obtain ⟨nodes, hd, rfl⟩ := map_ok.mp h
  obtain ⟨hacc, harr⟩ := declarator_accepted hd
  refine ⟨hacc, fun hsmall hbase => smallDims_foldr (by rwa [smallDims_typeQualify]) fun n hn => ?_⟩
  rcases harr n hn with rfl | ⟨c, hc, hdim⟩
  · exact Nat.zero_le _
  · exact ((dimension_spec hdim).2.1 (hsmall c hc)).2

theorem specType_spec : ∀ {spec : Spec} {t : CType}, specType spec = .ok t →
    (∀ c ∈ spec.dims, ∃ n, dimension c = .ok n) ∧
      ((∀ c ∈ spec.dims, c.i.toInt < 2 ^ 31) → smallDims t = true)
  | .basic ts, t, h => by
    obtain rfl := Except.ok.inj h
    exact ⟨nofun, fun _ => rfl⟩
  | .strun tag, t, h => by
    obtain rfl := Except.ok.inj h
    exact ⟨nofun, fun _ => rfl⟩
  | .typedef spec quals d, t, h => by
    obtain ⟨base, hbase, hd⟩ := bind_ok.mp h
    obtain ⟨t', ht', hv⟩ := bind_ok.mp hd
    obtain ⟨-, -, rfl⟩ := map_ok.mp hv
    obtain ⟨hacc, hsmall⟩ := specType_spec hbase
    obtain ⟨hacc', hsmall'⟩ := withDeclarator_spec ht'
    rw [Spec.dims]
    refine ⟨fun c hc => (List.mem_append.mp hc).elim (hacc c) (hacc' c), fun h => ?_⟩
    exact hsmall' (fun c hc => h c (List.mem_append_right _ hc))
      (hsmall fun c hc => h c (List.mem_append_left _ hc))

/-- The dimensions of an accepted declaration were accepted, and if they are small, so are those of
    the type. -/
theorem declaredType_spec {spec : Spec} {quals : Quals} {d : Declarator} {t : CType}
    (h : declaredType spec quals d = .ok t) :
    (∀ c ∈ spec.dims ++ d.dims, ∃ n, dimension c = .ok n) ∧
      ((∀ c ∈ spec.dims ++ d.dims, c.i.toInt < 2 ^ 31) → smallDims t = true) := by
  obtain ⟨base, hbase, ht⟩ := bind_ok.mp h
  obtain ⟨hacc, hsmall⟩ := specType_spec hbase
  obtain ⟨hacc', hsmall'⟩ := withDeclarator_spec ht
  refine ⟨fun c hc => (List.mem_append.mp hc).elim (hacc c) (hacc' c), fun h => ?_⟩
  exact hsmall' (fun c hc => h c (List.mem_append_right _ hc))
    (hsmall fun c hc => h c (List.mem_append_left _ hc))

/-! ### Programs -/

/-- A declaration of a program: a new tag, a member of a struct or union, the end of the members, or
    any other declaration, type name or parameter; plain `void` is accepted if `voidOk`. -/
inductive Item where
  | newTag (id : Option Nat) (isUnion : Bool)
  | member (tag : Nat) (first : Bool) (id : Option Nat) (spec : Spec) (quals : Quals)
      (d : Declarator) (bits : Option ConstTree)
  | complete (tag : Nat)
  | other (voidOk : Bool) (spec : Spec) (quals : Quals) (d : Declarator)

/-- The dimensions that are written in a declaration. -/
def Item.dims : Item → List ConstTree
  | member _ _ _ spec _ d _ | other _ spec _ d => spec.dims ++ d.dims
  | newTag .. | complete _ => []

/-- The type of a declaration, if it has one. -/
def Item.type : Item → Option (Except String CType)
  | member _ _ _ spec quals d _ | other _ spec quals d => some (declaredType spec quals d)
  | newTag .. | complete _ => none

/-- The size of a field, which is a `size_t`. -/
def fieldBits : Option ConstTree → Except String (Option Nat)
  | none => .ok none
  | some tree => (sizeExpression tree).map fun i => some (toSize i)

/-- The tags after a declaration. -/
def parseItem (tags : Tags) : Item → Except String Tags
  | .newTag id isUnion => step tags (.newTag id isUnion)
  | .member tag first id spec quals d bits =>
    (declaredType spec quals d).bind fun type =>
      (fieldBits bits).bind fun bits => step tags (.member tag first id type bits)
  | .complete tag => step tags (.complete tag)
  | .other voidOk spec quals d =>
    (declaredType spec quals d).bind fun type => (typeValidate voidOk true type).map fun _ => tags

/-- The tags after some declarations. -/
def parse : Tags → List Item → Except String Tags
  | tags, [] => .ok tags
  | tags, item :: items => (parseItem tags item).bind fun tags => parse tags items

/-- The dimensions of an accepted declaration were accepted, and if they are small, so are those of
    the type; and sizes stay bounded then. -/
theorem parseItem_spec {tags tags' : Tags} {item : Item} (h : parseItem tags item = .ok tags') :
    (∀ c ∈ item.dims, ∃ n, dimension c = .ok n) ∧
      ((∀ c ∈ item.dims, c.i.toInt < 2 ^ 31) →
        (∀ t, item.type = some (.ok t) → smallDims t = true) ∧
          ((∀ s ∈ tags, SizeOk s) → ∀ s ∈ tags', SizeOk s)) := by
  cases item with
  | newTag id isUnion =>
    exact ⟨nofun, fun _ => ⟨nofun, fun htags =>
      @step_sizeOk tags tags' (.newTag id isUnion) htags rfl h⟩⟩
  | complete tag =>
    exact ⟨nofun, fun _ => ⟨nofun, fun htags => @step_sizeOk tags tags' (.complete tag) htags rfl h⟩⟩
  | member tag first id spec quals d bits =>
    obtain ⟨type, htype, hrest⟩ := bind_ok.mp h
    obtain ⟨bits', -, hstep⟩ := bind_ok.mp hrest
    obtain ⟨hacc, hsmall⟩ := declaredType_spec htype
    refine ⟨hacc, fun hdims => ⟨fun t ht => ?_, fun htags => ?_⟩⟩
    · obtain rfl := Except.ok.inj (htype.symm.trans (Option.some.inj ht))
      exact hsmall hdims
    · exact @step_sizeOk tags tags' (.member tag first id type bits') htags
        (bounded_of_smallDims (hsmall hdims)) hstep
  | other voidOk spec quals d =>
    obtain ⟨type, htype, hrest⟩ := bind_ok.mp h
    obtain ⟨-, -, rfl⟩ := map_ok.mp hrest
    obtain ⟨hacc, hsmall⟩ := declaredType_spec htype
    refine ⟨hacc, fun hdims => ⟨fun t ht => ?_, id⟩⟩
    obtain rfl := Except.ok.inj (htype.symm.trans (Option.some.inj ht))
    exact hsmall hdims

theorem parse_spec : ∀ {items : List Item} {tags tags' : Tags}, parse tags items = .ok tags' →
    (∀ item ∈ items, ∀ c ∈ item.dims, ∃ n, dimension c = .ok n) ∧
      ((∀ item ∈ items, ∀ c ∈ item.dims, c.i.toInt < 2 ^ 31) →
        (∀ item ∈ items, ∀ t, item.type = some (.ok t) → smallDims t = true) ∧
          ((∀ s ∈ tags, SizeOk s) → ∀ s ∈ tags', SizeOk s))
  | [], tags, tags', h => by
    obtain rfl := Except.ok.inj h
    exact ⟨nofun, fun _ => ⟨nofun, id⟩⟩
  | item :: items, tags, tags', h => by
    obtain ⟨mid, hitem, hrest⟩ := bind_ok.mp h
    obtain ⟨hacc, hsmall⟩ := parseItem_spec hitem
    obtain ⟨haccs, hsmalls⟩ := parse_spec hrest
    refine ⟨List.forall_mem_cons.mpr ⟨hacc, haccs⟩, fun hdims => ?_⟩
    obtain ⟨hdim, hdims⟩ := List.forall_mem_cons.mp hdims
    obtain ⟨ht, hkeep⟩ := hsmall hdim
    obtain ⟨hts, hkeeps⟩ := hsmalls hdims
    exact ⟨List.forall_mem_cons.mpr ⟨ht, hts⟩, fun htags => hkeeps (hkeep htags)⟩

/-! ### Exact sizes -/

/-- The type whose size `type_sizeof` takes: under TYPE_SIZEOF_TARGET, what a pointer points to or
    the elements of an array. -/
def measured (fl : SizeofFlags) : CType → Option CType
  | .ptr q t => some (if fl.target then t else .ptr q t)
  | .array q n e => some (if fl.target then e else .array q n e)
  | t => if fl.target then none else some t

/-- What `type_sizeof` returns is exact, positive and at most MAX_OBJECT_SIZE, or 0 for an incomplete
    type when it may not report an error; and no product on the way overflows a `long`. -/
def SizesExact (tags : Tags) (t : CType) : Prop :=
  ∀ fl u, measured fl t = some u →
    (∀ n, typeSizeof tags t fl = .ok n →
      n = exactSize tags u ∧ 0 < n ∧ n ≤ maxObjectSize ∨
        fl.noerror = true ∧ incomplete tags u = true ∧ n = 0) ∧
    ∀ p ∈ products tags 1 u, 0 ≤ p.1 ∧ p.1 * p.2 < 2 ^ 63

theorem typeSizeof_eq {tags : Tags} {t u : CType} {fl : SizeofFlags}
    (h : measured fl t = some u) : typeSizeof tags t fl = sizeofFrom tags fl.noerror 1 u := by
  rw [typeSizeof]
  cases htarget : fl.target <;> cases t <;> simp_all [measured, CType.next]

theorem smallDims_measured {t u : CType} {fl : SizeofFlags} (ht : smallDims t = true)
    (h : measured fl t = some u) : smallDims u = true := by
  cases htarget : fl.target <;> cases t <;> simp_all [measured, smallDims]
  all_goals (subst h; simp_all [smallDims])

theorem sizesExact {tags : Tags} (htags : ∀ s ∈ tags, SizeOk s) {t : CType}
    (ht : smallDims t = true) : SizesExact tags t := by
  intro fl u hu
  have hb := bounded_of_smallDims (smallDims_measured ht hu)
  refine ⟨fun n hn => ?_, products_fit (sizesBounded htags) u 1 hb (by decide)⟩
  rw [typeSizeof_eq hu] at hn
  have hexact := sizeofFrom_exact (sizesBounded htags) u 1 hb (by decide) hn
  rwa [Nat.one_mul] at hexact

/-- In a program, all dimensions are kept and all sizes exact if and only if no dimension is written
    as 2³¹ or more. -/
theorem sizes_exact_iff {items : List Item} {tags : Tags} (h : parse [] items = .ok tags) :
    ((∀ item ∈ items, ∀ c ∈ item.dims, Kept c) ∧
        ∀ item ∈ items, ∀ t, item.type = some (.ok t) → SizesExact tags t) ↔
      ∀ item ∈ items, ∀ c ∈ item.dims, c.i.toInt < 2 ^ 31 := by
  obtain ⟨hacc, hsmall⟩ := parse_spec h
  constructor
  · rintro ⟨hkept, -⟩ item hitem c hc
    obtain ⟨n, hn⟩ := hacc item hitem c hc
    exact (kept_iff hn).mp (hkept item hitem c hc)
  · intro hdims
    obtain ⟨htypes, htags⟩ := hsmall hdims
    refine ⟨fun item hitem c hc => ?_, fun item hitem t ht => ?_⟩
    · obtain ⟨n, hn⟩ := hacc item hitem c hc
      exact (kept_iff hn).mpr (hdims item hitem c hc)
    · exact sizesExact (htags fun _ hs => absurd hs List.not_mem_nil) (htypes item hitem t ht)

/-- `unsigned` constants. -/
def constant (n : Nat) : ConstTree := ⟨true, false, .basic .uint 0, BitVec.ofNat 64 n⟩

/-- `struct { int a : 3; char b[5]; };` and `short (*c)[7];`. -/
def smallItems : List Item :=
  [.newTag none false, .member 0 true (some 1) (.basic .int) 0 (.name []) (some (constant 3)),
    .member 0 true (some 2) (.basic .char) 0 (.name [.array (some (constant 5))]) none, .complete 0,
    .other false (.basic .short) 0
      (.group (.pointer 0 (.name [])) [.array (some (constant 7))])]

theorem sizes_exact_small : ∃ tags, parse [] smallItems = .ok tags ∧
    ∀ item ∈ smallItems, ∀ t, item.type = some (.ok t) → SizesExact tags t := by
  refine ⟨_, rfl, ?_⟩
  exact ((@sizes_exact_iff smallItems _ rfl).mpr (by decide)).2

/-- `char a[0xFFFFFFFF];` -/
def hugeItems : List Item :=
  [.other false (.basic .char) 0 (.name [.array (some (constant 0xFFFFFFFF))])]

theorem not_sizes_exact : ¬ ∀ (items : List Item) (tags : Tags), parse [] items = .ok tags →
    (∀ item ∈ items, ∀ c ∈ item.dims, Kept c) ∧
      ∀ item ∈ items, ∀ t, item.type = some (.ok t) → SizesExact tags t := by
  intro h
  obtain ⟨-, hsizes⟩ := h hugeItems [] rfl
  have hexact := hsizes _ (List.mem_singleton_self _) (.array 0 (2 ^ 64 - 1) (.basic .char 0)) rfl
  -- the size is 2⁶⁴ - 1, which is no size of an object
  have hsize : typeSizeof [] (.array 0 (2 ^ 64 - 1) (.basic .char 0)) {} = .ok (2 ^ 64 - 1) := rfl
  rcases (hexact {} _ rfl).1 _ hsize with ⟨-, -, hle⟩ | ⟨hno, -⟩
  · revert hle
    decide
  · exact nomatch hno

end Ncc.Decl
