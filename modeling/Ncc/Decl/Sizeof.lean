import Ncc.CType

/-! Sizes and alignments of types (type.c: `type_sizeof`, `type_alignof`).

    `type_sizeof` multiplies what the nodes contribute into a `long`, up to the first pointer, and
    gives up when the product exceeds MAX_OBJECT_SIZE. `sizeofFrom_exact` says that this check comes
    in time as long as no array dimension exceeds MAX_OBJECT_SIZE either. -/

namespace Ncc.Decl

/-- MAX_OBJECT_SIZE. -/
def maxObjectSize : Nat := 128 * 1024 * 1024

/-- An integer as a `long`. -/
def toLong (i : Int) : Int := i.bmod (2 ^ 64)

/-- An integer as a `size_t`. -/
def toSize (i : Int) : Nat := (i % 2 ^ 64).toNat

/-- An integer as an `int`. -/
def toInt (i : Int) : Int := i.bmod (2 ^ 32)

theorem toLong_eq {i : Int} (h0 : 0 ≤ i) (h : i < 2 ^ 63) : toLong i = i := by
  rw [toLong, Int.bmod_eq_of_le] <;> omega

theorem toSize_natCast {n : Nat} (h : n < 2 ^ 64) : toSize n = n := by
  rw [toSize]
  omega

theorem toInt_eq {i : Int} (h0 : 0 ≤ i) (h : i < 2 ^ 31) : toInt i = i := by
  rw [toInt, Int.bmod_eq_of_le] <;> omega

/-- A value that comes after another one. -/
theorem bind_ok {α β : Type} {x : Except String α} {f : α → Except String β} {b : β} :
    x.bind f = .ok b ↔ ∃ a, x = .ok a ∧ f a = .ok b := by
  cases x <;> simp [Except.bind]

theorem map_ok {α β : Type} {x : Except String α} {f : α → β} {b : β} :
    x.map f = .ok b ↔ ∃ a, x = .ok a ∧ f a = b := by
  cases x <;> simp [Except.map]

/-! ### Tags -/

/-- The size and the shift of a type that is T_FIELD. -/
structure Field where
  size : Nat
  shift : Nat
  deriving DecidableEq

/-- S_MEMBER. `path` is not in the source: it tells the `member_insert` through which the member
    came, by the number of members then, and whether that was a union's; and if the member was
    absorbed, the one through which it had come before. -/
structure Member where
  id : Option Nat
  type : CType
  field : Option Field
  flexible : Bool
  offset : Int
  path : List (Nat × Bool)

/-- S_STRUCT or S_UNION. The size is in bits until S_DEFINED. -/
structure Strun where
  id : Option Nat
  isUnion : Bool
  defined : Bool
  size : Nat
  align : Nat
  members : List Member

/-- The tags of structs and unions; types refer to them by number. -/
abbrev Tags := List Strun

/-- The tag, if it is S_DEFINED. -/
def definedTag (tags : Tags) (tag : Nat) : Option Strun := tags[tag]?.filter Strun.defined

/-! ### `type_sizeof` -/

/-- `type_bits_sizeof`; it is not asked for `void`. -/
def basicSizeof : Basic → Nat
  | .void => 0
  | .char | .schar | .uchar => 1
  | .short | .ushort => 2
  | .float | .int | .uint => 4
  | .double | .ldouble | .long | .ulong => 8

/-- The size of a pointer: that of `target->ptr_uint`. -/
def ptrSizeof : Nat := basicSizeof .ulong

/-- `size *= k`, where `k` is a `size_t`, unless that gives a size that is too large. -/
def times (size : Int) (k : Nat) : Except String Int :=
  let size := toLong (toSize size * k)
  if size > maxObjectSize then .error "type/object too large" else .ok size

-- only `times_eq` looks into it
attribute [local irreducible] times

/-- The incomplete types: an error, unless TYPE_SIZEOF_NOERROR. -/
def incompleteSize (noerror : Bool) (message : String) : Except String Nat :=
  if noerror then .ok 0 else .error message

/-- `type_sizeof`, from a node on, with `size` so far. -/
def sizeofFrom (tags : Tags) (noerror : Bool) (size : Int) : CType → Except String Nat
  | .strun tag _ =>
    match definedTag tags tag with
    | some s => (times size s.size).map toSize
    | none => incompleteSize noerror "is an incomplete type"
  | .array _ n e =>
    if n = 0 then incompleteSize noerror "incomplete array type"
    else (times size n).bind fun size => sizeofFrom tags noerror size e
  | .oldFunc .. | .func .. => .error "can't take size of function"
  | .basic .void _ => .error "void type has no size"
  | .basic ts _ => (times size (basicSizeof ts)).map toSize
  | .ptr .. => (times size ptrSizeof).map toSize

/-- TYPE_SIZEOF_*. -/
structure SizeofFlags where
  target : Bool := false
  noerror : Bool := false

/-- `type_sizeof`. -/
def typeSizeof (tags : Tags) (t : CType) (fl : SizeofFlags) : Except String Nat :=
  if fl.target then
    match t.next with
    | some t => sizeofFrom tags fl.noerror 1 t
    | none => .ok 1
  else sizeofFrom tags fl.noerror 1 t

/-- The factors of the products that `type_sizeof` computes, from a node on. -/
def products (tags : Tags) (size : Int) : CType → List (Int × Nat)
  | .strun tag _ =>
    match definedTag tags tag with
    | some s => [(size, s.size)]
    | none => []
  | .array _ n e =>
    if n = 0 then []
    else (size, n) :: (times size n).toOption.elim [] fun size => products tags size e
  | .oldFunc .. | .func .. => []
  | .basic .void _ => []
  | .basic ts _ => [(size, basicSizeof ts)]
  | .ptr .. => [(size, ptrSizeof)]

/-! ### `type_alignof` -/

/-- The alignments of the target; `void` has none. -/
def basicAlignof : Basic → Option Nat
  | .void => none
  | .char | .schar | .uchar => some 1
  | .short | .ushort => some 2
  | .float | .int | .uint => some 4
  | .double | .ldouble | .long | .ulong => some 8

/-- `type_alignof`. There is none if it finds no node that answers, which is undefined in C. -/
def typeAlignof (tags : Tags) : CType → Except String (Option Nat)
  | .array _ _ e => typeAlignof tags e
  | .oldFunc _ r => typeAlignof tags r
  | .func _ _ _ r => typeAlignof tags r
  | .basic ts _ => .ok (basicAlignof ts)
  | .ptr .. => .ok (basicAlignof .ulong)
  | .strun tag _ =>
    match definedTag tags tag with
    | some s => .ok s.align
    | none => .error "is incomplete"

/-! ### The size of a type -/

/-- The mathematical size of a type; types that have none count as 0. -/
def exactSize (tags : Tags) : CType → Nat
  | .strun tag _ => ((definedTag tags tag).map Strun.size).getD 0
  | .array _ n e => n * exactSize tags e
  | .oldFunc .. | .func .. => 0
  | .basic ts _ => basicSizeof ts
  | .ptr .. => ptrSizeof

/-- Does the size depend on something that is not known yet? -/
def incomplete (tags : Tags) : CType → Bool
  | .strun tag _ => (definedTag tags tag).isNone
  | .array _ n e => decide (n = 0) || incomplete tags e
  | _ => false

/-- No array dimension that counts for the size exceeds MAX_OBJECT_SIZE. -/
def bounded : CType → Bool
  | .array _ n e => decide (n ≤ maxObjectSize) && bounded e
  | _ => true

/-- The sizes of the tags are positive once these are defined, and in bits at most that of the
    largest object. -/
def SizesBounded (tags : Tags) : Prop :=
  ∀ tag s, definedTag tags tag = some s → 0 < s.size ∧ s.size ≤ 8 * maxObjectSize

theorem times_eq {size k : Nat} (hs : size ≤ maxObjectSize) (hk : k ≤ 8 * maxObjectSize) :
    times size k = if size * k ≤ maxObjectSize then .ok (size * k : Nat)
      else .error "type/object too large" := by
  have hprod : size * k ≤ 2 ^ 27 * 2 ^ 30 := Nat.mul_le_mul hs hk
  have hmax : maxObjectSize = 2 ^ 27 := rfl
  have hlong : toLong (toSize size * k) = (size * k : Nat) := by
    rw [toSize_natCast (by omega), ← Nat.cast_mul]
    exact toLong_eq (by omega) (by omega)
  rw [times, hlong]
  by_cases h : size * k ≤ maxObjectSize
  · rw [if_pos h, if_neg (by omega)]
  · rw [if_neg h, if_pos (by omega)]

/-- One factor: the product is exact, positive and bounded. -/
theorem times_ok {size k : Nat} {x : Int} (hs : 0 < size ∧ size ≤ maxObjectSize)
    (hk : 0 < k ∧ k ≤ 8 * maxObjectSize) (h : times size k = .ok x) :
    x = (size * k : Nat) ∧ 0 < size * k ∧ size * k ≤ maxObjectSize := by
  rw [times_eq hs.2 hk.2] at h
  by_cases hle : size * k ≤ maxObjectSize
  · rw [if_pos hle] at h
    exact ⟨(Except.ok.inj h).symm, Nat.mul_pos hs.1 hk.1, hle⟩
  · rw [if_neg hle] at h
    exact nomatch h

theorem basicSizeof_pos {ts : Basic} (h : ts ≠ .void) :
    0 < basicSizeof ts ∧ basicSizeof ts ≤ 8 * maxObjectSize := by
  revert h
  cases ts <;> decide

theorem ptrSizeof_pos : 0 < ptrSizeof ∧ ptrSizeof ≤ 8 * maxObjectSize :=
  basicSizeof_pos (by decide)

/-- The last factor. -/
theorem times_last {size k n : Nat} (hs : 0 < size ∧ size ≤ maxObjectSize)
    (hk : 0 < k ∧ k ≤ 8 * maxObjectSize) (h : (times size k).map toSize = .ok n) :
    n = size * k ∧ 0 < n ∧ n ≤ maxObjectSize := by
  cases hx : times size k with
  | error e => rw [hx] at h; exact nomatch h
  | ok x =>
    obtain ⟨rfl, hpos, hle⟩ := times_ok hs hk hx
    rw [hx] at h
    have hn : toSize (size * k : Nat) = n := Except.ok.inj h
    have hmax : maxObjectSize = 2 ^ 27 := rfl
    rw [toSize_natCast (by omega)] at hn
    subst hn
    exact ⟨rfl, hpos, hle⟩

/-- What `type_sizeof` returns is the exact size, positive and bounded, or 0 for an incomplete
    type. -/
theorem sizeofFrom_exact {tags : Tags} (htags : SizesBounded tags) {noerror : Bool} {n : Nat} :
    ∀ (t : CType) (size : Nat), bounded t = true → 0 < size ∧ size ≤ maxObjectSize →
      sizeofFrom tags noerror size t = .ok n →
      n = size * exactSize tags t ∧ 0 < n ∧ n ≤ maxObjectSize ∨
        noerror = true ∧ incomplete tags t = true ∧ n = 0
  | .strun tag q => fun size _ hs h => by
    rw [sizeofFrom] at h
    rw [exactSize, incomplete]
    cases htag : definedTag tags tag with
    | none =>
      cases noerror with
      | true => rw [htag] at h; exact Or.inr ⟨rfl, rfl, (Except.ok.inj h).symm⟩
      | false => rw [htag] at h; exact nomatch h
    | some s =>
      rw [htag] at h
      exact Or.inl (times_last hs (htags tag s htag) h)
  | .array q m e => fun size hb hs h => by
    rw [sizeofFrom] at h
    rw [exactSize, incomplete]
    obtain ⟨hm, he⟩ : m ≤ maxObjectSize ∧ bounded e = true := by simpa [bounded] using hb
    by_cases hm0 : m = 0
    · cases noerror with
      | true =>
        rw [if_pos hm0] at h
        exact Or.inr ⟨rfl, by simp [hm0], (Except.ok.inj h).symm⟩
      | false => rw [if_pos hm0] at h; exact nomatch h
    · rw [if_neg hm0] at h
      cases hx : times size m with
      | error msg => rw [hx] at h; exact nomatch h
      | ok x =>
        obtain ⟨rfl, hprod⟩ := times_ok hs ⟨by omega, by omega⟩ hx
        rw [hx] at h
        rcases @sizeofFrom_exact tags htags noerror n e (size * m) he hprod h with ⟨hn, hbound⟩ | ⟨hno, hi, hn⟩
        · exact Or.inl ⟨by rw [hn, Nat.mul_assoc], hbound⟩
        · exact Or.inr ⟨hno, by simp [hi], hn⟩
  | .oldFunc .. => fun _ _ _ h => nomatch h
  | .func .. => fun _ _ _ h => nomatch h
  | .basic ts q => fun size _ hs h => by
    by_cases hv : ts = .void
    · subst hv
      exact nomatch h
    · have hts : sizeofFrom tags noerror size (.basic ts q)
          = (times size (basicSizeof ts)).map toSize := by
        cases ts <;> first | rfl | exact absurd rfl hv
      rw [hts] at h
      exact Or.inl (times_last hs (basicSizeof_pos hv) h)
  | .ptr .. => fun size _ hs h => by
    rw [sizeofFrom] at h
    exact Or.inl (times_last hs ptrSizeof_pos h)

theorem product_fits {size k : Nat} (hs : size ≤ maxObjectSize) (hk : k ≤ 8 * maxObjectSize) :
    0 ≤ (size : Int) ∧ (size : Int) * k < 2 ^ 63 := by
  have hprod : size * k ≤ 2 ^ 27 * 2 ^ 30 := Nat.mul_le_mul hs hk
  rw [← Nat.cast_mul]
  omega

/-- The products on the way are those of non-negative numbers and fit in a `long`. -/
theorem products_fit {tags : Tags} (htags : SizesBounded tags) :
    ∀ (t : CType) (size : Nat), bounded t = true → 0 < size ∧ size ≤ maxObjectSize →
      ∀ p ∈ products tags size t, 0 ≤ p.1 ∧ p.1 * p.2 < 2 ^ 63
  | .strun tag q => fun size _ hs p hp => by
    rw [products] at hp
    cases htag : definedTag tags tag with
    | none => rw [htag] at hp; exact nomatch hp
    | some s =>
      rw [htag] at hp
      obtain rfl := List.mem_singleton.mp hp
      exact product_fits hs.2 (htags tag s htag).2
  | .array q m e => fun size hb hs p hp => by
    obtain ⟨hm, he⟩ : m ≤ maxObjectSize ∧ bounded e = true := by simpa [bounded] using hb
    rw [products] at hp
    by_cases hm0 : m = 0
    · rw [if_pos hm0] at hp
      exact nomatch hp
    · rw [if_neg hm0] at hp
      rcases List.mem_cons.mp hp with rfl | hp
      · exact product_fits hs.2 (by omega)
      · cases hx : times size m with
        | error msg => rw [hx] at hp; exact nomatch hp
        | ok x =>
          obtain ⟨rfl, hprod⟩ := times_ok hs ⟨by omega, by omega⟩ hx
          rw [hx] at hp
          exact products_fit htags e (size * m) he hprod p hp
  | .oldFunc .. => fun _ _ _ _ hp => nomatch hp
  | .func .. => fun _ _ _ _ hp => nomatch hp
  | .basic ts q => fun size _ hs p hp => by
    by_cases hv : ts = .void
    · subst hv
      exact nomatch hp
    · have hts : products tags size (.basic ts q) = [((size : Int), basicSizeof ts)] := by
        cases ts <;> first | rfl | exact absurd rfl hv
      rw [hts] at hp
      obtain rfl := List.mem_singleton.mp hp
      exact product_fits hs.2 (basicSizeof_pos hv).2
  | .ptr .. => fun size _ hs p hp => by
    rw [products] at hp
    obtain rfl := List.mem_singleton.mp hp
    exact product_fits hs.2 ptrSizeof_pos.2

end Ncc.Decl
