import Ncc.Decl.Sizeof
import Ncc.Lib.Round

/-! The layout of structs and unions (symbol.c: `member_insert` and `symbol_complete_strun`; decl.c:
    how the declaration of a member gets there).

    While its members are declared, the size of a tag counts bits. `memberInsert_spec` says what one
    member adds, `Laid` is what holds of a tag all the time, and `run_laid` that every run keeps it. -/

namespace Ncc.Decl

open Round

/-! ### `member_insert` -/

/-- ROUND_UP on `size_t`s. -/
def roundUpSize (a b : Nat) : Nat := (a + (b - 1)) % 2 ^ 64 / b * b

/-- ROUND_DOWN on `long`s. -/
def roundDownLong (a b : Int) : Int := a.tdiv b * b

/-- ROUND_UP on `long`s. -/
def roundUpLong (a b : Int) : Int := roundDownLong (a + (b - 1)) b

/-- `offset_bits` and `member_bits` of a member, and the shift if it is a field. -/
structure Placement where
  offsetBits : Int
  memberBits : Nat
  shift : Nat

/-- The placement of a field, in a word of `typeBits` bits. -/
def placeField (offsetBits : Int) (typeBits memberBits : Nat) : Placement :=
  let offsetBits :=
    if memberBits = 0 ∨ roundDown (toSize offsetBits) typeBits
        ≠ roundDown (toSize (offsetBits + memberBits - 1)) typeBits
    then toLong (roundUpSize (toSize offsetBits) typeBits) else offsetBits
  ⟨offsetBits, memberBits, toSize offsetBits % typeBits % 64⟩

/-- The placement of a member that is none. -/
def placePlain (offsetBits : Int) (typeBits align : Nat) : Placement :=
  ⟨roundUpLong offsetBits (align * 8), typeBits, 0⟩

/-- TYPE_UNBOUNDED_ARRAY. -/
def unboundedArray : CType → Bool
  | .array _ n _ => decide (n = 0)
  | _ => false

/-- TYPE_ANONYMOUS_STRUN: its tag. -/
def anonymousStrun (tags : Tags) : CType → Option Strun
  | .strun tag _ => tags[tag]?.filter fun s => s.id.isNone
  | _ => none

/-- The checks of `members_append`, member by member. -/
def checkMembers (id : Option Nat) : List Member → Except String Unit
  | [] => .ok ()
  | m :: ms =>
    if m.id = id then .error "duplicate member"
    else if m.flexible then .error "no members allowed after flexible array"
    else checkMembers id ms

/-- `members_append`. -/
def membersAppend (members : List Member) (member : Member) : Except String (List Member) :=
  if member.id = none then .ok members
  else (checkMembers member.id members).map fun _ => members ++ [member]

/-- A copy of a member of an anonymous struct or union at `offset`. -/
def absorbed (call : Nat × Bool) (offset : Nat) (m : Member) : Member :=
  { m with offset := toInt (offset + m.offset), path := call :: m.path }

/-- `members_absorb`; `call` is what the members have in front of their paths. -/
def membersAbsorb (call : Nat × Bool) (offset : Nat) :
    List Member → List Member → Except String (List Member)
  | dst, [] => .ok dst
  | dst, m :: src =>
    (membersAppend dst (absorbed call offset m)).bind fun dst => membersAbsorb call offset dst src

/-- `type_bits`. -/
def typeBits (tags : Tags) (type : CType) : Except String Nat :=
  if unboundedArray type then .ok 0
  else (typeSizeof tags type {}).map fun n => n * 8 % 2 ^ 64

/-- The symbol that `member_insert` makes. -/
def newMember (call : Nat × Bool) (id : Option Nat) (type : CType) (field : Option Nat)
    (shift : Nat) (offset : Int) : Member :=
  { id := id, type := type, field := field.map fun size => ⟨size, shift⟩,
    flexible := unboundedArray type, offset := offset, path := [call] }

/-- The rest of `member_insert` when the member is placed, for a tag `s` whose size and alignment
    are updated already. -/
def insertAt (tags : Tags) (s : Strun) (id : Option Nat) (type : CType) (field : Option Nat)
    (shift : Nat) (offset : Int) : Except String Strun :=
  let call := (s.members.length, s.isUnion)
  let members :=
    match id, anonymousStrun tags type with
    | none, some src => membersAbsorb call (toSize offset) s.members src.members
    | _, _ => .ok s.members
  members.bind fun members =>
    (membersAppend members (newMember call id type field shift offset)).map fun members =>
      { s with members := members }

/-- `member_insert`; the type of a field comes with its size. -/
def memberInsert (tags : Tags) (s : Strun) (id : Option Nat) (type : CType) (field : Option Nat) :
    Except String Strun :=
  (typeBits tags type).bind fun typeBits =>
  (typeAlignof tags type).bind fun align =>
    -- there is always one when there is a size
    let align := align.getD 0
    let start := if s.isUnion then 0 else toLong s.size
    let p :=
      match field with
      | some size => placeField start typeBits size
      | none => placePlain start typeBits align
    let offset := toInt (roundDownLong (p.offsetBits.tdiv 8) align)
    let finish := if s.isUnion then p.offsetBits else toLong (p.offsetBits + p.memberBits)
    let size := if s.isUnion then max s.size p.memberBits else toSize finish
    if finish > maxObjectSize * 8 then .error "exceeds maximum object size"
    else
      insertAt tags { s with size := size, align := max s.align align } id type field p.shift offset

/-- `symbol_complete_strun`. -/
def completeStrun (s : Strun) : Except String Strun :=
  if s.size = 0 then .error "has zero size"
  else .ok { s with size := roundUpSize s.size (s.align * 8) / 8, defined := true }

/-! ### From a declaration to `member_insert` -/

/-- TYPE_FUNC. -/
def isFunc : CType → Bool
  | .oldFunc .. | .func .. => true
  | _ => false

/-- `type_validate`, from a node on; `first` tells the first node. Old-style arguments are no part
    of a type here. -/
def typeValidate (voidOk first : Bool) : CType → Except String Unit
  | .array _ _ e =>
    if unboundedArray e then .error "illegal array specification"
    else if isFunc e || e.isVoid then .error "illegal array components"
    else typeValidate voidOk false e
  | .oldFunc _ r | .func _ _ _ r =>
    match r with
    | .array .. | .oldFunc .. | .func .. => .error "illegal return type"
    | _ => typeValidate voidOk false r
  | .basic .void _ => if first && !voidOk then .error "illegal use of 'void' type" else .ok ()
  | .ptr _ t => typeValidate voidOk false t
  | _ => .ok ()

/-- `bitfield`: the size of the field, of `bits` bits according to `size_expression`. -/
def bitfield (tags : Tags) (id : Option Nat) (type : CType) (bits : Nat) : Except String Nat :=
  if type.integral = false then .error "bit fields must have integral type"
  else if bits = 0 ∧ id ≠ none then .error "alignment fields must be anonymous"
  else
    (typeSizeof tags type {}).bind fun size =>
      if bits > size * 8 then .error "bit field too long for type" else .ok bits

/-- `member_declaration`; `first` is DECLARATIONS_FLAG_FIRST. -/
def memberDeclaration (tags : Tags) (s : Strun) (first : Bool) (id : Option Nat) (type : CType)
    (field : Option Nat) : Except String Strun :=
  if id = none ∧ field = none ∧ ¬ (first ∧ (anonymousStrun tags type).isSome) then
    .error "member declaration missing identifier"
  else if isFunc type then .error "function can't be a member"
  else memberInsert tags s id type field

/-- What `declarations` does with a member of a struct or union when its declarator is parsed. -/
def declareMember (tags : Tags) (s : Strun) (first : Bool) (id : Option Nat) (type : CType)
    (bits : Option Nat) : Except String Strun :=
  (typeValidate false true type).bind fun _ =>
    match bits with
    | some bits =>
      (bitfield tags id type bits).bind fun size =>
        memberDeclaration tags s first id type (some size)
    | none => memberDeclaration tags s first id type none

/-! ### Runs -/

/-- What happens to tags: a new one, a member of one, or the end of the members of one. -/
inductive Event where
  | newTag (id : Option Nat) (isUnion : Bool)
  | member (tag : Nat) (first : Bool) (id : Option Nat) (type : CType) (bits : Option Nat)
  | complete (tag : Nat)

/-- The tag whose definition goes on. -/
def Event.tag : Event → Option Nat
  | newTag .. => none
  | member tag .. | complete tag => some tag

/-- A new tag. -/
def newTag (id : Option Nat) (isUnion : Bool) : Strun := ⟨id, isUnion, false, 0, 0, []⟩

/-- Change one tag; there are no others than those in the list. -/
def updateTag (tags : Tags) (tag : Nat) (f : Strun → Except String Strun) : Except String Tags :=
  match tags[tag]? with
  | some s => (f s).map fun s => tags.set tag s
  | none => .ok tags

/-- One event. -/
def step (tags : Tags) : Event → Except String Tags
  | .newTag id isUnion => .ok (tags ++ [newTag id isUnion])
  | .member tag first id type bits =>
    updateTag tags tag fun s => declareMember tags s first id type bits
  | .complete tag => updateTag tags tag completeStrun

/-- The tags after some events. -/
def run : Tags → List Event → Except String Tags
  | tags, [] => .ok tags
  | tags, e :: es => (step tags e).bind fun tags => run tags es

/-- The types of the members have no dimension that exceeds MAX_OBJECT_SIZE. -/
def Event.bounded : Event → Bool
  | member _ _ _ type _ => Decl.bounded type
  | _ => true

/-! ### Where `member_insert` puts a member -/

/-- The alignments of types. -/
def IsAlign (al : Nat) : Prop := al = 1 ∨ al = 2 ∨ al = 4 ∨ al = 8

/-- The bits of a member: those of the field, or of its type. -/
def memberBits (tags : Tags) (type : CType) (field : Option Nat) : Nat :=
  field.getD (8 * exactSize tags type)

theorem roundDownLong_natCast (a b : Nat) : roundDownLong a b = roundDown a b := by
  rw [roundDownLong, roundDown, ← Int.ofNat_tdiv]
  norm_cast

theorem roundUpLong_natCast {b : Nat} (hb : 0 < b) (a : Nat) : roundUpLong a b = roundUp a b := by
  have hsum : (a : Int) + (b - 1) = (a + (b - 1) : Nat) := by omega
  rw [roundUpLong, hsum, roundDownLong_natCast]
  rfl

theorem roundUpSize_eq {a b : Nat} (h : a + b ≤ 2 ^ 64) (hb : 0 < b) :
    roundUpSize a b = roundUp a b := by
  rw [roundUpSize, Nat.mod_eq_of_lt (by omega)]
  rfl

/-- A field lies in one word from a place on that is not before the offset. -/
theorem placeField_spec {o T bits : Nat} (ho : o ≤ 8 * maxObjectSize) (hT : 0 < T ∧ T ≤ 64)
    (hbits : bits ≤ T) :
    ∃ bit : Nat, placeField o T bits = ⟨bit, bits, bit % T⟩ ∧ o ≤ bit ∧ bit < o + T ∧
      bit % T + bits ≤ T ∧ (o = 0 → bit = 0) := by
  have hmax : maxObjectSize = 2 ^ 27 := rfl
  have hstart : toSize o = o := toSize_natCast (by omega)
  rw [placeField, hstart]
  by_cases hfit : bits = 0 ∨ roundDown o T ≠ roundDown (toSize (o + bits - 1)) T
  · have hle := le_roundUp hT.1 o
    have hlt := roundUp_lt hT.1 o
    have hmod : roundUp o T % T = 0 := Nat.mod_eq_zero_of_dvd (dvd_roundUp o T)
    refine ⟨roundUp o T, ?_, hle, hlt, by omega, fun h => ?_⟩
    · rw [if_pos hfit, roundUpSize_eq (by omega) hT.1, toLong_eq (by omega) (by omega),
        toSize_natCast (by omega), Nat.mod_eq_of_lt (by omega)]
    · subst h
      exact Nat.le_zero.mp (roundUp_le hT.1 (Nat.zero_le 0) (Nat.dvd_zero T))
  · obtain ⟨hpos, hsame⟩ := not_or.mp hfit
    have hend : ((o : Int) + bits - 1) = (o + (bits - 1) : Nat) := by omega
    rw [hend, toSize_natCast (by omega), not_not] at hsame
    have hlt := mod_add_lt_of_roundDown hT.1 hsame
    refine ⟨o, ?_, le_refl o, by omega, by omega, id⟩
    rw [if_neg hfit, hstart, Nat.mod_eq_of_lt (by omega)]

/-- Another member starts at a multiple of its alignment, at most that far from the offset. -/
theorem placePlain_spec {o bits al : Nat} (ho : o ≤ 8 * maxObjectSize) (hal : IsAlign al) :
    ∃ bit : Nat, placePlain o bits al = ⟨bit, bits, 0⟩ ∧ o ≤ bit ∧ bit < o + 8 * al ∧
      bit % (8 * al) = 0 ∧ (o = 0 → bit = 0) := by
  have hpos : 0 < 8 * al := by unfold IsAlign at hal; omega
  refine ⟨roundUp o (8 * al), ?_, le_roundUp hpos o, roundUp_lt hpos o,
    Nat.mod_eq_zero_of_dvd (dvd_roundUp o (8 * al)), fun h => ?_⟩
  · have hcast : (al : Int) * 8 = (8 * al : Nat) := by omega
    rw [placePlain, hcast, roundUpLong_natCast hpos]
  · subst h
    exact Nat.le_zero.mp (roundUp_le hpos (Nat.zero_le 0) (Nat.dvd_zero _))

/-- The offset of a member in bytes, of which the bits from the last word boundary on are left. -/
theorem offset_spec {bit al : Nat} (hat : bit < 2 ^ 33) :
    toInt (roundDownLong ((bit : Int).tdiv 8) al) = (bit / (8 * al) * al : Nat) := by
  have htdiv : (bit : Int).tdiv 8 = (bit / 8 : Nat) := (Int.ofNat_tdiv bit 8).symm
  have hle : bit / 8 / al * al ≤ bit / 8 := Nat.div_mul_le_self _ _
  rw [htdiv, roundDownLong_natCast, roundDown, ← Nat.div_div_eq_div_mul]
  exact toInt_eq (by omega) (by omega)

/-- What holds of the size and the alignment of a tag all the time. -/
structure SizeOk (s : Strun) : Prop where
  size_le : s.size ≤ 8 * maxObjectSize
  align : s.align = 0 ∨ IsAlign s.align
  empty : s.align = 0 → s.size = 0
  defined : s.defined = true → 0 < s.size

theorem definedTag_eq_some {tags : Tags} {tag : Nat} {s : Strun} :
    definedTag tags tag = some s ↔ tags[tag]? = some s ∧ s.defined = true :=
  Option.filter_eq_some_iff

theorem sizesBounded {tags : Tags} (h : ∀ s ∈ tags, SizeOk s) : SizesBounded tags := by
  intro tag s hs
  obtain ⟨hmem, hdef⟩ := definedTag_eq_some.mp hs
  have hok := h s (List.mem_of_getElem? hmem)
  exact ⟨hok.defined hdef, hok.size_le⟩

theorem typeBits_ok {tags : Tags} (htags : SizesBounded tags) {type : CType}
    (hb : bounded type = true) {n : Nat} (h : typeBits tags type = .ok n) :
    n = 8 * exactSize tags type ∧ exactSize tags type ≤ maxObjectSize := by
  have hmax : maxObjectSize = 2 ^ 27 := rfl
  rw [typeBits] at h
  by_cases hu : unboundedArray type = true
  · rw [if_pos hu] at h
    have hzero : exactSize tags type = 0 := by
      cases type with
      | array q m e =>
        obtain rfl : m = 0 := by simpa [unboundedArray] using hu
        rw [exactSize, Nat.zero_mul]
      | _ => cases hu
    exact ⟨by rw [hzero, ← Except.ok.inj h], by omega⟩
  · rw [if_neg hu] at h
    cases hsize : typeSizeof tags type {} with
    | error e => rw [hsize] at h; cases h
    | ok size =>
      rw [hsize] at h
      have hn : size * 8 % 2 ^ 64 = n := Except.ok.inj h
      rcases sizeofFrom_exact htags type 1 hb (by decide) hsize with ⟨hexact, -, hle⟩ | hno
      · rw [Nat.one_mul] at hexact
        omega
      · cases hno.1

/-- A type that `type_validate` accepts as a member's has an alignment. -/
theorem typeAlignof_isAlign {tags : Tags} (htags : ∀ s ∈ tags, SizeOk s) {a : Option Nat} :
    ∀ (t : CType) (first : Bool), isFunc t = false → t.isVoid = false →
      typeValidate false first t = .ok () → typeAlignof tags t = .ok a →
      ∃ al, a = some al ∧ IsAlign al
  | .basic ts q => fun first _ hvoid _ h => by
    rw [typeAlignof] at h
    obtain rfl := Except.ok.inj h
    revert hvoid
    cases ts <;> simp [CType.isVoid, basicAlignof, IsAlign]
  | .ptr q t => fun first _ _ _ h => by
    rw [typeAlignof] at h
    obtain rfl := Except.ok.inj h
    exact ⟨8, rfl, by simp [IsAlign]⟩
  | .strun tag q => fun first _ _ _ h => by
    rw [typeAlignof] at h
    cases htag : definedTag tags tag with
    | none => rw [htag] at h; exact nomatch h
    | some s =>
      rw [htag] at h
      obtain ⟨hmem, hdef⟩ := definedTag_eq_some.mp htag
      have hok := htags s (List.mem_of_getElem? hmem)
      refine ⟨s.align, (Except.ok.inj h).symm, hok.align.resolve_left fun hzero => ?_⟩
      have hpos := hok.defined hdef
      have hempty := hok.empty hzero
      omega
  | .array q n e => fun first _ _ hv h => by
    rw [typeValidate] at hv
    rw [typeAlignof] at h
    by_cases hu : unboundedArray e = true
    · rw [if_pos hu] at hv
      exact nomatch hv
    · rw [if_neg hu] at hv
      by_cases hbad : (isFunc e || e.isVoid) = true
      · rw [if_pos hbad] at hv
        exact nomatch hv
      · rw [if_neg hbad] at hv
        obtain ⟨hfunc, hvoid⟩ := Bool.or_eq_false_iff.mp (Bool.not_eq_true _ ▸ hbad)
        exact typeAlignof_isAlign htags e false hfunc hvoid hv h
  | .oldFunc .. => fun _ hfunc _ _ _ => nomatch hfunc
  | .func .. => fun _ hfunc _ _ _ => nomatch hfunc

/-- How `member_insert` places a member of a tag `s`: the alignment of the type, the offset, the
    shift, and the new size of the tag. -/
structure Fits (tags : Tags) (s : Strun) (type : CType) (field : Option Nat)
    (al offset shift size : Nat) : Prop where
  alignof : typeAlignof tags type = .ok (some al)
  align : IsAlign al
  dvd : al ∣ offset
  after : s.isUnion = false → s.size ≤ 8 * offset + shift
  first : s.isUnion = true → offset = 0 ∧ shift = 0
  plain : field = none → shift = 0
  word : ∀ bits, field = some bits → shift + bits ≤ 8 * al ∧ exactSize tags type = al
  grows : size = if s.isUnion then max s.size (memberBits tags type field)
    else 8 * offset + shift + memberBits tags type field
  size_le : size ≤ 8 * maxObjectSize

/-- What `bitfield` makes sure of. -/
def FieldOk (tags : Tags) (id : Option Nat) (type : CType) (field : Option Nat) : Prop :=
  ∀ bits, field = some bits →
    type.integral = true ∧ bits ≤ 8 * exactSize tags type ∧ (bits = 0 → id = none)

/-- Integral types are aligned to their size. -/
theorem exactSize_integral {tags : Tags} {type : CType} {al : Nat} (h : type.integral = true)
    (hal : typeAlignof tags type = .ok (some al)) : exactSize tags type = al := by
  cases type with
  | basic ts q =>
    rw [typeAlignof] at hal
    have halign : basicAlignof ts = some al := Except.ok.inj hal
    revert h halign
    cases ts <;> simp [CType.integral, Basic.integral, basicAlignof, exactSize, basicSizeof]
  | _ => cases h

/-- Where a member starts, from the offset `o` on. -/
theorem place_spec {tags : Tags} {id : Option Nat} {type : CType} {field : Option Nat} {o al : Nat}
    (ho : o ≤ 8 * maxObjectSize) (hal : IsAlign al)
    (halign : typeAlignof tags type = .ok (some al)) (hfield : FieldOk tags id type field) :
    ∃ bit : Nat,
      (match field with
        | some size => placeField o (8 * exactSize tags type) size
        | none => placePlain o (8 * exactSize tags type) al)
          = ⟨bit, memberBits tags type field, bit % (8 * al)⟩ ∧
      o ≤ bit ∧ bit < o + 64 ∧ (o = 0 → bit = 0) ∧ (field = none → bit % (8 * al) = 0) ∧
      ∀ bits, field = some bits → bit % (8 * al) + bits ≤ 8 * al ∧ exactSize tags type = al := by
  have hle : 0 < 8 * al ∧ 8 * al ≤ 64 := by unfold IsAlign at hal; omega
  cases field with
  | none =>
    obtain ⟨bit, heq, hge, hlt, hmod, hzero⟩ :=
      @placePlain_spec o (8 * exactSize tags type) al ho hal
    exact ⟨bit, by rw [hmod]; exact heq, hge, by omega, hzero, fun _ => hmod, nofun⟩
  | some bits =>
    obtain ⟨hint, hbits, -⟩ := hfield bits rfl
    have hsize := exactSize_integral hint halign
    rw [hsize] at hbits
    obtain ⟨bit, heq, hge, hlt, hmod, hzero⟩ := placeField_spec ho hle hbits
    refine ⟨bit, ?_, hge, by omega, hzero, nofun, fun b hb => ?_⟩
    · rw [hsize]
      exact heq
    · obtain rfl := Option.some.inj hb
      exact ⟨hmod, hsize⟩

theorem memberInsert_spec {tags : Tags} {s s' : Strun} {id : Option Nat} {type : CType}
    {field : Option Nat} (htags : ∀ s ∈ tags, SizeOk s) (hs : SizeOk s)
    (hb : bounded type = true) (hfield : FieldOk tags id type field)
    (halign : ∀ a, typeAlignof tags type = .ok a → ∃ al, a = some al ∧ IsAlign al)
    (h : memberInsert tags s id type field = .ok s') :
    ∃ al offset shift size, Fits tags s type field al offset shift size ∧
      insertAt tags { s with size := size, align := max s.align al } id type field shift offset
        = .ok s' := by
  have hmax : maxObjectSize = 2 ^ 27 := rfl
  have hsize := hs.size_le
  rw [memberInsert] at h
  cases hbits : typeBits tags type with
  | error e => rw [hbits] at h; exact nomatch h
  | ok n =>
    obtain ⟨rfl, hexact⟩ := typeBits_ok (sizesBounded htags) hb hbits
    cases ha : typeAlignof tags type with
    | error e => rw [hbits, ha] at h; exact nomatch h
    | ok a =>
      obtain ⟨al, rfl, hal⟩ := halign a ha
      have hlt8 : 0 < 8 * al ∧ 8 * al ≤ 64 := by unfold IsAlign at hal; omega
      -- the offset so far, as a natural number
      obtain ⟨o, hstart, ho⟩ : ∃ o : Nat, (if s.isUnion then 0 else toLong s.size) = (o : Int) ∧
          o = if s.isUnion then 0 else s.size := by
        refine ⟨_, ?_, rfl⟩
        by_cases hu : s.isUnion = true
        · rw [if_pos hu, if_pos hu, Nat.cast_zero]
        · rw [if_neg hu, if_neg hu, toLong_eq (by omega) (by omega)]
      have hole : o ≤ 8 * maxObjectSize := by rw [ho]; split <;> omega
      obtain ⟨bit, hplace, hge, hlt, hzero, hplain, hword⟩ := place_spec hole hal ha hfield
      have hmb : memberBits tags type field ≤ 8 * maxObjectSize := by
        cases field with
        | none => exact Nat.mul_le_mul_left 8 hexact
        | some bits =>
          exact le_trans (hfield bits rfl).2.1 (Nat.mul_le_mul_left 8 hexact)
      rw [hbits, ha] at h
      simp only [Except.bind, Option.getD_some, hstart, hplace, offset_spec (by omega : bit < 2 ^ 33)]
        at h
      have hfinish : (if s.isUnion then (bit : Int) else toLong (bit + memberBits tags type field))
          = (if s.isUnion then bit else bit + memberBits tags type field : Nat) := by
        by_cases hu : s.isUnion = true
        · rw [if_pos hu, if_pos hu]
        · rw [if_neg hu, if_neg hu, toLong_eq (by omega) (by omega), Nat.cast_add]
      rw [hfinish] at h
      by_cases hbig : ((if s.isUnion then bit else bit + memberBits tags type field : Nat) : Int)
          > maxObjectSize * 8
      · rw [if_pos hbig] at h
        exact nomatch h
      · rw [if_neg hbig] at h
        have hat : 8 * (bit / (8 * al) * al) + bit % (8 * al) = bit := by
          rw [Nat.mul_comm (bit / (8 * al)), ← Nat.mul_assoc]
          exact Nat.div_add_mod bit (8 * al)
        have hnew : (if s.isUnion then max s.size (memberBits tags type field)
              else toSize (if s.isUnion then bit else bit + memberBits tags type field : Nat))
            = if s.isUnion then max s.size (memberBits tags type field)
              else bit + memberBits tags type field := by
          by_cases hu : s.isUnion = true
          · rw [if_pos hu, if_pos hu]
          · rw [if_neg hu, if_neg hu, if_neg hu, toSize_natCast (by omega)]
        rw [hnew] at h
        refine ⟨al, bit / (8 * al) * al, bit % (8 * al), _, ⟨ha, hal, Nat.dvd_mul_left _ _, ?_, ?_,
          hplain, hword, by rw [hat], ?_⟩, h⟩
        · intro hu
          rw [hat]
          simpa [ho, hu] using hge
        · intro hu
          obtain rfl := hzero (by rw [ho, if_pos hu])
          simp
        · by_cases hu : s.isUnion = true
          · rw [if_pos hu]
            omega
          · rw [if_neg hu] at hbig ⊢
            omega

/-! ### The members it adds -/

theorem membersAppend_ok {ms r : List Member} {m : Member} (h : membersAppend ms m = .ok r) :
    r = ms ∧ m.id = none ∨ r = ms ++ [m] ∧ m.id ≠ none := by
  rw [membersAppend] at h
  by_cases hid : m.id = none
  · rw [if_pos hid] at h
    exact Or.inl ⟨(Except.ok.inj h).symm, hid⟩
  · rw [if_neg hid] at h
    cases hc : checkMembers m.id ms with
    | error e => rw [hc] at h; exact nomatch h
    | ok u => rw [hc] at h; exact Or.inr ⟨(Except.ok.inj h).symm, hid⟩

theorem membersAbsorb_ok {call : Nat × Bool} {offset : Nat} :
    ∀ {src dst r : List Member}, membersAbsorb call offset dst src = .ok r →
      ∃ new, r = dst ++ new ∧ List.Sublist new (src.map (absorbed call offset))
  | [], dst, r, h => ⟨[], by rw [List.append_nil]; exact (Except.ok.inj h).symm, .slnil⟩
  | m :: src, dst, r, h => by
    rw [membersAbsorb] at h
    cases ha : membersAppend dst (absorbed call offset m) with
    | error e => rw [ha] at h; exact nomatch h
    | ok dst' =>
      rw [ha] at h
      obtain ⟨new, rfl, hsub⟩ := membersAbsorb_ok h
      rcases membersAppend_ok ha with ⟨rfl, -⟩ | ⟨rfl, -⟩
      · exact ⟨new, rfl, hsub.cons _⟩
      · exact ⟨absorbed call offset m :: new, List.append_assoc .., hsub.cons_cons _⟩

/-- A named member is appended, and an anonymous struct or union absorbed. -/
theorem insertAt_ok {tags : Tags} {s s' : Strun} {id : Option Nat} {type : CType}
    {field : Option Nat} {shift : Nat} {offset : Int}
    (h : insertAt tags s id type field shift offset = .ok s') :
    ∃ new, s' = { s with members := s.members ++ new } ∧
      (new = [] ∨
        new = [newMember (s.members.length, s.isUnion) id type field shift offset] ∧ id ≠ none ∨
        ∃ src, anonymousStrun tags type = some src ∧
          List.Sublist new
            (src.members.map (absorbed (s.members.length, s.isUnion) (toSize offset)))) := by
  unfold insertAt at h
  cases id with
  | some i =>
    simp only [Except.bind] at h
    cases hm : membersAppend s.members
        (newMember (s.members.length, s.isUnion) (some i) type field shift offset) with
    | error e => rw [hm] at h; exact nomatch h
    | ok ms =>
      rw [hm] at h
      rcases membersAppend_ok hm with ⟨-, hid⟩ | ⟨rfl, hid⟩
      · exact nomatch hid
      · exact ⟨_, (Except.ok.inj h).symm, Or.inr (Or.inl ⟨rfl, hid⟩)⟩
  | none =>
    cases hsrc : anonymousStrun tags type with
    | none =>
      rw [hsrc] at h
      exact ⟨[], by rw [List.append_nil]; exact (Except.ok.inj h).symm, Or.inl rfl⟩
    | some src =>
      rw [hsrc] at h
      cases ha : membersAbsorb (s.members.length, s.isUnion) (toSize offset) s.members
          src.members with
      | error e => simp only [ha] at h; exact nomatch h
      | ok ms =>
        simp only [ha] at h
        obtain ⟨new, rfl, hsub⟩ := membersAbsorb_ok ha
        exact ⟨new, (Except.ok.inj h).symm, Or.inr (Or.inr ⟨src, rfl, hsub⟩)⟩

/-! ### What the declaration of a member and the end of the members do -/

theorem declareMember_ok {tags : Tags} {s s' : Strun} {first : Bool} {id : Option Nat}
    {type : CType} {bits : Option Nat} (h : declareMember tags s first id type bits = .ok s') :
    typeValidate false true type = .ok () ∧ isFunc type = false ∧
      memberInsert tags s id type bits = .ok s' ∧
      ∀ b, bits = some b → type.integral = true ∧ (b = 0 → id = none) ∧
        ∃ n, typeSizeof tags type {} = .ok n ∧ b ≤ n * 8 := by
  have inserted {field : Option Nat} (h : memberDeclaration tags s first id type field = .ok s') :
      isFunc type = false ∧ memberInsert tags s id type field = .ok s' := by
    rw [memberDeclaration] at h
    split at h
    · exact nomatch h
    · split at h
      · exact nomatch h
      · exact ⟨Bool.eq_false_iff.mpr ‹_›, h⟩
  unfold declareMember at h
  cases hv : typeValidate false true type with
  | error e => rw [hv] at h; exact nomatch h
  | ok u =>
    rw [hv] at h
    cases bits with
    | none =>
      obtain ⟨hfunc, hins⟩ := inserted h
      exact ⟨rfl, hfunc, hins, nofun⟩
    | some b =>
      simp only [Except.bind, bitfield] at h
      by_cases hint : type.integral = false
      · rw [if_pos hint] at h
        exact nomatch h
      · rw [if_neg hint] at h
        by_cases hzero : b = 0 ∧ id ≠ none
        · rw [if_pos hzero] at h
          exact nomatch h
        · rw [if_neg hzero] at h
          cases hsize : typeSizeof tags type {} with
          | error e => rw [hsize] at h; exact nomatch h
          | ok n =>
            by_cases hlong : b > n * 8
            · simp only [hsize, if_pos hlong] at h
              exact nomatch h
            · simp only [hsize, if_neg hlong] at h
              obtain ⟨hfunc, hins⟩ := inserted h
              refine ⟨rfl, hfunc, hins, fun b' hb' => ?_⟩
              obtain rfl := Option.some.inj hb'
              exact ⟨Bool.not_eq_false _ ▸ hint, fun h0 => not_not.mp fun hid => hzero ⟨h0, hid⟩,
                n, rfl, by omega⟩

/-- The declaration of a member puts it in its place. -/
theorem declareMember_spec {tags : Tags} {s s' : Strun} {first : Bool} {id : Option Nat}
    {type : CType} {bits : Option Nat} (htags : ∀ s ∈ tags, SizeOk s) (hs : SizeOk s)
    (hb : bounded type = true) (h : declareMember tags s first id type bits = .ok s') :
    FieldOk tags id type bits ∧
      ∃ al offset shift size, Fits tags s type bits al offset shift size ∧
        insertAt tags { s with size := size, align := max s.align al } id type bits shift offset
          = .ok s' := by
  obtain ⟨hv, hfunc, hins, hbits⟩ := declareMember_ok h
  have hvoid : type.isVoid = false := by
    cases type with
    | basic ts q => cases ts <;> first | rfl | exact nomatch hv
    | _ => rfl
  have hfield : FieldOk tags id type bits := by
    intro b hb'
    obtain ⟨hint, hzero, n, hsize, hle⟩ := hbits b hb'
    refine ⟨hint, ?_, hzero⟩
    rcases sizeofFrom_exact (sizesBounded htags) type 1 hb (by decide) hsize with ⟨hn, -⟩ | hno
    · omega
    · exact nomatch hno.1
  exact ⟨hfield, memberInsert_spec htags hs hb hfield
    (fun a ha => typeAlignof_isAlign htags type true hfunc hvoid hv ha) hins⟩

theorem Fits.le_size {tags : Tags} {s : Strun} {type : CType} {field : Option Nat}
    {al offset shift size : Nat} (h : Fits tags s type field al offset shift size) :
    s.size ≤ size := by
  rw [h.grows]
  cases hu : s.isUnion with
  | true => exact le_max_left _ _
  | false =>
    have hafter := h.after hu
    simp only [Bool.false_eq_true, if_false]
    omega

/-- A member keeps what holds of sizes. -/
theorem Fits.sizeOk {tags : Tags} {s : Strun} {type : CType} {field : Option Nat}
    {al offset shift size : Nat} (h : Fits tags s type field al offset shift size) (hs : SizeOk s)
    (members : List Member) :
    SizeOk { s with size := size, align := max s.align al, members := members } := by
  have hal : IsAlign (max s.align al) := by
    rcases hs.align with h0 | h0
    · rw [h0, Nat.zero_max]
      exact h.align
    · rcases max_choice s.align al with h1 | h1 <;> rw [h1]
      · exact h0
      · exact h.align
  refine ⟨h.size_le, Or.inr hal, fun hzero => ?_,
    fun hdef => lt_of_lt_of_le (hs.defined hdef) h.le_size⟩
  unfold IsAlign at hal
  simp only at hzero
  omega

/-- The size is rounded up to bytes. -/
theorem completeStrun_spec {s s' : Strun} (hs : SizeOk s) (h : completeStrun s = .ok s') :
    ∃ size, s' = { s with size := size, defined := true } ∧ s.size ≤ 8 * size ∧ s.align ∣ size ∧
      0 < size ∧ size ≤ maxObjectSize ∧ s.align ≠ 0 := by
  have hmax : maxObjectSize = 2 ^ 27 := rfl
  have hle := hs.size_le
  rw [completeStrun] at h
  by_cases hzero : s.size = 0
  · rw [if_pos hzero] at h
    exact nomatch h
  · rw [if_neg hzero] at h
    have hal : IsAlign s.align := hs.align.resolve_left fun h0 => hzero (hs.empty h0)
    have hpos : 0 < s.align * 8 ∧ s.align * 8 ≤ 64 ∧ s.align ≠ 0 := by
      unfold IsAlign at hal
      omega
    have hround : roundUpSize s.size (s.align * 8) = roundUp s.size (s.align * 8) :=
      roundUpSize_eq (by omega) hpos.1
    have hge := le_roundUp hpos.1 s.size
    have hbound : roundUp s.size (s.align * 8) ≤ 8 * maxObjectSize := by
      refine roundUp_le hpos.1 hle ?_
      unfold IsAlign at hal
      rcases hal with h1 | h1 | h1 | h1 <;> rw [h1] <;> decide
    obtain ⟨k, hk⟩ := dvd_roundUp s.size (s.align * 8)
    have hdiv : roundUp s.size (s.align * 8) / 8 = s.align * k := by
      rw [hk, Nat.mul_right_comm]
      exact Nat.mul_div_cancel _ (by decide)
    have hk8 : roundUp s.size (s.align * 8) = 8 * (s.align * k) := by
      rw [hk, Nat.mul_right_comm, Nat.mul_comm]
    refine ⟨s.align * k, ?_, by omega, Nat.dvd_mul_right _ _, by omega, by omega, hpos.2.2⟩
    rw [← hdiv, ← hround]
    exact (Except.ok.inj h).symm

theorem completeStrun_sizeOk {s s' : Strun} (hs : SizeOk s) (h : completeStrun s = .ok s') :
    SizeOk s' := by
  obtain ⟨n, rfl, -, -, hpos, hmax, hne⟩ := completeStrun_spec hs h
  exact ⟨le_trans hmax (Nat.le_mul_of_pos_left _ (by decide)), hs.align, fun h0 => absurd h0 hne,
    fun _ => hpos⟩

theorem updateTag_ok {tags tags' : Tags} {tag : Nat} {f : Strun → Except String Strun}
    (h : updateTag tags tag f = .ok tags') :
    tags' = tags ∨ ∃ s s', tags[tag]? = some s ∧ f s = .ok s' ∧ tags' = tags.set tag s' := by
  rw [updateTag] at h
  cases hs : tags[tag]? with
  | none => rw [hs] at h; exact Or.inl (Except.ok.inj h).symm
  | some s =>
    rw [hs] at h
    cases hf : f s with
    | error e => simp only [hf] at h; exact nomatch h
    | ok s' =>
      simp only [hf] at h
      exact Or.inr ⟨s, s', rfl, hf, (Except.ok.inj h).symm⟩

theorem newTag_sizeOk (id : Option Nat) (isUnion : Bool) : SizeOk (newTag id isUnion) :=
  ⟨Nat.zero_le _, Or.inl rfl, fun _ => rfl, nofun⟩

/-- Every event keeps what holds of sizes. -/
theorem step_sizeOk {tags tags' : Tags} {e : Event} (htags : ∀ s ∈ tags, SizeOk s)
    (hb : e.bounded = true) (h : step tags e = .ok tags') : ∀ s ∈ tags', SizeOk s := by
  cases e with
  | newTag id isUnion =>
    obtain rfl := Except.ok.inj h
    intro s hs
    rcases List.mem_append.mp hs with hs | hs
    · exact htags s hs
    · obtain rfl := List.mem_singleton.mp hs
      exact newTag_sizeOk id isUnion
  | member tag first id type bits =>
    rcases updateTag_ok h with rfl | ⟨s, s', hs, hf, rfl⟩
    · exact htags
    · have hok := htags s (List.mem_of_getElem? hs)
      obtain ⟨-, al, offset, shift, size, hfit, hins⟩ := declareMember_spec htags hok hb hf
      obtain ⟨new, rfl, -⟩ := insertAt_ok hins
      intro t ht
      rcases List.mem_or_eq_of_mem_set ht with ht | rfl
      · exact htags t ht
      · exact hfit.sizeOk hok _
  | complete tag =>
    rcases updateTag_ok h with rfl | ⟨s, s', hs, hf, rfl⟩
    · exact htags
    · intro t ht
      rcases List.mem_or_eq_of_mem_set ht with ht | rfl
      · exact htags t ht
      · exact completeStrun_sizeOk (htags s (List.mem_of_getElem? hs)) hf

end Ncc.Decl
