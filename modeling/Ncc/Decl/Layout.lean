import Ncc.Decl.Strun

/-! Soundness of the layout of structs and unions.

    `Laid` says where the members of a tag are while they are declared: in the bits counted so far,
    one after the other, unless a union is in the way. `insert_laid` and `complete_laid` say that a
    member and the end of the members keep it; `layout_sound` is what follows for a defined tag. -/

namespace Ncc.Decl

open Round

/-! ### Members and their bits -/

/-- The bit at which a member starts. -/
def Member.start (m : Member) : Int := 8 * m.offset + (m.field.map Field.shift).getD 0

/-- The number of its bits. -/
def Member.bits (tags : Tags) (m : Member) : Nat :=
  memberBits tags m.type (m.field.map Field.size)

/-- The bit behind the member. -/
def Member.stop (tags : Tags) (m : Member) : Int := m.start + m.bits tags

/-- The bits that a tag counts. -/
def Strun.extent (s : Strun) : Nat := if s.defined then 8 * s.size else s.size

/-- Did two members come through different ones of one union? -/
def oneUnion : List (Nat × Bool) → List (Nat × Bool) → Bool
  | (i, isUnion) :: p, (j, _) :: q => if i = j then oneUnion p q else isUnion
  | _, _ => false

/-- The place of one member in its tag. -/
structure Placed (tags : Tags) (s : Strun) (m : Member) : Prop where
  aligned : ∃ al, typeAlignof tags m.type = .ok (some al) ∧ IsAlign al ∧ al ≤ s.align ∧
    (al : Int) ∣ m.offset ∧
    ∀ f, m.field = some f → 0 < f.size ∧ f.shift + f.size ≤ 8 * al ∧ exactSize tags m.type = al
  nonneg : 0 ≤ m.offset
  within : m.stop tags ≤ s.extent
  path : ∃ k rest, m.path = (k, s.isUnion) :: rest ∧ k < s.members.length
  direct : s.isUnion = true → m.path.length = 1 → m.start = 0

/-- What holds of a tag all the time. -/
structure Laid (tags : Tags) (s : Strun) : Prop where
  size : SizeOk s
  placed : ∀ m ∈ s.members, Placed tags s m
  ordered : s.members.Pairwise fun m m' =>
    oneUnion m.path m'.path = true ∨ m.stop tags ≤ m'.start
  whole : s.defined = true → s.align ∣ s.size ∧ s.size ≤ maxObjectSize

theorem IsAlign.dvd {a b : Nat} (ha : IsAlign a) (hb : IsAlign b) (h : a ≤ b) : a ∣ b := by
  unfold IsAlign at ha hb
  rcases ha with rfl | rfl | rfl | rfl <;> rcases hb with rfl | rfl | rfl | rfl <;> omega

/-! ### What later definitions leave alone -/

/-- The defined tags stay as they are. -/
def Extends (tags tags' : Tags) : Prop :=
  ∀ tag s, definedTag tags tag = some s → definedTag tags' tag = some s

theorem typeAlignof_extends {tags tags' : Tags} (h : Extends tags tags') {a : Option Nat} :
    ∀ {t : CType}, typeAlignof tags t = .ok a →
      typeAlignof tags' t = .ok a ∧ exactSize tags' t = exactSize tags t
  | .basic .., ha => ⟨ha, rfl⟩
  | .ptr .., ha => ⟨ha, rfl⟩
  | .strun tag q, ha => by
    rw [typeAlignof] at ha ⊢
    rw [exactSize, exactSize]
    cases htag : definedTag tags tag with
    | none => rw [htag] at ha; cases ha
    | some s =>
      rw [htag] at ha
      rw [h tag s htag]
      exact ⟨ha, rfl⟩
  | .array q n e, ha => by
    rw [typeAlignof] at ha ⊢
    rw [exactSize, exactSize]
    obtain ⟨he, hsize⟩ := typeAlignof_extends h ha
    exact ⟨he, by rw [hsize]⟩
  | .oldFunc q r, ha => by
    rw [typeAlignof] at ha ⊢
    exact ⟨(typeAlignof_extends h ha).1, rfl⟩
  | .func q v fs r, ha => by
    rw [typeAlignof] at ha ⊢
    exact ⟨(typeAlignof_extends h ha).1, rfl⟩

theorem stop_extends {tags tags' : Tags} (h : Extends tags tags') {m : Member} {a : Option Nat}
    (ha : typeAlignof tags m.type = .ok a) : m.stop tags' = m.stop tags := by
  rw [Member.stop, Member.stop, Member.bits, Member.bits, memberBits, memberBits,
    (typeAlignof_extends h ha).2]

theorem Placed.extends {tags tags' : Tags} (h : Extends tags tags') {s : Strun} {m : Member}
    (hm : Placed tags s m) : Placed tags' s m := by
  obtain ⟨al, ha, hal, hle, hdvd, hfield⟩ := hm.aligned
  obtain ⟨ha', hsize⟩ := typeAlignof_extends h ha
  refine ⟨⟨al, ha', hal, hle, hdvd, fun f hf => ?_⟩, hm.nonneg, ?_, hm.path, hm.direct⟩
  · rw [hsize]
    exact hfield f hf
  · rw [stop_extends h ha]
    exact hm.within

theorem Laid.extends {tags tags' : Tags} (h : Extends tags tags') {s : Strun} (hs : Laid tags s) :
    Laid tags' s := by
  refine ⟨hs.size, fun m hm => (hs.placed m hm).extends h, ?_, hs.whole⟩
  refine hs.ordered.imp_of_mem fun {m m'} hm _ hmm => ?_
  obtain ⟨al, ha, -⟩ := (hs.placed m hm).aligned
  rw [stop_extends h ha]
  exact hmm

/-! ### One member -/

section
variable {tags : Tags} {s s' : Strun} {id : Option Nat} {type : CType} {field : Option Nat}
variable {al offset shift size : Nat}

theorem Fits.extent_le (h : Fits tags s type field al offset shift size) (hs : s.defined = false) :
    s.extent ≤ size := by
  rw [Strun.extent, hs, if_neg Bool.false_ne_true]
  exact h.le_size

/-- The end of the new member is within the new size. -/
theorem Fits.end_le (h : Fits tags s type field al offset shift size) :
    8 * offset + shift + memberBits tags type field ≤ size := by
  rw [h.grows]
  cases hu : s.isUnion with
  | true =>
    obtain ⟨rfl, rfl⟩ := h.first hu
    simp
  | false => simp

/-- What `insertAt` leaves of the tag besides the members. -/
structure Grown (s s' : Strun) (al size : Nat) : Prop where
  size : s'.size = size
  defined : s'.defined = s.defined
  isUnion : s'.isUnion = s.isUnion
  align : s'.align = max s.align al

theorem Grown.extent_eq (hg : Grown s s' al size) (hs : s.defined = false) : s'.extent = size := by
  rw [Strun.extent, hg.defined, hs, if_neg Bool.false_ne_true, hg.size]

theorem newMember_start (h : Fits tags s type field al offset shift size) (call : Nat × Bool) :
    (newMember call id type field shift offset).start = 8 * offset + shift := by
  cases field with
  | none => rw [h.plain rfl]; rfl
  | some bits => rfl

theorem newMember_bits (call : Nat × Bool) (o : Int) :
    (newMember call id type field shift o).bits tags = memberBits tags type field := by
  cases field <;> rfl

theorem newMember_placed (h : Fits tags s type field al offset shift size)
    (hs : s.defined = false) (hfield : FieldOk tags id type field) (hid : id ≠ none)
    (hg : Grown s s' al size) (hlen : s.members.length < s'.members.length) :
    Placed tags s' (newMember (s.members.length, s.isUnion) id type field shift offset) := by
  refine ⟨⟨al, h.alignof, h.align, ?_, Int.natCast_dvd_natCast.mpr h.dvd, fun f hf => ?_⟩,
    Int.natCast_nonneg offset, ?_, ⟨_, [], by rw [hg.isUnion]; rfl, hlen⟩, fun hu _ => ?_⟩
  · rw [hg.align]
    exact le_max_right _ _
  · obtain ⟨bits, hbits, rfl⟩ := Option.map_eq_some_iff.mp hf
    obtain ⟨hword, hsize⟩ := h.word bits hbits
    exact ⟨Nat.pos_of_ne_zero fun hzero => hid ((hfield bits hbits).2.2 hzero), hword, hsize⟩
  · rw [Member.stop, newMember_start h, newMember_bits, hg.extent_eq hs]
    exact_mod_cast h.end_le
  · obtain ⟨hoff, hshift⟩ := h.first (hg.isUnion ▸ hu)
    rw [newMember_start h, hoff, hshift]
    rfl

/-! ### The members of an anonymous struct or union -/

theorem anonymousStrun_eq_some {src : Strun} (h : anonymousStrun tags type = some src) :
    ∃ tag q, type = .strun tag q ∧ tags[tag]? = some src := by
  cases type with
  | strun tag q => exact ⟨tag, q, rfl, (Option.filter_eq_some_iff.mp h).1⟩
  | _ => exact nomatch h

/-- The anonymous struct or union is defined; its size and alignment are those of the type. -/
theorem Fits.anonymous (h : Fits tags s type field al offset shift size) {src : Strun}
    (hsrc : anonymousStrun tags type = some src) (hfield : FieldOk tags id type field) :
    src ∈ tags ∧ src.defined = true ∧ src.align = al ∧ shift = 0 ∧
      memberBits tags type field = 8 * src.size := by
  obtain ⟨tag, q, rfl, hget⟩ := anonymousStrun_eq_some hsrc
  obtain rfl : field = none := by
    cases field with
    | none => rfl
    | some bits => cases (hfield bits rfl).1
  have halign := h.alignof
  rw [typeAlignof] at halign
  cases htag : definedTag tags tag with
  | none => rw [htag] at halign; cases halign
  | some d =>
    rw [htag] at halign
    obtain ⟨hget', hdef⟩ := definedTag_eq_some.mp htag
    obtain rfl : src = d := Option.some.inj (hget.symm.trans hget')
    refine ⟨List.mem_of_getElem? hget, hdef, Option.some.inj (Except.ok.inj halign), h.plain rfl, ?_⟩
    rw [memberBits, exactSize, htag]
    rfl

theorem absorbed_start {src : Strun} (hsrc : Laid tags src) (hdef : src.defined = true) {m : Member}
    (hm : m ∈ src.members) (hoffset : 8 * offset ≤ 8 * maxObjectSize) (call : Nat × Bool) :
    (absorbed call (toSize offset) m).offset = offset + m.offset ∧
      (absorbed call (toSize offset) m).start = 8 * offset + m.start := by
  have hmax : maxObjectSize = 2 ^ 27 := rfl
  have hp := hsrc.placed m hm
  have hnonneg := hp.nonneg
  have hwithin := hp.within
  have hsize := (hsrc.whole hdef).2
  rw [Strun.extent, if_pos hdef, Member.stop, Member.start] at hwithin
  have heq : (absorbed call (toSize offset) m).offset = offset + m.offset := by
    rw [absorbed, toSize_natCast (by omega)]
    exact toInt_eq (by omega) (by omega)
  refine ⟨heq, ?_⟩
  rw [Member.start, Member.start, heq]
  have hfield : (absorbed call (toSize offset) m).field = m.field := rfl
  rw [hfield]
  omega

theorem absorbed_stop {src : Strun} (hsrc : Laid tags src) (hdef : src.defined = true) {m : Member}
    (hm : m ∈ src.members) (hoffset : 8 * offset ≤ 8 * maxObjectSize) (call : Nat × Bool) :
    (absorbed call (toSize offset) m).stop tags = 8 * offset + m.stop tags := by
  have hbits : (absorbed call (toSize offset) m).bits tags = m.bits tags := rfl
  rw [Member.stop, Member.stop, (absorbed_start hsrc hdef hm hoffset call).2, hbits]
  omega

theorem absorbed_placed (h : Fits tags s type field al offset shift size)
    (hs : s.defined = false) (hfield : FieldOk tags id type field) {src : Strun}
    (hsrc : anonymousStrun tags type = some src) (hlaid : Laid tags src)
    (hg : Grown s s' al size) (hlen : s.members.length < s'.members.length) {m : Member}
    (hm : m ∈ src.members) :
    Placed tags s' (absorbed (s.members.length, s.isUnion) (toSize offset) m) := by
  obtain ⟨-, hdef, hal, hshift, hbits⟩ := h.anonymous hsrc hfield
  have hend := h.end_le
  have hoffset : 8 * offset ≤ 8 * maxObjectSize := by have := h.size_le; omega
  have hp := hlaid.placed m hm
  obtain ⟨al', ha, hal', hle, hdvd, hword⟩ := hp.aligned
  obtain ⟨hoff, -⟩ := absorbed_start hlaid hdef hm hoffset (s.members.length, s.isUnion)
  refine ⟨⟨al', ha, hal', ?_, ?_, hword⟩, ?_, ?_, ⟨_, _, by rw [hg.isUnion]; rfl, hlen⟩,
    fun _ hone => ?_⟩
  · rw [hg.align, ← hal]
    exact le_max_of_le_right hle
  · rw [hoff]
    have hdvd' : al' ∣ offset := (hal'.dvd h.align (hal ▸ hle)).trans h.dvd
    exact (Int.natCast_dvd_natCast.mpr hdvd').add hdvd
  · rw [hoff]
    exact add_nonneg (Int.natCast_nonneg offset) hp.nonneg
  · have hwithin := hp.within
    rw [Strun.extent, if_pos hdef] at hwithin
    rw [absorbed_stop hlaid hdef hm hoffset, hg.extent_eq hs]
    omega
  · obtain ⟨k, rest, hpath, -⟩ := hp.path
    rw [absorbed, hpath] at hone
    simp at hone

/-! ### `member_insert` and `symbol_complete_strun` -/

/-- The members that are there already stay where they are. -/
theorem Placed.grown (hg : Grown s s' al size) (hs : s.defined = false) (hle : s.extent ≤ size)
    (hlen : s.members.length ≤ s'.members.length) {m : Member} (hm : Placed tags s m) :
    Placed tags s' m := by
  obtain ⟨al', ha, hal, hle', hdvd, hword⟩ := hm.aligned
  obtain ⟨k, rest, hpath, hk⟩ := hm.path
  refine ⟨⟨al', ha, hal, ?_, hdvd, hword⟩, hm.nonneg, ?_, ⟨k, rest, by rw [hg.isUnion]; exact hpath,
    by omega⟩, by rw [hg.isUnion]; exact hm.direct⟩
  · rw [hg.align]
    exact le_max_of_le_left hle'
  · have hwithin := hm.within
    rw [hg.extent_eq hs]
    omega

/-- What is added is in its place, behind what was there before. -/
structure Added (tags : Tags) (s s' : Strun) (new : List Member) : Prop where
  placed : ∀ m ∈ new, Placed tags s' m
  call : ∀ m ∈ new, ∃ rest, m.path = (s.members.length, s.isUnion) :: rest
  ordered : new.Pairwise fun m m' => oneUnion m.path m'.path = true ∨ m.stop tags ≤ m'.start
  after : s.isUnion = false → ∀ m ∈ new, (s.extent : Int) ≤ m.start

theorem newMember_added (h : Fits tags s type field al offset shift size)
    (hs : s.defined = false) (hfield : FieldOk tags id type field) (hid : id ≠ none)
    (hg : Grown s s' al size) (hlen : s.members.length < s'.members.length) :
    Added tags s s' [newMember (s.members.length, s.isUnion) id type field shift offset] := by
  refine ⟨fun m hm => ?_, fun m hm => ?_, List.pairwise_singleton _ _, fun hu m hm => ?_⟩
  all_goals obtain rfl := List.mem_singleton.mp hm
  · exact newMember_placed h hs hfield hid hg hlen
  · exact ⟨[], rfl⟩
  · have hafter := h.after hu
    rw [newMember_start h, Strun.extent, hs, if_neg Bool.false_ne_true]
    omega

theorem absorbed_added (h : Fits tags s type field al offset shift size)
    (hs : s.defined = false) (hfield : FieldOk tags id type field) {src : Strun}
    (hsrc : anonymousStrun tags type = some src) (hlaid : Laid tags src)
    (hg : Grown s s' al size) {new : List Member}
    (hlen : s'.members.length = s.members.length + new.length)
    (hnew : List.Sublist new
      (src.members.map (absorbed (s.members.length, s.isUnion) (toSize offset)))) :
    Added tags s s' new := by
  obtain ⟨-, hdef, -, hshift, -⟩ := h.anonymous hsrc hfield
  have hend := h.end_le
  have hoffset : 8 * offset ≤ 8 * maxObjectSize := by have := h.size_le; omega
  refine ⟨fun m hm => ?_, fun m hm => ?_, ?_, fun hu m hm => ?_⟩
  · have hpos := List.length_pos_of_mem hm
    obtain ⟨m, hmem, rfl⟩ := List.mem_map.mp (hnew.subset hm)
    exact absorbed_placed h hs hfield hsrc hlaid hg (by omega) hmem
  · obtain ⟨m, hmem, rfl⟩ := List.mem_map.mp (hnew.subset hm)
    exact ⟨m.path, rfl⟩
  · refine List.Pairwise.sublist hnew (List.pairwise_map.mpr ?_)
    refine hlaid.ordered.imp_of_mem fun {m m'} hm hm' hmm => ?_
    rw [absorbed_stop hlaid hdef hm hoffset, (absorbed_start hlaid hdef hm' hoffset _).2]
    refine hmm.imp (fun hone => ?_) fun hle => by omega
    simpa [absorbed, oneUnion] using hone
  · obtain ⟨m, hmem, rfl⟩ := List.mem_map.mp (hnew.subset hm)
    have hafter := h.after hu
    have hp := hlaid.placed m hmem
    have hnonneg := hp.nonneg
    rw [(absorbed_start hlaid hdef hmem hoffset _).2, Strun.extent, hs,
      if_neg Bool.false_ne_true, Member.start]
    omega

theorem Added.laid {new : List Member} (hadd : Added tags s s' new) (hs : Laid tags s)
    (hdef : s.defined = false) (hg : Grown s s' al size) (hle : s.extent ≤ size)
    (hsize : SizeOk s') (hmembers : s'.members = s.members ++ new) : Laid tags s' := by
  have hlen : s.members.length ≤ s'.members.length := by
    rw [hmembers, List.length_append]
    exact Nat.le_add_right _ _
  refine ⟨hsize, fun m hm => ?_, ?_, fun h => ?_⟩
  · rcases List.mem_append.mp (hmembers ▸ hm) with hm | hm
    · exact (hs.placed m hm).grown hg hdef hle hlen
    · exact hadd.placed m hm
  · rw [hmembers]
    refine List.pairwise_append.mpr ⟨hs.ordered, hadd.ordered, fun m hm m' hm' => ?_⟩
    obtain ⟨k, rest, hpath, hk⟩ := (hs.placed m hm).path
    obtain ⟨rest', hpath'⟩ := hadd.call m' hm'
    cases hu : s.isUnion with
    | true =>
      -- the two came through different members of this union
      left
      rw [hpath, hpath', oneUnion, if_neg (by omega), hu]
    | false =>
      right
      exact le_trans (hs.placed m hm).within (hadd.after hu m' hm')
  · rw [hg.defined, hdef] at h
    exact nomatch h

theorem insert_laid (hs : Laid tags s) (hdef : s.defined = false) (htags : ∀ s ∈ tags, Laid tags s)
    (hfield : FieldOk tags id type field) (hfit : Fits tags s type field al offset shift size)
    (h : insertAt tags { s with size := size, align := max s.align al } id type field shift offset
      = .ok s') : Laid tags s' := by
  obtain ⟨new, rfl, hnew⟩ := insertAt_ok h
  have hg : Grown s { s with size := size, align := max s.align al, members := s.members ++ new }
      al size := ⟨rfl, rfl, rfl, rfl⟩
  have hadd : Added tags s
      { s with size := size, align := max s.align al, members := s.members ++ new } new := by
    rcases hnew with rfl | ⟨rfl, hid⟩ | ⟨src, hsrc, hsub⟩
    · exact ⟨nofun, nofun, .nil, fun _ => nofun⟩
    · exact newMember_added hfit hdef hfield hid hg (by simp)
    · exact absorbed_added hfit hdef hfield hsrc
        (htags src (hfit.anonymous hsrc hfield).1) hg List.length_append hsub
  exact hadd.laid hs hdef hg (hfit.extent_le hdef) (hfit.sizeOk hs.size _) rfl

theorem complete_laid (hs : Laid tags s) (hdef : s.defined = false)
    (h : completeStrun s = .ok s') : Laid tags s' := by
  obtain ⟨n, rfl, hle, hdvd, -, hmax, -⟩ := completeStrun_spec hs.size h
  have hextent : s.extent = s.size := by rw [Strun.extent, hdef, if_neg Bool.false_ne_true]
  refine ⟨completeStrun_sizeOk hs.size h, fun m hm => ?_, hs.ordered, fun _ => ⟨hdvd, hmax⟩⟩
  have hp := hs.placed m hm
  refine ⟨hp.aligned, hp.nonneg, ?_, hp.path, hp.direct⟩
  have hwithin := hp.within
  have hnew : Strun.extent { s with size := n, defined := true } = 8 * n := rfl
  rw [hextent] at hwithin
  rw [hnew]
  omega

end

/-! ### Runs -/

/-- Each tag has the end of its members once, and no member comes after it. -/
def Once (es : List Event) : Prop :=
  es.Pairwise fun e e' => ∀ tag, e = .complete tag → e'.tag ≠ some tag

theorem definedTag_append {tags : Tags} {s : Strun} (hs : s.defined = false) (tag : Nat) :
    definedTag (tags ++ [s]) tag = definedTag tags tag := by
  rw [definedTag, definedTag]
  rcases lt_trichotomy tag tags.length with hlt | rfl | hgt
  · rw [List.getElem?_append_left hlt]
  · simp [hs]
  · rw [List.getElem?_append_right (by omega), List.getElem?_eq_none (by simp; omega),
      List.getElem?_eq_none (by omega)]

theorem definedTag_set {tags : Tags} {s : Strun} {tag tag' : Nat} (h : tag ≠ tag') :
    definedTag (tags.set tag s) tag' = definedTag tags tag' := by
  rw [definedTag, definedTag, List.getElem?_set_ne h]

theorem definedTag_set_self {tags : Tags} {s : Strun} {tag : Nat} (hs : s.defined = false) :
    definedTag (tags.set tag s) tag = none := by
  rw [definedTag]
  by_cases hlt : tag < tags.length
  · rw [List.getElem?_set_self hlt, Option.filter_some, hs, if_neg Bool.false_ne_true]
  · rw [List.getElem?_eq_none (by simpa using hlt)]
    rfl

/-- To change a tag that is not defined leaves the defined ones alone. -/
theorem extends_set {tags : Tags} {s : Strun} {tag : Nat} (h : definedTag tags tag = none) :
    Extends tags (tags.set tag s) := by
  intro tag' d hd
  have hne : tag ≠ tag' := by
    rintro rfl
    rw [h] at hd
    exact nomatch hd
  rwa [definedTag_set hne]

theorem defined_of_definedTag {tags : Tags} {tag : Nat} {s : Strun} (hs : tags[tag]? = some s)
    (h : definedTag tags tag = none) : s.defined = false := by
  cases hd : s.defined with
  | false => rfl
  | true =>
    rw [definedTag_eq_some.mpr ⟨hs, hd⟩] at h
    exact nomatch h

/-- A change of a tag keeps the layout, if it does so of that tag. -/
theorem set_laid {tags : Tags} {tag : Nat} {s' : Strun} (htags : ∀ s ∈ tags, Laid tags s)
    (hundef : definedTag tags tag = none) (hs' : Laid tags s') :
    ∀ s ∈ tags.set tag s', Laid (tags.set tag s') s := by
  intro s hs
  rcases List.mem_or_eq_of_mem_set hs with hs | rfl
  · exact (htags s hs).extends (extends_set hundef)
  · exact hs'.extends (extends_set hundef)

/-- One event keeps the layout, and defines no tag but the one it completes. -/
theorem step_laid {tags tags' : Tags} {e : Event} (htags : ∀ s ∈ tags, Laid tags s)
    (hb : e.bounded = true) (hundef : ∀ tag, e.tag = some tag → definedTag tags tag = none)
    (h : step tags e = .ok tags') :
    (∀ s ∈ tags', Laid tags' s) ∧
      ∀ tag, definedTag tags tag = none → e ≠ .complete tag → definedTag tags' tag = none := by
  cases e with
  | newTag id isUnion =>
    obtain rfl := Except.ok.inj h
    have hsame := @definedTag_append tags (newTag id isUnion) rfl
    refine ⟨fun s hs => ?_, fun tag htag _ => by rw [hsame]; exact htag⟩
    have hext : Extends tags (tags ++ [newTag id isUnion]) := fun tag d hd => by rwa [hsame]
    rcases List.mem_append.mp hs with hs | hs
    · exact (htags s hs).extends hext
    · obtain rfl := List.mem_singleton.mp hs
      exact ⟨newTag_sizeOk id isUnion, nofun, .nil, nofun⟩
  | member tag first id type bits =>
    rcases updateTag_ok h with rfl | ⟨s, s', hs, hf, rfl⟩
    · exact ⟨htags, fun tag htag _ => htag⟩
    · have hmem := List.mem_of_getElem? hs
      have hdef := defined_of_definedTag hs (hundef tag rfl)
      obtain ⟨hfield, al, offset, shift, size, hfit, hins⟩ :=
        declareMember_spec (fun s hs => (htags s hs).size) (htags s hmem).size hb hf
      have hlaid := insert_laid (htags s hmem) hdef htags hfield hfit hins
      refine ⟨set_laid htags (hundef tag rfl) hlaid, fun tag' htag' _ => ?_⟩
      obtain ⟨new, rfl, -⟩ := insertAt_ok hins
      by_cases heq : tag = tag'
      · subst heq
        exact definedTag_set_self hdef
      · rwa [definedTag_set heq]
  | complete tag =>
    rcases updateTag_ok h with rfl | ⟨s, s', hs, hf, rfl⟩
    · exact ⟨htags, fun tag htag _ => htag⟩
    · have hmem := List.mem_of_getElem? hs
      have hdef := defined_of_definedTag hs (hundef tag rfl)
      refine ⟨set_laid htags (hundef tag rfl) (complete_laid (htags s hmem) hdef hf),
        fun tag' htag' hne => ?_⟩
      rwa [definedTag_set fun heq => hne (by rw [heq])]

/-- Every run keeps the layout. -/
theorem run_laid : ∀ {es : List Event} {tags tags' : Tags}, (∀ s ∈ tags, Laid tags s) →
    (∀ e ∈ es, e.bounded = true) → Once es →
    (∀ e ∈ es, ∀ tag, e.tag = some tag → definedTag tags tag = none) →
    run tags es = .ok tags' → ∀ s ∈ tags', Laid tags' s
  | [], tags, tags', htags, _, _, _, h => by
    obtain rfl := Except.ok.inj h
    exact htags
  | e :: es, tags, tags', htags, hb, honce, hundef, h => by
    rw [run] at h
    cases hstep : step tags e with
    | error msg => rw [hstep] at h; exact nomatch h
    | ok mid =>
      rw [hstep] at h
      obtain ⟨hnot, honce⟩ := List.pairwise_cons.mp honce
      obtain ⟨hmid, hnone⟩ := step_laid htags (hb e List.mem_cons_self)
        (hundef e List.mem_cons_self) hstep
      refine run_laid hmid (fun e' he' => hb e' (List.mem_cons_of_mem _ he')) honce
        (fun e' he' tag htag => ?_) h
      refine hnone tag (hundef e' (List.mem_cons_of_mem _ he') tag htag) fun hcomp => ?_
      exact hnot e' he' tag hcomp htag

/-! ### Soundness -/

/-- A sound layout: members that are not in one union have no bit in common; they start at multiples
    of their alignments; a field lies in one word, which is within the object; the size is a multiple
    of the alignment and covers the members; and those of a union start at bit 0. -/
structure Sound (tags : Tags) (s : Strun) : Prop where
  disjoint : s.members.Pairwise fun m m' =>
    oneUnion m.path m'.path = true ∨ m.stop tags ≤ m'.start ∨ m'.stop tags ≤ m.start
  aligned : ∀ m ∈ s.members, 0 ≤ m.offset ∧
    ∃ al : Nat, typeAlignof tags m.type = .ok (some al) ∧ (al : Int) ∣ m.offset
  fields : ∀ m ∈ s.members, ∀ f, m.field = some f →
    f.shift + f.size ≤ 8 * exactSize tags m.type ∧ m.offset + exactSize tags m.type ≤ s.size
  rounded : s.align ∣ s.size
  covers : ∀ m ∈ s.members, 0 ≤ m.start ∧ m.stop tags ≤ 8 * s.size
  union : s.isUnion = true → ∀ m ∈ s.members, m.path.length = 1 → m.start = 0

theorem Laid.align {tags : Tags} {s : Strun} (h : Laid tags s) (hdef : s.defined = true) :
    IsAlign s.align := by
  refine h.size.align.resolve_left fun h0 => ?_
  have hempty := h.size.empty h0
  have hpos := h.size.defined hdef
  omega

theorem Laid.sound {tags : Tags} {s : Strun} (h : Laid tags s) (hdef : s.defined = true) :
    Sound tags s := by
  obtain ⟨hdvd, -⟩ := h.whole hdef
  have hextent : s.extent = 8 * s.size := by rw [Strun.extent, if_pos hdef]
  refine ⟨h.ordered.imp (Or.imp_right Or.inl), fun m hm => ?_, fun m hm f hf => ?_, hdvd,
    fun m hm => ?_, fun hu m hm => (h.placed m hm).direct hu⟩
  · obtain ⟨al, ha, -, -, halign, -⟩ := (h.placed m hm).aligned
    exact ⟨(h.placed m hm).nonneg, al, ha, halign⟩
  · have hp := h.placed m hm
    obtain ⟨al, -, hal, hle, ⟨k, hk⟩, hword⟩ := hp.aligned
    obtain ⟨hpos, hfit, hsize⟩ := hword f hf
    have hwithin := hp.within
    have hbits : m.bits tags = f.size := by rw [Member.bits, memberBits, hf]; rfl
    rw [hextent, Member.stop, hbits, Member.start, hf] at hwithin
    simp only [Option.map_some, Option.getD_some] at hwithin
    refine ⟨by rw [hsize]; exact hfit, ?_⟩
    -- the word starts below the size, and both are multiples of the alignment
    obtain ⟨j, hj⟩ := (hal.dvd (h.align hdef) hle).trans hdvd
    rw [hsize, hk, hj]
    have hlt : (al : Int) * k < al * j := by
      rw [← hk]
      have hcast : (s.size : Int) = al * j := by rw [hj, Nat.cast_mul]
      omega
    have hkj : k + 1 ≤ j := Int.lt_of_mul_lt_mul_left hlt (Int.natCast_nonneg al)
    calc (al : Int) * k + al = al * (k + 1) := by rw [mul_add, mul_one]
      _ ≤ al * j := mul_le_mul_of_nonneg_left hkj (Int.natCast_nonneg al)
      _ = (al * j : Nat) := (Nat.cast_mul al j).symm
  · have hp := h.placed m hm
    have hnonneg := hp.nonneg
    have hwithin := hp.within
    rw [hextent] at hwithin
    refine ⟨?_, by exact_mod_cast hwithin⟩
    rw [Member.start]
    omega

/-- The layout of a struct or union is sound, whatever its members are, as long as no array dimension
    among them exceeds MAX_OBJECT_SIZE. -/
theorem layout_sound {es : List Event} {tags : Tags} (hb : ∀ e ∈ es, e.bounded = true)
    (honce : Once es) (h : run [] es = .ok tags) {tag : Nat} {s : Strun}
    (hs : definedTag tags tag = some s) : Sound tags s := by
  obtain ⟨hmem, hdef⟩ := definedTag_eq_some.mp hs
  have hlaid := run_laid (fun _ hs => absurd hs List.not_mem_nil) hb honce (fun _ _ _ _ => rfl) h s (List.mem_of_getElem? hmem)
  exact hlaid.sound hdef

/-- A struct with fields, an anonymous union, an alignment field and an array:
    `struct { int a : 3; union { char c; long l; }; short b : 10; short d : 7; int : 0; short e[5]; }`. -/
def fieldRun : List Event :=
  [.newTag none false, .member 0 true (some 1) (.basic .int 0) (some 3), .newTag none true,
    .member 1 true (some 2) (.basic .char 0) none, .member 1 true (some 3) (.basic .long 0) none,
    .complete 1, .member 0 true none (.strun 1 0) none,
    .member 0 true (some 4) (.basic .short 0) (some 10),
    .member 0 true (some 5) (.basic .short 0) (some 7),
    .member 0 true none (.basic .int 0) (some 0),
    .member 0 true (some 6) (.array 0 5 (.basic .short 0)) none, .complete 0]

theorem layout_sound_fields : ∃ tags s, run [] fieldRun = .ok tags ∧
    definedTag tags 0 = some s ∧ s.members.map Member.offset = [0, 8, 8, 16, 18, 20] ∧
    s.size = 32 ∧ Sound tags s := by
  refine ⟨_, _, rfl, rfl, rfl, rfl, ?_⟩
  exact @layout_sound fieldRun _ (by decide) (by simp [Once, fieldRun, Event.tag]) rfl 0 _ rfl

/-- `struct { int a; int b[0xFFFFFFFF]; int c; }`: `size_expression` makes the dimension one of
    2⁶⁴ - 1. -/
def hugeRun : List Event :=
  [.newTag none false, .member 0 true (some 1) (.basic .int 0) none,
    .member 0 true (some 2) (.array 0 (2 ^ 64 - 1) (.basic .int 0)) none,
    .member 0 true (some 3) (.basic .int 0) none, .complete 0]

theorem not_layout_sound : ¬ ∀ (es : List Event) (tags : Tags), Once es → run [] es = .ok tags →
    ∀ tag s, definedTag tags tag = some s → Sound tags s := by
  intro h
  have hsound := h hugeRun _ (by simp [Once, hugeRun, Event.tag]) rfl 0 _ rfl
  have hdisjoint :=
    List.pairwise_iff_getElem.mp hsound.disjoint 0 2 (by decide) (by decide) (by decide)
  revert hdisjoint
  decide

end Ncc.Decl
