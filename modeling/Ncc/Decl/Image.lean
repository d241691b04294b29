import Ncc.Decl.Init

/-! The image of a static initializer and the places of its values.

    `Painted` says that the output so far is the picture of the values in their places, and `Spoiled`
    that it is not and never will be. Every call keeps one of them, and the walk of `init` keeps in
    step with the layout: it advances by the bits of the type. Which of the two it is in the end is a
    matter of the gaps: `static_image_iff`. -/

namespace Ncc.Decl

open Bits

/-! ### The image that is meant -/

/-- The image of an object: it has its size, holds every value in its place, and is clear
    elsewhere. -/
structure Matches (image : List (BitVec 8)) (size : Nat) (leaves : List Piece) : Prop where
  length : image.length = size
  holds : ∀ l ∈ leaves, 0 ≤ l.start ∧ l.stop ≤ 8 * size ∧
    ∀ k, k < l.bits.length → bitAt image (l.start + k).toNat = l.bits.getD k false
  clear : ∀ i : Nat, i < 8 * size → (∀ l ∈ leaves, ¬(l.start ≤ i ∧ i < l.stop)) →
    bitAt image i = false

/-- A gap that does not go back. If it has whole bytes but does not complete the byte before it, then
    what there is of that byte is clear. -/
def Clean (leaves : List Piece) (j : Joint) : Prop :=
  j.stop ≤ j.start ∧ (8 ≤ j.start - j.stop → j.stop % 8 ≤ j.start % 8 →
    ∀ i, j.stop - j.stop % 8 ≤ i → i < j.stop → paint leaves i = false)

instance (leaves : List Piece) (j : Joint) : Decidable (Clean leaves j) :=
  inferInstanceAs (Decidable (_ ∧ _))

/-! ### The output so far -/

section
variable {env : Env} {o o' : Out} {p p' : Plan}

/-- The output is the picture of the values, which come one after the other, and the gaps are
    clean. -/
structure Painted (env : Env) (o : Out) (p : Plan) : Prop where
  emitted : ∃ s, Emitted env o s ∧ (s.length : Int) = p.pos ∧
    ∀ i : Nat, s.getD i false = paint p.leaves i
  inside : ∀ l ∈ p.leaves, 0 ≤ l.start ∧ l.stop ≤ p.pos
  ordered : Ordered p.leaves
  joints : ∀ j ∈ p.joints, j.stop ≤ p.pos ∧ Clean p.leaves j

/-- A gap is not clean, and what is written is wrong for good. -/
structure Spoiled (env : Env) (o : Out) (p : Plan) : Prop where
  joint : ∃ j ∈ p.joints, ¬ Clean p.leaves j
  output : o.hung = true ∨ ∀ bytes, assemble env o.text = some bytes →
    ∃ i : Nat, i / 8 < bytes.length ∧ bitAt bytes i = false ∧ paint p.leaves i = true

/-- One or the other. -/
def Tracked (env : Env) (o : Out) (p : Plan) : Prop := Painted env o p ∨ Spoiled env o p

theorem Clean.mono {leaves leaves' : List Piece} {j : Joint} (hl : leaves <+: leaves')
    (h : Clean leaves' j) : Clean leaves j := by
  refine ⟨h.1, fun hlong hbyte i hi hlt => ?_⟩
  rw [← Bool.not_eq_true]
  intro hp
  exact Bool.noConfusion ((paint_mono hl hp).symm.trans (h.2 hlong hbyte i hi hlt))

/-- More output does not make it right. -/
theorem Spoiled.mono (h : Spoiled env o p) (hg : Grows o o') (hl : p.leaves <+: p'.leaves)
    (hj : p.joints <+: p'.joints) : Spoiled env o' p' := by
  obtain ⟨j, hmem, hclean⟩ := h.joint
  refine ⟨⟨j, hj.subset hmem, fun hc => hclean (hc.mono hl)⟩, ?_⟩
  rcases h.output with hhung | hwrong
  · exact .inl (hg.hung hhung)
  · refine .inr fun bytes' h' => ?_
    obtain ⟨bytes, hb, rest, rfl⟩ := hg.assemble h'
    obtain ⟨i, hi, hbit, hp⟩ := hwrong bytes hb
    refine ⟨i, ?_, ?_, paint_mono hl hp⟩
    · rw [List.length_append]
      omega
    · rw [bitAt_append_left hi, hbit]

/-- A value behind what there is. -/
theorem Painted.leaf {l : Piece} (h : Painted env o p) (hstart : l.start = p.pos)
    (he : ∀ s, Emitted env o s → (s.length : Int) = p.pos → Emitted env o' (s ++ l.bits)) :
    Painted env o' (p.leaf l) := by
  obtain ⟨s, hs, hlen, hpaint⟩ := h.emitted
  -- the new value shows nothing before its start
  have hbefore {i : Int} (hi : i < p.pos) : paint (p.leaf l).leaves i = paint p.leaves i := by
    have hnone : paint [l] i = false := paint_eq_false fun q hq hqi => by
      obtain rfl := List.mem_singleton.mp hq
      omega
    rw [Plan.leaf, paint_append, hnone, Bool.or_false]
  refine ⟨⟨s ++ l.bits, he s hs hlen, ?_, fun i => ?_⟩, fun q hq => ?_, ?_, fun j hj => ?_⟩
  · rw [List.length_append, Nat.cast_add, hlen]
    rfl
  · by_cases hi : i < s.length
    · rw [List.getD_append _ _ _ _ hi, hpaint, hbefore (by omega)]
    · have hold : paint p.leaves i = false := by
        rw [← hpaint, List.getD_eq_default _ _ (by omega)]
      rw [List.getD_append_right _ _ _ _ (by omega), Plan.leaf, paint_append, hold, Bool.false_or,
        paint, List.any_cons, List.any_nil, Bool.or_false, Piece.show, decide_eq_true (by omega),
        Bool.true_and]
      congr 1
      omega
  · rcases List.mem_append.mp hq with hq | hq
    · have := h.inside q hq
      exact ⟨this.1, le_trans this.2 (by simp [Plan.leaf])⟩
    · obtain rfl := List.mem_singleton.mp hq
      refine ⟨by omega, ?_⟩
      rw [Piece.stop, hstart]
      exact le_refl _
  · refine List.pairwise_append.mpr ⟨h.ordered, List.pairwise_singleton _ _, fun q hq r hr => ?_⟩
    obtain rfl := List.mem_singleton.mp hr
    rw [hstart]
    exact (h.inside q hq).2
  · obtain ⟨hle, hstop, hclean⟩ := h.joints j hj
    refine ⟨le_trans hle (by simp [Plan.leaf]), hstop, fun hlong hbyte i hi hlt => ?_⟩
    rw [hbefore (by omega)]
    exact hclean hlong hbyte i hi hlt

/-- A gap behind what there is. -/
theorem Painted.pad (h : Painted env o p) (n : Int) :
    Tracked env (initPad n o) ((Call.pad n).place env p) := by
  obtain ⟨s, hs, hlen, hpaint⟩ := h.emitted
  by_cases hc : Clean p.leaves ⟨p.pos, p.pos + n⟩
  · left
    obtain ⟨hle, hclear⟩ := hc
    obtain ⟨m, rfl⟩ : ∃ m : Nat, n = m := Int.eq_ofNat_of_zero_le (by simpa using hle)
    have hok : m < 8 ∨ 8 ≤ s.length % 8 + m % 8 ∨
        ∀ i, s.length - s.length % 8 ≤ i → i < s.length → s.getD i false = false := by
      by_cases hlong : m < 8
      · exact .inl hlong
      · by_cases hfull : 8 ≤ s.length % 8 + m % 8
        · exact .inr (.inl hfull)
        · refine .inr (.inr fun i hi hlt => ?_)
          rw [hpaint]
          exact hclear (by simp; omega) (by simp; omega) i (by simp; omega) (by simp; omega)
    refine ⟨⟨_, hs.initPad hok, ?_, fun i => ?_⟩, fun l hl => ?_, h.ordered, fun j hj => ?_⟩
    · rw [List.length_append, List.length_replicate, Nat.cast_add, hlen]
      rfl
    · rw [Call.place, ← hpaint]
      by_cases hi : i < s.length
      · rw [List.getD_append _ _ _ _ hi]
      · rw [List.getD_append_right _ _ _ _ (by omega), List.getD_eq_default s _ (by omega)]
        by_cases hi' : i - s.length < m
        · exact List.getD_replicate false hi'
        · exact List.getD_eq_default _ _ (by simp; omega)
    · have := h.inside l hl
      exact ⟨this.1, le_trans this.2 hle⟩
    · rcases List.mem_append.mp hj with hj | hj
      · obtain ⟨hstop, hj⟩ := h.joints j hj
        exact ⟨le_trans hstop hle, hj⟩
      · obtain rfl := List.mem_singleton.mp hj
        exact ⟨hle, hle, hclear⟩
  · right
    refine ⟨⟨_, List.mem_append_right _ (List.mem_singleton_self _), hc⟩, ?_⟩
    by_cases hneg : n < 0
    · rcases @initPad_negative env n hneg o with hhung | hnone
      · exact .inl hhung
      · refine .inr fun bytes hb => ?_
        rw [hnone] at hb
        exact nomatch hb
    · obtain ⟨m, rfl⟩ : ∃ m : Nat, n = m := Int.eq_ofNat_of_zero_le (by omega)
      -- a bit of the byte before the gap is set, and the byte comes behind it
      obtain ⟨hlong, hbyte, i, hi, hlt, hp⟩ : 8 ≤ (m : Int) ∧ p.pos % 8 ≤ (p.pos + m) % 8 ∧
          ∃ i, p.pos - p.pos % 8 ≤ i ∧ i < p.pos ∧ paint p.leaves i = true := by
        by_contra hno
        refine hc ⟨by simp, fun hlong hbyte i hi hlt => ?_⟩
        rw [← Bool.not_eq_true]
        intro hp
        exact hno ⟨by simpa using hlong, hbyte, i, hi, hlt, hp⟩
      obtain ⟨bytes, hb, hclear⟩ := hs.initPad_passes (n := m) (by omega) (by omega)
      refine .inr fun bytes' hb' => ?_
      obtain rfl := Option.some.inj (hb.symm.trans hb')
      obtain ⟨k, rfl⟩ : ∃ k : Nat, i = k := Int.eq_ofNat_of_zero_le (by omega)
      obtain ⟨hin, hbit⟩ := hclear k (by omega) (by omega)
      exact ⟨k, hin, hbit, hp⟩

/-! ### The calls -/

/-- A word in bytes. -/
theorem bitsOf_wordByte (w : Word) (n : Nat) :
    bitsOf ((List.range n).map (wordByte w)) = lowBits w (8 * n) := by
  refine ext_getD (by simp) fun k hk => ?_
  rw [length_bitsOf, List.length_map, List.length_range] at hk
  rw [getD_bitsOf, bitAt, getD_lowBits, decide_eq_true hk, Bool.true_and, List.getD_eq_getElem _ _
    (by simp; omega), List.getElem_map, List.getElem_range, wordByte, BitVec.getLsbD_setWidth,
    decide_eq_true (Nat.mod_lt k (by decide)), Bool.true_and, BitVec.getLsbD_ushiftRight,
    Nat.div_add_mod]

/-- A word is the bytes of its constant. -/
theorem lay_word (ts : TypeBits) (c : Constant) :
    lay env (word env ts c) = some ((List.range ts.sizeof).map (wordByte (constWord env ts c))) := by
  cases ts <;> simp [word, lay, constWord, symWord, TypeBits.sizeof]

/-- A value of a type whose fields are no longer than a word, at the bit where it belongs. -/
theorem Painted.value (h : Painted env o p) {type : CType} {field : Option Field} {c : Constant}
    {offset : Int} (hstart : startBit field offset = p.pos)
    (hfield : ∀ f, field = some f → f.size ≤ 64) :
    Painted env ((Call.value type field c offset).emit env o)
      ((Call.value type field c offset).place env p) := by
  refine h.leaf hstart fun s hs hlen => ?_
  cases field with
  | some f => exact hs.bits (hfield f rfl)
  | none =>
    have hbyte : s.length % 8 = 0 := by
      rw [startBit, Option.map_none, Option.getD_none] at hstart
      omega
    have hword := hs.output hbyte (lay_word (typeMachineBits type) c)
    rwa [bitsOf_wordByte] at hword

/-- A string literal at a byte. -/
theorem Painted.strlit (h : Painted env o p) {text : List (BitVec 8)} {n : Nat} {offset : Int}
    (hstart : 8 * offset = p.pos) :
    Painted env ((Call.strlit text n offset).emit env o)
      ((Call.strlit text n offset).place env p) :=
  h.leaf hstart fun s hs hlen => hs.output (by omega) rfl

theorem Call.emit_grows (c : Call) (o : Out) : Grows o (c.emit env o) := by
  cases c with
  | value type field c offset =>
    cases field with
    | some f => exact bits_grows _ _ _
    | none => exact output_grows _ _
  | strlit text n offset => exact output_grows _ _
  | pad n => exact initPad_grows n o

theorem Call.place_grows (c : Call) (p : Plan) :
    p.leaves <+: (c.place env p).leaves ∧ p.joints <+: (c.place env p).joints := by
  cases c with
  | value type field c offset => exact ⟨List.prefix_append _ _, List.prefix_refl _⟩
  | strlit text n offset => exact ⟨List.prefix_append _ _, List.prefix_refl _⟩
  | pad n => exact ⟨List.prefix_refl _, List.prefix_append _ _⟩

/-- A call keeps it one or the other, if it does so when all is well. -/
theorem Tracked.call {c : Call} (h : Tracked env o p)
    (hc : Painted env o p → Tracked env (c.emit env o) (c.place env p)) :
    Tracked env (c.emit env o) (c.place env p) := by
  rcases h with h | h
  · exact hc h
  · exact .inr (h.mono (c.emit_grows o) (c.place_grows p).1 (c.place_grows p).2)

end

/-! ### The walk -/

section
variable {env : Env} {o : Out} {tags : Tags}
  {fakeAssign : CType → Constant → Except String Constant}

/-- The state of the output after the calls of a run. -/
def Tracks (env : Env) (o : Out) (r : Run) : Prop :=
  Tracked env (emitAll env r.calls o) (plan env r.calls)

/-- The bit that comes next. -/
def Run.bit (env : Env) (r : Run) : Int := (plan env r.calls).pos

/-- What a part of the walk does: it adds so many bits, and keeps the output what it is. -/
structure Advances (env : Env) (o : Out) (r r' : Run) (n : Int) : Prop where
  tracks : Tracks env o r → Tracks env o r'
  bit : r'.bit env = r.bit env + n

theorem Advances.trans {r₁ r₂ r₃ : Run} {m n : Int} (h : Advances env o r₁ r₂ m)
    (h' : Advances env o r₂ r₃ n) : Advances env o r₁ r₃ (m + n) :=
  ⟨h'.tracks ∘ h.tracks, by rw [h'.bit, h.bit, Int.add_assoc]⟩

/-- Only the calls matter. -/
theorem Advances.of_calls {r₁ r₂ r' : Run} {n : Int} (h : Advances env o r₁ r' n)
    (hc : r₁.calls = r₂.calls) : Advances env o r₂ r' n := by
  refine ⟨fun ht => h.tracks ?_, ?_⟩
  · rwa [Tracks, hc]
  · rw [h.bit, Run.bit, Run.bit, hc]

theorem Advances.call {r : Run} {c : Call} {n : Int}
    (hbit : ∀ p : Plan, (c.place env p).pos = p.pos + n)
    (hc : ∀ o p, Painted env o p → p.pos = r.bit env → Tracked env (c.emit env o) (c.place env p)) :
    Advances env o r (r.call c) n := by
  have hemit : emitAll env (r.calls ++ [c]) o = c.emit env (emitAll env r.calls o) := by
    rw [emitAll, List.foldl_append]
    rfl
  have hplan : plan env (r.calls ++ [c]) = c.place env (plan env r.calls) := by
    rw [plan, List.foldl_append]
    rfl
  refine ⟨fun ht => ?_, ?_⟩
  · rw [Tracks, Run.call, hemit, hplan]
    exact Tracked.call ht fun hp => hc _ _ hp rfl
  · rw [Run.bit, Run.call, hplan, hbit]
    rfl

theorem pad_advances (r : Run) (n : Int) : Advances env o r (r.call (.pad n)) n :=
  Advances.call (fun _ => rfl) fun _ _ hp _ => hp.pad n

/-- What the walk asks of a type: no dimension is too large, and a field is one of an integral type
    and no longer than a word. -/
structure Fit (dst : CType) (field : Option Field) : Prop where
  bounded : bounded dst = true
  field : ∀ f, field = some f → dst.integral = true ∧ f.size ≤ 64

theorem bind_eq_ok {ε α β : Type} {x : Except ε α} {f : α → Except ε β} {b : β} :
    x.bind f = .ok b ↔ ∃ a, x = .ok a ∧ f a = .ok b := by
  cases x <;> simp [Except.bind]

theorem map_eq_ok {ε α β : Type} {x : Except ε α} {f : α → β} {b : β} :
    x.map f = .ok b ↔ ∃ a, x = .ok a ∧ f a = b := by
  cases x <;> simp [Except.map]

theorem fatal_eq_ok {α : Type} {x : Except String α} {a : α} : fatal x = .ok a ↔ x = .ok a := by
  cases x <;> simp [fatal, Except.mapError]

/-- The size of a complete type. -/
theorem typeSizeof_exact (htags : SizesBounded tags) {t : CType} (hb : bounded t = true) {n : Nat}
    (h : typeSizeof tags t {} = .ok n) : n = exactSize tags t := by
  rcases sizeofFrom_exact htags t 1 hb (by decide) h with ⟨hn, -⟩ | hno
  · rw [hn, Nat.one_mul]
  · exact nomatch hno.1

theorem unboundedArray_eq_false {t : CType} {n : Nat} (h : typeSizeof tags t {} = .ok n) :
    unboundedArray t = false := by
  cases t with
  | array q nr e =>
    refine decide_eq_false fun hzero => ?_
    subst hzero
    exact nomatch h
  | _ => rfl

theorem length_valueBits {type : CType} (h : scalar type = true) (field : Option Field)
    (c : Constant) :
    (valueBits env type field c).length = memberBits tags type (field.map Field.size) := by
  cases field with
  | some f => exact length_lowBits _ _
  | none =>
    rw [valueBits, length_lowBits, memberBits, Option.map_none, Option.getD_none]
    congr 1
    cases type with
    | basic ts q => cases ts <;> first | rfl | cases h
    | ptr q t => rfl
    | _ => cases h

theorem scalar_of_integral {t : CType} (h : t.integral = true) : scalar t = true := by
  cases t with
  | basic ts q => cases ts <;> first | rfl | exact nomatch h
  | _ => exact nomatch h

/-- An array of characters has as many bytes. -/
theorem exactSize_charArray {t : CType} (h : charArray t = true) (hu : unboundedArray t = false) :
    exactSize tags t = nrElements t ∧ nrElements t ≠ 0 := by
  cases t with
  | array q nr e =>
    refine ⟨?_, of_decide_eq_false hu⟩
    cases e with
    | basic ts q => cases ts <;> first | exact Nat.mul_one nr | exact nomatch h
    | _ => exact nomatch h
  | _ => exact nomatch h

/-- What `init_struct` adds for a member. -/
theorem memberSize_eq_ok (htags : SizesBounded tags) {m : Member} (hfit : Fit m.type m.field)
    {size : Int} (h : memberSize tags m = .ok size) :
    unboundedArray m.type = false ∧ size = memberBits tags m.type (m.field.map Field.size) := by
  rw [memberSize] at h
  cases hfield : m.field with
  | some f =>
    rw [hfield] at h
    refine ⟨?_, (Except.ok.inj h).symm⟩
    have hint := (hfit.field f hfield).1
    cases htype : m.type with
    | array q nr e =>
      rw [htype] at hint
      cases hint
    | _ => rfl
  | none =>
    rw [hfield] at h
    obtain ⟨n, hn, rfl⟩ := map_eq_ok.mp h
    have hsize := fatal_eq_ok.mp hn
    refine ⟨unboundedArray_eq_false hsize, ?_⟩
    rw [typeSizeof_exact htags hfit.bounded hsize, memberBits, Option.map_none, Option.getD_none,
      Nat.mul_comm]

/-- One value. -/
theorem initValue_advances {dst : CType} {field : Option Field} {value : Constant} {offset : Int}
    {r r' : Run} (hs : scalar dst = true) (hfit : Fit dst field)
    (h : initValue fakeAssign dst field value offset r = .ok r')
    (hbit : r.bit env = startBit field offset) :
    Advances env o r r' (memberBits tags dst (field.map Field.size)) := by
  obtain ⟨c, -, h⟩ := bind_eq_ok.mp h
  split at h
  · exact nomatch h
  · obtain rfl := Except.ok.inj h
    refine Advances.call (fun p => ?_) fun o p hp hpos => ?_
    · rw [← length_valueBits hs field c]
      rfl
    · exact .inl (hp.value (hbit ▸ hpos).symm fun f hf => (hfit.field f hf).2)

theorem nextValue_calls {r r' : Run} {c : Constant} (h : nextValue r = .ok (c, r')) :
    r'.calls = r.calls := by
  rw [nextValue] at h
  split at h
  · cases h
    rfl
  · split at h <;> cases h <;> rfl

theorem lookahead_calls {r r' : Run} (h : lookahead r = .ok r') : r'.calls = r.calls := by
  rw [lookahead] at h
  split at h
  · cases h
    rfl
  · cases h
    rfl
  · obtain ⟨⟨c, r₁⟩, hr, rfl⟩ := map_eq_ok.mp h
    exact (nextValue_calls hr : r₁.calls = r.calls)

theorem matchRbrace_calls {r r' : Run} (h : matchRbrace r = .ok r') : r'.calls = r.calls := by
  rw [matchRbrace] at h
  split at h <;> cases h
  rfl

/-- A string literal fills the array. -/
theorem initStrlit_advances {nr : Nat} {offset : Int} {r r' : Run} (hnr : nr ≠ 0)
    (h : initStrlit nr offset r = .ok r') (hbit : r.bit env = 8 * offset) :
    Advances env o r r' (8 * nr) := by
  rw [initStrlit] at h
  split at h
  · next text c ts hts =>
    split at h
    · cases h
    · obtain rfl := Except.ok.inj h
      refine @Advances.of_calls env o { r with tokens := ts } r _ _
        (Advances.call (fun p => ?_) fun o p hp hpos => ?_) rfl
      · simp [Call.place, Plan.leaf, strlitBytes]
      · exact .inl (hp.strlit (hbit ▸ hpos).symm)
  · cases h

/-- The loop of `init_struct` keeps `offset_bits` in step. -/
theorem structLoop_advances {braced : Bool} {init : Member → Run → Except Stop Run} {offset : Int}
    {ms : List Member}
    (hinit : ∀ m ∈ ms, ∀ {r r' : Run} {size : Int}, init m r = .ok r' →
      memberSize tags m = .ok size → r.bit env = startBit m.field (offset + m.offset) →
      Advances env o r r' size) :
    ∀ {offsetBits offsetBits' : Int} {r r' : Run},
      structLoop tags braced init ms offsetBits r = .ok (offsetBits', r') →
      r.bit env = 8 * offset + offsetBits → Advances env o r r' (offsetBits' - offsetBits) := by
  induction ms with
  | nil => exact fun h => nomatch h
  | cons m ms ih =>
    intro offsetBits offsetBits' r r' h hbit
    rw [structLoop] at h
    obtain ⟨r₁, hr₁, h⟩ := bind_eq_ok.mp h
    obtain ⟨size, hsize, h⟩ := bind_eq_ok.mp h
    have hpad := @pad_advances env o r
      (m.offset * 8 - offsetBits + (m.field.map Field.shift).getD 0)
    have hmember := hpad.trans (hinit m List.mem_cons_self hr₁ hsize (by
      rw [hpad.bit, hbit, startBit]
      omega))
    have hdone : Advances env o r r₁ (offsetBits + (m.offset * 8 - offsetBits +
        (m.field.map Field.shift).getD 0) + size - offsetBits) := by
      convert hmember using 1
      omega
    split at h
    · cases h
      exact hdone
    · split at h
      · next ts hts =>
        have hrest := ih (fun m hm => hinit m (List.mem_cons_of_mem _ hm)) h (by
          rw [show Run.bit env { r₁ with tokens := ts } = r₁.bit env from rfl, hdone.bit, hbit]
          omega)
        convert hdone.trans (hrest.of_calls rfl) using 1
        omega
      · cases h
        exact hdone

/-- The loop of `init_array` goes from element to element. -/
theorem arrayLoop_advances {braced : Bool} {init : Nat → Run → Except Stop Run} {nr size : Nat}
    {offset : Int}
    (hinit : ∀ n {r r' : Run}, init n r = .ok r' → r.bit env = 8 * (offset + n * size) →
      Advances env o r r' (8 * size)) :
    ∀ {fuel n n' : Nat} {r r' : Run}, arrayLoop braced init nr fuel n r = .ok (n', r') →
      r.bit env = 8 * (offset + n * size) → Advances env o r r' ((n' - n) * size * 8) := by
  intro fuel
  induction fuel with
  | zero =>
    intro n n' r r' h
    cases h
  | succ fuel ih =>
    intro n n' r r' h hbit
    rw [arrayLoop] at h
    split at h
    · cases h
    · obtain ⟨r₁, hr₁, h⟩ := bind_eq_ok.mp h
      have helement := hinit n hr₁ hbit
      have hdone : Advances env o r r₁ (((n + 1 : Nat) - n) * size * 8) := by
        convert helement using 1
        push_cast
        ring
      split at h
      · cases h
        exact hdone
      · split at h
        · next ts hts =>
          have hrest := ih h (by
            rw [show Run.bit env { r₁ with tokens := ts } = r₁.bit env from rfl, hdone.bit, hbit]
            push_cast
            ring)
          convert hdone.trans (hrest.of_calls rfl) using 1
          push_cast
          ring
        · cases h
          exact hdone

/-- `init_struct` fills the struct. -/
theorem initStruct_advances (htags : SizesBounded tags) {braced : Bool}
    {init : Member → Run → Except Stop Run} {tag : Nat} {q : Quals} {offset : Int} {r r' : Run}
    (hinit : ∀ s, tags[tag]? = some s → ∀ m ∈ s.members, ∀ {r r' : Run} {size : Int},
      init m r = .ok r' → memberSize tags m = .ok size →
      r.bit env = startBit m.field (offset + m.offset) → Advances env o r r' size)
    (h : initStruct tags braced init (.strun tag q) tag r = .ok r') (hbit : r.bit env = 8 * offset) :
    Advances env o r r' (8 * exactSize tags (.strun tag q)) := by
  rw [initStruct] at h
  cases hs : tags[tag]? with
  | none =>
    rw [hs] at h
    cases h
  | some s =>
    simp only [hs] at h
    split at h
    · cases h
    · obtain ⟨⟨offsetBits, r₁⟩, hloop, h⟩ := bind_eq_ok.mp h
      obtain ⟨size, hsize, rfl⟩ := map_eq_ok.mp h
      have hsub : ∀ m ∈ (if s.isUnion then s.members.take 1 else s.members), m ∈ s.members := by
        intro m hm
        split at hm
        · exact List.mem_of_mem_take hm
        · exact hm
      have hmembers := @structLoop_advances env o tags _ _ offset _
        (fun m hm => hinit s hs m (hsub m hm)) _ _ _ _ hloop (by omega)
      obtain rfl := typeSizeof_exact htags rfl (fatal_eq_ok.mp hsize)
      convert hmembers.trans (pad_advances r₁ _) using 1
      ring

/-- `init_array` fills the array. -/
theorem initArray_advances (htags : SizesBounded tags) {braced : Bool}
    {init : CType → Int → Run → Except Stop Run} {nr : Nat} {element : CType} {offset : Int}
    {r r' : Run} (hnr : nr ≠ 0) (hb : bounded element = true)
    (hinit : unboundedArray element = false → ∀ offset {r r' : Run},
      init element offset r = .ok r' → r.bit env = 8 * offset →
      Advances env o r r' (8 * exactSize tags element))
    (h : initArray tags braced init nr element offset r = .ok r') (hbit : r.bit env = 8 * offset) :
    Advances env o r r' (8 * (nr * exactSize tags element)) := by
  obtain ⟨size, hsize, h⟩ := bind_eq_ok.mp h
  have hu := unboundedArray_eq_false (fatal_eq_ok.mp hsize)
  obtain rfl := typeSizeof_exact htags hb (fatal_eq_ok.mp hsize)
  obtain ⟨⟨n, r₁⟩, hloop, rfl⟩ := map_eq_ok.mp h
  have helements := @arrayLoop_advances env o _ _ _ _ offset
    (fun n {r r'} hr hb => hinit hu _ hr hb) _ _ _ _ _ hloop (by simpa using hbit)
  simp only [if_neg hnr]
  convert helements.trans (pad_advances r₁ _) using 1
  push_cast
  ring

/-- `init` adds the bits of the type. -/
theorem init_advances (htags : SizesBounded tags)
    (hmem : ∀ s ∈ tags, ∀ m ∈ s.members, Fit m.type m.field) :
    ∀ {fuel : Nat} {outer : Bool} {dst : CType} {field : Option Field} {offset : Int} {r r' : Run},
      Fit dst field → unboundedArray dst = false →
      init tags fakeAssign fuel outer dst field offset r = .ok r' →
      r.bit env = startBit field offset →
      Advances env o r r' (memberBits tags dst (field.map Field.size)) := by
  intro fuel
  induction fuel with
  | zero =>
    intro outer dst field offset r r' hfit hu h
    cases h
  | succ fuel ih =>
    intro outer dst field offset r r' hfit hu h hbit
    rw [init] at h
    obtain ⟨r₁, hr₁, h⟩ := bind_eq_ok.mp h
    obtain ⟨r₂, hr₂, h⟩ := bind_eq_ok.mp h
    have hcalls₁ : r₁.calls = r.calls := by
      rw [lookahead_calls hr₁]
      split <;> rfl
    have hcalls₂ : r'.calls = r₂.calls := by
      split at h
      · exact matchRbrace_calls h
      · rw [Except.ok.inj h]
    have hbit₁ : r₁.bit env = startBit field offset := by rw [← hbit, Run.bit, Run.bit, hcalls₁]
    suffices Advances env o r₁ r₂ (memberBits tags dst (field.map Field.size)) by
      have hstart := this.of_calls hcalls₁
      exact ⟨fun ht => by rw [Tracks, hcalls₂]; exact hstart.tracks ht,
        by rw [← hstart.bit, Run.bit, Run.bit, hcalls₂]⟩
    by_cases hscalar : scalar dst = true
    · rw [if_pos hscalar] at hr₂
      obtain ⟨⟨c, r₃⟩, hr₃, hr₂⟩ := bind_eq_ok.mp hr₂
      have hcalls₃ := nextValue_calls hr₃
      refine (initValue_advances hscalar hfit hr₂ ?_).of_calls hcalls₃
      rw [← hbit₁, Run.bit, Run.bit, hcalls₃]
    · obtain rfl : field = none := by
        cases field with
        | none => rfl
        | some f => exact absurd (scalar_of_integral (hfit.field f rfl).1) hscalar
      have hbyte : r₁.bit env = 8 * offset := by
        rw [hbit₁, startBit, Option.map_none, Option.getD_none, Nat.cast_zero, Int.add_zero]
      rw [if_neg hscalar] at hr₂
      rw [Option.map_none, memberBits, Option.getD_none]
      split at hr₂
      · next hstr =>
        obtain ⟨hchars, -⟩ := (Bool.and_eq_true _ _).mp hstr
        obtain ⟨hsize, hnr⟩ := @exactSize_charArray tags dst hchars hu
        rw [hsize]
        exact initStrlit_advances hnr hr₂ hbyte
      · split at hr₂
        · cases hr₂
        · cases dst with
          | strun tag q =>
            rw [Nat.cast_mul]
            refine initStruct_advances htags (fun s hs m hm r r' size hr hsize hb => ?_) hr₂ hbyte
            have hmfit := hmem s (List.mem_of_getElem? hs) m hm
            obtain ⟨hmu, rfl⟩ := memberSize_eq_ok htags hmfit hsize
            exact ih hmfit hmu hr hb
          | array q nr element =>
            obtain ⟨-, hb⟩ : nr ≤ maxObjectSize ∧ bounded element = true := by
              simpa [bounded] using hfit.bounded
            rw [exactSize, Nat.cast_mul, Nat.cast_mul]
            refine initArray_advances htags (of_decide_eq_false hu) hb
              (fun hu offset r r' hr hb' => ?_) hr₂ hbyte
            have hfit : Fit element none := ⟨hb, by rintro f ⟨⟩⟩
            have helement := ih hfit hu hr (by simpa [startBit] using hb')
            simpa [memberBits] using helement
          | _ => cases hr₂

end

/-! ### The whole image -/

/-- The state of the output when an initializer begins: nothing is written, and no bits are left. -/
structure Fresh (o : Out) : Prop where
  text : o.text = []
  hung : o.hung = false
  pos : o.pos.toNat % 8 = 0

theorem Call.emit_counts {env : Env} (c : Call) (o : Out) (p : Plan) :
    Counts o (c.emit env o) ((c.place env p).pos - p.pos) := by
  cases c with
  | value type field c offset =>
    rw [show ((Call.value type field c offset).place env p).pos - p.pos =
      (valueBits env type field c).length from add_sub_cancel_left _ _]
    cases field with
    | some f =>
      rw [valueBits, length_lowBits]
      exact bits_counts _ _ _
    | none =>
      rw [valueBits, length_lowBits]
      exact output_counts _ _ (by omega)
  | strlit text n offset =>
    rw [show ((Call.strlit text n offset).place env p).pos - p.pos =
      (bitsOf (strlitBytes text n)).length from add_sub_cancel_left _ _, length_bitsOf]
    exact output_counts _ _ (by omega)
  | pad n =>
    rw [show ((Call.pad n).place env p).pos - p.pos = n from add_sub_cancel_left _ _]
    exact initPad_counts n o

theorem emitAll_counts {env : Env} (calls : List Call) (o : Out) :
    Counts o (emitAll env calls o) (plan env calls).pos := by
  induction calls using List.reverseRecOn with
  | nil => exact .inr (by rw [plan, List.foldl_nil, Int.add_zero]; rfl)
  | append_singleton calls c ih =>
    rw [emitAll, plan, List.foldl_append, List.foldl_append]
    have hboth := ih.trans (c.emit_counts _ (plan env calls)) (@Call.emit_grows env c _)
    rwa [add_sub_cancel] at hboth

/-- At the beginning there is no picture. -/
theorem Fresh.painted {env : Env} {o : Out} (h : Fresh o) : Painted env o (plan env []) := by
  refine ⟨⟨[], ⟨[], [], ⟨h.hung, by rw [h.text]; rfl, h.pos, nofun⟩, rfl⟩, rfl, fun i => rfl⟩,
    nofun, .nil, nofun⟩

/-- A picture of the size of the object is its image. -/
theorem Painted.matches {env : Env} {o : Out} {p : Plan} {size : Nat} (h : Painted env o p)
    (hpos : p.pos = 8 * size) : ∃ img, image env o = some img ∧ Matches img size p.leaves := by
  obtain ⟨s, ⟨bytes, pend, hw, rfl⟩, hlen, hpaint⟩ := h.emitted
  have hshort := hw.short
  rw [List.length_append, length_bitsOf, hpos] at hlen
  obtain rfl : pend = [] := List.length_eq_zero_iff.mp (by omega)
  rw [List.length_nil] at hlen
  rw [List.append_nil] at hpaint
  have hbit (i : Nat) : bitAt bytes i = paint p.leaves i := by rw [← getD_bitsOf, hpaint]
  refine ⟨bytes, by rw [image, hw.hung]; exact hw.text, by omega, fun l hl => ?_, fun i hi hout => ?_⟩
  · obtain ⟨hstart, hstop⟩ := h.inside l hl
    refine ⟨hstart, hpos ▸ hstop, fun k hk => ?_⟩
    rw [hbit, Int.toNat_of_nonneg (by omega), paint_of_mem h.ordered hl
      ⟨by omega, by rw [Piece.stop]; omega⟩, Piece.show, decide_eq_true (by omega), Bool.true_and]
    congr 1
    omega
  · rw [hbit]
    exact paint_eq_false hout

/-- What is spoiled is not the image of the object. -/
theorem Spoiled.not_matches {env : Env} {o : Out} {p : Plan} {size : Nat} (h : Spoiled env o p) :
    ¬ ∃ img, image env o = some img ∧ Matches img size p.leaves := by
  rintro ⟨img, himage, hm⟩
  rw [image] at himage
  split at himage
  · exact nomatch himage
  · next hhung =>
    obtain ⟨i, -, hbit, hp⟩ := h.output.resolve_left hhung img himage
    obtain ⟨l, hl, hshow⟩ := paint_eq_true.mp hp
    obtain ⟨hstart, hstop⟩ := Piece.range_of_show hshow
    obtain ⟨hle, -, hholds⟩ := hm.holds l hl
    have hk := hholds (i - l.start).toNat (by rw [Piece.stop] at hstop; omega)
    rw [show (l.start + ((i : Int) - l.start).toNat).toNat = i by omega, hbit] at hk
    rw [Piece.show, ← hk, Bool.and_false] at hshow
    exact Bool.noConfusion hshow

/-! ### Members -/

theorem exactSize_le_of_integral {tags : Tags} {t : CType} (h : t.integral = true) :
    exactSize tags t ≤ 8 := by
  cases t with
  | basic ts q =>
    rw [exactSize]
    cases ts <;> decide
  | _ => cases h

/-- A member that is declared is fit for the walk. -/
theorem newMember_fit {tags : Tags} {id : Option Nat} {type : CType} {bits : Option Nat}
    (hb : bounded type = true) (hfield : FieldOk tags id type bits) (call : Nat × Bool) (shift : Nat)
    (offset : Int) : Fit (newMember call id type bits shift offset).type
      (newMember call id type bits shift offset).field := by
  refine ⟨hb, fun f hf => ?_⟩
  obtain ⟨size, hsize, rfl⟩ := Option.map_eq_some_iff.mp hf
  obtain ⟨hint, hle, -⟩ := hfield size hsize
  have hword := @exactSize_le_of_integral tags type hint
  exact ⟨hint, show size ≤ 64 by omega⟩

/-- One event keeps the members fit. -/
theorem step_fit {tags tags' : Tags} {e : Event} (htags : ∀ s ∈ tags, SizeOk s)
    (hfit : ∀ s ∈ tags, ∀ m ∈ s.members, Fit m.type m.field) (hb : e.bounded = true)
    (h : step tags e = .ok tags') : ∀ s ∈ tags', ∀ m ∈ s.members, Fit m.type m.field := by
  cases e with
  | newTag id isUnion =>
    obtain rfl := Except.ok.inj h
    intro s hs
    rcases List.mem_append.mp hs with hs | hs
    · exact hfit s hs
    · obtain rfl := List.mem_singleton.mp hs
      exact nofun
  | member tag first id type bits =>
    rcases updateTag_ok h with rfl | ⟨s, s', hs, hf, rfl⟩
    · exact hfit
    · have hmem := List.mem_of_getElem? hs
      obtain ⟨hfield, al, offset, shift, size, -, hins⟩ :=
        declareMember_spec htags (htags s hmem) hb hf
      obtain ⟨new, rfl, hnew⟩ := insertAt_ok hins
      intro t ht m hm
      rcases List.mem_or_eq_of_mem_set ht with ht | rfl
      · exact hfit t ht m hm
      · rcases List.mem_append.mp hm with hm | hm
        · exact hfit s hmem m hm
        · rcases hnew with rfl | ⟨rfl, -⟩ | ⟨src, hsrc, hsub⟩
          · exact nomatch hm
          · obtain rfl := List.mem_singleton.mp hm
            exact newMember_fit hb hfield _ _ _
          · obtain ⟨tag', q, rfl, hget⟩ := anonymousStrun_eq_some hsrc
            obtain ⟨m', hm', rfl⟩ := List.mem_map.mp (hsub.subset hm)
            exact hfit src (List.mem_of_getElem? hget) m' hm'
  | complete tag =>
    rcases updateTag_ok h with rfl | ⟨s, s', hs, hf, rfl⟩
    · exact hfit
    · have hmem := List.mem_of_getElem? hs
      obtain ⟨size, rfl, -⟩ := completeStrun_spec (htags s hmem) hf
      intro t ht m hm
      rcases List.mem_or_eq_of_mem_set ht with ht | rfl
      · exact hfit t ht m hm
      · exact hfit s hmem m hm

/-- Every run keeps the sizes and the members fit. -/
theorem run_fit : ∀ {es : List Event} {tags tags' : Tags}, (∀ s ∈ tags, SizeOk s) →
    (∀ s ∈ tags, ∀ m ∈ s.members, Fit m.type m.field) → (∀ e ∈ es, e.bounded = true) →
    run tags es = .ok tags' →
    (∀ s ∈ tags', SizeOk s) ∧ ∀ s ∈ tags', ∀ m ∈ s.members, Fit m.type m.field
  | [], tags, tags', htags, hfit, _, h => by
    obtain rfl := Except.ok.inj h
    exact ⟨htags, hfit⟩
  | e :: es, tags, tags', htags, hfit, hb, h => by
    rw [run] at h
    obtain ⟨mid, hstep, h⟩ := bind_ok.mp h
    exact run_fit (step_sizeOk htags (hb e List.mem_cons_self) hstep)
      (step_fit htags hfit (hb e List.mem_cons_self) hstep)
      (fun e' he' => hb e' (List.mem_cons_of_mem _ he')) h

/-! ### Static initializers -/

/-- The walk through an initializer always ends, and the image of the struct is what is meant exactly
    when all gaps are clean. Either way the next initializer begins at a byte, unless `bits` does not
    come to an end. -/
theorem static_image_iff {es : List Event} {tags : Tags} (hb : ∀ e ∈ es, e.bounded = true)
    (honce : Once es) (h : run [] es = .ok tags) {tag : Nat} {s : Strun}
    (hs : definedTag tags tag = some s) (q : Quals) (env : Env)
    (fakeAssign : CType → Constant → Except String Constant) {o : Out} (ho : Fresh o) :
    (∃ depth, ∀ fuel, depth < fuel → ∀ tokens,
      initStatic tags fakeAssign fuel (.strun tag q) tokens ≠ .error .fuel) ∧
    ∀ fuel tokens calls, initStatic tags fakeAssign fuel (.strun tag q) tokens = .ok calls →
      ((∃ img, image env (emitAll env calls o) = some img ∧
          Matches img s.size (plan env calls).leaves) ↔
        ∀ j ∈ (plan env calls).joints, Clean (plan env calls).leaves j) ∧
      ((emitAll env calls o).hung = true ∨ (emitAll env calls o).pos.toNat % 8 = 0) := by
  constructor
  · obtain ⟨n, hn⟩ := run_nested (fun _ hs => absurd hs List.not_mem_nil)
      (fun _ hs => absurd hs List.not_mem_nil) hb honce (fun _ _ _ _ => rfl) h s
      (List.mem_of_getElem? (definedTag_eq_some.mp hs).1)
    refine ⟨n + 1, fun fuel hfuel tokens hout => ?_⟩
    have hends := @init_ends tags fakeAssign _ _ (@Nested.strun tags n tag q s hs hn) fuel hfuel true
      none 0 ⟨tokens, none, []⟩
    rw [initStatic] at hout
    cases hinit : init tags fakeAssign fuel true (.strun tag q) none 0 ⟨tokens, none, []⟩ with
    | error e =>
      rw [hinit] at hout
      exact hends.1 (hinit.trans (congrArg Except.error (Except.error.inj hout)))
    | ok r =>
      rw [hinit] at hout
      exact nomatch hout
  · intro fuel tokens calls hcalls
    obtain ⟨htags, hfit⟩ := run_fit (fun _ hs => absurd hs List.not_mem_nil)
      (fun _ hs => absurd hs List.not_mem_nil) hb h
    obtain ⟨r, hr, rfl⟩ := map_eq_ok.mp hcalls
    have hwalk := @init_advances env o tags fakeAssign (sizesBounded htags) hfit _ _ _ none _ _ _
      ⟨rfl, nofun⟩ rfl hr rfl
    have hpos : (plan env r.calls).pos = 8 * s.size := by
      have hbit := hwalk.bit
      rw [Run.bit, Run.bit, memberBits, exactSize, hs] at hbit
      simpa [plan] using hbit
    refine ⟨?_, ?_⟩
    · rcases hwalk.tracks (.inl ho.painted) with hp | hspoiled
      · exact ⟨fun _ j hj => (hp.joints j hj).2, fun _ => hp.matches hpos⟩
      · refine ⟨fun hm => absurd hm hspoiled.not_matches, fun hclean => ?_⟩
        obtain ⟨j, hj, hno⟩ := hspoiled.joint
        exact absurd (hclean j hj) hno
    · have hzero := ho.pos
      refine (@emitAll_counts env r.calls o).imp_right fun hcount => ?_
      rw [hpos] at hcount
      omega

/-- Integers that need no conversion. -/
def keep (_ : CType) (c : Constant) : Except String Constant := .ok c

/-- An integer constant. -/
def intTok (i : Word) : Tok := .value ⟨i, none⟩

/-- `struct { int a : 3; int : 6; int b : 4; char c[3]; short d; int e : 4; }`. -/
def fieldsRun : List Event :=
  [.newTag none false, .member 0 true (some 1) (.basic .int 0) (some 3),
    .member 0 true none (.basic .int 0) (some 6), .member 0 true (some 2) (.basic .int 0) (some 4),
    .member 0 true (some 3) (.array 0 3 (.basic .char 0)) none,
    .member 0 true (some 4) (.basic .short 0) none, .member 0 true (some 5) (.basic .int 0) (some 4),
    .complete 0]

/-- `{ 5, 7, "ab", 1, 3 }`. -/
def fieldsTokens : List Tok :=
  [.lbrace, intTok 5, .comma, intTok 7, .comma, .strlit [97, 98] ⟨0, none⟩, .comma, intTok 1, .comma,
    intTok 3, .rbrace]

/-- What they make of it. -/
def fieldsCalls : List Call :=
  [.pad 0, .value (.basic .int 0) (some ⟨3, 0⟩) ⟨5, none⟩ 0, .pad 6,
    .value (.basic .int 0) (some ⟨4, 9⟩) ⟨7, none⟩ 0, .pad 3, .strlit [97, 98] 3 2, .pad 8,
    .value (.basic .short 0) none ⟨1, none⟩ 6, .pad 0,
    .value (.basic .int 0) (some ⟨4, 0⟩) ⟨3, none⟩ 8, .pad 28]

theorem static_image_fields : ∃ tags s, run [] fieldsRun = .ok tags ∧
    definedTag tags 0 = some s ∧ s.size = 12 ∧
    initStatic tags keep 3 (.strun 0 0) fieldsTokens = .ok fieldsCalls ∧
    ∃ img, image default (emitAll default fieldsCalls ⟨[], 0, 0, false⟩) = some img ∧
      Matches img s.size (plan default fieldsCalls).leaves := by
  refine ⟨_, _, rfl, rfl, rfl, by decide +kernel, ?_⟩
  refine ((@static_image_iff fieldsRun _ (by decide) (by simp [Once, fieldsRun, Event.tag]) rfl 0 _
    rfl 0 default keep ⟨[], 0, 0, false⟩ ⟨rfl, rfl, rfl⟩).2 3 fieldsTokens fieldsCalls
    (by decide +kernel)).1.mpr ?_
  decide +kernel

/-- `struct { int a : 3; int : 9; int b : 4; }`. -/
def gapRun : List Event :=
  [.newTag none false, .member 0 true (some 1) (.basic .int 0) (some 3),
    .member 0 true none (.basic .int 0) (some 9), .member 0 true (some 2) (.basic .int 0) (some 4),
    .complete 0]

/-- `{ 5, 7 }`. -/
def gapTokens : List Tok := [.lbrace, intTok 5, .comma, intTok 7, .rbrace]

/-- What they make of it: `init_pad(9)` comes when three bits are in the buffer. -/
def gapCalls : List Call :=
  [.pad 0, .value (.basic .int 0) (some ⟨3, 0⟩) ⟨5, none⟩ 0, .pad 9,
    .value (.basic .int 0) (some ⟨4, 12⟩) ⟨7, none⟩ 0, .pad 16]

theorem not_static_image : ¬ ∀ (es : List Event) (tags : Tags) (tag : Nat) (s : Strun) (fuel : Nat)
    (tokens : List Tok) (calls : List Call), (∀ e ∈ es, e.bounded = true) → Once es →
    run [] es = .ok tags → definedTag tags tag = some s →
    initStatic tags keep fuel (.strun tag 0) tokens = .ok calls →
    ∃ img, image default (emitAll default calls ⟨[], 0, 0, false⟩) = some img ∧
      Matches img s.size (plan default calls).leaves := by
  intro h
  obtain ⟨img, himage, hm⟩ := h gapRun _ 0 _ 2 gapTokens gapCalls (by decide)
    (by simp [Once, gapRun, Event.tag]) rfl rfl (by decide +kernel)
  obtain rfl : [0x00, 0x75, 0x00, 0x00] = img := Option.some.inj himage
  have hleaf : ⟨0, [true, false, true]⟩ ∈ (plan default gapCalls).leaves := by decide
  have hbit := (hm.holds _ hleaf).2.2 0 (by decide)
  revert hbit
  decide

end Ncc.Decl
