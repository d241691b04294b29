import Mathlib

/-! Bits in a row: those of bytes, the least significant first, and pictures of them made of pieces.

    Every position has a bit, which is clear past the end. Pieces that come one after the other do
    not hide each other, so a picture shows each of them as it is. -/

namespace Ncc.Bits

/-! ### Bytes -/

/-- The `n` low bits of a word. -/
def lowBits {w : Nat} (x : BitVec w) (n : Nat) : List Bool := (List.range n).map x.getLsbD

/-- The bits of some bytes. -/
def bitsOf (l : List (BitVec 8)) : List Bool := l.flatMap fun b => lowBits b 8

/-- The bit at a position. -/
def bitAt (l : List (BitVec 8)) (i : Nat) : Bool := (l.getD (i / 8) 0).getLsbD (i % 8)

@[simp] theorem length_lowBits {w : Nat} (x : BitVec w) (n : Nat) : (lowBits x n).length = n := by
  simp [lowBits]

@[simp] theorem getD_lowBits {w : Nat} (x : BitVec w) (n i : Nat) :
    (lowBits x n).getD i false = (decide (i < n) && x.getLsbD i) := by
  by_cases h : i < n <;> simp [lowBits, h]

/-- Rows of the same length are the same if they are so at every position. -/
theorem ext_getD {l l' : List Bool} (hlen : l.length = l'.length)
    (h : ∀ k, k < l.length → l.getD k false = l'.getD k false) : l = l' := by
  refine List.ext_getElem hlen fun k hk hk' => ?_
  have := h k hk
  rwa [List.getD_eq_getElem _ _ hk, List.getD_eq_getElem _ _ hk'] at this

@[simp] theorem bitsOf_nil : bitsOf [] = [] := rfl

@[simp] theorem bitsOf_cons (b : BitVec 8) (l : List (BitVec 8)) :
    bitsOf (b :: l) = lowBits b 8 ++ bitsOf l := rfl

@[simp] theorem bitsOf_append (l l' : List (BitVec 8)) :
    bitsOf (l ++ l') = bitsOf l ++ bitsOf l' := List.flatMap_append

@[simp] theorem length_bitsOf (l : List (BitVec 8)) : (bitsOf l).length = 8 * l.length := by
  induction l with
  | nil => rfl
  | cons b l ih => rw [bitsOf_cons, List.length_append, length_lowBits, ih, List.length_cons]; omega

theorem getD_bitsOf (l : List (BitVec 8)) (i : Nat) : (bitsOf l).getD i false = bitAt l i := by
  induction l generalizing i with
  | nil => simp [bitAt]
  | cons b l ih =>
    rw [bitsOf_cons]
    by_cases h : i < 8
    · rw [List.getD_append _ _ _ _ (by simpa using h), getD_lowBits, bitAt,
        Nat.div_eq_of_lt h, Nat.mod_eq_of_lt h]
      simp [h]
    · obtain ⟨j, rfl⟩ : ∃ j, i = j + 8 := ⟨i - 8, by omega⟩
      rw [List.getD_append_right _ _ _ _ (by simp), length_lowBits, Nat.add_sub_cancel, ih, bitAt,
        bitAt, Nat.add_div_right j (by decide), Nat.add_mod_right, List.getD_cons_succ]

/-- Zero bytes are clear bits. -/
theorem bitsOf_replicate (n : Nat) :
    bitsOf (List.replicate n 0) = List.replicate (8 * n) false := by
  induction n with
  | zero => rfl
  | succ n ih =>
    rw [List.replicate_succ, bitsOf_cons, ih, Nat.mul_succ, Nat.add_comm, List.replicate_add]
    rfl

theorem bitAt_append_left {l l' : List (BitVec 8)} {i : Nat} (h : i / 8 < l.length) :
    bitAt (l ++ l') i = bitAt l i := by
  rw [bitAt, bitAt, List.getD_append _ _ _ _ h]

/-! ### Pieces -/

/-- A row of bits at a place. -/
structure Piece where
  start : Int
  bits : List Bool
  deriving DecidableEq

/-- The bit behind it. -/
def Piece.stop (p : Piece) : Int := p.start + p.bits.length

/-- What the piece shows at a position, clear outside. -/
def Piece.show (p : Piece) (i : Int) : Bool :=
  decide (p.start ≤ i) && p.bits.getD (i - p.start).toNat false

/-- The picture. -/
def paint (ps : List Piece) (i : Int) : Bool := ps.any fun p => p.show i

theorem Piece.range_of_show {p : Piece} {i : Int} (h : p.show i = true) :
    p.start ≤ i ∧ i < p.stop := by
  obtain ⟨hle, hbit⟩ : p.start ≤ i ∧ p.bits.getD (i - p.start).toNat false = true := by
    simpa [Piece.show] using h
  refine ⟨hle, ?_⟩
  by_contra hge
  rw [List.getD_eq_default _ _ (by rw [Piece.stop] at hge; omega)] at hbit
  cases hbit

@[simp] theorem paint_append (ps qs : List Piece) (i : Int) :
    paint (ps ++ qs) i = (paint ps i || paint qs i) := List.any_append

theorem paint_eq_true {ps : List Piece} {i : Int} :
    paint ps i = true ↔ ∃ p ∈ ps, p.show i = true := List.any_eq_true

/-- Where there is no piece the picture is clear. -/
theorem paint_eq_false {ps : List Piece} {i : Int} (h : ∀ p ∈ ps, ¬(p.start ≤ i ∧ i < p.stop)) :
    paint ps i = false := by
  rw [← Bool.not_eq_true, paint_eq_true]
  rintro ⟨p, hp, hs⟩
  exact h p hp (Piece.range_of_show hs)

/-- The pieces are one after the other. -/
def Ordered (ps : List Piece) : Prop := ps.Pairwise fun p q => p.stop ≤ q.start

/-- Pieces one after the other are all seen. -/
theorem paint_of_mem {ps : List Piece} (h : Ordered ps) {p : Piece} (hp : p ∈ ps) {i : Int}
    (hi : p.start ≤ i ∧ i < p.stop) : paint ps i = p.show i := by
  induction ps with
  | nil => cases hp
  | cons q ps ih =>
    obtain ⟨hq, hps⟩ := List.pairwise_cons.mp h
    rw [paint, List.any_cons]
    rcases List.mem_cons.mp hp with rfl | hp
    · have hrest : paint ps i = false := paint_eq_false fun r hr hri => by
        have := hq r hr
        omega
      rw [← paint, hrest, Bool.or_false]
    · have hhead : q.show i = false := by
        rw [← Bool.not_eq_true]
        intro hs
        have := hq p hp
        have := (Piece.range_of_show hs).2
        omega
      rw [hhead, Bool.false_or]
      exact ih hps hp

theorem paint_mono {ps qs : List Piece} (h : ps <+: qs) {i : Int} (hp : paint ps i = true) :
    paint qs i = true := by
  obtain ⟨rest, rfl⟩ := h
  rw [paint_append, hp, Bool.true_or]

end Ncc.Bits
