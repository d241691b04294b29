import Ncc.Exec
import Ncc.Lib.Bits

/-! The data directives of a static initializer (init.c: `bits`, `init_pad` and `word`; string.c:
    `string_emit`).

    Bit-fields go through a byte buffer, and everything else is written at once. `Emitted` reads the
    output so far as a row of bits, those in the buffer last. `Emitted.initPad` says when padding is
    what it should be, and `Emitted.initPad_passes` what it is otherwise: whole bytes of it pass the
    bits in the buffer. -/

namespace Ncc.Decl

open Bits

/-! ### The code -/

/-- E_CON. -/
structure Constant where
  i : Word
  sym : Option Symbol
  deriving DecidableEq

/-- The directives: `.byte` with one or more numbers, `.space`, and `.byte`, `.short`, `.int`, `.long`
    or `.quad` with an expression, according to its size. -/
inductive Directive where
  | bytes (l : List (BitVec 8))
  | space (n : Int)
  | data (size : Nat) (sym : Option Symbol) (i : Word)

/-- The output, and the static variables of `bits`. `hung` is set when `bits` counts a negative number
    down, which has no end but an overflow. -/
structure Out where
  text : List Directive
  buf : BitVec 8
  pos : BitVec 8
  hung : Bool

/-- `output`. -/
def output (d : Directive) (o : Out) : Out := { o with text := o.text ++ [d] }

/-- The loop of `bits`. `buf`, `pos` and `i` are signed. -/
def bitsLoop : Nat → Word → Out → Out
  | 0, _, o => o
  | n + 1, i, o =>
    let buf := o.buf.sshiftRight 1
    let buf := if i &&& 1 ≠ 0 then buf ||| 0x80 else buf &&& 0x7F
    let pos := o.pos + 1
    let o := { o with buf := buf, pos := pos }
    bitsLoop n (i.sshiftRight 1)
      (if pos.toInt.tmod 8 = 0 then output (.bytes [buf]) o else o)

/-- `bits`: `while (n--)` does not come to an end for a negative `n`. -/
def bits (i : Word) (n : Int) (o : Out) : Out :=
  if n < 0 then { o with hung := true } else bitsLoop n.toNat i o

/-- `init_pad`. -/
def initPad (n : Int) (o : Out) : Out :=
  let o := if n.tmod 8 ≠ 0 then bits 0 (n.tmod 8) o else o
  if n.tdiv 8 ≠ 0 then output (.space (n.tdiv 8)) o else o

/-- `word`; a constant that is a `float` is converted. -/
def word (env : Env) (ts : TypeBits) (c : Constant) : Directive :=
  match ts with
  | .float => .data 4 none (env.single c.i)
  | .double => .data 8 none c.i
  | ts => .data ts.sizeof c.sym c.i

/-- `string_emit`. -/
def stringEmit (text : List (BitVec 8)) (n : Nat) : Directive :=
  .bytes ((List.range n).map fun k => text.getD k 0)

/-! ### The assembler -/

/-- The bytes of a directive; there is no negative space. -/
def lay (env : Env) : Directive → Option (List (BitVec 8))
  | .bytes l => some l
  | .space n => if n < 0 then none else some (List.replicate n.toNat 0)
  | .data size sym i => some ((List.range size).map (wordByte (symWord env sym + i)))

/-- The bytes of the text. -/
def assemble (env : Env) : List Directive → Option (List (BitVec 8))
  | [] => some []
  | d :: ds => do
    let l ← lay env d
    let ls ← assemble env ds
    return l ++ ls

/-- The image of what is initialized. -/
def image (env : Env) (o : Out) : Option (List (BitVec 8)) :=
  if o.hung then none else assemble env o.text

/-- The word that a constant of a type is. -/
def constWord (env : Env) (ts : TypeBits) (c : Constant) : Word :=
  match ts with
  | .float => env.single c.i
  | .double => c.i
  | _ => symWord env c.sym + c.i

theorem assemble_append (env : Env) (ds es : List Directive) : assemble env (ds ++ es) =
    (assemble env ds).bind fun l => (assemble env es).map (l ++ ·) := by
  induction ds with
  | nil => cases h : assemble env es <;> simp [assemble, h]
  | cons d ds ih =>
    rw [List.cons_append, assemble, ih, assemble]
    cases lay env d <;> cases assemble env ds <;> cases assemble env es <;> simp

/-! ### The bits so far -/

section
variable {env : Env} {o : Out} {s : List Bool}

theorem assemble_output {d : Directive} {bytes l : List (BitVec 8)}
    (h : assemble env o.text = some bytes) (hl : lay env d = some l) :
    assemble env (output d o).text = some (bytes ++ l) := by
  rw [output, assemble_append, h]
  simp [assemble, hl]

/-- The text is the bytes, and `buf` has the bits behind them. -/
structure Writes (env : Env) (o : Out) (bytes : List (BitVec 8)) (pend : List Bool) : Prop where
  hung : o.hung = false
  text : assemble env o.text = some bytes
  pos : o.pos.toNat % 8 = pend.length
  buf : ∀ k, k < pend.length → o.buf.getLsbD (8 - pend.length + k) = pend.getD k false

/-- The bits that the output so far stands for. -/
def Emitted (env : Env) (o : Out) (s : List Bool) : Prop :=
  ∃ bytes pend, Writes env o bytes pend ∧ s = bitsOf bytes ++ pend

theorem Writes.short {bytes : List (BitVec 8)} {pend : List Bool} (h : Writes env o bytes pend) :
    pend.length < 8 := by
  rw [← h.pos]
  exact Nat.mod_lt _ (by decide)

/-- The sign of `pos` does not matter. -/
theorem tmod_pos_eq_zero (pos : BitVec 8) : pos.toInt.tmod 8 = 0 ↔ pos.toNat % 8 = 0 := by
  revert pos
  decide

/-- `buf` after a bit. -/
theorem getLsbD_push (buf : BitVec 8) (i : Word) {k : Nat} (hk : k < 8) :
    (if i &&& 1 ≠ 0 then buf.sshiftRight 1 ||| 0x80 else buf.sshiftRight 1 &&& 0x7F).getLsbD k =
      if k = 7 then i.getLsbD 0 else buf.getLsbD (k + 1) := by
  have hshift : k ≠ 7 → (buf.sshiftRight 1).getLsbD k = buf.getLsbD (k + 1) := by
    intro h
    rw [BitVec.getLsbD_sshiftRight, Nat.add_comm 1 k]
    simp [show k + 1 < 8 by omega, show ¬8 ≤ k by omega]
  have hset : (0x80 : BitVec 8).getLsbD k = decide (k = 7) ∧
      (0x7F : BitVec 8).getLsbD k = decide (k ≠ 7) := by
    interval_cases k <;> decide
  have hbit : i &&& 1 ≠ 0 ↔ i.getLsbD 0 = true := by
    rw [show (1 : Word) = 1#64 from rfl, BitVec.and_one_eq_setWidth_ofBool_getLsbD]
    cases i.getLsbD 0 <;> decide
  by_cases hb : i &&& 1 ≠ 0
  · rw [if_pos hb, BitVec.getLsbD_or, hset.1, hbit.mp hb]
    by_cases h : k = 7
    · simp [h]
    · simp [h, hshift h]
  · rw [if_neg hb, BitVec.getLsbD_and, hset.2, Bool.eq_false_iff.mpr fun h => hb (hbit.mpr h)]
    by_cases h : k = 7
    · simp [h]
    · simp [h, hshift h]

/-- One bit more: it goes to the buffer, which is written when it is full. -/
theorem Emitted.push (h : Emitted env o s) (i : Word) :
    Emitted env
      (let buf := o.buf.sshiftRight 1
       let buf := if i &&& 1 ≠ 0 then buf ||| 0x80 else buf &&& 0x7F
       let pos := o.pos + 1
       let o := { o with buf := buf, pos := pos }
       if pos.toInt.tmod 8 = 0 then output (.bytes [buf]) o else o) (s ++ [i.getLsbD 0]) := by
  obtain ⟨bytes, pend, hw, rfl⟩ := h
  have hshort := hw.short
  have hpos : (o.pos + 1).toNat % 8 = (pend.length + 1) % 8 := by
    have := hw.pos
    rw [BitVec.toNat_add]
    simp
    omega
  simp only [tmod_pos_eq_zero, hpos]
  split
  · next hfull =>
    refine ⟨bytes ++ [if i &&& 1 ≠ 0 then o.buf.sshiftRight 1 ||| 0x80
      else o.buf.sshiftRight 1 &&& 0x7F], [], ⟨hw.hung, ?_, ?_, nofun⟩, ?_⟩
    · exact assemble_output (o := { o with buf := _, pos := _ }) hw.text rfl
    · rw [List.length_nil, ← hfull]
      exact hpos
    · rw [bitsOf_append, List.append_assoc, List.append_nil]
      congr 1
      rw [bitsOf_cons, bitsOf_nil, List.append_nil]
      refine ext_getD (by simp; omega) fun k hk => ?_
      rw [List.length_append, List.length_singleton] at hk
      rw [getD_lowBits, getLsbD_push o.buf i (by omega), decide_eq_true (by omega : k < 8),
        Bool.true_and]
      by_cases hlast : k = pend.length
      · subst hlast
        rw [if_pos (by omega), List.getD_append_right _ _ _ _ (Nat.le_refl _), Nat.sub_self]
        rfl
      · rw [if_neg (by omega), List.getD_append _ _ _ _ (by omega), ← hw.buf k (by omega)]
        congr 1
        omega
  · next hroom =>
    refine ⟨bytes, pend ++ [i.getLsbD 0], ⟨hw.hung, hw.text, ?_, fun k hk => ?_⟩,
      List.append_assoc ..⟩
    · rw [hpos, List.length_append, List.length_singleton]
      omega
    · rw [List.length_append, List.length_singleton] at hk ⊢
      rw [getLsbD_push o.buf i (by omega)]
      by_cases hlast : k = pend.length
      · subst hlast
        rw [if_pos (by omega), List.getD_append_right _ _ _ _ (Nat.le_refl _), Nat.sub_self]
        rfl
      · rw [if_neg (by omega), List.getD_append _ _ _ _ (by omega), ← hw.buf k (by omega)]
        congr 1
        omega

theorem Emitted.bitsLoop {n : Nat} {i : Word} (h : Emitted env o s) (hn : n ≤ 64) :
    Emitted env (bitsLoop n i o) (s ++ lowBits i n) := by
  induction n generalizing i o s with
  | zero => rwa [lowBits, List.range_zero, List.map_nil, List.append_nil]
  | succ n ih =>
    have hrest : lowBits (i.sshiftRight 1) n = (List.range n).map fun k => i.getLsbD (k + 1) := by
      refine List.map_congr_left fun k hk => ?_
      rw [List.mem_range] at hk
      rw [BitVec.getLsbD_sshiftRight, Nat.add_comm 1 k]
      simp [show ¬64 ≤ k by omega, show k + 1 < 64 by omega]
    have hbits : lowBits i (n + 1) = i.getLsbD 0 :: lowBits (i.sshiftRight 1) n := by
      rw [hrest, lowBits, List.range_succ_eq_map, List.map_cons, List.map_map]
      rfl
    rw [hbits, List.append_cons]
    exact ih (h.push i) (by omega)

/-- A bit-field. -/
theorem Emitted.bits {n : Nat} {i : Word} (h : Emitted env o s) (hn : n ≤ 64) :
    Emitted env (bits i n o) (s ++ lowBits i n) := by
  rw [Decl.bits, if_neg (by omega)]
  exact h.bitsLoop hn

/-- With nothing in the buffer, a directive adds its bytes. -/
theorem Emitted.output {d : Directive} {l : List (BitVec 8)} (h : Emitted env o s)
    (hs : s.length % 8 = 0) (hl : lay env d = some l) :
    Emitted env (output d o) (s ++ bitsOf l) := by
  obtain ⟨bytes, pend, hw, rfl⟩ := h
  have hshort := hw.short
  rw [List.length_append, length_bitsOf] at hs
  obtain rfl : pend = [] := List.length_eq_zero_iff.mp (by omega)
  exact ⟨bytes ++ l, [], ⟨hw.hung, assemble_output hw.text hl, hw.pos, nofun⟩, by simp⟩

/-! ### Padding -/

theorem lowBits_zero (n : Nat) : lowBits (0 : Word) n = List.replicate n false := by
  rw [lowBits, List.eq_replicate_iff]
  simp

/-- The bits of padding that do not make up a byte come first, and then there are whole bytes. -/
theorem initPad_eq (n : Nat) (o : Out) : initPad n o =
    if n / 8 = 0 then Decl.bits 0 (n % 8 : Nat) o
    else Decl.output (.space (n / 8 : Nat)) (Decl.bits 0 (n % 8 : Nat) o) := by
  have hbits : (if (n % 8 : Nat) ≠ (0 : Int) then Decl.bits 0 (n % 8 : Nat) o else o) =
      Decl.bits 0 (n % 8 : Nat) o := by
    by_cases hzero : n % 8 = 0
    · rw [hzero]
      rfl
    · rw [if_pos (Nat.cast_ne_zero.mpr hzero)]
  rw [initPad, show (n : Int).tmod 8 = (n % 8 : Nat) from rfl,
    show (n : Int).tdiv 8 = (n / 8 : Nat) from rfl, hbits]
  by_cases hdiv : n / 8 = 0
  · rw [if_pos hdiv, hdiv]
    rfl
  · rw [if_neg hdiv, if_pos (Nat.cast_ne_zero.mpr hdiv)]

theorem lay_space (n : Nat) : lay env (.space n) = some (List.replicate n 0) := by
  rw [lay, if_neg (by omega), Int.toNat_natCast]

/-- Padding is what it should be when it is no whole byte, or when what is left in the buffer is
    clear. -/
theorem Emitted.initPad {n : Nat} (h : Emitted env o s)
    (hok : n < 8 ∨ 8 ≤ s.length % 8 + n % 8 ∨
      ∀ i, s.length - s.length % 8 ≤ i → i < s.length → s.getD i false = false) :
    Emitted env (initPad n o) (s ++ List.replicate n false) := by
  have hfill : Emitted env (Decl.bits 0 (n % 8 : Nat) o) (s ++ List.replicate (n % 8) false) := by
    rw [← lowBits_zero]
    exact h.bits (by omega)
  have hsplit : List.replicate n false =
      List.replicate (n % 8) false ++ List.replicate (8 * (n / 8)) false := by
    rw [← List.replicate_add, Nat.mod_add_div]
  rw [initPad_eq, hsplit, ← List.append_assoc]
  by_cases hdiv : n / 8 = 0
  · rw [if_pos hdiv, hdiv, Nat.mul_zero, List.replicate_zero, List.append_nil]
    exact hfill
  · rw [if_neg hdiv]
    obtain ⟨bytes, pend, hw, hs⟩ := hfill
    have hshort := hw.short
    have hlen : s.length + n % 8 = 8 * bytes.length + pend.length := by
      have := congrArg List.length hs
      simpa using this
    -- what is in the buffer is clear, so the bytes may pass it
    have hpend : pend = List.replicate pend.length false := by
      refine ext_getD (by simp) fun k hk => ?_
      have hbit : pend.getD k false = (s ++ List.replicate (n % 8) false).getD
          (8 * bytes.length + k) false := by
        rw [hs, List.getD_append_right _ _ _ _ (by simp), length_bitsOf, Nat.add_sub_cancel_left]
      rw [hbit, List.getD_replicate false hk]
      by_cases hold : 8 * bytes.length + k < s.length
      · rw [List.getD_append _ _ _ _ hold]
        rcases hok with hless | hfull | hclear
        · omega
        · omega
        · exact hclear _ (by omega) hold
      · rw [List.getD_append_right _ _ _ _ (by omega), List.getD_replicate false (by omega)]
    refine ⟨bytes ++ List.replicate (n / 8) 0, pend,
      ⟨hw.hung, assemble_output hw.text (lay_space _), hw.pos, hw.buf⟩, ?_⟩
    rw [hs, bitsOf_append, bitsOf_replicate, List.append_assoc, List.append_assoc, hpend,
      ← List.replicate_add, ← List.replicate_add, Nat.add_comm]

/-- Whole bytes pass what is left in the buffer: there is a clear byte in its place. -/
theorem Emitted.initPad_passes {n : Nat} (h : Emitted env o s) (hn : 8 ≤ n)
    (hroom : s.length % 8 + n % 8 < 8) :
    ∃ bytes, assemble env (Decl.initPad n o).text = some bytes ∧
      ∀ i, s.length - s.length % 8 ≤ i → i < s.length →
        i / 8 < bytes.length ∧ bitAt bytes i = false := by
  have hfill : Emitted env (Decl.bits 0 (n % 8 : Nat) o) (s ++ List.replicate (n % 8) false) := by
    rw [← lowBits_zero]
    exact h.bits (by omega)
  obtain ⟨bytes, pend, hw, hs⟩ := hfill
  have hshort := hw.short
  have hlen : s.length + n % 8 = 8 * bytes.length + pend.length := by
    have := congrArg List.length hs
    simpa using this
  rw [initPad_eq, if_neg (by omega)]
  refine ⟨_, assemble_output hw.text (lay_space _), fun i hi hlt => ⟨?_, ?_⟩⟩
  · rw [List.length_append, List.length_replicate]
    omega
  · have hbyte : i / 8 = bytes.length := by omega
    rw [bitAt, List.getD_append_right _ _ _ _ (by omega), List.getD_replicate 0 (by omega)]
    exact BitVec.getLsbD_zero

/-- There is no negative padding. -/
theorem initPad_negative {n : Int} (hn : n < 0) (o : Out) :
    (Decl.initPad n o).hung = true ∨ assemble env (Decl.initPad n o).text = none := by
  have hmod := Int.mul_tdiv_add_tmod n 8
  have hsign : n.tmod 8 ≤ 0 := by
    have := Int.tmod_nonneg 8 (show 0 ≤ -n by omega)
    rw [Int.neg_tmod] at this
    omega
  by_cases hzero : n.tmod 8 = 0
  · right
    have hspace : n.tdiv 8 < 0 := by omega
    rw [Decl.initPad, if_neg (not_not.mpr hzero), if_pos hspace.ne, Decl.output, assemble_append]
    simp [assemble, lay, hspace]
  · left
    have hneg : n.tmod 8 < 0 := by omega
    rw [Decl.initPad, if_pos hzero, Decl.bits, if_pos hneg]
    split <;> rfl

end

/-! ### What is written stays -/

/-- More output. -/
structure Grows (o o' : Out) : Prop where
  hung : o.hung = true → o'.hung = true
  text : o.text <+: o'.text

theorem Grows.refl (o : Out) : Grows o o := ⟨id, List.prefix_refl _⟩

theorem Grows.trans {o₁ o₂ o₃ : Out} (h : Grows o₁ o₂) (h' : Grows o₂ o₃) : Grows o₁ o₃ :=
  ⟨h'.hung ∘ h.hung, h.text.trans h'.text⟩

theorem output_grows (d : Directive) (o : Out) : Grows o (output d o) :=
  ⟨id, List.prefix_append _ _⟩

theorem bitsLoop_grows (n : Nat) (i : Word) (o : Out) : Grows o (bitsLoop n i o) := by
  induction n generalizing i o with
  | zero => exact Grows.refl o
  | succ n ih =>
    refine Grows.trans ?_ (ih _ _)
    split
    · exact ⟨id, List.prefix_append _ _⟩
    · exact ⟨id, List.prefix_refl _⟩

theorem bits_grows (i : Word) (n : Int) (o : Out) : Grows o (bits i n o) := by
  rw [bits]
  split
  · exact ⟨fun _ => rfl, List.prefix_refl _⟩
  · exact bitsLoop_grows _ _ _

theorem initPad_grows (n : Int) (o : Out) : Grows o (initPad n o) := by
  rw [initPad]
  have hfill : Grows o (if n.tmod 8 ≠ 0 then bits 0 (n.tmod 8) o else o) := by
    split
    · exact bits_grows _ _ _
    · exact Grows.refl o
  split
  · exact hfill.trans (output_grows _ _)
  · exact hfill

/-- What could not be assembled still cannot, and what could is still there. -/
theorem Grows.assemble {env : Env} {o o' : Out} (h : Grows o o') {bytes' : List (BitVec 8)}
    (h' : assemble env o'.text = some bytes') :
    ∃ bytes, assemble env o.text = some bytes ∧ bytes <+: bytes' := by
  obtain ⟨rest, hrest⟩ := h.text
  rw [← hrest, assemble_append] at h'
  obtain ⟨bytes, hb, h'⟩ := Option.bind_eq_some_iff.mp h'
  obtain ⟨more, -, rfl⟩ := Option.map_eq_some_iff.mp h'
  exact ⟨bytes, hb, List.prefix_append _ _⟩

/-! ### The position in the byte -/

theorem bitsLoop_pos (n : Nat) (i : Word) (o : Out) :
    (bitsLoop n i o).pos.toNat % 8 = (o.pos.toNat + n) % 8 := by
  induction n generalizing i o with
  | zero => rfl
  | succ n ih =>
    have hnext : (o.pos + 1).toNat % 8 = (o.pos.toNat + 1) % 8 := by
      rw [BitVec.toNat_add, show (1 : BitVec 8).toNat = 1 from rfl]
      omega
    have hstep := ih (i.sshiftRight 1)
    rw [bitsLoop, hstep]
    split <;> simp only [output] <;> omega

/-- The position counts the bits, unless `bits` does not come to an end. -/
def Counts (o o' : Out) (n : Int) : Prop :=
  o'.hung = true ∨ (o'.pos.toNat : Int) % 8 = (o.pos.toNat + n) % 8

theorem Counts.trans {o₁ o₂ o₃ : Out} {m n : Int} (h : Counts o₁ o₂ m) (h' : Counts o₂ o₃ n)
    (hg : Grows o₂ o₃) : Counts o₁ o₃ (m + n) := by
  rcases h with hhung | hpos
  · exact .inl (hg.hung hhung)
  · refine h'.imp_right fun hpos' => ?_
    rw [hpos']
    omega

theorem output_counts (d : Directive) (o : Out) {n : Int} (hn : n % 8 = 0) :
    Counts o (output d o) n := by
  refine .inr ?_
  change (o.pos.toNat : Int) % 8 = _
  omega

theorem bits_counts (i : Word) (n : Int) (o : Out) : Counts o (bits i n o) n := by
  rw [bits]
  split
  · exact .inl rfl
  · have := bitsLoop_pos n.toNat i o
    refine .inr ?_
    omega

theorem initPad_counts (n : Int) (o : Out) : Counts o (initPad n o) n := by
  have hmod := Int.mul_tdiv_add_tmod n 8
  have hfill : Counts o (if n.tmod 8 ≠ 0 then bits 0 (n.tmod 8) o else o) (n.tmod 8) := by
    split
    · exact bits_counts _ _ _
    · next hzero =>
      rw [not_not.mp hzero]
      exact .inr (by omega)
  have hspace (o : Out) : Counts o (if n.tdiv 8 ≠ 0 then output (.space (n.tdiv 8)) o else o)
      (8 * n.tdiv 8) := by
    split
    · exact output_counts _ _ (by omega)
    · exact .inr (by omega)
  have hgrows (o : Out) :
      Grows o (if n.tdiv 8 ≠ 0 then output (.space (n.tdiv 8)) o else o) := by
    split
    · exact output_grows _ _
    · exact Grows.refl o
  have hboth := hfill.trans (hspace _) (hgrows _)
  rwa [show n.tmod 8 + 8 * n.tdiv 8 = n by omega] at hboth

end Ncc.Decl
