import Ncc.Cpp.Constant
import Ncc.Lex

/-! The numeric constants of the compiler (cc1/lex.c: number).

    `number` lets `strtoul` try the text and takes up to three suffixes behind what that read; what
    is not used up then, or out of range, is tried as a floating constant. So three texts that are
    no integer constants of C89 become one (two U suffixes), or a floating constant (out of range,
    octal with an 8 or 9, digits with an F), and those are all that go wrong. -/

namespace Ncc.Lex

open Ncc.Cpp

/-! ### Integer constants of C89 -/

/-- The types an integer constant can have. -/
inductive IntegerType where
  | int | uint | long | ulong
  deriving DecidableEq, Repr

/-- The largest value of the type. -/
def IntegerType.max : IntegerType → Nat
  | .int => 2 ^ 31 - 1
  | .uint => 2 ^ 32 - 1
  | .long => 2 ^ 63 - 1
  | .ulong => 2 ^ 64 - 1

/-- The class of a constant of the type. -/
def IntegerType.k : IntegerType → K
  | .int => .icon
  | .uint => .ucon
  | .long => .lcon
  | .ulong => .ulcon

/-- The list of C89 for a base and a suffix. -/
def integerTypes (decimal u l : Bool) : List IntegerType :=
  if u && l then [.ulong]
  else if l then [.long, .ulong]
  else if u then [.uint, .ulong]
  else if decimal then [.int, .long, .ulong]
  else [.int, .uint, .long, .ulong]

/-- Does the suffix hold an L? -/
def suffixL (c : Constant) : Bool := c.suffix.any (·.toUpper == 'L')

/-- The type of a constant: the first of its list that can hold the number. -/
def constantType (c : Constant) : IntegerType :=
  ((integerTypes (c.radix == .dec) c.suffixU (suffixL c)).find? (c.number ≤ ·.max)).getD .ulong

/-- The text of a constant. -/
def constantText (c : Constant) : List Char := c.radix.mark ++ c.digits ++ c.suffix

/-- The token that a constant is. -/
def constantToken {F : Type} (c : Constant) : Token F :=
  ⟨(constantType c).k, .u (BitVec.ofNat 64 c.number)⟩

/-- The token is an integral constant. -/
def Token.Integral {F : Type} (t : Token F) : Prop :=
  t.k = .icon ∨ t.k = .ucon ∨ t.k = .lcon ∨ t.k = .ulcon

/-! ### What is no integer constant -/

/-- Two U suffixes, with an L between them or not. -/
def doubledSuffixes : List (List Char) :=
  ['u', 'U'].flatMap fun a => [[], ['l'], ['L']].flatMap fun l => ['u', 'U'].map fun b =>
    a :: l ++ [b]

/-- The digits of a constant that fits, and two U suffixes. -/
def DoubleU (w : List Char) : Prop :=
  ∃ (radix : Radix) (ds s : List Char), radix.admits ds = true ∧
    (∀ c ∈ ds, (digitIn radix.base c).isSome = true) ∧ denote radix.base ds ≤ ulongMax ∧
    s ∈ doubledSuffixes ∧ w = radix.mark ++ ds ++ s

/-- A number and a suffix that are to be rejected. -/
inductive Unfit : List Char → List Char → Prop
  | outOfRange {radix : Radix} {ds s : List Char} (hadm : radix.admits ds = true)
      (hvalid : ∀ c ∈ ds, (digitIn radix.base c).isSome = true)
      (hrange : ulongMax < denote radix.base ds) (hs : s ∈ suffixes) :
      Unfit (radix.mark ++ ds) s
  | octal {ds s : List Char} (hdigits : ∀ c ∈ ds, c.isDigit = true)
      (hbad : ∃ c ∈ ds, c = '8' ∨ c = '9') (hs : s ∈ suffixes) : Unfit ('0' :: ds) s
  | floating {ds s : List Char} (hdigits : ∀ c ∈ ds, c.isDigit = true) (hne : ds ≠ [])
      (hs : s = ['f'] ∨ s = ['F']) : Unfit ds s

/-- The suffixes of floating constants. -/
def floatSuffixes : List (List Char) := [[], ['l'], ['L'], ['f'], ['F']]

/-- `errno` stays 0 as the text is converted to a floating constant. -/
def InRange {F : Type} (libc : Libc F) (w s : List Char) : Prop :=
  (libc.strtod w).2.2 = false ∧ (headUpper 'F' s = true → (libc.strtof w).2.2 = false)

/-- The text is to be rejected but is a floating constant to the library. -/
def Misread {F : Type} (libc : Libc F) (w : List Char) : Prop :=
  ∃ body s, w = body ++ s ∧ Unfit body s ∧ s ∈ floatSuffixes ∧ InRange libc w s

/-- `number` follows C89 on the text: it returns an integral token exactly for the integer constants
    that fit, the one that the constant is, and an error for what is to be rejected. -/
structure FollowsC89 {F : Type} (libc : Libc F) (w : List Char) : Prop where
  constant : ∀ c, constantText c = w → number libc w = .ok (constantToken c)
  integral : ∀ t, number libc w = .ok t → t.Integral → ∃ c, constantText c = w
  rejects : ∀ body s, w = body ++ s → Unfit body s → ∃ e, number libc w = .error e

/-! ### The library -/

/-- Is the character a digit of the base? -/
def isDigitIn (base : Nat) (c : Char) : Bool := (digitIn base c).isSome

/-- Where the digits before and after a point end, if there are any. -/
def mantissaEnd (base : Nat) (s : List Char) : Option (List Char) :=
  match s.dropWhile (isDigitIn base) with
  | '.' :: r =>
    if headIs (isDigitIn base) s || headIs (isDigitIn base) r then
      some (r.dropWhile (isDigitIn base))
    else none
  | r => if headIs (isDigitIn base) s then some r else none

/-- Where an exponent ends that the letter begins, or where it would have begun. -/
def exponentEnd (e : Char) : List Char → List Char
  | [] => []
  | c :: s =>
    let r := if headIs (· == '+') s || headIs (· == '-') s then s.tail else s
    if c.toUpper = e ∧ headIs Char.isDigit r then r.dropWhile Char.isDigit else c :: s

/-- `endptr` of a decimal number, which is the text where there is none. -/
def decimalEnd (s : List Char) : List Char :=
  match mantissaEnd 10 s with
  | some r => exponentEnd 'E' r
  | none => s

/-- `endptr` of ISO C's `strtod`, on a text that begins with a digit or a point. -/
def strtodEnd : List Char → List Char
  | '0' :: x :: s =>
    if x.toUpper = 'X' then
      match mantissaEnd 16 s with
      | some r => exponentEnd 'P' r
      | none => x :: s
    else decimalEnd ('0' :: x :: s)
  | s => decimalEnd s

/-- The conversions of the library read what ISO C's do. -/
structure Libc.Iso {F : Type} (libc : Libc F) : Prop where
  strtod : ∀ s, headIs (fun c => c.isDigit || c == '.') s = true → (libc.strtod s).2.1 = strtodEnd s
  strtof : ∀ s, headIs (fun c => c.isDigit || c == '.') s = true → (libc.strtof s).2.1 = strtodEnd s

variable {F : Type} {libc : Libc F}

/-! ### Characters -/

theorem eq_of_toUpper {c d : Char} (h : c.toUpper = d) : c = d ∨ c = Char.ofNat (d.toNat + 32) := by
  unfold Char.toUpper at h
  split at h
  · next hl =>
    refine .inr ?_
    have hc : 97 ≤ c.toNat ∧ c.toNat ≤ 122 := by
      simpa [UInt32.le_iff_toNat_le, ← Char.toNat_val] using hl
    have hd : d.toNat + 32 = c.toNat := by
      subst h
      have hsub : (c.val + ('A'.val - 'a'.val)).toNat = c.toNat - 32 := by
        rw [UInt32.toNat_add]
        simp [← Char.toNat_val] at hc ⊢
        omega
      simp only [Char.toNat, hsub]
      simp [← Char.toNat_val] at hc ⊢
      omega
    rw [hd, Char.ofNat_toNat]
  · exact .inl h

theorem isDigit_iff {c : Char} : c.isDigit = true ↔ '0' ≤ c ∧ c ≤ '9' := by
  simp [Char.isDigit, Char.le_def]

theorem isDigitIn_dec {c : Char} : isDigitIn 10 c = c.isDigit := by
  rw [Bool.eq_iff_iff, isDigit_iff, isDigitIn, digitIn, digitValue]
  split
  · next h =>
    have hv : c.toNat - 48 < 10 := by
      have hle := h.2
      rw [Char.le_def, UInt32.le_iff_toNat_le] at hle
      simp [← Char.toNat_val] at hle ⊢
      omega
    simp [hv, h]
  · next h =>
    simp only [h, iff_false]
    split
    · simp
    · split <;> simp

theorem isDigitIn_mono {b b' : Nat} (hb : b ≤ b') {c : Char} (h : isDigitIn b c = true) :
    isDigitIn b' c = true := by
  unfold isDigitIn digitIn at *
  cases hv : digitValue c with
  | none => simp [hv] at h
  | some d =>
    simp only [hv, Option.filter_some, Option.isSome_ite, decide_eq_true_eq] at h ⊢
    omega

/-! ### What strtoul reads -/

/-- The digits at the head of a text are followed by none. -/
theorem dropWhile_stops (p : Char → Bool) (s : List Char) :
    ∀ c ∈ (s.dropWhile p).head?, p c = false := by
  intro c hc
  have h := List.head?_dropWhile_not p s
  rw [Option.mem_def.mp hc] at h
  exact h

/-- A text that begins with a digit begins with a number. -/
theorem number_head {c : Char} {s : List Char} (hc : c.isDigit = true) :
    ∃ (radix : Radix) (ds rest : List Char), radix.admits ds = true ∧
      (∀ c ∈ ds, (digitIn radix.base c).isSome = true) ∧ radix.Stops ds rest ∧
      c :: s = radix.mark ++ ds ++ rest := by
  have hspan : ∀ (base : Nat) (t : List Char),
      (∀ c ∈ t.takeWhile (isDigitIn base), (digitIn base c).isSome = true) ∧
        ∀ c ∈ (t.dropWhile (isDigitIn base)).head?, digitIn base c = none :=
    fun base t => ⟨fun c hc => List.mem_takeWhile_imp (p := isDigitIn base) hc,
      fun c hc => by simpa [isDigitIn] using dropWhile_stops (isDigitIn base) t c hc⟩
  by_cases h0 : c = '0'
  · subst h0
    by_cases hx : ∃ x d t, s = x :: d :: t ∧ (x = 'x' ∨ x = 'X') ∧ (digitIn 16 d).isSome = true
    · obtain ⟨x, d, t, rfl, hx, hd⟩ := hx
      have hds : (d :: t).takeWhile (isDigitIn 16) = d :: t.takeWhile (isDigitIn 16) :=
        List.takeWhile_cons_of_pos hd
      refine ⟨.hex (x == 'X'), _, _, ?_, (hspan 16 (d :: t)).1, ⟨(hspan 16 (d :: t)).2, by rintro ⟨⟩⟩, ?_⟩
      · rw [hds]
        rfl
      · rw [List.append_assoc, List.takeWhile_append_dropWhile]
        rcases hx with rfl | rfl <;> rfl
    · refine ⟨.oct, _, _, rfl, (hspan 8 s).1, ⟨(hspan 8 s).2, fun _ hnil => ?_⟩, ?_⟩
      · have hs : s.dropWhile (isDigitIn 8) = s := by
          have hsplit := List.takeWhile_append_dropWhile (p := isDigitIn 8) (l := s)
          rwa [hnil, List.nil_append] at hsplit
        show strtoulBase ('0' :: s.dropWhile (isDigitIn 8)) = (8, '0' :: s.dropWhile (isDigitIn 8))
        rw [hs, strtoulBase.eq_def]
        split
        · next d t heq =>
          obtain rfl := (List.cons.inj heq).2
          exact if_neg fun hd => hx ⟨'x', d, t, rfl, .inl rfl, hd⟩
        · next d t heq =>
          obtain rfl := (List.cons.inj heq).2
          exact if_neg fun hd => hx ⟨'X', d, t, rfl, .inr rfl, hd⟩
        · next heq => rw [(List.cons.inj heq).2]
        · next h => exact absurd rfl (h s)
      · rw [List.append_assoc, List.takeWhile_append_dropWhile]
        rfl
  · refine ⟨.dec, (c :: s).takeWhile (isDigitIn 10), _, ?_, (hspan 10 (c :: s)).1,
      ⟨(hspan 10 (c :: s)).2, by rintro ⟨⟩⟩, ?_⟩
    · rw [List.takeWhile_cons_of_pos (by rw [isDigitIn_dec, hc])]
      simpa [Radix.admits] using h0
    · rw [List.append_assoc, List.takeWhile_append_dropWhile]
      rfl

/-- What follows the three suffixes that `number` steps over. -/
def afterSuffix (s : List Char) : List Char := (suffix 'U' (suffix 'L' (suffix 'U' s).2).2).2

theorem suffix_of_true {c : Char} {s : List Char} (h : headUpper c s = true) :
    ∃ d t, s = d :: t ∧ (d = c ∨ d = Char.ofNat (c.toNat + 32)) ∧ suffix c s = (true, t) := by
  cases s with
  | nil => cases h
  | cons d t =>
    have hd : d.toUpper = c := by simpa [headUpper] using h
    exact ⟨d, t, rfl, eq_of_toUpper hd, by rw [suffix, if_pos h]; rfl⟩

theorem suffix_of_false {c : Char} {s : List Char} (h : headUpper c s = false) :
    suffix c s = (false, s) := by
  rw [suffix, h]
  rfl

/-- The suffixes that `number` takes: those of C89, and two U. -/
theorem suffix_of_after {s : List Char} (h : afterSuffix s = []) :
    s ∈ suffixes ∨ s ∈ doubledSuffixes := by
  -- what is left when the last U is stepped over, or none is
  have hlast : ∀ {s}, (suffix 'U' s).2 = [] → s = [] ∨ s = ['U'] ∨ s = ['u'] := fun {s} hs => by
    cases hu : headUpper 'U' s with
    | true =>
      obtain ⟨d, t, rfl, hd, heq⟩ := suffix_of_true hu
      rw [heq] at hs
      obtain rfl : t = [] := hs
      rcases hd with rfl | rfl
      · exact .inr (.inl rfl)
      · exact .inr (.inr rfl)
    | false =>
      rw [suffix_of_false hu] at hs
      exact .inl hs
  have hlong : ∀ {s}, (suffix 'U' (suffix 'L' s).2).2 = [] →
      ∃ l u, s = l ++ u ∧ l ∈ [[], ['L'], ['l']] ∧ u ∈ [[], ['U'], ['u']] := fun {s} hs => by
    cases hl : headUpper 'L' s with
    | true =>
      obtain ⟨d, t, rfl, hd, heq⟩ := suffix_of_true hl
      rw [heq] at hs
      refine ⟨[d], t, rfl, ?_, by simpa using hlast hs⟩
      rcases hd with rfl | rfl <;> simp
    | false =>
      rw [suffix_of_false hl] at hs
      exact ⟨[], s, rfl, by simp, by simpa using hlast hs⟩
  have hall : ∃ v l u, s = v ++ l ++ u ∧ v ∈ [[], ['U'], ['u']] ∧ l ∈ [[], ['L'], ['l']] ∧
      u ∈ [[], ['U'], ['u']] := by
    cases hu : headUpper 'U' s with
    | true =>
      obtain ⟨d, t, rfl, hd, heq⟩ := suffix_of_true hu
      rw [afterSuffix, heq] at h
      obtain ⟨l, u, rfl, hl, hu⟩ := hlong h
      refine ⟨[d], l, u, rfl, ?_, hl, hu⟩
      rcases hd with rfl | rfl <;> simp
    | false =>
      rw [afterSuffix, suffix_of_false hu] at h
      obtain ⟨l, u, rfl, hl, hu⟩ := hlong h
      exact ⟨[], l, u, rfl, by simp, hl, hu⟩
  obtain ⟨v, l, u, rfl, hv, hl, hu⟩ := hall
  have hcases : ∀ v ∈ [[], ['U'], ['u']], ∀ l ∈ [[], ['L'], ['l']], ∀ u ∈ [[], ['U'], ['u']],
      v ++ l ++ u ∈ suffixes ∨ v ++ l ++ u ∈ doubledSuffixes := by decide
  exact hcases v hv l hl u hu

/-- What `number` makes of a suffix of C89. -/
theorem suffix_flags {s : List Char} (h : s ∈ suffixes) :
    afterSuffix s = [] ∧ (suffix 'L' (suffix 'U' s).2).1 = s.any (·.toUpper == 'L') ∧
      ((suffix 'U' s).1 || (suffix 'U' (suffix 'L' (suffix 'U' s).2).2).1) =
        s.any (·.toUpper == 'U') := by
  have hall : ∀ s ∈ suffixes, afterSuffix s = [] ∧
      (suffix 'L' (suffix 'U' s).2).1 = s.any (·.toUpper == 'L') ∧
      ((suffix 'U' s).1 || (suffix 'U' (suffix 'L' (suffix 'U' s).2).2).1) =
        s.any (·.toUpper == 'U') := by decide
  exact hall s h

theorem after_doubled {s : List Char} (h : s ∈ doubledSuffixes) : afterSuffix s = [] := by
  have hall : ∀ s ∈ doubledSuffixes, afterSuffix s = [] := by decide
  exact hall s h

/-! ### Integral tokens -/

/-- The class is that of the first type of the list that can hold the number. -/
theorem integralClass_first {n : Nat} (hn : n ≤ ulongMax) (u l decimal : Bool) :
    integralClass (BitVec.ofNat 64 n) l u (!decimal) =
      (((integerTypes decimal u l).find? (n ≤ ·.max)).getD .ulong).k := by
  have hval : (BitVec.ofNat 64 n).toNat = n := by
    rw [BitVec.toNat_ofNat, Nat.mod_eq_of_lt]
    unfold ulongMax at hn
    omega
  have hle : n ≤ 18446744073709551615 := hn
  simp only [integralClass, hval]
  have hcases : n ≤ 2147483647 ∨ 2147483647 < n ∧ n ≤ 4294967295 ∨
      4294967295 < n ∧ n ≤ 9223372036854775807 ∨ 9223372036854775807 < n := by omega
  rcases hcases with hi | ⟨hi, hu⟩ | ⟨hu, hl⟩ | hl
  · have hu : n ≤ 4294967295 := by omega
    have hl : n ≤ 9223372036854775807 := by omega
    cases u <;> cases l <;> cases decimal <;>
      simp [integerTypes, List.find?, IntegerType.max, IntegerType.k, hi, hu, hl, hle, hi.not_gt,
        hu.not_gt, hl.not_gt]
  · have hl : n ≤ 9223372036854775807 := by omega
    cases u <;> cases l <;> cases decimal <;>
      simp [integerTypes, List.find?, IntegerType.max, IntegerType.k, hi, hu, hl, hle, hi.not_ge,
        hu.not_gt, hl.not_gt]
  · have hi : 2147483647 < n := by omega
    cases u <;> cases l <;> cases decimal <;>
      simp [integerTypes, List.find?, IntegerType.max, IntegerType.k, hu, hl, hle, hi.not_ge,
        hu.not_ge, hl.not_gt]
  · have hi : 2147483647 < n := by omega
    have hu : 4294967295 < n := by omega
    cases u <;> cases l <;> cases decimal <;>
      simp [integerTypes, List.find?, IntegerType.max, IntegerType.k, hl, hle, hi.not_ge,
        hu.not_ge, hl.not_ge]

theorem integralClass_k {n : Nat} (hn : n ≤ ulongMax) (l u octal : Bool) :
    ∃ ty : IntegerType, integralClass (BitVec.ofNat 64 n) l u octal = ty.k := by
  have h := integralClass_first hn u l (!octal)
  rw [Bool.not_not] at h
  exact ⟨_, h⟩

theorem integral_k (ty : IntegerType) (v : Value F) : Token.Integral ⟨ty.k, v⟩ := by
  unfold Token.Integral
  cases ty <;> simp [IntegerType.k]

theorem number_eq (w : List Char) :
    number libc w =
      if !(afterSuffix (strtoul w).2.1).isEmpty || (strtoul w).2.2 then floating libc w
      else .ok ⟨integralClass (strtoul w).1 (suffix 'L' (suffix 'U' (strtoul w).2.1).2).1
        ((suffix 'U' (strtoul w).2.1).1 ||
          (suffix 'U' (suffix 'L' (suffix 'U' (strtoul w).2.1).2).2).1)
        (headIs (· == '0') w), .u (strtoul w).1⟩ := rfl

/-- A constant begins with 0 unless it is decimal. -/
theorem constantText_head (c : Constant) :
    headIs (· == '0') (constantText c) = !(c.radix == .dec) := by
  obtain ⟨radix, ds, s, hadm, -, -, -⟩ := c
  cases radix with
  | dec =>
    cases ds with
    | nil => cases hadm
    | cons d ds =>
      have hd : d ≠ '0' := by simpa [Radix.admits] using hadm
      simpa [constantText, Radix.mark, headIs] using hd
  | oct => rfl
  | hex upper => rfl

variable (libc) in
/-- A constant of C89 that fits is its token. -/
theorem number_constant (c : Constant) :
    number libc (constantText c) = .ok (constantToken c) := by
  obtain ⟨hafter, hl, hu⟩ := suffix_flags c.suffixed
  rw [number_eq, constantText_head]
  simp only [constantText, strtoul_constant, hafter, hl, hu, List.isEmpty_nil, Bool.not_true,
    Bool.or_false, Bool.false_eq_true, if_false]
  rw [integralClass_first (show c.number ≤ ulongMax from c.fits)]
  rfl

theorem constantToken_integral (c : Constant) : (constantToken c : Token F).Integral :=
  integral_k _ _

/-- What `number` takes as an integral constant: one of C89, or one with two U suffixes. -/
theorem number_accepted {w : List Char} (hw : headIs (fun c => c.isDigit || c == '.') w = true)
    (hafter : afterSuffix (strtoul w).2.1 = []) (herrno : (strtoul w).2.2 = false) :
    ∃ (radix : Radix) (ds s : List Char), radix.admits ds = true ∧
      (∀ c ∈ ds, (digitIn radix.base c).isSome = true) ∧ denote radix.base ds ≤ ulongMax ∧
      (s ∈ suffixes ∨ s ∈ doubledSuffixes) ∧ w = radix.mark ++ ds ++ s := by
  obtain ⟨c, w, rfl⟩ := List.exists_cons_of_ne_nil (l := w) (by rintro rfl; cases hw)
  have hc : (c.isDigit || c == '.') = true := hw
  cases hd : c.isDigit with
  | false =>
    -- nothing is read of a point
    obtain rfl : c = '.' := by simpa [hd] using hc
    have hread : strtoul ('.' :: w) = (0, '.' :: w, false) := rfl
    rw [hread] at hafter
    cases hafter
  | true =>
    obtain ⟨radix, ds, rest, hadm, hvalid, hstop, heq⟩ := number_head (s := w) hd
    rw [heq, strtoul_read hadm hvalid hstop] at hafter herrno
    rw [strtoulValue_errno] at herrno
    exact ⟨radix, ds, rest, hadm, hvalid, by simpa using herrno, suffix_of_after hafter, heq⟩

/-- The text of an integral token: a constant, or one with two U suffixes. -/
theorem number_integral {w : List Char} (hw : headIs (fun c => c.isDigit || c == '.') w = true)
    {t : Token F} (h : number libc w = .ok t) (ht : t.Integral) :
    (∃ k, constantText k = w) ∨ DoubleU w := by
  rw [number_eq] at h
  split at h
  · rcases floating_k h with hk | hk | hk <;> rcases ht with ht | ht | ht | ht <;>
      exact absurd (hk.symm.trans ht) (by decide)
  · next haccept =>
    simp only [Bool.or_eq_true, Bool.not_eq_true', not_or, Bool.not_eq_false, Bool.not_eq_true,
      List.isEmpty_iff] at haccept
    obtain ⟨radix, ds, s, hadm, hvalid, hfits, hs | hs, rfl⟩ :=
      number_accepted hw haccept.1 haccept.2
    · exact .inl ⟨⟨radix, ds, s, hadm, hvalid, hs, hfits⟩, rfl⟩
    · exact .inr ⟨radix, ds, s, hadm, hvalid, hfits, hs, rfl⟩

variable (libc) in
/-- A constant with two U suffixes is an integral token all the same. -/
theorem number_doubleU {w : List Char} (h : DoubleU w) :
    (∃ t, number libc w = .ok t ∧ t.Integral) ∧ ∀ k, constantText k ≠ w := by
  obtain ⟨radix, ds, s, hadm, hvalid, hfits, hs, rfl⟩ := h
  have hu : ∀ s ∈ doubledSuffixes, s.head? = some 'u' ∨ s.head? = some 'U' := by decide
  have hhead : ∀ c ∈ s.head?, digitValue c = none ∧ c ≠ 'x' ∧ c ≠ 'X' := fun c hc => by
    rcases hu s hs with h | h <;> rw [h] at hc <;> cases hc <;> exact ⟨rfl, by decide, by decide⟩
  have hstop : radix.Stops ds s :=
    ⟨fun c hc => digitIn_of_none (hhead c hc).1,
      fun _ _ => strtoulBase_oct fun c hc => (hhead c hc).2⟩
  have hread := strtoul_read hadm hvalid hstop
  rw [strtoulValue_fits hfits] at hread
  constructor
  · rw [number_eq, hread]
    simp only [after_doubled hs, List.isEmpty_nil, Bool.not_true, Bool.or_false, Bool.false_eq_true,
      if_false]
    obtain ⟨ty, hty⟩ := integralClass_k hfits (suffix 'L' (suffix 'U' s).2).1
      ((suffix 'U' s).1 || (suffix 'U' (suffix 'L' (suffix 'U' s).2).2).1)
      (headIs (· == '0') (radix.mark ++ ds ++ s))
    rw [hty]
    exact ⟨_, rfl, integral_k ty _⟩
  · intro k hk
    have hconst := strtoul_constant k
    rw [show k.radix.mark ++ k.digits ++ k.suffix = _ from hk, hread] at hconst
    have hsuf : s = k.suffix := congrArg (·.2.1) hconst
    have hdisj : ∀ s ∈ doubledSuffixes, s ∉ suffixes := by decide
    exact hdisj s hs (hsuf ▸ k.suffixed)

/-! ### Texts that are rejected -/

/-- The letters that end a decimal number. -/
theorem suffix_stops {s : List Char} (hs : s ∈ suffixes ∨ s = ['f'] ∨ s = ['F']) :
    ∀ c ∈ s.head?, c.isDigit = false ∧ c ≠ '.' ∧ c.toUpper ≠ 'E' ∧ c.toUpper ≠ 'X' ∧
      c.toUpper ≠ 'P' := by
  have hletter : ∀ c, c = 'u' ∨ c = 'U' ∨ c = 'l' ∨ c = 'L' ∨ c = 'f' ∨ c = 'F' →
      c.isDigit = false ∧ c ≠ '.' ∧ c.toUpper ≠ 'E' ∧ c.toUpper ≠ 'X' ∧ c.toUpper ≠ 'P' := by
    rintro c (rfl | rfl | rfl | rfl | rfl | rfl) <;> decide
  rcases hs with hs | rfl | rfl
  · simp only [suffixes, List.mem_cons, List.not_mem_nil, or_false] at hs
    obtain rfl | rfl | rfl | rfl | rfl | rfl | rfl | rfl | rfl | rfl | rfl | rfl | rfl := hs <;>
      exact fun c hc => by cases hc <;> exact hletter _ (by simp)
  · exact fun c hc => hletter c (by cases hc; simp)
  · exact fun c hc => hletter c (by cases hc; simp)

/-- Digits that a suffix ends are the mantissa. -/
theorem mantissaEnd_digits {base : Nat} {ds s : List Char} (hne : ds ≠ [])
    (hds : ∀ c ∈ ds, isDigitIn base c = true)
    (hs : ∀ c ∈ s.head?, isDigitIn base c = false ∧ c ≠ '.') :
    mantissaEnd base (ds ++ s) = some s := by
  have hdrop : (ds ++ s).dropWhile (isDigitIn base) = s := by
    rw [List.dropWhile_append_of_pos hds]
    cases s with
    | nil => rfl
    | cons c s => exact List.dropWhile_cons_of_neg (by simp [(hs c rfl).1])
  have hhead : headIs (isDigitIn base) (ds ++ s) = true := by
    obtain ⟨d, ds, rfl⟩ := List.exists_cons_of_ne_nil hne
    exact hds d (List.mem_cons_self ..)
  rw [mantissaEnd, hdrop]
  split
  · exact absurd rfl (hs '.' rfl).2
  · rw [if_pos hhead]

theorem exponentEnd_stop {e : Char} {s : List Char} (hs : ∀ c ∈ s.head?, c.toUpper ≠ e) :
    exponentEnd e s = s := by
  cases s with
  | nil => rfl
  | cons c s =>
    rw [exponentEnd, if_neg]
    exact fun h => hs c rfl h.1

/-- A decimal number, whatever its digits, is read up to the suffix. -/
theorem strtodEnd_decimal {ds s : List Char} (hne : ds ≠ [])
    (hds : ∀ c ∈ ds, c.isDigit = true) (hs : s ∈ suffixes ∨ s = ['f'] ∨ s = ['F']) :
    strtodEnd (ds ++ s) = s := by
  have hstops := suffix_stops hs
  have hdec : decimalEnd (ds ++ s) = s := by
    rw [decimalEnd, mantissaEnd_digits hne (fun c hc => by rw [isDigitIn_dec, hds c hc])
      fun c hc => ⟨by rw [isDigitIn_dec, (hstops c hc).1], (hstops c hc).2.1⟩]
    exact exponentEnd_stop fun c hc => (hstops c hc).2.2.1
  have hx : ∀ x t, ds ++ s = '0' :: x :: t → x.toUpper ≠ 'X' := by
    intro x t heq
    obtain ⟨d, ds, rfl⟩ := List.exists_cons_of_ne_nil hne
    obtain ⟨-, heq⟩ := List.cons.inj heq
    cases ds with
    | nil =>
      have hs : s = x :: t := heq
      exact (hstops x (by rw [hs]; rfl)).2.2.2.1
    | cons d' ds =>
      obtain ⟨rfl, -⟩ := List.cons.inj heq
      have hd := hds d' (by simp)
      intro hup
      rcases eq_of_toUpper hup with rfl | rfl <;> cases hd
  rw [strtodEnd.eq_def]
  split
  · next x t heq => rw [if_neg (hx x t heq), ← heq, hdec]
  · exact hdec

/-- So is a hexadecimal one. -/
theorem strtodEnd_hex {upper : Bool} {ds s : List Char} (hne : ds ≠ [])
    (hds : ∀ c ∈ ds, (digitIn 16 c).isSome = true) (hs : s ∈ suffixes) :
    strtodEnd ((Radix.hex upper).mark ++ ds ++ s) = s := by
  have hstops := suffix_stops (.inl hs)
  have hmant : mantissaEnd 16 (ds ++ s) = some s :=
    mantissaEnd_digits hne hds fun c hc =>
      ⟨by simp [isDigitIn, digitIn_of_none (suffix_head hs c hc).1], (hstops c hc).2.1⟩
  have hexp : exponentEnd 'P' s = s := exponentEnd_stop fun c hc => (hstops c hc).2.2.2.2
  cases upper <;>
  · show (match mantissaEnd 16 (ds ++ s) with
      | some r => exponentEnd 'P' r
      | none => _) = s
    rw [hmant]
    exact hexp

/-- The library reads what is to be rejected up to its suffix. -/
theorem strtodEnd_unfit {body s : List Char} (h : Unfit body s) : strtodEnd (body ++ s) = s := by
  cases h with
  | @outOfRange radix ds _ hadm hvalid hrange hs =>
    cases radix with
    | dec =>
      refine strtodEnd_decimal ?_ (fun c hc => ?_) (.inl hs)
      · rintro rfl
        cases hadm
      · rw [← isDigitIn_dec]
        exact hvalid c hc
    | oct =>
      refine strtodEnd_decimal (by simp [Radix.mark]) (fun c hc => ?_) (.inl hs)
      rcases List.mem_cons.mp hc with rfl | hc
      · rfl
      · rw [← isDigitIn_dec]
        exact isDigitIn_mono (by decide) (hvalid c hc)
    | hex upper =>
      refine strtodEnd_hex ?_ hvalid hs
      rintro rfl
      cases hadm
  | octal hdigits hbad hs =>
    refine strtodEnd_decimal (by simp) (fun c hc => ?_) (.inl hs)
    rcases List.mem_cons.mp hc with rfl | hc
    · rfl
    · exact hdigits c hc
  | floating hdigits hne hs => exact strtodEnd_decimal hne hdigits (.inr hs)

/-- A decimal digit that is none of the base is not part of what `strtoul` reads in it. -/
theorem not_constant_of_mem {w : List Char} {c : Char} (hc : c ∈ w)
    (hw : ∀ d ∈ w, d.toUpper ≠ 'X')
    (hsuf : ∀ s, s ∈ suffixes ∨ s ∈ doubledSuffixes → c ∉ s) (h0 : c ≠ '0')
    (hoct : (digitIn 8 c).isSome = false)
    (hdec : (digitIn 10 c).isSome = false ∨ headIs (· == '0') w = true)
    {radix : Radix} {ds s : List Char} (hadm : radix.admits ds = true)
    (hvalid : ∀ c ∈ ds, (digitIn radix.base c).isSome = true)
    (hs : s ∈ suffixes ∨ s ∈ doubledSuffixes) : w ≠ radix.mark ++ ds ++ s := by
  rintro rfl
  have hcs := hsuf s hs
  cases radix with
  | dec =>
    have hmem : c ∈ ds := by simpa [Radix.mark, hcs] using hc
    rcases hdec with hdec | hdec
    · exact absurd (hvalid c hmem) (by simp [Radix.base, hdec])
    · obtain ⟨d, ds, rfl⟩ := List.exists_cons_of_ne_nil (List.ne_nil_of_mem hmem)
      have hd : d ≠ '0' := by simpa [Radix.admits] using hadm
      exact hd (by simpa [Radix.mark, headIs] using hdec)
  | oct =>
    have hmem : c ∈ ds := by simpa [Radix.mark, hcs, h0] using hc
    exact absurd (hvalid c hmem) (by simp [Radix.base, hoct])
  | hex upper =>
    cases upper
    · exact hw 'x' (by simp [Radix.mark]) (by decide)
    · exact hw 'X' (by simp [Radix.mark]) (by decide)

/-- A text that is no such constant is tried as a floating one. -/
theorem number_floating {w : List Char} (hw : headIs (fun c => c.isDigit || c == '.') w = true)
    (h : ∀ (radix : Radix) (ds s : List Char), radix.admits ds = true →
      (∀ c ∈ ds, (digitIn radix.base c).isSome = true) →
      s ∈ suffixes ∨ s ∈ doubledSuffixes → w ≠ radix.mark ++ ds ++ s) :
    number libc w = floating libc w := by
  rw [number_eq]
  split
  · rfl
  · next haccept =>
    simp only [Bool.or_eq_true, Bool.not_eq_true', not_or, Bool.not_eq_false, Bool.not_eq_true,
      List.isEmpty_iff] at haccept
    obtain ⟨radix, ds, s, hadm, hvalid, -, hs, heq⟩ := number_accepted hw haccept.1 haccept.2
    exact absurd heq (h radix ds s hadm hvalid hs)

/-- The suffixes that `number` takes have U and L only. -/
theorem suffix_letters {s : List Char} (hs : s ∈ suffixes ∨ s ∈ doubledSuffixes) :
    ∀ c ∈ s, c = 'u' ∨ c = 'U' ∨ c = 'l' ∨ c = 'L' := by
  have hall : ∀ s ∈ suffixes ++ doubledSuffixes,
      s.all (fun c => c == 'u' || c == 'U' || c == 'l' || c == 'L') = true := by decide
  intro c hc
  simpa [or_assoc] using List.all_eq_true.mp (hall s (List.mem_append.mpr hs)) c hc

theorem isDigit_toUpper {c : Char} (h : c.isDigit = true) : c.toUpper ≠ 'X' := by
  intro hup
  rcases eq_of_toUpper hup with rfl | rfl <;> cases h

/-- What is to be rejected begins with a digit. -/
theorem unfit_head {body s : List Char} (h : Unfit body s) :
    headIs (fun c => c.isDigit || c == '.') (body ++ s) = true := by
  cases h with
  | @outOfRange radix ds _ hadm hvalid hrange hs =>
    cases radix with
    | dec =>
      cases ds with
      | nil => cases hadm
      | cons d ds =>
        have hd : d.isDigit = true := by
          rw [← isDigitIn_dec]
          exact hvalid d (List.mem_cons_self ..)
        simp [Radix.mark, headIs, hd]
    | oct => rfl
    | hex upper => rfl
  | octal hdigits hbad hs => rfl
  | floating hdigits hne hs =>
    obtain ⟨d, ds, rfl⟩ := List.exists_cons_of_ne_nil hne
    simp [headIs, hdigits d (List.mem_cons_self ..)]

/-- What is to be rejected is no integral constant to `number`. -/
theorem number_unfit {body s : List Char} (h : Unfit body s) :
    number libc (body ++ s) = floating libc (body ++ s) := by
  cases h with
  | @outOfRange radix ds _ hadm hvalid hrange hs =>
    have herrno : (strtoulValue (denote radix.base ds)).2 = true := by
      simp [strtoulValue_errno, hrange]
    rw [number_eq, strtoul_read hadm hvalid (stops_suffix hs), herrno, Bool.or_true, if_pos rfl]
  | @octal ds _ hdigits hbad hs =>
    obtain ⟨c, hc, h89⟩ := hbad
    refine number_floating rfl fun radix ds' s' hadm hvalid hs' => ?_
    refine not_constant_of_mem (c := c) (by simp [hc]) (fun d hd => ?_) (fun s hs hcs => ?_) ?_ ?_
      (.inr rfl) hadm hvalid hs'
    · rcases List.mem_append.mp hd with hd | hd
      · rcases List.mem_cons.mp hd with rfl | hd
        · decide
        · exact isDigit_toUpper (hdigits d hd)
      · rcases suffix_letters (.inl hs) d hd with rfl | rfl | rfl | rfl <;> decide
    · have hl := suffix_letters hs c hcs
      rcases h89 with rfl | rfl <;> simp at hl
    · rcases h89 with rfl | rfl <;> decide
    · rcases h89 with rfl | rfl <;> decide
  | floating hdigits hne hs =>
    obtain ⟨f, rfl, hf⟩ : ∃ f, s = [f] ∧ (f = 'f' ∨ f = 'F') := by
      rcases hs with hs | hs <;> simp [hs]
    refine number_floating (unfit_head (.floating hdigits hne hs)) fun radix ds' s' hadm hvalid hs' =>
      ?_
    refine not_constant_of_mem (c := f) (by simp) (fun d hd => ?_) (fun s hs hcs => ?_) ?_ ?_
      (.inl ?_) hadm hvalid hs'
    · rcases List.mem_append.mp hd with hd | hd
      · exact isDigit_toUpper (hdigits d hd)
      · obtain rfl := List.mem_singleton.mp hd
        rcases hf with rfl | rfl <;> decide
    · have hl := suffix_letters hs f hcs
      rcases hf with rfl | rfl <;> simp at hl
    · rcases hf with rfl | rfl <;> decide
    · rcases hf with rfl | rfl <;> decide
    · rcases hf with rfl | rfl <;> decide

theorem floating_ok {w : List Char} :
    (∃ t, floating libc w = .ok t) ↔
      (floatingParts libc w).2.2.1 = some [] ∧ (floatingParts libc w).2.2.2 = false := by
  unfold floating
  dsimp only
  split
  · next h => simp [h]
  · next h =>
    split
    · next he => simp [he]
    · next he => simpa [he] using not_not.mp h

/-- The library takes as floating what has the suffix of a floating constant, and is in range. -/
theorem floating_unfit (hiso : libc.Iso) {body s : List Char} (h : Unfit body s) :
    (∃ t, floating libc (body ++ s) = .ok t) ↔
      s ∈ floatSuffixes ∧ InRange libc (body ++ s) s := by
  have hd : (libc.strtod (body ++ s)).2.1 = s := by
    rw [hiso.strtod _ (unfit_head h), strtodEnd_unfit h]
  have hf : (libc.strtof (body ++ s)).2.1 = s := by
    rw [hiso.strtof _ (unfit_head h), strtodEnd_unfit h]
  have hs : s ∈ suffixes ∨ s = ['f'] ∨ s = ['F'] := by
    cases h with
    | outOfRange _ _ _ hs => exact .inl hs
    | octal _ _ hs => exact .inl hs
    | floating _ _ hs => exact .inr hs
  rw [floating_ok, floatingParts, InRange]
  simp only [hd, hf]
  generalize (libc.strtod (body ++ s)).2.2 = errno
  generalize (libc.strtof (body ++ s)).2.2 = errno'
  simp only [suffixes, List.mem_cons, List.not_mem_nil, or_false] at hs
  obtain (rfl | rfl | rfl | rfl | rfl | rfl | rfl | rfl | rfl | rfl | rfl | rfl | rfl) | rfl | rfl :=
    hs <;> simp +decide [headUpper, step, floatSuffixes]

/-! ### Numbers of a text -/

theorem operator_ne_number (p₀ p₁ p₂ : Char) (self : K) (dup eq dupeq : Option K) :
    operator p₀ p₁ p₂ self dup eq dupeq ≠ .number := by
  unfold operator
  split
  · nofun
  · split
    · nofun
    · split <;> nofun

theorem dispatch_number {p₀ p₁ p₂ : Char} (h : dispatch p₀ p₁ p₂ = .number) :
    (p₀.isDigit || p₀ == '.') = true := by
  unfold dispatch at h
  split at h
  · next hd => simp [hd]
  · split at h
    · cases h
    · split at h <;> first
        | exact (operator_ne_number _ _ _ _ _ _ _ h).elim
        | rfl
        | cases h
        | skip
      split at h
      · cases h
      · exact (operator_ne_number _ _ _ _ _ _ _ h).elim

/-- The text of a number begins with a digit or a point. -/
theorem numberLoop_head {s : List Char}
    (h : dispatch (peek s 0) (peek s 1) (peek s 2) = .number) :
    headIs (fun c => c.isDigit || c == '.') (numberLoop s).1 = true := by
  have hp := dispatch_number h
  have hsplit := numberLoop_split s
  cases s with
  | nil => cases hp
  | cons c s =>
    have hc : (c.isDigit || c == '.') = true := hp
    have hn : isNumber c := by
      rcases Bool.or_eq_true_iff.mp hc with hc | hc
      · simp [isNumber, Char.isAlphanum, hc]
      · simp [isNumber, hc]
    obtain ⟨d, w, hw⟩ := List.exists_cons_of_ne_nil (numberLoop_ne_nil (s := s) hn)
    rw [hw] at hsplit ⊢
    obtain ⟨rfl, -⟩ := List.cons.inj hsplit
    exact hc

/-- `number` follows C89 on the numbers of a text, unless they have two U suffixes, or are out of
    range, octal with an 8 or 9, or decimal with an F, and the library reads them. -/
theorem number_follows_iff (hiso : libc.Iso) {s : List Char}
    (h : dispatch (peek s 0) (peek s 1) (peek s 2) = .number) :
    FollowsC89 libc (numberLoop s).1 ↔
      ¬ DoubleU (numberLoop s).1 ∧ ¬ Misread libc (numberLoop s).1 := by
  have hw := numberLoop_head h
  generalize (numberLoop s).1 = w at hw
  constructor
  · intro hc
    refine ⟨fun hdouble => ?_, fun ⟨body, s, heq, hunfit, hs, hrange⟩ => ?_⟩
    · obtain ⟨⟨t, ht, hint⟩, hnot⟩ := number_doubleU libc hdouble
      obtain ⟨k, hk⟩ := hc.integral t ht hint
      exact hnot k hk
    · obtain ⟨e, he⟩ := hc.rejects body s heq hunfit
      subst heq
      rw [number_unfit hunfit] at he
      obtain ⟨t, ht⟩ := (floating_unfit hiso hunfit).mpr ⟨hs, hrange⟩
      cases he.symm.trans ht
  · rintro ⟨hdouble, hmisread⟩
    refine ⟨fun c hc => ?_, fun t ht hint => ?_, fun body s heq hunfit => ?_⟩
    · rw [← hc]
      exact number_constant libc c
    · exact (number_integral hw ht hint).resolve_right hdouble
    · subst heq
      rw [number_unfit hunfit]
      cases hf : floating libc (body ++ s) with
      | error e => exact ⟨e, rfl⟩
      | ok t =>
        obtain ⟨hs, hrange⟩ := (floating_unfit hiso hunfit).mp ⟨t, hf⟩
        exact absurd ⟨body, s, rfl, hunfit, hs, hrange⟩ hmisread

/-- A library that reads as ISO C's does; the values are the texts. -/
def isoText : Libc (List Char) :=
  { strtod := fun w => (w, strtodEnd w, false), strtof := fun w => (w, strtodEnd w, false) }

theorem iso_isoText : isoText.Iso := ⟨fun _ _ => rfl, fun _ _ => rfl⟩

/-- `017;` is an octal constant. -/
theorem number_follows_octal : FollowsC89 isoText (numberLoop ['0', '1', '7', ';']).1 :=
  (number_follows_iff iso_isoText (by decide)).mpr (by
    have hdigits : ∀ c ∈ ['1', '7'], (digitIn Radix.oct.base c).isSome := by
      simp [digitIn, digitValue, Radix.base]
    have hconst : constantText ⟨.oct, ['1', '7'], [], rfl, hdigits, by decide, by decide⟩ =
        (numberLoop ['0', '1', '7', ';']).1 := rfl
    have hnum := number_constant isoText ⟨.oct, ['1', '7'], [], rfl, hdigits, by decide, by decide⟩
    rw [hconst] at hnum
    refine ⟨fun h => (number_doubleU isoText h).2 _ hconst, ?_⟩
    rintro ⟨body, s, heq, hunfit, -, -⟩
    rw [heq, number_unfit hunfit] at hnum
    rcases floating_k hnum with h | h | h <;> cases h)

/-- `1uu` is an integer constant to `number`. -/
theorem not_number_follows :
    ¬ ∀ (libc : Libc (List Char)), libc.Iso → ∀ s : List Char,
      dispatch (peek s 0) (peek s 1) (peek s 2) = .number →
        FollowsC89 libc (numberLoop s).1 := by
  intro h
  have hdouble : DoubleU ['1', 'u', 'u'] :=
    ⟨.dec, ['1'], ['u', 'u'], rfl, by simp [digitIn, digitValue, Radix.base], by decide, by decide, rfl⟩
  obtain ⟨⟨t, ht, hint⟩, hnot⟩ := number_doubleU isoText hdouble
  obtain ⟨k, hk⟩ := (h isoText iso_isoText ['1', 'u', 'u'] (by decide +kernel)).integral t ht hint
  exact hnot k hk

/-- An octal constant with an 8, one out of range and one with an F are floating. -/
example : [['0', '8'], ['1', 'f'], "99999999999999999999l".toList].map
    (fun w => (number isoText w).toOption.map (·.k)) = [some .dcon, some .fcon, some .ldcon] := by
  decide +kernel

end Ncc.Lex
