import Ncc.Cpp.Output
import Ncc.Lex

/-! The two scanners split a line alike (cpp/token.c, cpp/cpp.c, cc1/lex.c).

    `lex0` at the start of a preprocessor token takes exactly that token (`lexToken_append`), but
    that it groups string literals, splits `##`, and takes a period with the digit behind it for a
    number. What `output` writes for a line lexes as the line unless a number of it begins with a
    period (`line_agrees_iff`). -/

namespace Ncc.Lex

open Ncc.Cpp

variable {F : Type}

/-- The class of an operator. -/
def kOf : TokenClass → Option K
  | .plus => some .plus
  | .minus => some .minus
  | .mul => some .mul
  | .div => some .div
  | .mod => some .mod
  | .and => some .and
  | .or => some .or
  | .xor => some .xor
  | .gt => some .gt
  | .shr => some .shr
  | .lt => some .lt
  | .shl => some .shl
  | .hash => some .hash
  | .eq => some .eq
  | .not => some .not
  | .lparen => some .lparen
  | .rparen => some .rparen
  | .lbrace => some .lbrace
  | .rbrace => some .rbrace
  | .lbrack => some .lbrack
  | .rbrack => some .rbrack
  | .eqeq => some .eqeq
  | .noteq => some .noteq
  | .inc => some .inc
  | .dec => some .dec
  | .pluseq => some .pluseq
  | .minuseq => some .minuseq
  | .muleq => some .muleq
  | .diveq => some .diveq
  | .modeq => some .modeq
  | .andeq => some .andeq
  | .andand => some .land
  | .oreq => some .oreq
  | .oror => some .lor
  | .xoreq => some .xoreq
  | .gteq => some .gteq
  | .shreq => some .shreq
  | .lteq => some .lteq
  | .shleq => some .shleq
  | .arrow => some .arrow
  | .dot => some .dot
  | .ellip => some .ellip
  | .semi => some .semi
  | .colon => some .colon
  | .quest => some .quest
  | .tilde => some .tilde
  | .comma => some .comma
  | _ => none

/-- A property of characters that NUL does not have, at the head of a text. -/
theorem headIs_peek {p : Char → Bool} (h : p '\x00' = false) (s : List Char) :
    headIs p s = p (peek s 0) := by
  cases s with
  | nil => exact h.symm
  | cons c s => rfl

theorem dots_peek (s : List Char) : dots s = (peek s 0 == '.' && peek s 1 == '.') := by
  obtain _ | ⟨c, _ | ⟨d, s⟩⟩ := s
  · rfl
  · exact (Bool.and_false _).symm
  · rfl

theorem growsOp_peek {q : Char} (hq : q ≠ '\x00') (cls : TokenClass) (r : List Char) :
    growsOp q cls r =
      ((peek r 0 == q && cls.dup.isSome) || (peek r 0 == '=' && cls.eq'.isSome)) := by
  refine headIs_peek ?_ r
  have h₀ : (('\x00' : Char) == q) = false := beq_eq_false_iff_ne.mpr hq.symm
  have h₁ : (('\x00' : Char) == '=') = false := by decide
  rw [h₀, h₁]
  rfl

theorem operator_self {p₀ p₁ p₂ : Char} {self : K} {dup eq dupeq : Option K}
    (hd : dup.isSome ∨ dupeq.isSome → p₁ ≠ p₀) (he : eq.isSome → p₁ ≠ '=') :
    operator p₀ p₁ p₂ self dup eq dupeq = .punct self 1 := by
  unfold operator
  rw [if_neg fun h => hd (.inr h.1) h.2.1, if_neg fun h => hd (.inl h.1) h.2,
    if_neg fun h => he h.1 h.2]

/-- What follows an operator that it does not extend to, by characters. -/
theorem not_grows {q : Char} (hq : q ≠ '\x00') {cls : TokenClass} {r : List Char}
    (h : growsOp q cls r = false) :
    (cls.dup.isSome → peek r 0 ≠ q) ∧ (cls.eq'.isSome → peek r 0 ≠ '=') := by
  rw [growsOp_peek hq] at h
  constructor
  · rintro hd he
    simp [hd, he] at h
  · rintro hd he
    simp [hd, he] at h

/-- Where nothing extends it, an operator is dispatched on as the operator it is. -/
theorem dispatch_operator {cls : TokenClass} {k : K} (hk : kOf cls = some k) {r : List Char}
    (hg : grows cls cls.spelling r = false) (hd : cls = .dot → headIs Char.isDigit r = false) :
    dispatch (peek (cls.spelling ++ r) 0) (peek (cls.spelling ++ r) 1)
      (peek (cls.spelling ++ r) 2) = .punct k cls.spelling.length := by
  have hop : ∀ q, q ≠ '\x00' → (cls.plain → cls.spelling.headD ' ' = q) → cls.plain →
      (cls.dup.isSome → peek r 0 ≠ q) ∧ (cls.eq'.isSome → peek r 0 ≠ '=') := by
    intro q hq he hp
    rw [grows_plain hp, he hp] at hg
    exact not_grows hq hg
  cases cls <;> cases hk
  case plus =>
    obtain ⟨h₁, h₂⟩ := hop '+' (by decide) (fun _ => rfl) rfl
    change operator '+' (peek r 0) (peek r 1) .plus (some .inc) (some .pluseq) none = _
    exact operator_self (fun _ => h₁ rfl) (fun _ => h₂ rfl)
  case and =>
    obtain ⟨h₁, h₂⟩ := hop '&' (by decide) (fun _ => rfl) rfl
    change operator '&' (peek r 0) (peek r 1) .and (some .land) (some .andeq) none = _
    exact operator_self (fun _ => h₁ rfl) (fun _ => h₂ rfl)
  case or =>
    obtain ⟨h₁, h₂⟩ := hop '|' (by decide) (fun _ => rfl) rfl
    change operator '|' (peek r 0) (peek r 1) .or (some .lor) (some .oreq) none = _
    exact operator_self (fun _ => h₁ rfl) (fun _ => h₂ rfl)
  case gt =>
    obtain ⟨h₁, h₂⟩ := hop '>' (by decide) (fun _ => rfl) rfl
    change operator '>' (peek r 0) (peek r 1) .gt (some .shr) (some .gteq) (some .shreq) = _
    exact operator_self (fun _ => h₁ rfl) (fun _ => h₂ rfl)
  case lt =>
    obtain ⟨h₁, h₂⟩ := hop '<' (by decide) (fun _ => rfl) rfl
    change operator '<' (peek r 0) (peek r 1) .lt (some .shl) (some .lteq) (some .shleq) = _
    exact operator_self (fun _ => h₁ rfl) (fun _ => h₂ rfl)
  case mul =>
    obtain ⟨-, h₂⟩ := hop '*' (by decide) (fun _ => rfl) rfl
    change operator '*' (peek r 0) (peek r 1) .mul none (some .muleq) none = _
    exact operator_self (fun h => by simp at h) (fun _ => h₂ rfl)
  case div =>
    obtain ⟨-, h₂⟩ := hop '/' (by decide) (fun _ => rfl) rfl
    change operator '/' (peek r 0) (peek r 1) .div none (some .diveq) none = _
    exact operator_self (fun h => by simp at h) (fun _ => h₂ rfl)
  case mod =>
    obtain ⟨-, h₂⟩ := hop '%' (by decide) (fun _ => rfl) rfl
    change operator '%' (peek r 0) (peek r 1) .mod none (some .modeq) none = _
    exact operator_self (fun h => by simp at h) (fun _ => h₂ rfl)
  case xor =>
    obtain ⟨-, h₂⟩ := hop '^' (by decide) (fun _ => rfl) rfl
    change operator '^' (peek r 0) (peek r 1) .xor none (some .xoreq) none = _
    exact operator_self (fun h => by simp at h) (fun _ => h₂ rfl)
  case not =>
    obtain ⟨-, h₂⟩ := hop '!' (by decide) (fun _ => rfl) rfl
    change operator '!' (peek r 0) (peek r 1) .not none (some .noteq) none = _
    exact operator_self (fun h => by simp at h) (fun _ => h₂ rfl)
  case eq =>
    obtain ⟨-, h₂⟩ := hop '=' (by decide) (fun _ => rfl) rfl
    change operator '=' (peek r 0) (peek r 1) .eq (some .eqeq) none none = _
    exact operator_self (fun _ => h₂ rfl) (fun h => by simp at h)
  case shr =>
    obtain ⟨-, h₂⟩ := hop '>' (by decide) (fun _ => rfl) rfl
    change operator '>' '>' (peek r 0) .gt (some .shr) (some .gteq) (some .shreq) = _
    exact if_neg fun h => h₂ rfl h.2.2
  case shl =>
    obtain ⟨-, h₂⟩ := hop '<' (by decide) (fun _ => rfl) rfl
    change operator '<' '<' (peek r 0) .lt (some .shl) (some .lteq) (some .shleq) = _
    exact if_neg fun h => h₂ rfl h.2.2
  case minus =>
    have hg' : (headIs (· == '>') r || growsOp '-' .minus r) = false := hg
    rw [Bool.or_eq_false_iff] at hg'
    have h₀ : peek r 0 ≠ '>' := by
      have := headIs_peek (p := (· == '>')) (by decide) r
      rw [hg'.1] at this
      exact beq_eq_false_iff_ne.mp this.symm
    obtain ⟨h₁, h₂⟩ := not_grows (by decide) hg'.2
    change (if peek r 0 = '>' then Start.punct .arrow 2 else
      operator '-' (peek r 0) (peek r 1) .minus (some .dec) (some .minuseq) none) = _
    rw [if_neg h₀]
    exact operator_self (fun _ => h₁ rfl) (fun _ => h₂ rfl)
  case dot =>
    have hdots : ¬ (peek r 0 = '.' ∧ peek r 1 = '.') := by
      have h : dots r = false := hg
      rw [dots_peek] at h
      simpa using h
    have hdigit : (peek r 0).isDigit = false := by
      rw [← headIs_peek (p := Char.isDigit) (by decide) r]
      exact hd rfl
    change (if peek r 0 = '.' ∧ peek r 1 = '.' then Start.punct .ellip 3 else
      if !(peek r 0).isDigit then Start.punct .dot 1 else Start.number) = _
    rw [if_neg hdots, hdigit]
    rfl
  all_goals rfl

theorem kOf_spelling {cls : TokenClass} {k : K} (h : kOf cls = some k) : cls.spelling ≠ [] := by
  cases cls <;> cases h <;> exact List.cons_ne_nil _ _

theorem lexToken_punct (libc : Libc F) {s : List Char} {k : K} {n : Nat}
    (h : dispatch (peek s 0) (peek s 1) (peek s 2) = .punct k n) :
    lexToken libc s = .ok (⟨k, .none⟩, s.drop n) := by
  simp only [lexToken, h]

theorem lexToken_operator (libc : Libc F) {cls : TokenClass} {k : K} (hk : kOf cls = some k)
    {r : List Char} (hg : grows cls cls.spelling r = false)
    (hd : cls = .dot → headIs Char.isDigit r = false) :
    lexToken libc (cls.spelling ++ r) = .ok (⟨k, .none⟩, r) := by
  rw [lexToken_punct libc (dispatch_operator hk hg hd), List.drop_left]

theorem classes_ident {c : Char} (h : TokenClass.ident.begins c) : classes c = some .ident :=
  if_pos h

theorem scanText_cons_ident {c : Char} {s : List Char} (h : TokenClass.ident.begins c) :
    scanText (c :: s) = .ok (.ident, (c :: s).takeWhile isIdent, (c :: s).dropWhile isIdent) := by
  simp only [scanText, classes_ident h]

theorem isAlpha_not_isDigit {c : Char} (h : TokenClass.ident.begins c) : c.isDigit = false := by
  cases hd : c.isDigit
  · rfl
  · have hn : TokenClass.number.begins c := hd
    simp only [TokenClass.begins, Bool.or_eq_true, beq_iff_eq] at h hn
    simp only [Char.isAlpha, Char.isUpper, Char.isLower, Char.isDigit, Bool.or_eq_true,
      Bool.and_eq_true, decide_eq_true_eq, ge_iff_le, UInt32.le_iff_toNat_le] at h hn
    rcases h with (h | h) | rfl
    · obtain ⟨h₁, h₂⟩ := h
      obtain ⟨h₃, h₄⟩ := hn
      simp at h₁ h₂ h₃ h₄
      omega
    · obtain ⟨h₁, h₂⟩ := h
      obtain ⟨h₃, h₄⟩ := hn
      simp at h₁ h₂ h₃ h₄
      omega
    · simp at hn

theorem dispatch_ident {c : Char} (h : TokenClass.ident.begins c) (p₁ p₂ : Char) :
    dispatch c p₁ p₂ = .ident :=
  (if_neg (by simp [isAlpha_not_isDigit h])).trans (if_pos h)

theorem lexToken_ident (libc : Libc F) {s t r : List Char} (h : scanText s = .ok (.ident, t, r)) :
    lexToken libc s = .ok (ident t, r) := by
  obtain ⟨c, v, rfl, hb⟩ := spells_cons (scanText_spells h) (scanText_ok h).2
  obtain ⟨rfl, -⟩ := scanText_ok h
  have hs := (scanText_cons_ident (s := v ++ r) hb).symm.trans h
  simp only [Except.ok.injEq, Prod.mk.injEq, true_and] at hs
  have hl : lexToken libc (c :: (v ++ r)) =
      .ok (ident ((c :: (v ++ r)).takeWhile isIdent), (c :: (v ++ r)).dropWhile isIdent) := by
    have hdisp : dispatch (peek (c :: (v ++ r)) 0) (peek (c :: (v ++ r)) 1)
        (peek (c :: (v ++ r)) 2) = .ident := dispatch_ident hb _ _
    simp only [lexToken, hdisp]
  rw [List.cons_append, hl, hs.1, hs.2]

theorem numberLoop_eq : ∀ s : List Char, numberLoop s = scanNumber s
  | [] => rfl
  | [c] => rfl
  | c :: d :: s => by
    have hsign : (d = '+' ∨ d = '-') ↔ (d = '-' ∨ d = '+') := or_comm
    simp only [numberLoop, scanNumber, numberLoop_eq s, numberLoop_eq (d :: s), hsign]

theorem classes_number {c : Char} (h : TokenClass.number.begins c) :
    classes c = some .number := by
  have hn : ¬ TokenClass.ident.begins c := by
    intro hi
    cases (isAlpha_not_isDigit hi).symm.trans h
  exact (if_neg hn).trans (if_pos h)

theorem scanText_cons_number {c : Char} {s : List Char} (h : TokenClass.number.begins c) :
    scanText (c :: s) = .ok (.number, (scanNumber (c :: s)).1, (scanNumber (c :: s)).2) := by
  simp only [scanText, classes_number h]

theorem lexToken_number (libc : Libc F) {s t r : List Char}
    (h : scanText s = .ok (.number, t, r)) : lexToken libc s = (number libc t).map (·, r) := by
  obtain ⟨c, v, rfl, hb⟩ := spells_cons (scanText_spells h) (scanText_ok h).2
  obtain ⟨rfl, -⟩ := scanText_ok h
  have hs := (scanText_cons_number (s := v ++ r) hb).symm.trans h
  simp only [Except.ok.injEq, Prod.mk.injEq, true_and] at hs
  have hdisp : dispatch (peek (c :: (v ++ r)) 0) (peek (c :: (v ++ r)) 1)
      (peek (c :: (v ++ r)) 2) = .number := if_pos hb
  simp only [List.cons_append, lexToken, hdisp, numberLoop_eq, hs]

/-! ### Literals -/

theorem delimit_append {q : Char} : ∀ {s t r : List Char} {esc : Bool},
    delimit q esc s = (t, r, true) → ∀ r', delimit q esc (t ++ r') = (t, r', true)
  | [], t, r, esc, h, r' => by simp [delimit] at h
  | c :: s, t, r, esc, h, r' => by
    simp only [delimit] at h
    split at h
    · simp at h
    · next h₀ =>
      split at h
      · next hq =>
        cases h
        simp only [List.cons_append, List.nil_append, delimit]
        rw [if_neg h₀, if_pos hq]
      · next hq =>
        rcases hrec : delimit q (!esc && c == '\\') s with ⟨t', r₁, closed⟩
        rw [hrec] at h
        cases h
        simp only [List.cons_append, delimit]
        rw [if_neg h₀, if_neg hq, delimit_append hrec r']

theorem delimit_scan {q : Char} : ∀ {s t r : List Char} {esc : Bool},
    delimit q esc s = (t, r, true) → scanQuoted q esc s = some (t, r)
  | [], t, r, esc, h => by simp [delimit] at h
  | c :: s, t, r, esc, h => by
    simp only [delimit] at h
    split at h
    · simp at h
    · split at h
      · next hq =>
        cases h
        rw [scanQuoted, if_pos hq]
      · next hq =>
        rcases hrec : delimit q (!esc && c == '\\') s with ⟨t', r₁, closed⟩
        rw [hrec] at h
        cases h
        rw [scanQuoted, if_neg hq, delimit_scan hrec]
        rfl

theorem classes_quote : classes '"' = some .string := by decide

theorem classes_apostrophe : classes '\'' = some .char := by decide

/-- A character constant that the compiler's lexer passes over is one token of the preprocessor. -/
theorem lexToken_char (libc : Libc F) {s : List Char} {k : Token F} {r : List Char}
    (h : lexToken libc ('\'' :: s) = .ok (k, r)) :
    ∃ t, scanText ('\'' :: s) = .ok (.char, t, r) ∧
      ∀ r', lexToken libc (t ++ r') = .ok (k, r') := by
  have hdisp : ∀ s, dispatch (peek ('\'' :: s) 0) (peek ('\'' :: s) 1)
      (peek ('\'' :: s) 2) = .ccon := fun _ => rfl
  simp only [lexToken, hdisp] at h
  rcases hd : delimit '\'' true ('\'' :: s) with ⟨t, r₀, closed⟩
  rw [hd] at h
  dsimp only at h
  split at h
  · next hc =>
    subst hc
    obtain ⟨k', hk, he⟩ := map_ok.mp h
    cases he
    have hq := delimit_scan hd
    refine ⟨t, ?_, fun r' => ?_⟩
    · simp only [scanText, classes_apostrophe]
      exact terminated_ok.mpr ⟨hq, rfl⟩
    · obtain ⟨c, v, rfl, hb⟩ : ∃ c v, t = c :: v ∧ c = '\'' := by
        obtain ⟨hs, hne⟩ := scanQuoted_split _ hq
        obtain ⟨c, v, rfl⟩ := List.exists_cons_of_ne_nil hne
        exact ⟨c, v, rfl, (List.cons.inj hs).1.symm⟩
      subst hb
      have ha := delimit_append hd r'
      rw [List.cons_append] at ha ⊢
      simp only [lexToken, hdisp, ha, if_true, hk]
      rfl
  · cases h

/-! ### Tokens -/

theorem dispatch_bad {c : Char} (hc : classes c = none ∨ classes c = some .other)
    (hn : c ≠ '\n') (p₁ p₂ : Char) : dispatch c p₁ p₂ = .bad := by
  unfold dispatch
  split
  · next h =>
    have hb := classes_number (c := c) h
    simp [hb] at hc
  · split
    · next h =>
      have hb := classes_ident (c := c) h
      simp [hb] at hc
    · split <;> first | rfl | exact absurd rfl hn | exact absurd hc (by decide)

theorem lexToken_bad (libc : Libc F) {c : Char} (hc : classes c = none ∨ classes c = some .other)
    (hn : c ≠ '\n') (s : List Char) (x : Token F × List Char) :
    lexToken libc (c :: s) ≠ .ok x := by
  have hd : dispatch (peek (c :: s) 0) (peek (c :: s) 1) (peek (c :: s) 2) = .bad :=
    dispatch_bad hc hn _ _
  intro h
  simp [lexToken, hd] at h

theorem begins_classified {cls : TokenClass} {c : Char} (h : cls.begins c) :
    (∃ k, kOf cls = some k) ∨
      cls ∈ [.ident, .number, .char, .string, .space, .other, .hashhash] := by
  cases cls <;> first | exact .inl ⟨_, rfl⟩ | exact .inr (by decide) | cases h

theorem classes_other {c : Char} (h : TokenClass.other.begins c) : classes c = some .other := by
  simp only [TokenClass.begins, Bool.or_eq_true, beq_iff_eq] at h
  rcases h with ((rfl | rfl) | rfl) | rfl <;> decide

/-- At the start of a token of the preprocessor, the compiler's lexer takes that token, and does so
    before any text that does not extend it. -/
theorem lexToken_append (libc : Libc F) {cls : TokenClass} {t r : List Char} {k : Token F}
    {r₁ : List Char} (hs : scanText (t ++ r) = .ok (cls, t, r)) (h₁ : cls ≠ .space)
    (h₂ : cls ≠ .string) (h₃ : cls ≠ .hashhash)
    (hd : cls = .dot → headIs Char.isDigit r = false)
    (hl : lexToken libc (t ++ r) = .ok (k, r₁)) :
    r₁ = r ∧ ∀ r', grows cls t r' = false → (cls = .dot → headIs Char.isDigit r' = false) →
      lexToken libc (t ++ r') = .ok (k, r') := by
  obtain ⟨hself, hg⟩ := scanText_append.mp hs
  have hspell := scanText_spells hself
  obtain ⟨c, v, rfl, hb⟩ := spells_cons hspell (scanText_ok hself).2
  rcases begins_classified hb with ⟨k', hk⟩ | hmem
  · have ht : c :: v = cls.spelling := by
      rw [TokenClass.Spells, if_neg (kOf_spelling hk)] at hspell
      exact hspell
    rw [ht] at hl hg ⊢
    have hop := lexToken_operator libc hk hg hd
    obtain ⟨rfl, rfl⟩ := Prod.mk.inj (Except.ok.inj (hop.symm.trans hl))
    exact ⟨rfl, fun r' hg' hd' => lexToken_operator libc hk hg' hd'⟩
  · simp only [List.mem_cons, List.not_mem_nil, or_false, h₁, h₂, h₃, false_or] at hmem
    rcases hmem with rfl | rfl | rfl | rfl
    · obtain ⟨rfl, rfl⟩ := Prod.mk.inj (Except.ok.inj ((lexToken_ident libc hs).symm.trans hl))
      exact ⟨rfl, fun r' hg' _ => lexToken_ident libc (scanText_append.mpr ⟨hself, hg'⟩)⟩
    · obtain ⟨k', hk, he⟩ := map_ok.mp ((lexToken_number libc hs).symm.trans hl)
      cases he
      refine ⟨rfl, fun r' hg' _ => ?_⟩
      rw [lexToken_number libc (scanText_append.mpr ⟨hself, hg'⟩), hk]
      rfl
    · obtain rfl : c = '\'' := eq_of_beq hb
      obtain ⟨t', ht', hall⟩ := lexToken_char libc hl
      obtain ⟨-, rfl, rfl⟩ : TokenClass.char = .char ∧ '\'' :: v = t' ∧ r = r₁ := by
        simpa using hs.symm.trans ht'
      exact ⟨rfl, fun r' _ _ => hall r'⟩
    · refine absurd hl (lexToken_bad libc (.inr (classes_other hb)) ?_ _ _)
      rintro rfl
      cases hb

theorem isBlank_begins {c : Char} (h : TokenClass.space.begins c) : isBlank c := h

/-- What the compiler's lexer accepts the preprocessor scans. -/
theorem scanText_of_lexToken {libc : Libc F} {c : Char} {s : List Char} {x : Token F × List Char}
    (hb : isBlank c = false) (hn : c ≠ '\n') (h : lexToken libc (c :: s) = .ok x) :
    ∃ cls t r, scanText (c :: s) = .ok (cls, t, r) ∧ cls ≠ .space := by
  suffices hok : ∃ y, scanText (c :: s) = .ok y by
    obtain ⟨⟨cls, t, r⟩, hy⟩ := hok
    refine ⟨cls, t, r, hy, ?_⟩
    rintro rfl
    obtain ⟨d, v, rfl, hd⟩ := spells_cons (scanText_spells hy) (scanText_ok hy).2
    obtain ⟨rfl, -⟩ := List.cons.inj (scanText_ok hy).1
    cases hb.symm.trans hd
  cases hc : classes c with
  | none => exact absurd h (lexToken_bad libc (.inl hc) hn s x)
  | some cls =>
    have hbeg := classes_begins hc
    by_cases hstr : cls = .string
    · subst hstr
      obtain rfl : c = '"' := eq_of_beq hbeg
      have hdisp : dispatch (peek ('"' :: s) 0) (peek ('"' :: s) 1) (peek ('"' :: s) 2) = .strlit :=
        rfl
      simp only [lexToken, hdisp] at h
      rcases hdel : delimit '"' true ('"' :: s) with ⟨t, r, closed⟩
      cases closed
      · have hg : (strlitLoop ('"' :: s).length ('"' :: s)).closed = false := by
          simp only [List.length_cons, strlitLoop, hdel]
          rfl
        rw [hg] at h
        cases h
      · refine ⟨(.string, t, r), ?_⟩
        simp only [scanText, hc]
        exact terminated_ok.mpr ⟨delimit_scan hdel, rfl⟩
    · by_cases hchar : cls = .char
      · subst hchar
        obtain rfl : c = '\'' := eq_of_beq hbeg
        obtain ⟨t, ht, -⟩ := lexToken_char libc (k := x.1) (r := x.2) h
        exact ⟨_, ht⟩
      · cases cls <;> first
          | exact absurd rfl hstr
          | exact absurd rfl hchar
          | (simp only [scanText, hc]; exact ⟨_, rfl⟩)

/-! ### Blanks and groups of literals -/

/-- The white space token of a run of blanks. -/
def blankTokens (b : List Char) : List Cpp.Token :=
  if b = [] then [] else [⟨.space, String.ofList b, 0⟩]

/-- The class of the last token, when blanks come after one of the class. -/
def afterBlanks (cls : TokenClass) (b : List Char) : TokenClass := if b = [] then cls else .space

theorem not_newline_mem {s : List Char} {p : Char → Bool} (h : '\n' ∉ s) :
    '\n' ∉ s.takeWhile p ∧ '\n' ∉ s.dropWhile p :=
  ⟨fun hm => h ((List.takeWhile_prefix p).subset hm),
    fun hm => h ((List.dropWhile_suffix p).subset hm)⟩

theorem isspace_isBlank {s : List Char} (h : '\n' ∉ s) : ∀ c ∈ s.takeWhile isspace, isBlank c := by
  intro c hc
  have hs : isspace c := List.mem_takeWhile_imp hc
  have hne : c ≠ '\n' := by
    rintro rfl
    exact (not_newline_mem h).1 hc
  simp [isBlank, hs, hne]

/-- The tokens of a text are those of what follows its blanks, behind a white space token. -/
theorem inputTokenize_blanks {s : List Char} (h : '\n' ∉ s) {ts : List Cpp.Token}
    (hts : inputTokenize (s.dropWhile isspace) = .ok ts) :
    inputTokenize s = .ok (blankTokens (s.takeWhile isspace) ++ ts) := by
  cases s with
  | nil => simpa [blankTokens] using hts
  | cons c s =>
    cases hc : isspace c
    · rw [List.dropWhile_cons_of_neg (by simp [hc])] at hts
      rw [hts, List.takeWhile_cons_of_neg (by simp [hc])]
      rfl
    · have hb : TokenClass.space.begins c := by
        have hn : c ≠ '\n' := by
          rintro rfl
          exact h (List.mem_cons_self ..)
        simp [TokenClass.begins, hc, hn]
      rw [inputTokenize_scan (tokenScan_ok (scanText_blank hb)), hts]
      simp [blankTokens, hc, Except.map]

theorem tokenSeparate_space (cls : TokenClass) : tokenSeparate cls .space = false := by
  cases cls <;> decide

theorem tokenSeparate_string (cls : TokenClass) : tokenSeparate cls .string = false := by
  cases cls <;> decide

theorem writes_blanks (cls : TokenClass) (b : List Char) (ts : List Cpp.Token) :
    writes (some cls) (blankTokens b ++ ts) = b ++ writes (some (afterBlanks cls b)) ts := by
  unfold blankTokens afterBlanks
  split
  · next h => simp [h]
  · simp [writes, tokenSeparate_space]

/-- Behind a literal or white space a text is written as it stands. -/
theorem writes_head {cls : TokenClass} (hc : cls = .string ∨ cls = .space) {r : List Char}
    {ts : List Cpp.Token} (h : inputTokenize r = .ok ts) :
    (writes (some cls) ts).head? = r.head? := by
  have hsep : ∀ c, tokenSeparate cls c = false := by
    rcases hc with rfl | rfl <;> intro c <;> cases c <;> decide
  by_cases hr : r = []
  · subst hr
    cases h
    rfl
  · obtain ⟨t, r', ts', ht, -, rfl⟩ := inputTokenize_ok h hr
    obtain ⟨⟨c, w, r''⟩, hw, he⟩ := map_ok.mp ht
    cases he
    obtain ⟨rfl, hne⟩ := scanText_ok hw
    obtain ⟨d, v, rfl⟩ := List.exists_cons_of_ne_nil hne
    simp [writes, hsep]

theorem headIs_of_head {p : Char → Bool} {s s' : List Char} (h : s.head? = s'.head?) :
    headIs p s = headIs p s' := by
  cases s <;> cases s' <;> simp_all [headIs]

theorem takeWhile_blanks {b s : List Char} {p : Char → Bool} (hb : ∀ c ∈ b, p c)
    (hs : headIs p s = false) : (b ++ s).takeWhile p = b ∧ (b ++ s).dropWhile p = s := by
  rw [List.takeWhile_append_of_pos hb, List.dropWhile_append_of_pos hb]
  cases s with
  | nil => simp
  | cons c s =>
    have hc : ¬ p c := by simpa [headIs] using hs
    rw [List.takeWhile_cons_of_neg hc, List.dropWhile_cons_of_neg hc, List.append_nil]
    exact ⟨rfl, rfl⟩

theorem headIs_dropWhile {p : Char → Bool} (s : List Char) : headIs p (s.dropWhile p) = false := by
  have h := List.head?_dropWhile_not p s
  cases hs : s.dropWhile p with
  | nil => rfl
  | cons c r =>
    rw [hs] at h
    simpa [headIs] using h

/-- A group of literals is written, and lexed, as it stands: if the text behind it has tokens, so
    has the text from it on, and the group of what is written for these is the same. -/
theorem strlitLoop_writes : ∀ (n : Nat) {s : List Char}, s.length ≤ n → '\n' ∉ s →
    headIs (· == '"') s → (strlitLoop n s).closed →
    ∀ {tsr : List Cpp.Token}, inputTokenize (strlitLoop n s).rest = .ok tsr →
    ∃ ts cls, inputTokenize s = .ok ts ∧ (cls = .string ∨ cls = .space) ∧
      ∀ last, headIs (· == '"') (writes last ts) ∧ ∀ m, (writes last ts).length ≤ m →
        strlitLoop m (writes last ts) =
          { strlitLoop n s with rest := writes (some cls) tsr }
  | 0, s, hl, _, hq, _, _, _ => by
    cases s with
    | nil => cases hq
    | cons c s => simp at hl
  | n + 1, [], _, _, hq, _, _, _ => nomatch hq
  | n + 1, c :: s, hl, hn, hq, hclosed, tsr, htsr => by
    obtain rfl : c = '"' := eq_of_beq hq
    rcases hdel : delimit '"' true ('"' :: s) with ⟨t, r, closed⟩
    have hd : closed = true := by
      cases closed
      · simp [strlitLoop, hdel] at hclosed
      · rfl
    subst hd
    have hscan : scanText ('"' :: s) = .ok (.string, t, r) := by
      simp only [scanText, classes_quote]
      exact terminated_ok.mpr ⟨delimit_scan hdel, rfl⟩
    obtain ⟨hsplit, hne⟩ := scanText_ok hscan
    obtain ⟨e, v, rfl⟩ := List.exists_cons_of_ne_nil hne
    obtain ⟨rfl, hs'⟩ := List.cons.inj hsplit
    have hsv : s = v ++ r := hs'
    have hnr : '\n' ∉ r := by
      rw [hsv] at hn
      simp only [List.mem_cons, List.mem_append, not_or] at hn
      exact hn.2.2
    have hbl := isspace_isBlank hnr
    have hbs : ∀ c ∈ r.takeWhile isspace, isspace c := fun c hc => List.mem_takeWhile_imp hc
    -- what is written behind the first literal, once the tokens of the rest are known
    have hwrites : ∀ (ts' : List Cpp.Token) (last : Option TokenClass),
        writes last (⟨.string, String.ofList ('"' :: v), 0⟩ ::
            (blankTokens (r.takeWhile isspace) ++ ts')) =
          '"' :: v ++ (r.takeWhile isspace ++
            writes (some (afterBlanks .string (r.takeWhile isspace))) ts') := by
      intro ts' last
      have hsep : last.any (tokenSeparate · .string) = false := by
        cases last with
        | none => rfl
        | some c => exact tokenSeparate_string c
      rw [writes, hsep, writes_blanks]
      simp
    have htok : ∀ {ts' : List Cpp.Token}, inputTokenize (r.dropWhile isspace) = .ok ts' →
        inputTokenize ('"' :: s) = .ok (⟨.string, String.ofList ('"' :: v), 0⟩ ::
          (blankTokens (r.takeWhile isspace) ++ ts')) := by
      intro ts' hts'
      rw [inputTokenize_scan (tokenScan_ok hscan), inputTokenize_blanks hnr hts']
      rfl
    have hcls : afterBlanks .string (r.takeWhile isspace) = .string ∨
        afterBlanks .string (r.takeWhile isspace) = .space := by
      unfold afterBlanks
      split
      · exact .inl rfl
      · exact .inr rfl
    have hbehind : ∀ {ts' : List Cpp.Token}, inputTokenize (r.dropWhile isspace) = .ok ts' →
        (r.takeWhile isspace ++
            writes (some (afterBlanks .string (r.takeWhile isspace))) ts').takeWhile isspace =
          r.takeWhile isspace ∧
        (r.takeWhile isspace ++
            writes (some (afterBlanks .string (r.takeWhile isspace))) ts').dropWhile isspace =
          writes (some (afterBlanks .string (r.takeWhile isspace))) ts' := by
      intro ts' hts'
      refine takeWhile_blanks hbs ?_
      rw [headIs_of_head (writes_head hcls hts')]
      exact headIs_dropWhile r
    have hrl : (r.dropWhile isspace).length ≤ n := by
      have h₁ := (List.dropWhile_suffix isspace (l := r)).length_le
      rw [hsv] at hl
      simp only [List.length_cons, List.length_append] at hl
      omega
    by_cases hnext : headIs (· == '"') (r.dropWhile isspace)
    · have hg : strlitLoop (n + 1) ('"' :: s) =
          { strlitLoop n (r.dropWhile isspace) with
            text := '"' :: v ++ r.takeWhile isspace ++
              (strlitLoop n (r.dropWhile isspace)).text } := by
        simp only [strlitLoop, hdel, hnext, if_true]
        rfl
      rw [hg] at hclosed htsr ⊢
      obtain ⟨ts', cls, hts', hc, hall⟩ :=
        strlitLoop_writes n hrl (not_newline_mem hnr).2 hnext hclosed htsr
      refine ⟨_, cls, htok hts', hc, fun last => ?_⟩
      rw [hwrites]
      refine ⟨rfl, fun m hm => ?_⟩
      obtain ⟨hq', hm'⟩ := hall (some (afterBlanks .string (r.takeWhile isspace)))
      obtain _ | m := m
      · simp at hm
      · have hml : (writes (some (afterBlanks .string (r.takeWhile isspace))) ts').length ≤ m := by
          simp only [List.cons_append, List.length_cons, List.length_append] at hm
          omega
        have hbe := hbehind hts'
        simp only [strlitLoop, delimit_append hdel, hbe.1, hbe.2, hq', if_true, hm' m hml]
        rfl
    · have hg : strlitLoop (n + 1) ('"' :: s) =
          { text := '"' :: v, blanks := r.takeWhile isspace, rest := r.dropWhile isspace,
            closed := true } := by
        simp only [strlitLoop, hdel, hnext]
        rfl
      rw [hg] at htsr ⊢
      refine ⟨_, _, htok htsr, hcls, fun last => ?_⟩
      rw [hwrites]
      refine ⟨rfl, fun m hm => ?_⟩
      obtain _ | m := m
      · simp at hm
      · have hbe := hbehind htsr
        have hq' : headIs (· == '"')
            (writes (some (afterBlanks .string (r.takeWhile isspace))) tsr) = false := by
          rw [headIs_of_head (writes_head hcls htsr)]
          simpa using hnext
        simp only [strlitLoop, delimit_append hdel, hbe.1, hbe.2, hq']
        rfl

/-! ### Lines -/

/-- `lex0`, with the text from the start of the token on for the token. -/
def startStep (libc : Libc F) (s : List Char) : Except String (Option (List Char × List Char)) :=
  (lex0 libc s).map (Option.map fun p => (s.dropWhile isBlank, p.2))

/-- The texts from the start of a token on. -/
def starts (libc : Libc F) (s : List Char) : List (List Char) :=
  (drain (startStep libc) (s.length + 1) s).1

/-- The text begins with a period and a digit. -/
def pointDigit (s : List Char) : Bool := peek s 0 == '.' && (peek s 1).isDigit

/-- No token of the text is a number that begins with a period. -/
def NoPointNumber (libc : Libc F) (s : List Char) : Prop :=
  ∀ w ∈ starts libc s, pointDigit w = false

theorem starts_item {libc : Libc F} {s : List Char} {k : Token F} {r : List Char}
    (h : lex0 libc s = .ok (some (k, r))) :
    starts libc s = s.dropWhile isBlank :: starts libc r := by
  have hstep : ∀ s t r, startStep libc s = .ok (some (t, r)) → r.length < s.length := by
    intro s t r hs
    obtain ⟨o, ho, he⟩ := map_ok.mp hs
    obtain ⟨⟨k, r'⟩, rfl, he'⟩ := Option.map_eq_some_iff.mp he
    cases he'
    exact lex0_shorter ho
  have hs : startStep libc s = .ok (some (s.dropWhile isBlank, r)) := by
    rw [startStep, h]
    rfl
  exact congrArg Prod.fst (drain_length hstep hs)

theorem noPointNumber_item {libc : Libc F} {s : List Char} {k : Token F} {r : List Char}
    (h : lex0 libc s = .ok (some (k, r))) :
    NoPointNumber libc s ↔ pointDigit (s.dropWhile isBlank) = false ∧ NoPointNumber libc r := by
  unfold NoPointNumber
  rw [starts_item h, List.forall_mem_cons]

theorem noPointNumber_end {libc : Libc F} {s : List Char} (h : lex0 libc s = .ok none) :
    NoPointNumber libc s := by
  have hs : startStep libc s = .ok none := by
    rw [startStep, h]
    rfl
  unfold NoPointNumber starts
  rw [drain_end hs]
  exact List.forall_mem_nil _

theorem noPointNumber_blanks {libc : Libc F} {b : List Char} (hb : ∀ c ∈ b, isBlank c)
    (s : List Char) : NoPointNumber libc (b ++ s) ↔ NoPointNumber libc s := by
  have hd : (b ++ s).dropWhile isBlank = s.dropWhile isBlank := List.dropWhile_append_of_pos hb
  have hl : lex0 libc (b ++ s) = lex0 libc s := by rw [lex0, lex0, hd]
  cases hs : lex0 libc s with
  | error m =>
    have hstep : ∀ {s}, lex0 libc s = .error m → NoPointNumber libc s := by
      intro s h
      have hs : startStep libc s = .error m := by
        rw [startStep, h]
        rfl
      unfold NoPointNumber starts
      rw [drain_error hs]
      exact List.forall_mem_nil _
    exact iff_of_true (hstep (hl.trans hs)) (hstep hs)
  | ok o =>
    obtain _ | ⟨k, r⟩ := o
    · exact iff_of_true (noPointNumber_end (hl.trans hs)) (noPointNumber_end hs)
    · rw [noPointNumber_item (hl.trans hs), noPointNumber_item hs, hd]

/-- A text whose tokens are these begins with the first of them. -/
theorem tokens_cons {libc : Libc F} {c : Char} {s : List Char} (hb : isBlank c = false)
    {ks : List (Token F)} (h : tokens libc (c :: s) = (ks, none)) :
    ∃ k r ks', lexToken libc (c :: s) = .ok (k, r) ∧ lex0 libc (c :: s) = .ok (some (k, r)) ∧
      tokens libc r = (ks', none) ∧ ks = k :: ks' := by
  have hd : (c :: s).dropWhile isBlank = c :: s := List.dropWhile_cons_of_neg (by simp [hb])
  have hl : lex0 libc (c :: s) = (lexToken libc (c :: s)).map some := lex0_cons hd
  cases hk : lexToken libc (c :: s) with
  | error m =>
    rw [hk] at hl
    rw [tokens_error hl] at h
    cases h
  | ok p =>
    rw [hk] at hl
    have hl' : lex0 libc (c :: s) = .ok (some (p.1, p.2)) := hl
    rw [tokens_item hl'] at h
    obtain ⟨rfl, he⟩ := Prod.mk.inj h
    exact ⟨p.1, p.2, _, rfl, hl', Prod.ext rfl he, rfl⟩

/-- The tokens of a text that begins with a token of the compiler's. -/
theorem tokens_lexToken {libc : Libc F} {s : List Char} {k : Token F} {r : List Char} (hs : s ≠ [])
    (hb : headIs isBlank s = false) (h : lexToken libc s = .ok (k, r)) :
    tokens libc s = (k :: (tokens libc r).1, (tokens libc r).2) := by
  obtain ⟨c, s, rfl⟩ := List.exists_cons_of_ne_nil hs
  have hd : (c :: s).dropWhile isBlank = c :: s :=
    List.dropWhile_cons_of_neg (by simpa [headIs] using hb)
  refine tokens_item (k := k) (r := r) ?_
  rw [lex0_cons hd, h]
  rfl

/-- A number is no period. -/
theorem number_k {libc : Libc F} {w : List Char} {k : Token F} (h : number libc w = .ok k) :
    k.k ≠ .dot := by
  unfold number at h
  dsimp only at h
  split at h
  · rcases floating_k h with h | h | h <;> rw [h] <;> decide
  · cases h
    simp only [integralClass]
    split
    · decide
    · split
      · split <;> decide
      · split
        · split <;> decide
        · split
          · decide
          · split
            · decide
            · split
              · split <;> decide
              · decide

/-- What follows a scanned token does not extend it when it is written. -/
theorem grows_written {cls : TokenClass} {t r : List Char}
    (h : scanText (t ++ r) = .ok (cls, t, r)) (hc : cls ≠ .space) {ts : List Cpp.Token}
    (hts : inputTokenize r = .ok ts) : grows cls t (writes (some cls) ts) = false := by
  obtain ⟨hself, hg⟩ := scanText_append.mp h
  by_cases hr : r = []
  · subst hr
    cases hts
    exact hg
  · obtain ⟨t', r', ts', ht', -, rfl⟩ := inputTokenize_ok hts hr
    have hself' := inputTokenize_self hts t' (List.mem_cons_self ..)
    obtain ⟨⟨c', w, r''⟩, hw, he⟩ := map_ok.mp ht'
    cases he
    obtain ⟨hrw, -⟩ := scanText_ok hw
    simp only [writes, Option.any_some]
    split
    · exact grows_blank (scanText_spells hself) hc _
    · next hsep =>
      have ht : scanText (⟨cls, String.ofList t, 0⟩ : Cpp.Token).text.toList =
          .ok (cls, (⟨cls, String.ofList t, 0⟩ : Cpp.Token).text.toList, []) := by
        simpa using hself
      have hiff := grows_iff_merges ht (.inl rfl) hself' (.inl rfl) (by simpa using hsep)
      have h₁ := hiff r'
      have h₂ := hiff (writes (some c') ts')
      simp only [String.toList_ofList] at h₁ h₂
      rw [← hrw, hg] at h₁
      rw [← h₁] at h₂
      simpa using h₂

/-- A digit is not written right behind a period. -/
theorem digit_written {r : List Char} {ts : List Cpp.Token} (hts : inputTokenize r = .ok ts) :
    headIs Char.isDigit (writes (some .dot) ts) = false := by
  by_cases hr : r = []
  · subst hr
    cases hts
    rfl
  · obtain ⟨t', r', ts', ht', -, rfl⟩ := inputTokenize_ok hts hr
    have hself' := inputTokenize_self hts t' (List.mem_cons_self ..)
    obtain ⟨d, w, hw, hd⟩ := spells_cons (scanText_spells hself') (scanText_ok hself').2
    simp only [writes, Option.any_some]
    split
    · rfl
    · next hsep =>
      rw [hw]
      cases hdig : d.isDigit
      · exact hdig
      · have hn : t'.cls = .number := by
          have hi : isIdent d := by simp [isIdent, Char.isAlphanum, hdig]
          rcases (begins_isIdent_iff hd).mp hi with h | h
          · rw [h] at hd
            cases (isAlpha_not_isDigit hd).symm.trans hdig
          · exact h
        rw [hn] at hsep
        exact absurd rfl hsep

/-- What `output` writes lexes like what is behind the space before it. -/
theorem tokens_writes_cons (libc : Libc F) (last : Option TokenClass) (t : Cpp.Token)
    (ts : List Cpp.Token) :
    tokens libc (writes last (t :: ts)) =
      tokens libc (t.text.toList ++ writes (some t.cls) ts) := by
  rw [writes]
  split
  · exact tokens_blanks (List.forall_mem_singleton.mpr rfl) _
  · rfl

/-- Only a period before a digit begins a number that begins with a period. -/
theorem not_pointDigit {c : Char} {s t r : List Char} {cls : TokenClass}
    (h : scanText (c :: s) = .ok (cls, t, r)) (hd : cls = .dot → headIs Char.isDigit r = false) :
    pointDigit (c :: s) = false := by
  by_cases hc : c = '.'
  · subst hc
    obtain ⟨hsplit, hne⟩ := scanText_ok h
    obtain ⟨e, v, rfl, hbeg⟩ := spells_cons (scanText_spells h) hne
    obtain ⟨rfl, hv⟩ := List.cons.inj hsplit
    have hspell := scanText_spells h
    rcases begins_period hbeg with rfl | rfl
    · obtain ⟨-, rfl⟩ := List.cons.inj (show '.' :: v = ['.'] from hspell)
      obtain rfl : s = r := hv
      have hdig := headIs_peek (p := Char.isDigit) (by decide) s
      rw [hd rfl] at hdig
      change (true && (peek s 0).isDigit) = false
      rw [← hdig]
      rfl
    · obtain ⟨-, rfl⟩ := List.cons.inj (show '.' :: v = ['.', '.', '.'] from hspell)
      subst hv
      rfl
  · have hne : (c == '.') = false := by simpa using hc
    change (c == '.' && _) = false
    rw [hne]
    rfl

/-- Each `#` is a token of the compiler's. -/
theorem lex0_hash (libc : Libc F) (s : List Char) :
    lex0 libc ('#' :: s) = .ok (some (⟨.hash, .none⟩, s)) := rfl

theorem strlitLoop_blanks : ∀ (n : Nat) (s : List Char), ∀ c ∈ (strlitLoop n s).blanks, isspace c
  | 0, _ => List.forall_mem_nil _
  | n + 1, s => by
    simp only [strlitLoop]
    split
    · exact List.forall_mem_nil _
    · split
      · exact strlitLoop_blanks n _
      · exact fun c hc => List.mem_takeWhile_imp hc

/-- The text from here on is scanned, and what is written for it has the same tokens exactly where
    no number of it begins with a period. -/
def Agrees (libc : Libc F) (s : List Char) (ks : List (Token F)) : Prop :=
  ∃ ts, inputTokenize s = .ok ts ∧
    ∀ last, tokens libc (writes last ts) = (ks, none) ↔ NoPointNumber libc s

theorem cons_tokens (k : Token F) (ks : List (Token F)) (p : List (Token F) × Option String) :
    (k :: p.1, p.2) = (k :: ks, none) ↔ p = (ks, none) := by
  obtain ⟨l, e⟩ := p
  simp

theorem agrees_blanks {libc : Libc F} {s : List Char} {ks : List (Token F)} (hn : '\n' ∉ s)
    (hs : headIs isspace s) (h : Agrees libc (s.dropWhile isspace) ks) : Agrees libc s ks := by
  obtain ⟨ts, hts, hall⟩ := h
  have hbl := isspace_isBlank hn
  have hnp : NoPointNumber libc (s.takeWhile isspace ++ s.dropWhile isspace) ↔
      NoPointNumber libc (s.dropWhile isspace) := noPointNumber_blanks hbl _
  rw [List.takeWhile_append_dropWhile] at hnp
  have hbt : blankTokens (s.takeWhile isspace) =
      [⟨.space, String.ofList (s.takeWhile isspace), 0⟩] := by
    refine if_neg ?_
    cases s with
    | nil => cases hs
    | cons c s =>
      rw [List.takeWhile_cons_of_pos (show isspace c from hs)]
      exact List.cons_ne_nil _ _
  refine ⟨_, inputTokenize_blanks hn hts, fun last => ?_⟩
  rw [hbt, hnp, ← hall (some .space), List.singleton_append, tokens_writes_cons,
    String.toList_ofList, tokens_blanks hbl]

/-- A token of both scanners. -/
theorem agrees_token {libc : Libc F} {cls : TokenClass} {t r r₁ : List Char} {k : Token F}
    {ks : List (Token F)} (hs : scanText (t ++ r) = .ok (cls, t, r)) (hsp : cls ≠ .space)
    (hstr : cls ≠ .string) (hhash : cls ≠ .hashhash)
    (hd : cls = .dot → headIs Char.isDigit r = false) (hb : headIs isBlank t = false)
    (hk : lexToken libc (t ++ r) = .ok (k, r₁)) (h : Agrees libc r ks) :
    Agrees libc (t ++ r) (k :: ks) := by
  obtain ⟨-, hne⟩ := scanText_ok hs
  obtain ⟨c, v, rfl⟩ := List.exists_cons_of_ne_nil hne
  obtain ⟨rfl, hall⟩ := lexToken_append libc hs hsp hstr hhash hd hk
  obtain ⟨ts, hts, hiff⟩ := h
  have hl₀ : lex0 libc (c :: v ++ r₁) = .ok (some (k, r₁)) := by
    rw [List.cons_append] at hk ⊢
    rw [lex0_cons (List.dropWhile_cons_of_neg (by simpa [headIs] using hb)), hk]
    rfl
  have hnp := noPointNumber_item hl₀
  have hpoint : pointDigit (c :: (v ++ r₁)) = false := not_pointDigit hs hd
  rw [List.cons_append, List.dropWhile_cons_of_neg (by simpa [headIs] using hb), hpoint,
    ← List.cons_append, and_iff_right rfl] at hnp
  refine ⟨⟨cls, String.ofList (c :: v), 0⟩ :: ts, ?_, fun last => ?_⟩
  · rw [inputTokenize_scan (tokenScan_ok hs), hts]
    rfl
  · have hX := hall _ (grows_written hs hsp hts) (by rintro rfl; exact digit_written hts)
    have hbl : headIs isBlank (c :: v ++ writes (some cls) ts) = false := hb
    rw [tokens_writes_cons, String.toList_ofList, tokens_lexToken (by simp) hbl hX, cons_tokens,
      hnp, hiff (some cls)]

/-- `##`, two tokens of the compiler's. -/
theorem agrees_hashhash {libc : Libc F} {r : List Char} {ks : List (Token F)}
    (hs : scanText ('#' :: '#' :: r) = .ok (.hashhash, ['#', '#'], r)) (h : Agrees libc r ks) :
    Agrees libc ('#' :: '#' :: r) (⟨.hash, .none⟩ :: ⟨.hash, .none⟩ :: ks) := by
  obtain ⟨ts, hts, hiff⟩ := h
  refine ⟨⟨.hashhash, "##", 0⟩ :: ts, ?_, fun last => ?_⟩
  · rw [inputTokenize_scan (tokenScan_ok hs), hts]
    rfl
  · rw [tokens_writes_cons]
    change tokens libc ('#' :: '#' :: writes (some .hashhash) ts) = _ ↔ _
    rw [tokens_item (lex0_hash libc _), cons_tokens, tokens_item (lex0_hash libc _), cons_tokens,
      noPointNumber_item (lex0_hash libc _), noPointNumber_item (lex0_hash libc _),
      hiff (some .hashhash)]
    exact ⟨fun h => ⟨rfl, rfl, h⟩, fun h => h.2.2⟩

/-- What the lexer goes on with behind a group of literals. -/
theorem lexToken_group {libc : Libc F} {s : List Char} {k : Token F} {r : List Char}
    (hn : '\n' ∉ '"' :: s) (hk : lexToken libc ('"' :: s) = .ok (k, r)) :
    r = (strlitLoop (s.length + 1) ('"' :: s)).blanks ++
        (strlitLoop (s.length + 1) ('"' :: s)).rest ∧
      ∀ c ∈ (strlitLoop (s.length + 1) ('"' :: s)).blanks, isBlank c := by
  have hdisp : dispatch (peek ('"' :: s) 0) (peek ('"' :: s) 1) (peek ('"' :: s) 2) = .strlit := rfl
  constructor
  · simp only [lexToken, hdisp, List.length_cons] at hk
    split at hk
    · obtain ⟨k', -, he⟩ := map_ok.mp hk
      cases he
      rfl
    · cases hk
  · intro c hc
    have hsplit := strlitLoop_split (s.length + 1) ('"' :: s)
    have hs := strlitLoop_blanks _ _ c hc
    have hne : c ≠ '\n' := by
      rintro rfl
      rw [hsplit] at hn
      exact hn (List.mem_append_right _ (List.mem_append_left _ hc))
    simp [isBlank, hs, hne]

/-- A group of literals. -/
theorem agrees_group {libc : Libc F} {s : List Char} {k : Token F} {r : List Char}
    {ks : List (Token F)} (hn : '\n' ∉ '"' :: s) (hk : lexToken libc ('"' :: s) = .ok (k, r))
    (h : Agrees libc (strlitLoop (s.length + 1) ('"' :: s)).rest ks) :
    Agrees libc ('"' :: s) (k :: ks) := by
  have hdisp : ∀ s,
      dispatch (peek ('"' :: s) 0) (peek ('"' :: s) 1) (peek ('"' :: s) 2) = .strlit := fun _ => rfl
  have hl₀ : lex0 libc ('"' :: s) = .ok (some (k, r)) := by
    rw [lex0_cons (List.dropWhile_cons_of_neg (by decide)), hk]
    rfl
  have hbl := (lexToken_group hn hk).2
  simp only [lexToken, hdisp, List.length_cons] at hk
  split at hk
  · next hclosed =>
    obtain ⟨k', hk', he⟩ := map_ok.mp hk
    cases he
    obtain ⟨tsr, htsr, hiff⟩ := h
    obtain ⟨ts, cls, hts, -, hall⟩ :=
      strlitLoop_writes (s.length + 1) (s := '"' :: s) le_rfl hn rfl hclosed htsr
    refine ⟨ts, hts, fun last => ?_⟩
    obtain ⟨hq, hm⟩ := hall last
    obtain ⟨v, hv⟩ : ∃ v, writes last ts = '"' :: v := by
      cases hw : writes last ts with
      | nil =>
        rw [hw] at hq
        cases hq
      | cons c v =>
        rw [hw] at hq
        exact ⟨v, by rw [eq_of_beq hq]⟩
    have hlex : lexToken libc ('"' :: v) =
        .ok (k, (strlitLoop (s.length + 1) ('"' :: s)).blanks ++ writes (some cls) tsr) := by
      have hg := hm (v.length + 1) (by rw [hv]; rfl)
      rw [hv] at hg
      simp only [lexToken, hdisp, List.length_cons, hg, hclosed, if_true, hk']
      rfl
    rw [hv, tokens_lexToken (List.cons_ne_nil _ _) rfl hlex, cons_tokens, tokens_blanks hbl,
      hiff (some cls), noPointNumber_item hl₀, noPointNumber_blanks hbl]
    exact ⟨fun h => ⟨rfl, h⟩, fun h => h.2⟩
  · cases hk

/-- The scanner stops behind a period before a digit. -/
theorem scanText_point {s : List Char} (hd : headIs Char.isDigit s) :
    scanText ('.' :: s) = .ok (.dot, ['.'], s) := by
  have hc : classes '.' = some .dot := by decide
  have hne : dots s = false := by
    obtain _ | ⟨d, _ | ⟨e, s⟩⟩ := s
    · rfl
    · rfl
    · have : (d == '.') = false := by
        simp only [beq_eq_false_iff_ne]
        rintro rfl
        cases hd
      rw [dots, this]
      rfl
  simp only [scanText, hc, scanDot_eq, hne]
  rfl

/-- A period before a digit: the compiler's lexer takes both for a number. -/
theorem agrees_point {libc : Libc F} {s : List Char} {k : Token F} {r : List Char}
    {ks : List (Token F)} (hd : headIs Char.isDigit s)
    (hk : lexToken libc ('.' :: s) = .ok (k, r)) (h : Agrees libc r ks) :
    Agrees libc ('.' :: s) (k :: ks) := by
  obtain ⟨d, s, rfl⟩ : ∃ d s', s = d :: s' := by
    cases s with
    | nil => cases hd
    | cons d s => exact ⟨d, s, rfl⟩
  have hd : d.isDigit = true := hd
  have hdisp : dispatch (peek ('.' :: d :: s) 0) (peek ('.' :: d :: s) 1)
      (peek ('.' :: d :: s) 2) = .number := by
    have hne : ¬ (d = '.' ∧ peek s 0 = '.') := by
      rintro ⟨rfl, -⟩
      cases hd
    change (if d = '.' ∧ peek s 0 = '.' then Start.punct .ellip 3 else
      if !d.isDigit then Start.punct .dot 1 else Start.number) = _
    rw [if_neg hne, hd]
    rfl
  have hl₀ : lex0 libc ('.' :: d :: s) = .ok (some (k, r)) := by
    rw [lex0_cons (List.dropWhile_cons_of_neg (by decide)), hk]
    rfl
  simp only [lexToken, hdisp] at hk
  obtain ⟨k', hk', he⟩ := map_ok.mp hk
  cases he
  have hloop : numberLoop ('.' :: d :: s) =
      ('.' :: (numberLoop (d :: s)).1, (numberLoop (d :: s)).2) := by
    rw [numberLoop, if_pos (by decide), if_neg (fun h => absurd h.1 (by decide))]
  rw [hloop] at h
  obtain ⟨ts, hts, hiff⟩ := h
  have hnum := scanText_cons_number (c := d) (s := s) hd
  rw [← numberLoop_eq] at hnum
  have hdot := scanText_point (s := d :: s) hd
  have hts' : inputTokenize (d :: s) =
      .ok (⟨.number, String.ofList (numberLoop (d :: s)).1, 0⟩ :: ts) := by
    rw [inputTokenize_scan (tokenScan_ok hnum), hts]
    rfl
  refine ⟨⟨.dot, ".", 0⟩ :: ⟨.number, String.ofList (numberLoop (d :: s)).1, 0⟩ :: ts, ?_,
    fun last => ?_⟩
  · rw [inputTokenize_scan (tokenScan_ok hdot), hts']
    rfl
  · have hg : grows .dot TokenClass.dot.spelling (writes (some .dot) _) = false :=
      grows_written hdot (by decide) hts'
    have hop := lexToken_operator libc rfl hg (fun _ => digit_written hts')
    have htok := tokens_lexToken (s := TokenClass.dot.spelling ++ writes (some .dot) _)
      (by simp [TokenClass.spelling]) rfl hop
    have hL : tokens libc (writes last (⟨.dot, ".", 0⟩ ::
        ⟨.number, String.ofList (numberLoop (d :: s)).1, 0⟩ :: ts)) =
          (⟨.dot, .none⟩ :: (tokens libc (writes (some .dot) _)).1,
            (tokens libc (writes (some .dot) _)).2) := (tokens_writes_cons libc last _ _).trans htok
    rw [hL, noPointNumber_item hl₀]
    refine iff_of_false ?_ ?_
    · intro h
      have hk := (List.cons.inj (Prod.mk.inj h).1).1
      exact number_k hk' (by rw [← hk])
    · rintro ⟨hp, -⟩
      change (true && d.isDigit) = false at hp
      rw [hd] at hp
      cases hp

/-- Every line that the compiler's lexer takes. -/
theorem agrees_of_tokens (libc : Libc F) : ∀ (n : Nat) {s : List Char} {ks : List (Token F)},
    s.length ≤ n → '\n' ∉ s → tokens libc s = (ks, none) → Agrees libc s ks
  | _, [], ks, _, _, h => by
    cases h
    exact ⟨[], rfl, fun _ => iff_of_true rfl (noPointNumber_end rfl)⟩
  | 0, _ :: _, _, hl, _, _ => nomatch hl
  | n + 1, c :: s, ks, hl, hn, h => by
    have shorter : ∀ {u v : List Char}, c :: s = u ++ v → u ≠ [] → v.length ≤ n ∧ '\n' ∉ v := by
      intro u v he hu
      have := List.length_pos_iff.mpr hu
      rw [he, List.length_append] at hl
      rw [he, List.mem_append, not_or] at hn
      exact ⟨by omega, hn.2⟩
    have hcn : c ≠ '\n' := by
      rintro rfl
      exact hn (List.mem_cons_self ..)
    cases hb : isspace c
    · have hblank : isBlank c = false := by simp [isBlank, hb]
      obtain ⟨k, r₁, ks', hk, -, hks, rfl⟩ := tokens_cons hblank h
      obtain ⟨cls, t, r, hs, hsp⟩ := scanText_of_lexToken hblank hcn hk
      obtain ⟨hsplit, hne⟩ := scanText_ok hs
      obtain ⟨e, v, rfl, hbeg⟩ := spells_cons (scanText_spells hs) hne
      obtain ⟨rfl, -⟩ := List.cons.inj hsplit
      obtain ⟨hlr, hnr⟩ := shorter hsplit hne
      have hspell := scanText_spells hs
      by_cases hdot : cls = .dot ∧ headIs Char.isDigit r
      · obtain ⟨rfl, hdig⟩ := hdot
        obtain ⟨rfl, rfl⟩ : c = '.' ∧ v = [] := by
          simpa using (show c :: v = ['.'] from hspell)
        obtain rfl : s = r := (List.cons.inj hsplit).2
        obtain ⟨t, ht, he⟩ := lexToken_split hk
        obtain ⟨hl₁, hn₁⟩ := shorter he ht
        exact agrees_point hdig hk (agrees_of_tokens libc n hl₁ hn₁ hks)
      by_cases hhash : cls = .hashhash
      · subst hhash
        obtain ⟨rfl, rfl⟩ : c = '#' ∧ v = ['#'] := by
          simpa using (show c :: v = ['#', '#'] from hspell)
        obtain rfl : s = '#' :: r := (List.cons.inj hsplit).2
        have h₁ := Except.ok.inj ((lexToken_punct libc rfl).symm.trans hk)
        obtain ⟨rfl, rfl⟩ : ⟨.hash, .none⟩ = k ∧ '#' :: r = r₁ := Prod.mk.inj h₁
        obtain ⟨k₂, r₂, ks₂, hk₂, -, hks₂, rfl⟩ := tokens_cons rfl hks
        have h₂ := Except.ok.inj ((lexToken_punct libc rfl).symm.trans hk₂)
        obtain ⟨rfl, rfl⟩ : ⟨.hash, .none⟩ = k₂ ∧ r = r₂ := Prod.mk.inj h₂
        exact agrees_hashhash hs (agrees_of_tokens libc n hlr hnr hks₂)
      by_cases hstr : cls = .string
      · subst hstr
        obtain rfl : c = '"' := eq_of_beq hbeg
        obtain ⟨rfl, hbl⟩ := lexToken_group hn hk
        obtain ⟨hl₁, hn₁⟩ := shorter ((strlitLoop_split (s.length + 1) ('"' :: s)).trans
          (List.append_assoc _ _ _).symm) (by simp [strlitLoop_ne_nil])
        rw [tokens_blanks hbl] at hks
        exact agrees_group hn hk (agrees_of_tokens libc n hl₁ hn₁ hks)
      · have hd : cls = .dot → headIs Char.isDigit r = false := by
          intro hc
          simpa using fun h => hdot ⟨hc, h⟩
        rw [hsplit] at hs hk ⊢
        obtain ⟨rfl, -⟩ := lexToken_append libc hs hsp hstr hhash hd hk
        exact agrees_token hs hsp hstr hhash hd hblank hk (agrees_of_tokens libc n hlr hnr hks)
    · have hsplit : c :: s = (c :: s).takeWhile isspace ++ (c :: s).dropWhile isspace :=
        (List.takeWhile_append_dropWhile ..).symm
      have hne : (c :: s).takeWhile isspace ≠ [] := by
        rw [List.takeWhile_cons_of_pos hb]
        exact List.cons_ne_nil _ _
      obtain ⟨hlr, hnr⟩ := shorter hsplit hne
      have h' : tokens libc ((c :: s).dropWhile isspace) = (ks, none) := by
        rw [← tokens_blanks (isspace_isBlank hn), List.takeWhile_append_dropWhile, h]
      exact agrees_blanks hn hb (agrees_of_tokens libc n hlr hnr h')

/-- What the preprocessor writes for a line without macros: `token_scan` and `output`. -/
def cppLine (s : List Char) : Except String (List Char) := do
  let l ← inputTokenize s
  outputs none l

theorem cppLine_writes {s : List Char} {ts : List Cpp.Token} (h : inputTokenize s = .ok ts) :
    cppLine s = .ok (writes none ts) := by
  have hself := inputTokenize_self h
  have hno : ∀ t ∈ ts, t.text = "" → t.cls = .other := by
    intro t ht he
    have hs := hself t ht
    rw [he] at hs
    cases hs
  have hnt : ∀ t ∈ ts, t.cls.noText = false := by
    intro t ht
    obtain ⟨c, w, -, hb⟩ := spells_cons (scanText_spells (hself t ht)) (scanText_ok (hself t ht)).2
    exact begins_noText hb
  have hw : ts.filter Cpp.Token.written = ts := by
    refine List.filter_eq_self.mpr fun t ht => ?_
    have hne := (scanText_ok (hself t ht)).2
    simp only [Cpp.Token.written, bne_iff_ne]
    rintro he
    rw [he] at hne
    exact hne rfl
  rw [cppLine, h]
  change outputs none ts = _
  rw [outputs_eq_writes hno hnt, hw]

theorem line_agrees {libc : Libc F} {s : List Char} {ks : List (Token F)} (hn : '\n' ∉ s)
    (h : tokens libc s = (ks, none)) :
    (∃ out, cppLine s = .ok out ∧ tokens libc out = (ks, none)) ↔ NoPointNumber libc s := by
  obtain ⟨ts, hts, hall⟩ := agrees_of_tokens libc s.length le_rfl hn h
  rw [cppLine_writes hts, ← hall none]
  constructor
  · rintro ⟨out, ho, ht⟩
    cases ho
    exact ht
  · exact fun ht => ⟨_, rfl, ht⟩

/-! ### The longest token -/

/-- Preprocessing numbers. -/
inductive PPNumber : List Char → Prop
  | digit {c : Char} : c.isDigit → PPNumber [c]
  | point {c : Char} : c.isDigit → PPNumber ['.', c]
  | char {u : List Char} {c : Char} : PPNumber u → isNumber c → PPNumber (u ++ [c])
  | exponent {u : List Char} {e c : Char} :
      PPNumber u → e.toUpper = 'E' → isSign c → PPNumber (u ++ [e, c])

/-- What follows the opening quote of a literal. -/
inductive QuotedRest (q : Char) : List Char → Prop
  | close : QuotedRest q [q]
  | char {c : Char} {u : List Char} : c ≠ q → c ≠ '\\' → QuotedRest q u → QuotedRest q (c :: u)
  | escape {c : Char} {u : List Char} : QuotedRest q u → QuotedRest q ('\\' :: c :: u)

/-- Operators and punctuators. -/
def operators : List (List Char) :=
  ["[", "]", "(", ")", "\x7b", "\x7d", "*", ",", ":", "=", ";", "...", "#", ".", "->", "++", "--",
   "&", "+", "-", "~", "!", "/", "%", "<<", ">>", "<", ">", "<=", ">=", "==", "!=", "^", "|", "&&",
   "||", "?", "*=", "/=", "%=", "+=", "-=", "<<=", ">>=", "&=", "^=", "|=", "##"].map String.toList

/-- The tokens of C as the preprocessor sees them. -/
inductive PPToken : List Char → Prop
  | ident {c : Char} {u : List Char} :
      TokenClass.ident.begins c → (∀ d ∈ u, isIdent d) → PPToken (c :: u)
  | number {u : List Char} : PPNumber u → PPToken u
  | quoted {q : Char} {u : List Char} : q = '"' ∨ q = '\'' → QuotedRest q u → PPToken (q :: u)
  | operator {u : List Char} : u ∈ operators → PPToken u

/-- No token of C at the head of the text is longer. -/
def Longest (s t : List Char) : Prop := ∀ u, u <+: s → PPToken u → u.length ≤ t.length

theorem isNumber_digit {c : Char} (h : c.isDigit) : isNumber c := by
  simp [isNumber, Char.isAlphanum, h]

/-- The loop over a number does not stop before the end of the text. -/
def Passes (u : List Char) : Prop := ∀ v, u <+: (scanNumber (u ++ v)).1

theorem passes_singleton {c : Char} (h : isNumber c) : Passes [c] := by
  intro v
  have hne := scanNumber_ne_nil (s := v) h
  have hsplit := scanNumber_split (c :: v)
  cases hs : (scanNumber (c :: v)).1 with
  | nil => exact absurd hs hne
  | cons d w =>
    rw [hs] at hsplit
    obtain ⟨rfl, -⟩ := List.cons.inj hsplit
    refine ⟨w, ?_⟩
    rw [List.singleton_append, List.singleton_append, hs]

/-- Where the loop stops, it could not go on. -/
theorem scanNumber_stops (s : List Char) :
    headIs isNumber (scanNumber s).2 = false ∧
      (endsInE (scanNumber s).1 && headIs isSign (scanNumber s).2) = false := by
  have h := scanNumber_append (t := (scanNumber s).1) (r := (scanNumber s).2)
  rw [← scanNumber_split s] at h
  exact Bool.or_eq_false_iff.mp (h.mp rfl).2

theorem passes_snoc {u : List Char} {c : Char} (hu : Passes u)
    (hc : isNumber c ∨ endsInE u ∧ isSign c) : Passes (u ++ [c]) := by
  intro v
  rw [List.append_assoc, List.singleton_append]
  obtain ⟨w, hw⟩ := hu (c :: v)
  have hsplit := scanNumber_split (u ++ c :: v)
  obtain ⟨hn, hs⟩ := scanNumber_stops (u ++ c :: v)
  rw [← hw, List.append_assoc] at hsplit
  have hrest := List.append_cancel_left hsplit
  cases w with
  | nil =>
    rw [List.nil_append] at hrest
    rw [← hrest] at hn hs
    rw [← hw, List.append_nil] at hs
    rcases hc with hc | ⟨he, hc⟩
    · cases hn.symm.trans hc
    · rw [he, show headIs isSign (c :: v) = true from hc] at hs
      cases hs
  | cons d w =>
    obtain ⟨rfl, -⟩ := List.cons.inj hrest
    exact ⟨w, by rw [← hw]; simp⟩

theorem isNumber_exponent {e : Char} (h : e.toUpper = 'E') : isNumber e := by
  unfold Char.toUpper at h
  split at h
  · next hl =>
    have hlow : e.isLower = true := by
      simpa [Char.isLower] using hl
    simp [isNumber, Char.isAlphanum, Char.isAlpha, hlow]
  · subst h
    decide

theorem ppNumber_passes {u : List Char} (h : PPNumber u) : Passes u := by
  induction h with
  | digit h => exact passes_singleton (isNumber_digit h)
  | point h => exact passes_snoc (passes_singleton (by decide)) (.inl (isNumber_digit h))
  | char _ hc ih => exact passes_snoc ih (.inl hc)
  | @exponent u e c _ he hs ih =>
    have hu := passes_snoc ih (.inl (isNumber_exponent he))
    have hc := passes_snoc hu (.inr ⟨by simp [endsInE, he], hs⟩)
    rwa [List.append_assoc] at hc

theorem ppNumber_head {u : List Char} (h : PPNumber u) :
    (∃ c v, u = c :: v ∧ c.isDigit) ∨ ∃ c v, u = '.' :: c :: v ∧ c.isDigit := by
  induction h with
  | @digit c h => exact .inl ⟨c, [], rfl, h⟩
  | @point c h => exact .inr ⟨c, [], rfl, h⟩
  | char _ _ ih =>
    rcases ih with ⟨d, v, rfl, hd⟩ | ⟨d, v, rfl, hd⟩
    · exact .inl ⟨d, _, rfl, hd⟩
    · exact .inr ⟨d, _, rfl, hd⟩
  | exponent _ _ _ ih =>
    rcases ih with ⟨d, v, rfl, hd⟩ | ⟨d, v, rfl, hd⟩
    · exact .inl ⟨d, _, rfl, hd⟩
    · exact .inr ⟨d, _, rfl, hd⟩

theorem quotedRest_scan {q : Char} {u : List Char} (hq : q ≠ '\\') (h : QuotedRest q u)
    (v : List Char) : scanQuoted q false (u ++ v) = some (u, v) := by
  induction h with
  | close => simp [scanQuoted]
  | @char c u hc hb _ ih =>
    have hb' : (c == '\\') = false := by simpa using hb
    rw [List.cons_append, scanQuoted, if_neg (fun h => hc h.1), hb']
    simp [ih]
  | @escape c u _ ih =>
    have hstep : scanQuoted q true (c :: (u ++ v)) = some (c :: u, v) := by
      rw [scanQuoted, if_neg (by simp)]
      simp [ih]
    rw [List.cons_append, List.cons_append, scanQuoted, if_neg (fun h => hq h.1.symm)]
    simp [hstep]

theorem headIs_append {p : Char → Bool} {w : List Char} (h : headIs p w) (v : List Char) :
    headIs p (w ++ v) := by
  cases w with
  | nil => cases h
  | cons c w => exact h

theorem grows_of_prefix {cls : TokenClass} {t w : List Char} (h : grows cls t w) (v : List Char) :
    grows cls t (w ++ v) := by
  by_cases hp : cls.plain
  · rw [grows_plain hp] at h ⊢
    exact headIs_append h v
  · cases cls <;> first
      | exact absurd rfl hp
      | exact headIs_append h v
      | skip
    case minus =>
      simp only [grows, Bool.or_eq_true] at h ⊢
      exact h.imp (headIs_append · v) (headIs_append · v)
    case dot =>
      obtain _ | ⟨c, _ | ⟨d, w⟩⟩ := w
      · cases h
      · cases h
      · exact h
    case number =>
      simp only [grows, Bool.or_eq_true, Bool.and_eq_true] at h ⊢
      exact h.imp (headIs_append · v) (And.imp_right (headIs_append · v))

/-- A part of an operator that is a token goes on with the rest of the operator. -/
theorem operators_grow : ∀ u ∈ operators, ∀ n < u.length, ∀ cls ∈ (scanText (u.take n)).toOption,
    cls.2.1 = u.take n → grows cls.1 (u.take n) (u.drop n) := by
  decide

theorem operator_longest {u v t r : List Char} {cls : TokenClass} (hu : u ∈ operators)
    (h : scanText (u ++ v) = .ok (cls, t, r)) : u.length ≤ t.length := by
  by_contra hlt
  obtain ⟨hsplit, hne⟩ := scanText_ok h
  obtain ⟨hself, hg⟩ := scanText_self h
  have htake : u.take t.length = t := by
    have := congrArg (List.take t.length) hsplit
    rwa [List.take_left, List.take_append_of_le_length (by omega)] at this
  have hr : r = u.drop t.length ++ v := by
    have := congrArg (List.drop t.length) hsplit
    rw [List.drop_left, List.drop_append_of_le_length (by omega)] at this
    exact this.symm
  have hgrow := operators_grow u hu t.length (by omega) (cls, t, [])
    (by rw [htake, hself]; rfl) htake.symm
  rw [htake] at hgrow
  rw [hr, grows_of_prefix hgrow v] at hg
  cases hg

/-- The scanner takes the longest token of C but where a period begins a number. -/
theorem scanText_longest {s t r : List Char} {cls : TokenClass}
    (h : scanText s = .ok (cls, t, r)) : Longest s t ↔ pointDigit s = false := by
  constructor
  · intro hl
    cases hp : pointDigit s
    · rfl
    · obtain ⟨d, s, rfl, hd⟩ : ∃ d s', s = '.' :: d :: s' ∧ d.isDigit := by
        obtain _ | ⟨c, _ | ⟨d, s⟩⟩ := s
        · cases hp
        · have hp' : (c == '.' && false) = true := hp
          simp at hp'
        · have hp' : (c == '.' && d.isDigit) = true := hp
          obtain ⟨rfl, hd⟩ : c = '.' ∧ d.isDigit = true := by simpa using hp'
          exact ⟨d, s, rfl, hd⟩
      obtain ⟨-, rfl, -⟩ : TokenClass.dot = cls ∧ ['.'] = t ∧ d :: s = r := by
        simpa using (scanText_point (s := d :: s) hd).symm.trans h
      have := hl ['.', d] ⟨s, rfl⟩ (.number (.point hd))
      simp at this
  · rintro hp u ⟨v, rfl⟩ hu
    cases hu with
    | @ident c u hc hu =>
      rw [List.cons_append, scanText_cons_ident hc] at h
      cases h
      have ht : (c :: (u ++ v)).takeWhile isIdent = c :: u ++ v.takeWhile isIdent := by
        rw [← List.cons_append]
        refine List.takeWhile_append_of_pos ?_
        exact List.forall_mem_cons.mpr ⟨begins_isIdent hc, hu⟩
      rw [ht, List.length_append]
      omega
    | number hu =>
      rcases ppNumber_head hu with ⟨c, w, rfl, hc⟩ | ⟨c, w, rfl, hc⟩
      · have hpre := ppNumber_passes hu v
        rw [List.cons_append, scanText_cons_number hc] at h
        cases h
        exact hpre.length_le
      · have : (true && c.isDigit) = false := hp
        rw [hc] at this
        cases this
    | @quoted q u hq hu =>
      have hscan : scanQuoted q true (q :: (u ++ v)) = some (q :: u, v) := by
        have hne : q ≠ '\\' := by
          rcases hq with rfl | rfl <;> decide
        rw [scanQuoted, if_neg (by simp)]
        simp [quotedRest_scan hne hu]
      rcases hq with rfl | rfl
      · simp only [List.cons_append, scanText, classes_quote, hscan, terminated] at h
        cases h
        exact le_rfl
      · simp only [List.cons_append, scanText, classes_apostrophe, hscan, terminated] at h
        cases h
        exact le_rfl
    | operator hu => exact operator_longest hu h

/-- The scanner takes the longest token of C exactly where no period begins a number, and what is
    written for a line that the compiler's lexer takes has the same tokens exactly where no number
    of the line begins with a period. -/
theorem line_agrees_iff (libc : Libc F) :
    (∀ (s : List Char) (t : Cpp.Token) (r : List Char), tokenScan s = .ok (t, r) →
      (Longest s t.text.toList ↔ pointDigit s = false)) ∧
    ∀ (s : List Char) (ks : List (Token F)), '\n' ∉ s → tokens libc s = (ks, none) →
      ((∃ out, cppLine s = .ok out ∧ tokens libc out = (ks, none)) ↔ NoPointNumber libc s) := by
  refine ⟨fun s t r h => ?_, fun s ks hn h => line_agrees hn h⟩
  obtain ⟨⟨cls, w, r'⟩, hw, he⟩ := map_ok.mp h
  cases he
  rw [String.toList_ofList]
  exact scanText_longest hw

theorem line_agrees_member :
    Longest "->b".toList "->".toList ∧
    ∃ out, cppLine "a.b>>=1.5".toList = .ok out ∧
      tokens wholeText out = ([⟨.ident, .text [97]⟩, ⟨.dot, .none⟩, ⟨.ident, .text [98]⟩,
        ⟨.shreq, .none⟩, ⟨.dcon, .f "1.5".toList⟩], none) :=
  ⟨((line_agrees_iff wholeText).1 "->b".toList ⟨.arrow, "->", 0⟩ ['b'] (by decide)).mpr (by decide),
    ((line_agrees_iff wholeText).2 "a.b>>=1.5".toList _ (by decide) (by decide)).mpr
      (by unfold NoPointNumber; decide)⟩

/-- `.5` is written as `. 5`. -/
theorem line_disagrees_point :
    tokens wholeText ".5".toList = ([⟨.dcon, .f ".5".toList⟩], none) ∧
    cppLine ".5".toList = .ok ". 5".toList ∧
    tokens wholeText ". 5".toList = ([⟨.dot, .none⟩, ⟨.icon, .u 5⟩], none) ∧
    ¬ (∃ out, cppLine ".5".toList = .ok out ∧
      tokens wholeText out = ([⟨.dcon, .f ".5".toList⟩], none)) ∧
    tokenScan ".5".toList = .ok (⟨.dot, ".", 0⟩, ['5']) ∧ ¬ Longest ".5".toList ".".toList := by
  have hout : cppLine ".5".toList = .ok ". 5".toList := by decide
  have htok : tokens wholeText ". 5".toList = ([⟨.dot, .none⟩, ⟨.icon, .u 5⟩], none) := by decide
  refine ⟨by decide, hout, htok, ?_, by decide, ?_⟩
  · rintro ⟨out, ho, ht⟩
    cases hout.symm.trans ho
    exact absurd (htok.symm.trans ht) (by decide)
  · intro hl
    have := hl ['.', '5'] (List.prefix_refl _) (.number (.point (by decide)))
    exact absurd this (by decide)

end Ncc.Lex
