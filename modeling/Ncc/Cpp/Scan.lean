import Ncc.Cpp.Token

/-! The scanner of the preprocessor (cpp/token.c, cpp/input.c).

    A text is the characters before its NUL; a pointer into it is the text from there on. A scan
    gives the class of the token, its text and what follows it. Every loop of `token_scan` passes
    over a maximal run: a text scans as itself, and does so before more text exactly where that does
    not begin with a character the token would go on with (`scanText_append`). -/

namespace Ncc.Cpp

/-- `isspace`. -/
def isspace (c : Char) : Bool :=
  c == ' ' || c == '\t' || c == '\n' || c == '\x0b' || c == '\x0c' || c == '\r'

/-- `isalnum(c) || (c == '_')`. -/
def isIdent (c : Char) : Bool := c.isAlphanum || c == '_'

/-- What a pp-number goes on with. -/
def isNumber (c : Char) : Bool := c.isAlphanum || c == '.' || c == '_'

/-- `classes`: the class that the first character suggests. -/
def classes (c : Char) : Option TokenClass :=
  if c.isAlpha || c == '_' then some .ident
  else if c.isDigit then some .number
  else match c with
    | '\t' | '\x0b' | '\x0c' | '\r' | ' ' => some .space
    | '!' => some .not
    | '"' => some .string
    | '#' => some .hash
    | '$' | '@' | '\\' | '\x60' => some .other
    | '%' => some .mod
    | '&' => some .and
    | '\'' => some .char
    | '(' => some .lparen
    | ')' => some .rparen
    | '*' => some .mul
    | '+' => some .plus
    | ',' => some .comma
    | '-' => some .minus
    | '.' => some .dot
    | '/' => some .div
    | ':' => some .colon
    | ';' => some .semi
    | '<' => some .lt
    | '=' => some .eq
    | '>' => some .gt
    | '?' => some .quest
    | '[' => some .lbrack
    | ']' => some .rbrack
    | '^' => some .xor
    | '\x7b' => some .lbrace
    | '|' => some .or
    | '\x7d' => some .rbrace
    | '~' => some .tilde
    | _ => none

/-- `modifiers[].dup`; the table covers the first classes only. -/
def TokenClass.dup : TokenClass → Option TokenClass
  | .plus => some .inc
  | .minus => some .dec
  | .and => some .andand
  | .or => some .oror
  | .gt => some .shr
  | .lt => some .shl
  | .hash => some .hashhash
  | _ => none

/-- `modifiers[].eq`. -/
def TokenClass.eq' : TokenClass → Option TokenClass
  | .plus => some .pluseq
  | .minus => some .minuseq
  | .mul => some .muleq
  | .div => some .diveq
  | .mod => some .modeq
  | .and => some .andeq
  | .or => some .oreq
  | .xor => some .xoreq
  | .gt => some .gteq
  | .shr => some .shreq
  | .lt => some .lteq
  | .shl => some .shleq
  | .eq => some .eqeq
  | .not => some .noteq
  | _ => none

/-- The loop over a character constant or a string literal, `none` where it meets the NUL. It starts
    at the opening quote as if that were escaped. -/
def scanQuoted (quote : Char) : Bool → List Char → Option (List Char × List Char)
  | _, [] => none
  | esc, c :: cs =>
    if c = quote ∧ !esc then some ([c], cs)
    else (scanQuoted quote (!esc && c == '\\') cs).map fun (t, r) => (c :: t, r)

/-- The loop over a pp-number: an exponent's sign is stepped over with its letter. -/
def scanNumber : List Char → List Char × List Char
  | [] => ([], [])
  | [c] => if isNumber c then ([c], []) else ([], [c])
  | c :: d :: cs =>
    if isNumber c then
      if c.toUpper = 'E' ∧ (d = '-' ∨ d = '+') then
        let (t, r) := scanNumber cs
        (c :: d :: t, r)
      else
        let (t, r) := scanNumber (d :: cs)
        (c :: t, r)
    else ([], c :: d :: cs)

/-- The loop over the modifiers of an operator whose first character is `buf`. -/
def scanModifiers (buf : Char) : TokenClass → List Char → TokenClass × List Char × List Char
  | cls, [] => (cls, [], [])
  | cls, c :: cs =>
    match (if c = buf then cls.dup else none), (if c = '=' then cls.eq' else none) with
    | some cls', _ | none, some cls' =>
      let (cls', t, r) := scanModifiers buf cls' cs
      (cls', c :: t, r)
    | none, none => (cls, [], c :: cs)

/-- The default case. -/
def scanOperator (c : Char) (cls : TokenClass) (cs : List Char) :
    TokenClass × List Char × List Char :=
  let (cls, t, r) := scanModifiers c cls cs
  (cls, c :: t, r)

/-- The case of `-`. -/
def scanMinus (c : Char) : List Char → TokenClass × List Char × List Char
  | '>' :: r => (.arrow, [c, '>'], r)
  | cs => scanOperator c .minus cs

/-- The case of a period. The digit that would begin a number is looked for in the period itself, so
    no number begins here. -/
def scanDot (c : Char) : List Char → TokenClass × List Char × List Char
  | '.' :: '.' :: r => (.ellip, [c, '.', '.'], r)
  | cs =>
    if !c.isDigit then (.dot, [c], cs)
    else
      let (t, r) := scanNumber (c :: cs)
      (.dot, t, r)

/-- The token of a quoted text, or the error at the NUL. -/
def terminated (m : String) (cls : TokenClass) :
    Option (List Char × List Char) → Except String (TokenClass × List Char × List Char)
  | some (t, r) => .ok (cls, t, r)
  | none => .error m

/-- `token_scan` on characters: the class, the text and the rest. -/
def scanText (buf : List Char) : Except String (TokenClass × List Char × List Char) :=
  match buf with
  | [] => .error "invalid character (ASCII 0) in input"
  | c :: cs =>
    match classes c with
    | none => .error s!"invalid character (ASCII {c.toNat % 256}) in input"
    | some .string => terminated "unterminated string literal" .string (scanQuoted c true buf)
    | some .char => terminated "unterminated char constant" .char (scanQuoted c true buf)
    | some .dot => .ok (scanDot c cs)
    | some .number => .ok (.number, (scanNumber buf).1, (scanNumber buf).2)
    | some .space => .ok (.space, buf.takeWhile isspace, buf.dropWhile isspace)
    | some .ident => .ok (.ident, buf.takeWhile isIdent, buf.dropWhile isIdent)
    | some .minus => .ok (scanMinus c cs)
    | some cls => .ok (scanOperator c cls cs)

/-- `token_scan`: the token and the text at `endptr`. -/
def tokenScan (buf : List Char) : Except String (Token × List Char) :=
  (scanText buf).map fun (cls, t, r) => ({ cls := cls, text := String.ofList t }, r)

/-- The loop of `input_tokenize`; a scan passes over a character at least, so the length of the text
    is fuel enough. -/
def tokenizeLoop : Nat → List Char → Except String (List Token)
  | _, [] => .ok []
  | 0, _ :: _ => .ok []
  | fuel + 1, c :: cs => do
    let (t, s) ← tokenScan (c :: cs)
    let l ← tokenizeLoop fuel s
    return t :: l

/-- `input_tokenize`. -/
def inputTokenize (s : List Char) : Except String (List Token) := tokenizeLoop s.length s

/-- TOKEN_NOT_C. -/
def TokenClass.notC : TokenClass → Bool
  | .hash | .hashhash | .stringize | .paste | .other => true
  | _ => false

example : (inputTokenize "a->b>>=.5".toList).toOption.map (·.map (·.cls)) =
    some [.ident, .arrow, .ident, .shreq, .dot, .number] := by decide

/-! ### Maximal runs -/

/-- The first character of the text, if any, is of the kind. -/
def headIs (p : Char → Bool) : List Char → Bool
  | [] => false
  | c :: _ => p c

/-- The text ends in the letter of an exponent. -/
def endsInE (t : List Char) : Bool :=
  match t.getLast? with
  | none => false
  | some c => c.toUpper == 'E'

/-- A sign. -/
def isSign (c : Char) : Bool := c == '-' || c == '+'

/-- An operator that began with `buf` goes on with the text. -/
def growsOp (buf : Char) (cls : TokenClass) : List Char → Bool :=
  headIs fun c => (c == buf && cls.dup.isSome) || (c == '=' && cls.eq'.isSome)

/-- The text begins with two periods. -/
def dots : List Char → Bool
  | c :: d :: _ => c == '.' && d == '.'
  | _ => false

/-- A token of the class and text goes on with what follows it. -/
def grows (cls : TokenClass) (t r : List Char) : Bool :=
  match cls with
  | .ident => headIs isIdent r
  | .space => headIs isspace r
  | .number => headIs isNumber r || (endsInE t && headIs isSign r)
  | .dot => dots r
  | .minus => headIs (· == '>') r || growsOp '-' .minus r
  | cls => growsOp (t.headD ' ') cls r

/-- The text of the static classes that a scan gives. -/
def TokenClass.spelling : TokenClass → List Char
  | .plus => ['+']
  | .minus => ['-']
  | .mul => ['*']
  | .div => ['/']
  | .mod => ['%']
  | .and => ['&']
  | .or => ['|']
  | .xor => ['^']
  | .gt => ['>']
  | .shr => ['>', '>']
  | .lt => ['<']
  | .shl => ['<', '<']
  | .hash => ['#']
  | .eq => ['=']
  | .not => ['!']
  | .lparen => ['(']
  | .rparen => [')']
  | .lbrace => ['\x7b']
  | .rbrace => ['\x7d']
  | .lbrack => ['[']
  | .rbrack => [']']
  | .eqeq => ['=', '=']
  | .noteq => ['!', '=']
  | .inc => ['+', '+']
  | .dec => ['-', '-']
  | .pluseq => ['+', '=']
  | .minuseq => ['-', '=']
  | .muleq => ['*', '=']
  | .diveq => ['/', '=']
  | .modeq => ['%', '=']
  | .andeq => ['&', '=']
  | .andand => ['&', '&']
  | .oreq => ['|', '=']
  | .oror => ['|', '|']
  | .xoreq => ['^', '=']
  | .gteq => ['>', '=']
  | .shreq => ['>', '>', '=']
  | .lteq => ['<', '=']
  | .shleq => ['<', '<', '=']
  | .arrow => ['-', '>']
  | .dot => ['.']
  | .ellip => ['.', '.', '.']
  | .hashhash => ['#', '#']
  | .semi => [';']
  | .colon => [':']
  | .quest => ['?']
  | .tilde => ['~']
  | .comma => [',']
  | _ => []

/-- The characters that a token of the class begins with. -/
def TokenClass.begins (cls : TokenClass) (c : Char) : Bool :=
  match cls with
  | .ident => c.isAlpha || c == '_'
  | .number => c.isDigit
  | .space => isspace c && c != '\n'
  | .string => c == '"'
  | .char => c == '\''
  | .other => c == '$' || c == '@' || c == '\\' || c == '\x60'
  | cls => cls.spelling.head? == some c

theorem classes_begins {c : Char} {cls : TokenClass} (h : classes c = some cls) :
    cls.begins c := by
  unfold classes at h
  split at h
  · next ha => cases h; exact ha
  · split at h
    · next hd => cases h; exact hd
    · split at h <;> cases h <;> rfl

theorem begins_isIdent {c : Char} (h : TokenClass.ident.begins c) : isIdent c := by
  simp only [TokenClass.begins, isIdent, Char.isAlphanum, Bool.or_eq_true] at h ⊢
  tauto

theorem begins_isNumber {c : Char} (h : TokenClass.number.begins c) : isNumber c := by
  simp only [TokenClass.begins, isNumber, Char.isAlphanum, Bool.or_eq_true] at h ⊢
  tauto

theorem begins_isspace {c : Char} (h : TokenClass.space.begins c) : isspace c := by
  simp only [TokenClass.begins, Bool.and_eq_true] at h
  exact h.1

theorem begins_dot {c : Char} (h : TokenClass.dot.begins c) : c = '.' := by
  have hc : (some '.' == some c) = true := h
  exact (by simpa using hc : '.' = c).symm

theorem begins_minus {c : Char} (h : TokenClass.minus.begins c) : c = '-' := by
  have hc : (some '-' == some c) = true := h
  exact (by simpa using hc : '-' = c).symm

theorem takeWhile_append_iff {p : Char → Bool} : ∀ {t r : List Char},
    ((t ++ r).takeWhile p = t ∧ (t ++ r).dropWhile p = r) ↔
      (t.takeWhile p = t ∧ t.dropWhile p = []) ∧ headIs p r = false
  | [], [] => by simp [headIs]
  | [], c :: r => by
    cases h : p c <;> simp [headIs, h]
  | c :: t, r => by
    have ih := @takeWhile_append_iff p t r
    cases h : p c
    · simp [h]
    · simpa [h, List.takeWhile_cons, List.dropWhile_cons] using ih

theorem scanQuoted_append (q : Char) : ∀ {t r : List Char} {esc : Bool},
    scanQuoted q esc (t ++ r) = some (t, r) ↔ scanQuoted q esc t = some (t, [])
  | [], r, esc => by
    cases r with
    | nil => rfl
    | cons c r =>
      have h : ∀ x : Option (List Char × List Char),
          x.map (fun (t, r) => (c :: t, r)) ≠ some ([], c :: r) := by
        intro x
        cases x <;> simp
      simp only [List.nil_append, scanQuoted]
      split
      · simp
      · simp [h]
  | c :: t, r, esc => by
    have ih := @scanQuoted_append q t r (!esc && c == '\\')
    simp only [List.cons_append, scanQuoted]
    split
    · cases t <;> simp
    · constructor
      · intro h
        obtain ⟨p, hp, he⟩ := Option.map_eq_some_iff.mp h
        obtain ⟨rfl, rfl⟩ : p.1 = t ∧ p.2 = r := by simpa using he
        rw [ih.mp hp]
        rfl
      · intro h
        obtain ⟨p, hp, he⟩ := Option.map_eq_some_iff.mp h
        obtain ⟨h1, h2⟩ : p.1 = t ∧ p.2 = [] := by simpa using he
        have hp' : scanQuoted q (!esc && c == '\\') t = some (t, []) := by
          rw [hp, ← h1, ← h2]
        rw [ih.mpr hp']
        rfl

theorem scanNumber_append : ∀ {t r : List Char},
    scanNumber (t ++ r) = (t, r) ↔
      scanNumber t = (t, []) ∧ (headIs isNumber r || (endsInE t && headIs isSign r)) = false
  | [], [] => by simp [scanNumber, headIs]
  | [], [c] => by cases h : isNumber c <;> simp [scanNumber, headIs, h, endsInE]
  | [], c :: d :: r => by
    cases h : isNumber c
    · simp [scanNumber, headIs, h, endsInE]
    · simp only [List.nil_append, scanNumber, h, headIs, if_true]
      split <;> simp
  | [c], [] => by simp [headIs]
  | [c], d :: r => by
    have ih := @scanNumber_append [] (d :: r)
    cases h : isNumber c
    · simp [scanNumber, h]
    · simp only [List.cons_append, List.nil_append, scanNumber, h, if_true, headIs, isSign,
        endsInE, List.getLast?_singleton, Bool.or_eq_false_iff, true_and]
      by_cases hE : c.toUpper = 'E' ∧ (d = '-' ∨ d = '+')
      · rw [if_pos hE]
        obtain ⟨he, hd⟩ := hE
        rcases hd with rfl | rfl <;> simp [he]
      · rw [if_neg hE]
        have hs : (c.toUpper == 'E' && (d == '-' || d == '+')) = false := by
          simpa using hE
        rw [hs]
        simpa [headIs, scanNumber, endsInE, Prod.ext_iff] using ih
  | c :: d :: t, r => by
    have ih₁ := @scanNumber_append t r
    have ih₂ := @scanNumber_append (d :: t) r
    have hlast : t ≠ [] → endsInE (c :: d :: t) = endsInE t := by
      intro ht
      obtain ⟨x, t', rfl⟩ := List.exists_cons_of_ne_nil ht
      simp [endsInE, List.getLast?_cons_cons]
    cases h : isNumber c
    · simp [scanNumber, h]
    · simp only [List.cons_append, scanNumber, h, if_true]
      split
      · next hE =>
        have hends : endsInE (c :: d :: t) = endsInE t := by
          cases t with
          | cons x t => exact hlast (by simp)
          | nil => rcases hE.2 with rfl | rfl <;> rfl
        rw [hends]
        simpa [Prod.ext_iff] using ih₁
      · have hends : endsInE (c :: d :: t) = endsInE (d :: t) := by
          simp [endsInE, List.getLast?_cons_cons]
        rw [hends]
        simpa [Prod.ext_iff] using ih₂

theorem scanModifiers_append (q : Char) {cls' : TokenClass} :
    ∀ {t r : List Char} {cls : TokenClass}, scanModifiers q cls (t ++ r) = (cls', t, r) ↔
      scanModifiers q cls t = (cls', t, []) ∧ growsOp q cls' r = false
  | [], [], cls => by simp [growsOp, headIs]
  | [], c :: r, cls => by
    simp only [List.nil_append, scanModifiers, growsOp, headIs]
    split
    · next h =>
      simp only [Prod.mk.injEq, List.cons_ne_nil, false_and, and_false, false_iff, not_and,
        Bool.not_eq_false, Bool.or_eq_true]
      rintro ⟨rfl, -⟩
      split at h <;> simp_all
    · next h₁ h₂ =>
      simp only [Prod.mk.injEq, List.cons_ne_nil, false_and, and_false, false_iff, not_and,
        Bool.not_eq_false, Bool.or_eq_true]
      rintro ⟨rfl, -⟩
      split at h₂ <;> simp_all
    · next h₁ h₂ =>
      simp only [Prod.mk.injEq, and_true, Bool.or_eq_false_iff]
      constructor
      · rintro rfl
        refine ⟨rfl, ?_, ?_⟩
        · by_cases hq : c = q <;> simp_all
        · by_cases hq : c = '=' <;> simp_all
      · exact fun h => h.1
  | c :: t, r, cls => by
    simp only [List.cons_append, scanModifiers]
    split
    · next cls₁ _ =>
      have ih := @scanModifiers_append q cls' t r cls₁
      simpa [Prod.ext_iff] using ih
    · next cls₁ _ _ =>
      have ih := @scanModifiers_append q cls' t r cls₁
      simpa [Prod.ext_iff] using ih
    · simp


/-- The classes whose token goes on with modifiers only. -/
def TokenClass.plain : TokenClass → Bool
  | .ident | .space | .number | .dot | .minus => false
  | _ => true

theorem grows_plain {cls : TokenClass} (h : cls.plain) (t r : List Char) :
    grows cls t r = growsOp (t.headD ' ') cls r := by
  cases cls <;> first | rfl | cases h

theorem dup_plain {cls cls' : TokenClass} (h : cls.dup = some cls') : cls'.plain := by
  cases cls <;> cases h <;> rfl

theorem eq'_plain {cls cls' : TokenClass} (h : cls.eq' = some cls') : cls'.plain := by
  cases cls <;> cases h <;> rfl

theorem scanModifiers_plain (q : Char) :
    ∀ {s : List Char} {cls cls' : TokenClass} {t r : List Char},
      scanModifiers q cls s = (cls', t, r) → cls' = cls ∧ t = [] ∨ cls'.plain
  | [], cls, cls', t, r, h => by
    simp only [scanModifiers, Prod.mk.injEq] at h
    exact .inl ⟨h.1.symm, h.2.1.symm⟩
  | c :: s, cls, cls', t, r, h => by
    have step : ∀ cls₁ : TokenClass, cls₁.plain →
        (∃ t', scanModifiers q cls₁ s = (cls', t', r)) → cls'.plain := by
      rintro cls₁ hp ⟨t', ht⟩
      rcases scanModifiers_plain q ht with ⟨rfl, -⟩ | h'
      · exact hp
      · exact h'
    simp only [scanModifiers] at h
    split at h
    · next cls₁ h₁ =>
      refine .inr (step cls₁ ?_ ⟨(scanModifiers q cls₁ s).2.1, ?_⟩)
      · split at h₁
        · exact dup_plain h₁
        · cases h₁
      · simp only [Prod.mk.injEq] at h
        ext <;> simp [h]
    · next cls₁ h₁ h₂ =>
      refine .inr (step cls₁ ?_ ⟨(scanModifiers q cls₁ s).2.1, ?_⟩)
      · split at h₂
        · exact eq'_plain h₂
        · cases h₂
      · simp only [Prod.mk.injEq] at h
        ext <;> simp [h]
    · simp only [Prod.mk.injEq] at h
      exact .inl ⟨h.1.symm, h.2.1.symm⟩

theorem scanQuoted_split (q : Char) : ∀ {s t r : List Char} {esc : Bool},
    scanQuoted q esc s = some (t, r) → s = t ++ r ∧ t ≠ []
  | c :: s, t, r, esc, h => by
    simp only [scanQuoted] at h
    split at h
    · obtain ⟨rfl, rfl⟩ : [c] = t ∧ s = r := by simpa using h
      exact ⟨rfl, by simp⟩
    · obtain ⟨⟨t', r'⟩, hp, he⟩ := Option.map_eq_some_iff.mp h
      obtain ⟨rfl, rfl⟩ : c :: t' = t ∧ r' = r := by simpa using he
      exact ⟨congrArg _ (scanQuoted_split q hp).1, by simp⟩

theorem scanNumber_split : ∀ s : List Char, s = (scanNumber s).1 ++ (scanNumber s).2
  | [] => rfl
  | [c] => by
    simp only [scanNumber]
    split <;> rfl
  | c :: d :: s => by
    have ih₁ := scanNumber_split s
    have ih₂ := scanNumber_split (d :: s)
    simp only [scanNumber]
    split
    · split
      · exact congrArg (c :: d :: ·) ih₁
      · exact congrArg (c :: ·) ih₂
    · rfl

theorem scanNumber_ne_nil {c : Char} {s : List Char} (h : isNumber c) :
    (scanNumber (c :: s)).1 ≠ [] := by
  cases s with
  | nil => simp [scanNumber, h]
  | cons d s =>
    simp only [scanNumber, h, if_true]
    split <;> simp

theorem scanModifiers_split (q : Char) : ∀ (s : List Char) (cls : TokenClass),
    s = (scanModifiers q cls s).2.1 ++ (scanModifiers q cls s).2.2
  | [], _ => rfl
  | c :: s, cls => by
    simp only [scanModifiers]
    split
    · next cls₁ _ => exact congrArg (c :: ·) (scanModifiers_split q s cls₁)
    · next cls₁ _ _ => exact congrArg (c :: ·) (scanModifiers_split q s cls₁)
    · rfl


theorem scanOperator_split {c : Char} {cls cls' : TokenClass} {s t r : List Char}
    (h : scanOperator c cls s = (cls', t, r)) : c :: s = t ++ r ∧ t ≠ [] := by
  cases h
  exact ⟨congrArg _ (scanModifiers_split c s cls), by simp⟩

theorem scanMinus_split {c : Char} {cls : TokenClass} {s t r : List Char}
    (h : scanMinus c s = (cls, t, r)) : c :: s = t ++ r ∧ t ≠ [] := by
  unfold scanMinus at h
  split at h
  · cases h
    exact ⟨rfl, by simp⟩
  · exact scanOperator_split h

theorem scanDot_split {cls : TokenClass} {s t r : List Char}
    (h : scanDot '.' s = (cls, t, r)) : '.' :: s = t ++ r ∧ t ≠ [] := by
  unfold scanDot at h
  split at h
  · cases h
    exact ⟨rfl, by simp⟩
  · cases h
    exact ⟨rfl, by simp⟩

theorem terminated_ok {o : Option (List Char × List Char)} {m : String} {cls cls' : TokenClass}
    {t r : List Char} : terminated m cls o = .ok (cls', t, r) ↔ o = some (t, r) ∧ cls = cls' := by
  rcases o with _ | ⟨t', r'⟩
  · simp [terminated]
  · simp only [terminated, Except.ok.injEq, Prod.mk.injEq, Option.some.injEq]
    tauto

/-- A scan splits the text, and passes over a character at least. -/
theorem scanText_ok {s : List Char} {cls : TokenClass} {t r : List Char}
    (h : scanText s = .ok (cls, t, r)) : s = t ++ r ∧ t ≠ [] := by
  cases s with
  | nil => cases h
  | cons c s =>
    simp only [scanText] at h
    split at h
    · cases h
    · exact scanQuoted_split c (terminated_ok.mp h).1
    · exact scanQuoted_split c (terminated_ok.mp h).1
    · next hc =>
      obtain rfl := begins_dot (classes_begins hc)
      exact scanDot_split (Except.ok.inj h)
    · next hc =>
      cases h
      refine ⟨scanNumber_split (c :: s), scanNumber_ne_nil ?_⟩
      exact begins_isNumber (classes_begins hc)
    · next hc =>
      cases h
      refine ⟨(List.takeWhile_append_dropWhile ..).symm, ?_⟩
      simp [begins_isspace (classes_begins hc)]
    · next hc =>
      cases h
      refine ⟨(List.takeWhile_append_dropWhile ..).symm, ?_⟩
      simp [begins_isIdent (classes_begins hc)]
    · next hc =>
      obtain rfl := begins_minus (classes_begins hc)
      exact scanMinus_split (Except.ok.inj h)
    · exact scanOperator_split (Except.ok.inj h)

theorem growsOp_none {cls : TokenClass} (q : Char) (hd : cls.dup = none) (he : cls.eq' = none)
    (r : List Char) : growsOp q cls r = false := by
  cases r <;> simp [growsOp, headIs, hd, he]

theorem scanOperator_append {c : Char} {cls cls' : TokenClass} {t r : List Char} :
    scanOperator c cls (t ++ r) = (cls', c :: t, r) ↔
      scanOperator c cls t = (cls', c :: t, []) ∧ growsOp c cls' r = false := by
  have h := @scanModifiers_append c cls' t r cls
  simp only [scanOperator, Prod.ext_iff, List.cons.injEq, true_and] at h ⊢
  exact h

theorem scanOperator_plain {c : Char} {cls cls' : TokenClass} {s t r : List Char}
    (h : scanOperator c cls s = (cls', c :: t, r)) : cls' = cls ∧ t = [] ∨ cls'.plain := by
  refine scanModifiers_plain c (s := s) (r := r) ?_
  simp only [scanOperator, Prod.ext_iff, List.cons.injEq, true_and] at h ⊢
  exact h

theorem scanMinus_eq (c : Char) (s : List Char) : scanMinus c s =
    if headIs (· == '>') s then (.arrow, [c, '>'], s.tail) else scanOperator c .minus s := by
  unfold scanMinus
  split
  · rfl
  · next h =>
    rw [if_neg]
    cases s with
    | nil => simp [headIs]
    | cons d s =>
      simp only [headIs, beq_iff_eq]
      rintro rfl
      exact h s rfl

theorem scanMinus_append {cls : TokenClass} {t r : List Char} :
    scanMinus '-' (t ++ r) = (cls, '-' :: t, r) ↔
      scanMinus '-' t = (cls, '-' :: t, []) ∧ grows cls ('-' :: t) r = false := by
  rw [scanMinus_eq, scanMinus_eq]
  cases t with
  | nil =>
    cases h : headIs (· == '>') r
    · have ho := @scanOperator_append '-' .minus cls [] r
      rw [if_neg (by simpa using h), if_neg (by simp [headIs]), ho]
      refine and_congr_right fun hm => ?_
      cases hm
      simp [grows, h]
    · rw [if_pos (by simpa using h), if_neg (by simp [headIs])]
      simp only [scanOperator, scanModifiers, Prod.mk.injEq, and_true]
      constructor
      · rintro ⟨-, h', -⟩
        cases h'
      · rintro ⟨rfl, h'⟩
        simp [grows, h] at h'
  | cons d t =>
    cases h : (d == '>')
    · rw [if_neg (by simpa [headIs] using h), if_neg (by simpa [headIs] using h),
        scanOperator_append]
      refine and_congr_right fun hm => ?_
      rcases scanOperator_plain hm with ⟨-, ht⟩ | hp
      · cases ht
      · rw [grows_plain hp, List.headD_cons]
    · rw [if_pos (by simpa [headIs] using h), if_pos (by simpa [headIs] using h)]
      obtain rfl : d = '>' := by simpa using h
      simp only [List.cons_append, List.tail_cons, Prod.mk.injEq, List.cons.injEq, true_and]
      constructor
      · rintro ⟨rfl, rfl, -⟩
        exact ⟨⟨rfl, rfl, rfl⟩, growsOp_none _ rfl rfl r⟩
      · rintro ⟨⟨rfl, rfl, -⟩, -⟩
        exact ⟨rfl, rfl, rfl⟩

theorem scanDot_eq (s : List Char) : scanDot '.' s =
    if dots s then (.ellip, ['.', '.', '.'], s.tail.tail) else (.dot, ['.'], s) := by
  unfold scanDot
  split
  · rfl
  · next h =>
    have hd : dots s = false := by
      cases hs : dots s
      · rfl
      · obtain _ | ⟨c, _ | ⟨d, s⟩⟩ := s
        · cases hs
        · cases hs
        · obtain ⟨rfl, rfl⟩ : c = '.' ∧ d = '.' := by simpa [dots] using hs
          exact absurd rfl (h s)
    rw [hd]
    rfl

theorem scanDot_append {cls : TokenClass} : ∀ {t r : List Char},
    scanDot '.' (t ++ r) = (cls, '.' :: t, r) ↔
      scanDot '.' t = (cls, '.' :: t, []) ∧ grows cls ('.' :: t) r = false
  | [], r => by
    rw [scanDot_eq, scanDot_eq, List.nil_append, if_neg (by decide : ¬ dots [])]
    by_cases h : dots r
    · rw [if_pos h]
      refine ⟨fun h' => by simp at h', ?_⟩
      rintro ⟨h₁, h₂⟩
      cases h₁
      exact absurd (h.symm.trans h₂) (by decide)
    · rw [if_neg h]
      constructor
      · intro h'
        cases h'
        exact ⟨rfl, (by simpa using h : dots r = false)⟩
      · rintro ⟨h', -⟩
        cases h'
        rfl
  | [d], r => by
    rw [scanDot_eq, scanDot_eq]
    constructor
    · intro h
      split at h <;> simp at h
    · rintro ⟨h, -⟩
      simp [dots] at h
  | d :: e :: t, r => by
    rw [scanDot_eq, scanDot_eq]
    by_cases h : dots (d :: e :: t)
    · have h' : dots (d :: e :: t ++ r) := h
      obtain ⟨rfl, rfl⟩ : d = '.' ∧ e = '.' := by simpa [dots] using h
      rw [if_pos h, if_pos h']
      simp only [List.cons_append, List.tail_cons, Prod.mk.injEq, List.cons.injEq, true_and]
      constructor
      · rintro ⟨rfl, rfl, -⟩
        exact ⟨⟨rfl, rfl, rfl⟩, growsOp_none _ rfl rfl r⟩
      · rintro ⟨⟨rfl, rfl, -⟩, -⟩
        exact ⟨rfl, rfl, rfl⟩
    · have h' : ¬ dots (d :: e :: t ++ r) := h
      rw [if_neg h, if_neg h']
      simp

/-- A text that scans whole does so before more text exactly where that cannot extend it. -/
theorem scanText_append {cls : TokenClass} : ∀ {t r : List Char},
    scanText (t ++ r) = .ok (cls, t, r) ↔ scanText t = .ok (cls, t, []) ∧ grows cls t r = false
  | [], r => by
    refine ⟨fun h => absurd rfl (scanText_ok h).2, fun h => nomatch h.1⟩
  | c :: t, r => by
    have hcons : c :: (t ++ r) = (c :: t) ++ r := rfl
    simp only [List.cons_append, scanText]
    split
    · simp
    · simp only [terminated_ok, hcons, scanQuoted_append, and_assoc, and_congr_right_iff]
      rintro -
      refine ⟨?_, And.left⟩
      rintro rfl
      exact ⟨rfl, growsOp_none _ rfl rfl r⟩
    · simp only [terminated_ok, hcons, scanQuoted_append, and_assoc, and_congr_right_iff]
      rintro -
      refine ⟨?_, And.left⟩
      rintro rfl
      exact ⟨rfl, growsOp_none _ rfl rfl r⟩
    · next hc =>
      obtain rfl := begins_dot (classes_begins hc)
      rw [Except.ok.injEq, Except.ok.injEq]
      exact scanDot_append
    · have hn := @scanNumber_append (c :: t) r
      simp only [Except.ok.injEq, Prod.ext_iff] at hn ⊢
      rw [hcons, hn]
      constructor
      · rintro ⟨rfl, h⟩
        exact ⟨⟨rfl, h.1⟩, h.2⟩
      · rintro ⟨⟨rfl, h⟩, hg⟩
        exact ⟨rfl, h, hg⟩
    · have hn := @takeWhile_append_iff isspace (c :: t) r
      simp only [Except.ok.injEq, Prod.mk.injEq]
      rw [hcons, hn]
      constructor
      · rintro ⟨rfl, h⟩
        exact ⟨⟨rfl, h.1⟩, h.2⟩
      · rintro ⟨⟨rfl, h⟩, hg⟩
        exact ⟨rfl, h, hg⟩
    · have hn := @takeWhile_append_iff isIdent (c :: t) r
      simp only [Except.ok.injEq, Prod.mk.injEq]
      rw [hcons, hn]
      constructor
      · rintro ⟨rfl, h⟩
        exact ⟨⟨rfl, h.1⟩, h.2⟩
      · rintro ⟨⟨rfl, h⟩, hg⟩
        exact ⟨rfl, h, hg⟩
    · next hc =>
      obtain rfl := begins_minus (classes_begins hc)
      rw [Except.ok.injEq, Except.ok.injEq]
      exact scanMinus_append
    · next cls₀ h₁ h₂ h₃ h₄ h₅ h₆ h₇ hc =>
      have hplain : cls₀.plain := by
        cases cls₀ <;> first | rfl | contradiction
      rw [Except.ok.injEq, Except.ok.injEq, scanOperator_append]
      refine and_congr_right fun h => ?_
      have hp : cls.plain := by
        rcases scanOperator_plain h with ⟨rfl, -⟩ | hp
        · exact hplain
        · exact hp
      rw [grows_plain hp, List.headD_cons]

theorem dup_spelling {cls cls' : TokenClass} (h : cls.dup = some cls') :
    cls'.spelling = cls.spelling ++ [cls.spelling.headD ' '] := by
  cases cls <;> cases h <;> rfl

theorem eq'_spelling {cls cls' : TokenClass} (h : cls.eq' = some cls') :
    cls'.spelling = cls.spelling ++ ['='] := by
  cases cls <;> cases h <;> rfl

theorem dup_spelling_head {cls cls' : TokenClass} (h : cls.dup = some cls') :
    cls'.spelling.headD ' ' = cls.spelling.headD ' ' := by
  cases cls <;> cases h <;> rfl

theorem eq'_spelling_head {cls cls' : TokenClass} (h : cls.eq' = some cls') :
    cls'.spelling.headD ' ' = cls.spelling.headD ' ' := by
  cases cls <;> cases h <;> rfl

/-- The modifiers passed over are what the spelling gains. -/
theorem scanModifiers_spelling : ∀ (s : List Char) (cls : TokenClass),
    (scanModifiers (cls.spelling.headD ' ') cls s).1.spelling =
      cls.spelling ++ (scanModifiers (cls.spelling.headD ' ') cls s).2.1
  | [], cls => (List.append_nil _).symm
  | c :: s, cls => by
    simp only [scanModifiers]
    split
    · next cls₁ h =>
      split at h
      · next hc =>
        have ih := scanModifiers_spelling s cls₁
        rw [dup_spelling_head h] at ih
        rw [ih, dup_spelling h, hc, List.append_assoc]
        rfl
      · cases h
    · next cls₁ _ h =>
      split at h
      · next hc =>
        have ih := scanModifiers_spelling s cls₁
        rw [eq'_spelling_head h] at ih
        rw [ih, eq'_spelling h, hc, List.append_assoc]
        rfl
      · cases h
    · exact (List.append_nil _).symm

theorem scanOperator_spelling {c : Char} {cls cls' : TokenClass} {s t r : List Char}
    (hc : cls.spelling = [c]) (h : scanOperator c cls s = (cls', t, r)) : cls'.spelling = t := by
  have hs := scanModifiers_spelling s cls
  rw [hc, List.headD_cons] at hs
  cases h
  exact hs

/-- Either the class has one spelling, which is the text, or its tokens are known by their first
    character. -/
def TokenClass.Spells (cls : TokenClass) (t : List Char) : Prop :=
  if cls.spelling = [] then headIs cls.begins t = true else t = cls.spelling

theorem spells_of_spelling {cls : TokenClass} {t : List Char} (h : cls.spelling = t) (ht : t ≠ []) :
    cls.Spells t := by
  rw [TokenClass.Spells, if_neg (h ▸ ht)]
  exact h.symm

theorem classes_spelling {c : Char} {cls : TokenClass} (h : classes c = some cls) :
    cls.spelling = [c] ∨ cls ∈ [.ident, .number, .space, .string, .char, .other] := by
  unfold classes at h
  split at h
  · cases h; exact .inr (by decide)
  · split at h
    · cases h; exact .inr (by decide)
    · split at h <;> cases h <;> first | exact .inl rfl | exact .inr (by decide)

theorem spells_of_begins {cls : TokenClass} {c : Char} {s t r : List Char} (hc : cls.begins c)
    (hs : cls.spelling = []) (h : c :: s = t ++ r ∧ t ≠ []) : cls.Spells t := by
  rw [TokenClass.Spells, if_pos hs]
  obtain ⟨d, t, rfl⟩ := List.exists_cons_of_ne_nil h.2
  obtain ⟨rfl, -⟩ := List.cons.inj h.1
  exact hc

theorem scanOperator_other (c : Char) (s : List Char) :
    scanOperator c .other s = (.other, [c], s) := by
  cases s <;> simp [scanOperator, scanModifiers, TokenClass.dup, TokenClass.eq']

theorem scanText_spells {s : List Char} {cls : TokenClass} {t r : List Char}
    (h : scanText s = .ok (cls, t, r)) : cls.Spells t := by
  have hok := scanText_ok h
  cases s with
  | nil => cases h
  | cons c s =>
    simp only [scanText] at h
    split at h
    · cases h
    · next hc =>
      obtain ⟨-, rfl⟩ := terminated_ok.mp h
      exact spells_of_begins (classes_begins hc) rfl hok
    · next hc =>
      obtain ⟨-, rfl⟩ := terminated_ok.mp h
      exact spells_of_begins (classes_begins hc) rfl hok
    · next hc =>
      obtain rfl := begins_dot (classes_begins hc)
      rw [scanDot_eq] at h
      split at h <;> cases h <;> rfl
    · next hc =>
      cases h
      exact spells_of_begins (classes_begins hc) rfl hok
    · next hc =>
      cases h
      exact spells_of_begins (classes_begins hc) rfl hok
    · next hc =>
      cases h
      exact spells_of_begins (classes_begins hc) rfl hok
    · next hc =>
      obtain rfl := begins_minus (classes_begins hc)
      rw [scanMinus_eq] at h
      split at h
      · cases h; rfl
      · exact spells_of_spelling (scanOperator_spelling rfl (Except.ok.inj h)) hok.2
    · next cls₀ h₁ h₂ h₃ h₄ h₅ h₆ h₇ hc =>
      rcases classes_spelling hc with hs | hs
      · exact spells_of_spelling (scanOperator_spelling hs (Except.ok.inj h)) hok.2
      · obtain rfl : cls₀ = .other := by
          simp only [List.mem_cons, List.not_mem_nil, or_false] at hs
          tauto
        obtain rfl : cls = .other := by
          rw [scanOperator_other] at h
          cases h
          rfl
        exact spells_of_begins (classes_begins hc) rfl hok

/-- What is scanned scans as itself, and what follows could not extend it. -/
theorem scanText_self {s : List Char} {cls : TokenClass} {t r : List Char}
    (h : scanText s = .ok (cls, t, r)) : scanText t = .ok (cls, t, []) ∧ grows cls t r = false := by
  rw [(scanText_ok h).1] at h
  exact scanText_append.mp h

/-! ### Tokenizing -/

theorem tokenScan_shorter {s : List Char} {t : Token} {r : List Char}
    (h : tokenScan s = .ok (t, r)) : r.length < s.length := by
  obtain ⟨⟨cls, w, r'⟩, hs, he⟩ := map_ok.mp h
  cases he
  obtain ⟨rfl, hw⟩ := scanText_ok hs
  have := List.length_pos_iff.mpr hw
  simp only [List.length_append]
  omega

theorem tokenizeLoop_succ : ∀ (n : Nat) (s : List Char), s.length ≤ n →
    tokenizeLoop (n + 1) s = tokenizeLoop n s
  | _, [], _ => by simp [tokenizeLoop]
  | 0, _ :: _, h => by simp at h
  | n + 1, c :: s, h => by
    have ih : ∀ p, tokenScan (c :: s) = .ok p → tokenizeLoop (n + 1) p.2 = tokenizeLoop n p.2 := by
      intro p hp
      have := tokenScan_shorter hp
      exact tokenizeLoop_succ n p.2 (by omega)
    rw [tokenizeLoop, tokenizeLoop]
    cases hs : tokenScan (c :: s) with
    | error m => rfl
    | ok p =>
      change (tokenizeLoop (n + 1) p.2 >>= _) = (tokenizeLoop n p.2 >>= _)
      rw [ih p hs]

theorem tokenizeLoop_eq {n : Nat} {s : List Char} (h : s.length ≤ n) :
    tokenizeLoop n s = inputTokenize s := by
  induction n, h using Nat.le_induction with
  | base => rfl
  | succ n hn ih => rw [tokenizeLoop_succ n s hn, ih]

@[simp] theorem inputTokenize_nil : inputTokenize [] = .ok [] := rfl

/-- The first token, and the tokens of what follows it. -/
theorem inputTokenize_scan {s : List Char} {t : Token} {r : List Char}
    (h : tokenScan s = .ok (t, r)) : inputTokenize s = (inputTokenize r).map (t :: ·) := by
  have hl := tokenScan_shorter h
  cases s with
  | nil => cases h
  | cons c s =>
    have hr : r.length ≤ s.length := by
      simp only [List.length_cons] at hl
      omega
    rw [inputTokenize, List.length_cons, tokenizeLoop, h]
    change (tokenizeLoop s.length r >>= _) = _
    rw [tokenizeLoop_eq hr]
    cases inputTokenize r <;> rfl

theorem inputTokenize_error {s : List Char} {m : String} (h : tokenScan s = .error m)
    (hs : s ≠ []) : inputTokenize s = .error m := by
  obtain ⟨c, s, rfl⟩ := List.exists_cons_of_ne_nil hs
  rw [inputTokenize, List.length_cons, tokenizeLoop, h]
  rfl

/-- The tokens of a text that is not empty begin with one that scans from its start. -/
theorem inputTokenize_ok {s : List Char} {l : List Token} (h : inputTokenize s = .ok l)
    (hs : s ≠ []) :
    ∃ t r l', tokenScan s = .ok (t, r) ∧ inputTokenize r = .ok l' ∧ l = t :: l' := by
  cases ht : tokenScan s with
  | error m =>
    rw [inputTokenize_error ht hs] at h
    cases h
  | ok p =>
    rw [inputTokenize_scan ht] at h
    obtain ⟨l', hl, rfl⟩ := map_ok.mp h
    exact ⟨p.1, p.2, l', rfl, hl, rfl⟩

end Ncc.Cpp
