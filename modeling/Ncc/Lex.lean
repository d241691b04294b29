import Ncc.Cpp.Scan
import Ncc.Lib.Drain

/-! The lexer of the compiler (cc1/lex.c), on a text that is all in memory.

    `lex0` looks at three characters to see what begins (`dispatch`), passes over the token and
    converts its text. Past the end of the text stands the NUL that `refill` puts there. The values
    of floating constants are of any type: `strtod` and `strtof` are parameters. -/

namespace Ncc.Lex

open Ncc.Cpp (isspace isIdent isNumber headIs strtoul headUpper map_ok)

/-- `K_*`. -/
inductive K where
  | ident | strlit | icon | ucon | lcon | ulcon | fcon | dcon | ldcon | hash | nl
  | lparen | rparen | lbrack | rbrack | lbrace | rbrace | dot | ellip | xor | comma | colon | semi
  | quest | tilde | arrow | inc | dec | not | div | mul | plus | minus | gt | shr | gteq | shreq
  | lt | shl | lteq | shleq | and | land | andeq | or | lor | oreq | minuseq | pluseq | muleq
  | diveq | eqeq | noteq | mod | modeq | xoreq | eq
  | kwAsm | kwAuto | kwBreak | kwCase | kwChar | kwConst | kwContinue | kwDefault | kwDo | kwDouble
  | kwElse | kwEnum | kwExtern | kwFloat | kwFor | kwGoto | kwIf | kwInt | kwLong | kwRegister
  | kwReturn | kwShort | kwSigned | kwSizeof | kwStatic | kwStruct | kwSwitch | kwTypedef | kwUnion
  | kwUnsigned | kwVoid | kwVolatile | kwWhile
  deriving DecidableEq, Repr

/-- The union of `struct token`. -/
inductive Value (F : Type) where
  | none
  | u (u : BitVec 64)
  | f (f : F)
  | text (s : List Nat)
  deriving DecidableEq, Repr

/-- `struct token`. -/
structure Token (F : Type) where
  k : K
  value : Value F
  deriving DecidableEq, Repr

/-- `keywords`, but for those that are special. -/
def keywords : List (String × K) :=
  [("__asm", .kwAsm), ("auto", .kwAuto), ("break", .kwBreak), ("case", .kwCase),
   ("char", .kwChar), ("const", .kwConst), ("continue", .kwContinue), ("default", .kwDefault),
   ("do", .kwDo), ("double", .kwDouble), ("else", .kwElse), ("enum", .kwEnum),
   ("extern", .kwExtern), ("float", .kwFloat), ("for", .kwFor), ("goto", .kwGoto),
   ("if", .kwIf), ("int", .kwInt), ("long", .kwLong), ("register", .kwRegister),
   ("return", .kwReturn), ("short", .kwShort), ("signed", .kwSigned), ("sizeof", .kwSizeof),
   ("static", .kwStatic), ("struct", .kwStruct), ("switch", .kwSwitch), ("typedef", .kwTypedef),
   ("union", .kwUnion), ("unsigned", .kwUnsigned), ("void", .kwVoid), ("volatile", .kwVolatile),
   ("while", .kwWhile)]

/-- What the character at the cursor begins. -/
inductive Start where
  | punct (k : K) (n : Nat)
  | ccon
  | strlit
  | number
  | ident
  | bad
  deriving DecidableEq, Repr

/-- OPERATOR: the class and the number of characters. -/
def operator (p₀ p₁ p₂ : Char) (self : K) (dup eq dupeq : Option K) : Start :=
  if dupeq.isSome ∧ p₁ = p₀ ∧ p₂ = '=' then .punct (dupeq.getD self) 3
  else if dup.isSome ∧ p₁ = p₀ then .punct (dup.getD self) 2
  else if eq.isSome ∧ p₁ = '=' then .punct (eq.getD self) 2
  else .punct self 1

/-- The switch of `lex0` on `pos[0]`, looking at `pos[1]` and `pos[2]`. -/
def dispatch (p₀ p₁ p₂ : Char) : Start :=
  if p₀.isDigit then .number
  else if p₀.isAlpha || p₀ == '_' then .ident
  else match p₀ with
    | '\n' => .punct .nl 1
    | '#' => .punct .hash 1
    | '?' => .punct .quest 1
    | ':' => .punct .colon 1
    | ';' => .punct .semi 1
    | ',' => .punct .comma 1
    | '(' => .punct .lparen 1
    | ')' => .punct .rparen 1
    | '\x7b' => .punct .lbrace 1
    | '\x7d' => .punct .rbrace 1
    | '[' => .punct .lbrack 1
    | ']' => .punct .rbrack 1
    | '~' => .punct .tilde 1
    | '\'' => .ccon
    | '"' => .strlit
    | '=' => operator p₀ p₁ p₂ .eq (some .eqeq) none none
    | '!' => operator p₀ p₁ p₂ .not none (some .noteq) none
    | '<' => operator p₀ p₁ p₂ .lt (some .shl) (some .lteq) (some .shleq)
    | '>' => operator p₀ p₁ p₂ .gt (some .shr) (some .gteq) (some .shreq)
    | '^' => operator p₀ p₁ p₂ .xor none (some .xoreq) none
    | '|' => operator p₀ p₁ p₂ .or (some .lor) (some .oreq) none
    | '&' => operator p₀ p₁ p₂ .and (some .land) (some .andeq) none
    | '*' => operator p₀ p₁ p₂ .mul none (some .muleq) none
    | '/' => operator p₀ p₁ p₂ .div none (some .diveq) none
    | '%' => operator p₀ p₁ p₂ .mod none (some .modeq) none
    | '+' => operator p₀ p₁ p₂ .plus (some .inc) (some .pluseq) none
    | '-' =>
      if p₁ = '>' then .punct .arrow 2
      else operator p₀ p₁ p₂ .minus (some .dec) (some .minuseq) none
    | '.' =>
      if p₁ = '.' ∧ p₂ = '.' then .punct .ellip 3
      else if !p₁.isDigit then .punct .dot 1
      else .number
    | _ => .bad

/-- The loop of `delimit`: the characters passed over, what follows, and whether the delimiter was
    found. It starts at the opening one as if that were escaped. -/
def delimit (delimiter : Char) : Bool → List Char → List Char × List Char × Bool
  | _, [] => ([], [], false)
  | escaped, c :: cs =>
    if c = '\x00' then ([], c :: cs, false)
    else if c = delimiter ∧ !escaped then ([c], cs, true)
    else
      let (t, r, closed) := delimit delimiter (!escaped && c == '\\') cs
      (c :: t, r, closed)

/-- The loop of `number`. -/
def numberLoop : List Char → List Char × List Char
  | [] => ([], [])
  | [c] => if isNumber c then ([c], []) else ([], [c])
  | c :: d :: cs =>
    if isNumber c then
      if c.toUpper = 'E' ∧ (d = '+' ∨ d = '-') then
        let (t, r) := numberLoop cs
        (c :: d :: t, r)
      else
        let (t, r) := numberLoop (d :: cs)
        (c :: t, r)
    else ([], c :: d :: cs)

/-- What the first loop of `strlit` passes over: the literals up to the end of the last one, the
    white space behind it, and the rest; `closed` is false where a literal does not end. -/
structure Group where
  text : List Char
  blanks : List Char
  rest : List Char
  closed : Bool
  deriving DecidableEq, Repr

/-- The first loop of `strlit`. Every literal takes a character at least, so the length of the text
    is fuel enough. -/
def strlitLoop : Nat → List Char → Group
  | 0, s => { text := [], blanks := [], rest := s, closed := true }
  | fuel + 1, s =>
    let (t, r, closed) := delimit '"' true s
    if !closed then { text := t, blanks := [], rest := r, closed := false }
    else
      let blanks := r.takeWhile isspace
      let r := r.dropWhile isspace
      if headIs (· == '"') r then
        let g := strlitLoop fuel r
        { g with text := t ++ blanks ++ g.text }
      else { text := t, blanks := blanks, rest := r, closed := true }

/-- `ident`. -/
def ident {F : Type} (w : List Char) : Token F :=
  let text := .text (w.map Char.toNat)
  match keywords.find? (·.1.toList == w) with
  | some (_, k) => ⟨k, text⟩
  | none => ⟨.ident, text⟩

/-- The second loop of `strlit`, from behind the first quote: the bytes of the literals. What it
    skips behind a closing quote it skips behind the opening quote of the next literal too. -/
def strlitBytes : Nat → List Char → Except String (List Nat)
  | 0, _ | _, [] => .ok []
  | fuel + 1, '"' :: cs => strlitBytes fuel (cs.dropWhile isspace)
  | fuel + 1, c :: cs =>
    match Cpp.escape (c :: cs) with
    | none => .error "malformed escape sequence in string literal"
    | some (b, cs) => (strlitBytes fuel cs).map (b :: ·)

/-- `strlit` on the text of the group. -/
def strlit {F : Type} (w : List Char) : Except String (Token F) :=
  (strlitBytes w.length w.tail).map fun s => ⟨.strlit, .text s⟩

/-- `ccon` on the text of the constant. -/
def ccon {F : Type} (w : List Char) : Except String (Token F) :=
  match Cpp.escape w.tail with
  | none => .error "malformed escape sequence in character constant"
  | some (i, cs) =>
    if headIs (· == '\'') cs then .ok ⟨.icon, .u (BitVec.ofNat 64 i)⟩
    else .error "multi-character constant"

/-- The library's conversions: the value, the text at `endptr`, whether `errno` was set. -/
structure Libc (F : Type) where
  strtod : List Char → F × List Char × Bool
  strtof : List Char → F × List Char × Bool

/-- Conversions that take the whole text, which stands for its own value. -/
def wholeText : Libc (List Char) :=
  { strtod := fun w => (w, [], false), strtof := fun w => (w, [], false) }

/-- `if (toupper(*endptr) == c) { flag = 1; ++endptr; }` -/
def suffix (c : Char) (endptr : List Char) : Bool × List Char :=
  if headUpper c endptr then (true, endptr.tail) else (false, endptr)

/-- The class of an integral constant; `octal` is `*begin == '0'`. -/
def integralClass (u : BitVec 64) (isLong isUnsigned octal : Bool) : K :=
  let longMax := 2 ^ 63 - 1
  let uintMax := 2 ^ 32 - 1
  let intMax := 2 ^ 31 - 1
  if isLong && isUnsigned then .ulcon
  else if isLong then if longMax < u.toNat then .ulcon else .lcon
  else if isUnsigned then if uintMax < u.toNat then .ulcon else .ucon
  else if longMax < u.toNat then .ulcon
  else if uintMax < u.toNat then .lcon
  else if intMax < u.toNat then if octal then .ucon else .lcon
  else .icon

/-- `++endptr`; there is nothing to step over at the end. -/
def step : List Char → Option (List Char)
  | [] => none
  | _ :: cs => some cs

/-- `number` from `floating` on: the class, the value, `endptr` and `errno`. -/
def floatingParts {F : Type} (libc : Libc F) (w : List Char) :
    K × F × Option (List Char) × Bool :=
  let (f, endptr, errno) := libc.strtod w
  if headUpper 'L' endptr then (.ldcon, f, step endptr, errno)
  else if headUpper 'F' endptr then
    let (f, endptr, errno') := libc.strtof w
    (.fcon, f, step endptr, errno || errno')
  else (.dcon, f, some endptr, errno)

/-- `number` from `floating` on. -/
def floating {F : Type} (libc : Libc F) (w : List Char) : Except String (Token F) :=
  let (k, f, endptr, errno) := floatingParts libc w
  if endptr ≠ some [] then .error "malformed numeric constant"
  else if errno then .error "floating-point constant out of range"
  else .ok ⟨k, .f f⟩

/-- `number` on the text of the constant. The conversions read no further than that: a constant that
    one of them would read on from (the sign of a binary exponent) is malformed, since `endptr`
    is then not `pos` either way. -/
def number {F : Type} (libc : Libc F) (w : List Char) : Except String (Token F) :=
  let (u, endptr, errno) := strtoul w
  let (unsigned₁, endptr) := suffix 'U' endptr
  let (isLong, endptr) := suffix 'L' endptr
  let (unsigned₂, endptr) := suffix 'U' endptr
  if !endptr.isEmpty || errno then floating libc w
  else .ok ⟨integralClass u isLong (unsigned₁ || unsigned₂) (headIs (· == '0') w), .u u⟩

/-- The blanks that `lex0` skips. -/
def isBlank (c : Char) : Bool := isspace c && c != '\n'

/-- `pos[i]`: past the end of the text stands a NUL. -/
def peek (s : List Char) (i : Nat) : Char := s.getD i '\x00'

/-- `lex0` at the first character of a token: the token and what follows it. -/
def lexToken {F : Type} (libc : Libc F) (s : List Char) : Except String (Token F × List Char) :=
  match dispatch (peek s 0) (peek s 1) (peek s 2) with
  | .punct k n => .ok (⟨k, .none⟩, s.drop n)
  | .ident => .ok (ident (s.takeWhile isIdent), s.dropWhile isIdent)
  | .number => (number libc (numberLoop s).1).map (·, (numberLoop s).2)
  | .ccon =>
    let (t, r, closed) := delimit '\'' true s
    if closed then (ccon t).map (·, r) else .error "unterminated character constant"
  | .strlit =>
    let g := strlitLoop s.length s
    if g.closed then (strlit g.text).map (·, g.blanks ++ g.rest)
    else .error "unterminated string literal"
  | .bad => .error s!"invalid character (ASCII {(peek s 0).toNat % 256})"

/-- `lex0`: the next token and what follows it, or the end of the text. -/
def lex0 {F : Type} (libc : Libc F) (s : List Char) :
    Except String (Option (Token F × List Char)) :=
  match s.dropWhile isBlank with
  | [] => .ok none
  | c :: cs => (lexToken libc (c :: cs)).map some

/-- The tokens of a text, and the error that ended them. -/
def tokens {F : Type} (libc : Libc F) (s : List Char) : List (Token F) × Option String :=
  drain (lex0 libc) (s.length + 1) s

variable {F : Type}

/-! ### What is passed over -/

/-- What a token that begins with the character can be. -/
def Start.Fits (p₀ : Char) : Start → Prop
  | .punct _ n => 0 < n
  | .ccon => p₀ = '\''
  | .strlit => p₀ = '"'
  | .number => isNumber p₀ = true
  | .ident => isIdent p₀ = true
  | .bad => True

theorem operator_fits (p₀ p₁ p₂ : Char) (self : K) (dup eq dupeq : Option K) :
    (operator p₀ p₁ p₂ self dup eq dupeq).Fits p₀ := by
  unfold operator
  split
  · exact Nat.succ_pos 2
  · split
    · exact Nat.succ_pos 1
    · split
      · exact Nat.succ_pos 1
      · exact Nat.one_pos

theorem dispatch_fits (p₀ p₁ p₂ : Char) : (dispatch p₀ p₁ p₂).Fits p₀ := by
  unfold dispatch
  split
  · next h => simp [Start.Fits, isNumber, Char.isAlphanum, h]
  · split
    · next h =>
      simp only [Bool.or_eq_true] at h
      simp only [Start.Fits, isIdent, Char.isAlphanum, Bool.or_eq_true]
      tauto
    · split <;> first
        | exact Nat.one_pos
        | rfl
        | trivial
        | exact operator_fits ..
        | skip
      · split
        · exact Nat.succ_pos 1
        · exact operator_fits ..
      · split
        · exact Nat.succ_pos 2
        · split
          · exact Nat.one_pos
          · rfl

theorem delimit_split (q : Char) : ∀ (s : List Char) (esc : Bool),
    s = (delimit q esc s).1 ++ (delimit q esc s).2.1
  | [], _ => rfl
  | c :: s, esc => by
    simp only [delimit]
    split
    · rfl
    · split
      · rfl
      · exact congrArg (c :: ·) (delimit_split q s _)

theorem delimit_ne_nil {q c : Char} (h : c ≠ '\x00') (s : List Char) (esc : Bool) :
    (delimit q esc (c :: s)).1 ≠ [] := by
  simp only [delimit, if_neg h]
  split <;> simp

theorem numberLoop_split : ∀ s : List Char, s = (numberLoop s).1 ++ (numberLoop s).2
  | [] => rfl
  | [c] => by
    simp only [numberLoop]
    split <;> rfl
  | c :: d :: s => by
    simp only [numberLoop]
    split
    · split
      · exact congrArg (c :: d :: ·) (numberLoop_split s)
      · exact congrArg (c :: ·) (numberLoop_split (d :: s))
    · rfl

theorem numberLoop_ne_nil {c : Char} {s : List Char} (h : isNumber c) :
    (numberLoop (c :: s)).1 ≠ [] := by
  cases s with
  | nil => simp [numberLoop, h]
  | cons d s =>
    simp only [numberLoop, h, if_true]
    split <;> simp

theorem strlitLoop_split : ∀ (n : Nat) (s : List Char),
    s = (strlitLoop n s).text ++ ((strlitLoop n s).blanks ++ (strlitLoop n s).rest)
  | 0, _ => rfl
  | n + 1, s => by
    have hd := delimit_split '"' s true
    have hw := List.takeWhile_append_dropWhile (p := isspace) (l := (delimit '"' true s).2.1)
    simp only [strlitLoop]
    split
    · exact hd
    · split
      · have ih := strlitLoop_split n ((delimit '"' true s).2.1.dropWhile isspace)
        simp only [List.append_assoc, ← ih, hw]
        exact hd
      · simp only [hw]
        exact hd

theorem strlitLoop_ne_nil (n : Nat) (s : List Char) :
    (strlitLoop (n + 1) ('"' :: s)).text ≠ [] := by
  have hd := delimit_ne_nil (q := '"') (c := '"') (by decide) s true
  simp only [strlitLoop]
  split
  · exact hd
  · split <;> simp [hd]

/-- A token takes a character at least. -/
theorem lexToken_split {libc : Libc F} {c : Char} {s : List Char} {k : Token F} {r : List Char}
    (h : lexToken libc (c :: s) = .ok (k, r)) : ∃ t, t ≠ [] ∧ c :: s = t ++ r := by
  have hfits : (dispatch (peek (c :: s) 0) (peek (c :: s) 1) (peek (c :: s) 2)).Fits c :=
    dispatch_fits _ _ _
  unfold lexToken at h
  split at h
  · next k' n hd =>
    rw [hd] at hfits
    cases h
    have hn : n ≠ 0 := Nat.pos_iff_ne_zero.mp hfits
    refine ⟨(c :: s).take n, ?_, (List.take_append_drop n (c :: s)).symm⟩
    simp [hn]
  · next hd =>
    rw [hd] at hfits
    cases h
    refine ⟨_, ?_, (List.takeWhile_append_dropWhile ..).symm⟩
    simp [show isIdent c from hfits]
  · next hd =>
    rw [hd] at hfits
    obtain ⟨k', -, he⟩ := map_ok.mp h
    cases he
    exact ⟨_, numberLoop_ne_nil hfits, numberLoop_split _⟩
  · next hd =>
    rw [hd] at hfits
    obtain rfl : c = '\'' := hfits
    have hsplit := delimit_split '\'' ('\'' :: s) true
    have hne := delimit_ne_nil (q := '\'') (c := '\'') (by decide) s true
    rcases hdel : delimit '\'' true ('\'' :: s) with ⟨t, r₀, closed⟩
    rw [hdel] at h hsplit hne
    dsimp only at h
    split at h
    · obtain ⟨k', -, he⟩ := map_ok.mp h
      cases he
      exact ⟨_, hne, hsplit⟩
    · cases h
  · next hd =>
    rw [hd] at hfits
    obtain rfl : c = '"' := hfits
    dsimp only at h
    split at h
    · obtain ⟨k', -, he⟩ := map_ok.mp h
      cases he
      exact ⟨_, strlitLoop_ne_nil _ _, strlitLoop_split _ _⟩
    · cases h
  · cases h

theorem lexToken_shorter {libc : Libc F} {c : Char} {s : List Char} {k : Token F} {r : List Char}
    (h : lexToken libc (c :: s) = .ok (k, r)) : r.length < (c :: s).length := by
  obtain ⟨t, ht, he⟩ := lexToken_split h
  have := List.length_pos_iff.mpr ht
  rw [he, List.length_append]
  omega

theorem lex0_cons {libc : Libc F} {s : List Char} {c : Char} {cs : List Char}
    (h : s.dropWhile isBlank = c :: cs) : lex0 libc s = (lexToken libc (c :: cs)).map some := by
  rw [lex0, h]

theorem lex0_shorter {libc : Libc F} {s : List Char} {k : Token F} {r : List Char}
    (h : lex0 libc s = .ok (some (k, r))) : r.length < s.length := by
  rcases hs : s.dropWhile isBlank with _ | ⟨c, cs⟩
  · rw [lex0, hs] at h
    cases h
  · rw [lex0_cons hs] at h
    obtain ⟨p, hp, he⟩ := map_ok.mp h
    cases he
    have hl := lexToken_shorter hp
    have hd := (List.dropWhile_suffix isBlank (l := s)).length_le
    rw [hs] at hd
    omega

/-! ### Floating constants -/

theorem floating_k {libc : Libc F} {w : List Char} {k : Token F} (h : floating libc w = .ok k) :
    k.k = .fcon ∨ k.k = .dcon ∨ k.k = .ldcon := by
  have hparts : (floatingParts libc w).1 = .fcon ∨ (floatingParts libc w).1 = .dcon ∨
      (floatingParts libc w).1 = .ldcon := by
    unfold floatingParts
    dsimp only
    split
    · exact .inr (.inr rfl)
    · split
      · exact .inl rfl
      · exact .inr (.inl rfl)
  unfold floating at h
  dsimp only at h
  split at h
  · cases h
  · split at h
    · cases h
    · cases h
      exact hparts

/-! ### The tokens of a text -/

theorem drain_length {α τ : Type} {step : List α → Except String (Option (τ × List α))}
    (hstep : ∀ s t r, step s = .ok (some (t, r)) → r.length < s.length) {s r : List α} {t : τ}
    (h : step s = .ok (some (t, r))) :
    drain step (s.length + 1) s =
      (t :: (drain step (r.length + 1) r).1, (drain step (r.length + 1) r).2) := by
  have hr := hstep s t r h
  have hμ : ∀ s t s', step s = .ok (some (t, s')) → List.length s' < List.length s := hstep
  rw [drain_item h, drain_fuel hμ (n := s.length) (m := r.length + 1) (by omega) (by omega)]

theorem tokens_item {libc : Libc F} {s : List Char} {k : Token F} {r : List Char}
    (h : lex0 libc s = .ok (some (k, r))) :
    tokens libc s = (k :: (tokens libc r).1, (tokens libc r).2) :=
  drain_length (fun _ _ _ => lex0_shorter) h

theorem tokens_end {libc : Libc F} {s : List Char} (h : lex0 libc s = .ok none) :
    tokens libc s = ([], none) := drain_end h _

theorem tokens_error {libc : Libc F} {s : List Char} {m : String} (h : lex0 libc s = .error m) :
    tokens libc s = ([], some m) := drain_error h _

/-- The tokens of a text depend on what follows its leading blanks. -/
theorem tokens_congr {libc : Libc F} {s s' : List Char} (h : lex0 libc s = lex0 libc s') :
    tokens libc s = tokens libc s' := by
  cases hs : lex0 libc s' with
  | error m => rw [tokens_error hs, tokens_error (h.trans hs)]
  | ok o =>
    obtain _ | ⟨k, r⟩ := o
    · rw [tokens_end hs, tokens_end (h.trans hs)]
    · rw [tokens_item hs, tokens_item (h.trans hs)]

theorem tokens_blanks {libc : Libc F} {b : List Char} (hb : ∀ c ∈ b, isBlank c) (s : List Char) :
    tokens libc (b ++ s) = tokens libc s := by
  refine tokens_congr ?_
  rw [lex0, lex0, List.dropWhile_append_of_pos hb]

end Ncc.Lex
