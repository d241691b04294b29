import Mathlib

/-! Preprocessor tokens and token lists (cpp/token.c, common/escape.c).

    A token is a class and either a text or a 64-bit number (`union u`: `i` and `u` are readings of
    the same bits). A doubly linked list of tokens is a `List`; a pointer into it is the list from
    that token on. Every error ends the preprocessor, so fallible functions return its message. -/

namespace Ncc.Cpp

/-- `token_class`, the ordinal values only: flags and precedence are functions of them. -/
inductive TokenClass where
  | plus | minus | mul | div | mod | and | or | xor | gt | shr | lt | shl | hash | eq | not
  | lparen | rparen | lbrace | rbrace | lbrack | rbrack | eqeq | noteq | inc | dec
  | pluseq | minuseq | muleq | diveq | modeq | andeq | andand | oreq | oror | xoreq
  | gteq | shreq | lteq | shleq | arrow | dot | ellip | hashhash | semi | colon | quest | tilde
  | comma | space | ident | inertIdent | number | string | char | stringize | paste
  | int | uint | arg | other
  deriving DecidableEq, Repr

/-- TOKEN_PREC_*, by rank: TOKEN_PREC_NONE is 0, TOKEN_PREC_MUL is 1, TOKEN_PREC_LOR is 10. -/
def TokenClass.prec : TokenClass → Nat
  | .mul | .div | .mod => 1
  | .plus | .minus => 2
  | .shl | .shr => 3
  | .lt | .lteq | .gt | .gteq => 4
  | .eqeq | .noteq => 5
  | .and => 6
  | .xor => 7
  | .or => 8
  | .andand => 9
  | .oror => 10
  | _ => 0

/-- TOKEN_NO_TEXT. -/
def TokenClass.noText : TokenClass → Bool
  | .int | .uint | .arg => true
  | _ => false

/-- TOKEN_STATIC. -/
def TokenClass.isStatic : TokenClass → Bool
  | .space | .ident | .inertIdent | .number | .string | .char => false
  | .int | .uint | .arg | .other => false
  | _ => true

/-- `struct token`. The number of a token with a text is 0, the text of one without is empty. -/
structure Token where
  cls : TokenClass
  text : String := ""
  i : BitVec 64 := 0
  deriving DecidableEq, Repr

/-- `token_int`. -/
def tokenInt (i : BitVec 64) : Token := { cls := .int, i := i }

/-- `token_same`. -/
def tokenSame (t₁ t₂ : Token) : Bool :=
  t₁.cls == t₂.cls &&
    (t₁.cls.isStatic || if t₁.cls.noText then t₁.i == t₂.i else t₁.text == t₂.text)

/-- The value of a digit in any base up to 16 (DIGIT_VALUE; the letters of both cases). -/
def digitValue (c : Char) : Option Nat :=
  if '0' ≤ c ∧ c ≤ '9' then some (c.toNat - '0'.toNat)
  else if 'a' ≤ c ∧ c ≤ 'f' then some (c.toNat - 'a'.toNat + 10)
  else if 'A' ≤ c ∧ c ≤ 'F' then some (c.toNat - 'A'.toNat + 10)
  else none

/-- The digit's value, where it is a digit of the base. -/
def digitIn (base : Nat) (c : Char) : Option Nat := (digitValue c).filter (· < base)

/-- The number at the head of the text in the given base, and what follows it. -/
def digits (base : Nat) : Nat → List Char → Nat × List Char
  | n, [] => (n, [])
  | n, c :: cs =>
    match digitIn base c with
    | some d => digits base (n * base + d) cs
    | none => (n, c :: cs)

/-- The prefix that selects the base in `strtoul(.., 0)`: the base and the text past it. A leading
    0 is itself an octal digit; 0x counts only before a hexadecimal digit. -/
def strtoulBase : List Char → Nat × List Char
  | '0' :: 'x' :: c :: cs =>
    if (digitIn 16 c).isSome then (16, c :: cs) else (8, '0' :: 'x' :: c :: cs)
  | '0' :: 'X' :: c :: cs =>
    if (digitIn 16 c).isSome then (16, c :: cs) else (8, '0' :: 'X' :: c :: cs)
  | '0' :: cs => (8, '0' :: cs)
  | cs => (10, cs)

/-- The sign that `strtoul` accepts. -/
def strtoulSign : List Char → Bool × List Char
  | '-' :: cs => (true, cs)
  | '+' :: cs => (false, cs)
  | cs => (false, cs)

/-- ULONG_MAX. -/
def ulongMax : Nat := 2 ^ 64 - 1

/-- `strtoul` with base 0 on a text without leading blanks: the result, the text at `endptr`, and
    whether `errno` was set. -/
def strtoul (s : List Char) : BitVec 64 × List Char × Bool :=
  let (negative, body) := strtoulSign s
  let (base, body) := strtoulBase body
  match body with
  | [] => (0, s, false)
  | c :: _ =>
    if (digitIn base c).isNone then (0, s, false)
    else
      let (n, rest) := digits base 0 body
      if ulongMax < n then (BitVec.ofNat 64 ulongMax, rest, true)
      else (if negative then -BitVec.ofNat 64 n else BitVec.ofNat 64 n, rest, false)

/-- Whether the first character is the given letter, in either case. -/
def headUpper (c : Char) : List Char → Bool
  | [] => false
  | d :: _ => d.toUpper == c

/-- `if (toupper(*endptr) == c) ++endptr`. -/
def skipUpper (c : Char) (cs : List Char) : List Char := if headUpper c cs then cs.tail else cs

/-- `token_convert_number`. The suffix U sets the class but, unlike L, is not stepped over. -/
def tokenConvertNumber (t : Token) : Except String Token :=
  let (u, endptr, errno) := strtoul t.text.toList
  let endptr := skipUpper 'L' endptr
  let cls : TokenClass := if headUpper 'U' endptr then .uint else .int
  let endptr := skipUpper 'L' endptr
  if !endptr.isEmpty || errno then .error "malformed integer constant"
  else .ok { cls := cls, i := u }

/-- Octal digits (ISODIGIT). -/
def octal (c : Char) : Option Nat := digitIn 8 c

/-- The `while (isxdigit(*cp))` loop in `escape`. -/
def escapeHex : Nat → List Char → Option (Nat × List Char)
  | n, [] => some (n, [])
  | n, c :: cs =>
    match digitIn 16 c with
    | none => some (n, c :: cs)
    | some d => if n &&& 0xF0 ≠ 0 then none else escapeHex (n * 16 + d) cs

/-- Simple escape sequences. -/
def escapeSimple : Char → Option Nat
  | 'a' => some 7
  | 'b' => some 8
  | 'f' => some 12
  | 'n' => some 10
  | 'r' => some 13
  | 't' => some 9
  | 'v' => some 11
  | '?' => some 63
  | '"' => some 34
  | '\\' => some 92
  | '\'' => some 39
  | _ => none

/-- The octal digits after the first one in `escape`. -/
def escapeOctal (n : Nat) (cs : List Char) : Option (Nat × List Char) :=
  match cs with
  | [] => some (n, [])
  | c :: cs' =>
    match octal c with
    | none => some (n, c :: cs')
    | some d =>
      let n := n * 8 + d
      match cs' with
      | [] => some (n, [])
      | c' :: cs'' =>
        match octal c' with
        | none => some (n, c' :: cs'')
        | some d =>
          let n := n * 8 + d
          if 255 < n then none else some (n, cs'')

/-- `escape`: the value of the next logical character and the text past it; `none` is -1. -/
def escape : List Char → Option (Nat × List Char)
  | '\\' :: c :: cs =>
    match octal c with
    | some d => escapeOctal d cs
    | none =>
      if c = 'x' then
        match cs with
        | c' :: _ => if (digitIn 16 c').isSome then escapeHex 0 cs else none
        | [] => none
      else (escapeSimple c).map (·, cs)
  | ['\\'] => none
  | c :: cs => some (c.toNat % 256, cs)
  | [] => some (0, [])

/-- `token_convert_char`. -/
def tokenConvertChar (t : Token) : Except String Token :=
  match escape t.text.toList.tail with
  | none => .error "invalid escape sequence"
  | some (c, cs) =>
    if cs.head? = some '\'' then .ok (tokenInt (BitVec.ofNat 64 c))
    else .error "multi-character constants unsupported"

/-- `list_skip_spaces`. -/
def listSkipSpaces : List Token → List Token
  | [] => []
  | t :: l => if t.cls = .space then listSkipSpaces l else t :: l

/-- The loop of `list_fold_spaces`; the flag tells that the token before was a space. -/
def foldSpaces : Bool → List Token → List Token
  | _, [] => []
  | after, t :: l =>
    if t.cls = .space then
      if after then foldSpaces true l else { t with text := " " } :: foldSpaces true l
    else t :: foldSpaces false l

/-- `list_fold_spaces`. -/
def listFoldSpaces (l : List Token) : List Token := foldSpaces false l

/-- `list_strip_ends`. -/
def listStripEnds (l : List Token) : List Token :=
  (listSkipSpaces (listSkipSpaces l).reverse).reverse

/-- `list_strip_all`. -/
def listStripAll (l : List Token) : List Token :=
  l.filter fun t => !(t.cls == .space || (t.cls == .other && t.text == ""))

/-- `list_match`: the token matched and the rest. -/
def listMatch (l : List Token) (cls : TokenClass) : Except String (Token × List Token) :=
  match l with
  | t :: l => if t.cls = cls then .ok (t, l) else .error "syntax"
  | [] => .error "syntax"

/-- `list_first_is`. -/
def listFirstIs (l : List Token) (cls : TokenClass) : Bool :=
  match l with
  | t :: _ => t.cls == cls
  | [] => false

/-- `list_next_is`; `l` is the list from the token after `after` on. -/
def listNextIs (l : List Token) (cls : TokenClass) : Bool := listFirstIs (listSkipSpaces l) cls

/-- `list_same`. -/
def listSame : List Token → List Token → Bool
  | t₁ :: l₁, t₂ :: l₂ => tokenSame t₁ t₂ && listSame l₁ l₂
  | [], [] => true
  | _, _ => false

/-- The promotion of # and ## in `list_normalize`. -/
def promoteHash (t : Token) : Token :=
  if t.cls = .hash then { t with cls := .stringize }
  else if t.cls = .hashhash then { t with cls := .paste }
  else t

/-- The replacement of one formal in `list_normalize`. -/
def replaceFormal (l : List Token) (formal : Token) (i : Nat) : List Token :=
  l.map fun t => if tokenSame formal t then { cls := .arg, i := BitVec.ofNat 64 i } else t

/-- `list_normalize`. -/
def listNormalize (l formals : List Token) : List Token :=
  formals.zipIdx.foldl (fun l p => replaceFormal l p.1 p.2)
    ((listFoldSpaces (listStripEnds l)).map promoteHash)

/-- `backslash`. -/
def backslash (c : Char) : List Char := if c = '\\' ∨ c = '"' then ['\\', c] else [c]

/-- What `list_stringize` appends for a token in the middle of the list. -/
def stringizeText (t : Token) : List Char :=
  if t.cls = .string ∨ t.cls = .char then t.text.toList.flatMap backslash else t.text.toList

/-- The loop of `list_stringize`; a space is left out at either end of the list. -/
def stringizeLoop : Bool → List Token → Except String (List Char)
  | _, [] => .ok []
  | first, t :: l => do
    if t.cls.noText then throw "CPP INTERNAL: can't stringize a textless token"
    let rest ← stringizeLoop false l
    return if t.cls = .space ∧ (first ∨ l.isEmpty) then rest else stringizeText t ++ rest

/-- `list_stringize`. -/
def listStringize (l : List Token) : Except String Token := do
  let text ← stringizeLoop true l
  return { cls := .string, text := String.ofList ('"' :: text ++ ['"']) }

/-- `list_ennervate`. -/
def listEnnervate (l : List Token) (name : String) : List Token :=
  l.map fun t => if t.cls = .ident ∧ t.text = name then { t with cls := .other } else t

/-- `list_placeholder`. -/
def listPlaceholder (l : List Token) : List Token :=
  if l.isEmpty then [{ cls := .other }] else l

theorem bind_ok {α β : Type} {x : Except String α} {f : α → Except String β} {b : β} :
    (x >>= f) = .ok b ↔ ∃ a, x = .ok a ∧ f a = .ok b := by
  cases x with
  | error m => exact ⟨fun h => (nomatch h), fun ⟨_, h, _⟩ => (nomatch h)⟩
  | ok a => exact ⟨fun h => ⟨a, rfl, h⟩, fun ⟨_, ha, h⟩ => (Except.ok.inj ha) ▸ h⟩

theorem map_ok {α β : Type} {x : Except String α} {f : α → β} {b : β} :
    x.map f = .ok b ↔ ∃ a, x = .ok a ∧ f a = b := by
  cases x with
  | error m => exact ⟨fun h => (nomatch h), fun ⟨_, h, _⟩ => (nomatch h)⟩
  | ok a =>
    exact ⟨fun h => ⟨a, rfl, Except.ok.inj h⟩,
      fun ⟨_, ha, h⟩ => congrArg Except.ok ((Except.ok.inj ha) ▸ h)⟩

@[simp] theorem listSkipSpaces_nil : listSkipSpaces [] = [] := rfl

theorem listSkipSpaces_cons {t : Token} (h : t.cls ≠ .space) (l : List Token) :
    listSkipSpaces (t :: l) = t :: l := if_neg h

theorem listMatch_ok {l r : List Token} {cls : TokenClass} {t : Token}
    (h : listMatch l cls = .ok (t, r)) : l = t :: r ∧ t.cls = cls := by
  cases l with
  | nil => simp [listMatch] at h
  | cons t' l =>
    rw [listMatch] at h
    split at h
    · next hc => cases h; exact ⟨rfl, hc⟩
    · cases h

end Ncc.Cpp
