import Ncc.Lex
import Ncc.Cpp.Constant

/-! String literals (cc1/lex.c: `delimit` and `strlit`; common/escape.c).

    The text of adjacent literals is passed over once with `delimit` and read again by `strlitBytes`.
    The second time nothing tells an opening quote from a closing one, so that the white space that a
    later literal begins with is taken for a separator: `strlit_iff` says that this is all that can
    go wrong. -/

namespace Ncc.Lex

open Ncc.Cpp (isspace headIs octal digitIn escape escapeHex escapeOctal escapeSimple denote map_ok
  escape_plain escapeSimple_head foldl_digits_le and_hex_zero)

/-! ### The characters of a literal -/

/-- A character of a string literal as it is written: an ordinary one or an escape sequence. -/
inductive StrChar where
  | plain (c : Char) (h : c ≠ '"' ∧ c ≠ '\\' ∧ c ≠ '\n' ∧ c ≠ '\x00' ∧ c.toNat < 256)
  | simple (c : Char) (n : Nat) (h : escapeSimple c = some n)
  | oct (ds : List Char) (valid : ∀ c ∈ ds, (digitIn 8 c).isSome = true)
      (length : 1 ≤ ds.length ∧ ds.length ≤ 3) (fits : denote 8 ds ≤ 255)
  | hex (ds : List Char) (valid : ∀ c ∈ ds, (digitIn 16 c).isSome = true)
      (length : 1 ≤ ds.length) (fits : denote 16 ds ≤ 255)

namespace StrChar

/-- How it is written. -/
def body : StrChar → List Char
  | plain c _ => [c]
  | simple c _ _ => ['\\', c]
  | oct ds _ _ _ => '\\' :: ds
  | hex ds _ _ _ => '\\' :: 'x' :: ds

/-- The byte that it stands for. -/
def code : StrChar → Nat
  | plain c _ => c.toNat
  | simple _ n _ => n
  | oct ds _ _ _ => denote 8 ds
  | hex ds _ _ _ => denote 16 ds

/-- Does an escape sequence end in front of this character? -/
def endsBefore : StrChar → Char → Bool
  | oct ds _ _ _, c => ds.length == 3 || (digitIn 8 c).isNone
  | hex .., c => (digitIn 16 c).isNone
  | _, _ => true

/-- Is it written as white space? -/
def isBlank : StrChar → Bool
  | plain c _ => isspace c
  | _ => false

end StrChar

/-- The text between the quotes. -/
def textOf (l : List StrChar) : List Char := l.flatMap StrChar.body

/-- The bytes of the literal. -/
def codesOf (l : List StrChar) : List Nat := l.map StrChar.code

/-- The escape sequences end where the next character begins, or at the closing quote. -/
def Separated : List StrChar → Prop
  | [] => True
  | i :: l => i.endsBefore ((textOf l).headD '"') = true ∧ Separated l

@[simp] theorem textOf_nil : textOf [] = [] := rfl

@[simp] theorem textOf_cons (i : StrChar) (l : List StrChar) : textOf (i :: l) = i.body ++ textOf l :=
  rfl

@[simp] theorem codesOf_nil : codesOf [] = [] := rfl

@[simp] theorem codesOf_cons (i : StrChar) (l : List StrChar) :
    codesOf (i :: l) = i.code :: codesOf l := rfl

/-! ### Reading a character -/

/-- An octal escape sequence is read up to where it ends. -/
theorem escape_octal {ds : List Char} (hv : ∀ c ∈ ds, (digitIn 8 c).isSome = true)
    (hl : 1 ≤ ds.length ∧ ds.length ≤ 3) (hf : denote 8 ds ≤ 255) {c : Char} (rest : List Char)
    (hend : ds.length = 3 ∨ octal c = none) :
    escape ('\\' :: ds ++ c :: rest) = some (denote 8 ds, c :: rest) := by
  obtain ⟨a, ds, rfl⟩ : ∃ a ds', ds = a :: ds' := by
    cases ds with
    | nil => simp at hl
    | cons a ds => exact ⟨a, ds, rfl⟩
  obtain ⟨i, hi⟩ := Option.isSome_iff_exists.mp (hv a (List.mem_cons_self ..))
  have hesc : escape ('\\' :: a :: ds ++ c :: rest) = escapeOctal i (ds ++ c :: rest) := by
    simp only [List.cons_append, escape, octal, hi]
  rw [hesc]
  rw [denote, List.filterMap_cons_some hi] at hf ⊢
  cases ds with
  | nil =>
    have hc : octal c = none := hend.resolve_left (by simp)
    simp only [List.nil_append, escapeOctal, hc, List.filterMap_nil, List.foldl_cons,
      List.foldl_nil, Nat.zero_mul, Nat.zero_add]
  | cons b ds =>
    obtain ⟨j, hj⟩ := Option.isSome_iff_exists.mp (hv b (by simp))
    rw [List.filterMap_cons_some hj] at hf ⊢
    cases ds with
    | nil =>
      have hc : octal c = none := hend.resolve_left (by simp)
      have hj' : octal b = some j := hj
      simp only [List.cons_append, List.nil_append, escapeOctal, hj', hc, List.filterMap_nil,
        List.foldl_cons, List.foldl_nil, Nat.zero_mul, Nat.zero_add]
    | cons d ds =>
      obtain ⟨k, hk⟩ := Option.isSome_iff_exists.mp (hv d (by simp))
      have hnil : ds = [] := by
        have := hl.2
        simp only [List.length_cons] at this
        exact List.length_eq_zero_iff.mp (by omega)
      subst hnil
      rw [List.filterMap_cons_some hk] at hf ⊢
      simp only [List.filterMap_nil, List.foldl_cons, List.foldl_nil, Nat.zero_mul,
        Nat.zero_add] at hf ⊢
      simp only [List.cons_append, List.nil_append, escapeOctal, octal, hj, hk]
      rw [if_neg (by omega)]

theorem escapeHex_ends {c : Char} (hc : digitIn 16 c = none) (rest : List Char) :
    ∀ (ds : List Char) (n : Nat), (∀ c ∈ ds, (digitIn 16 c).isSome = true) →
    (ds.filterMap (digitIn 16)).foldl (fun n d => n * 16 + d) n ≤ 255 →
    escapeHex n (ds ++ c :: rest) =
      some ((ds.filterMap (digitIn 16)).foldl (fun n d => n * 16 + d) n, c :: rest)
  | [], n, _, _ => by simp [escapeHex, hc]
  | d :: ds, n, h, hle => by
    obtain ⟨i, hi⟩ := Option.isSome_iff_exists.mp (h d (List.mem_cons_self ..))
    rw [List.filterMap_cons_some hi, List.foldl_cons] at hle ⊢
    have hstep := foldl_digits_le (by decide : 0 < 16) (ds.filterMap (digitIn 16)) (n * 16 + i)
    have hn : n &&& 0xF0 = 0 := and_hex_zero (by omega)
    rw [List.cons_append, escapeHex, hi]
    simp only [hn, ne_eq, not_true_eq_false, if_false]
    exact escapeHex_ends hc rest ds _ (fun c hc => h c (List.mem_cons_of_mem _ hc)) hle

/-- `escape` reads a character of a literal up to where it ends. -/
theorem escape_body {i : StrChar} {c : Char} (h : i.endsBefore c = true) (rest : List Char) :
    escape (i.body ++ c :: rest) = some (i.code, c :: rest) := by
  cases i with
  | plain d hd =>
    rw [StrChar.body, List.singleton_append, escape_plain hd.2.1,
      Nat.mod_eq_of_lt hd.2.2.2.2]
    rfl
  | simple d n hd =>
    obtain ⟨ho, hx⟩ := escapeSimple_head hd
    simp only [StrChar.body, StrChar.code, List.cons_append, List.nil_append, escape, ho, if_neg hx,
      hd]
    rfl
  | oct ds hv hl hf =>
    have hend : ds.length = 3 ∨ octal c = none := by
      simpa [StrChar.endsBefore, octal] using h
    exact escape_octal hv hl hf rest hend
  | hex ds hv hl hf =>
    have hc : digitIn 16 c = none := by simpa [StrChar.endsBefore] using h
    cases ds with
    | nil => simp at hl
    | cons d ds =>
      have hx : octal 'x' = none := rfl
      simp only [StrChar.body, List.cons_append, escape, hx]
      rw [if_pos trivial, if_pos (hv d (List.mem_cons_self ..))]
      exact escapeHex_ends hc rest (d :: ds) 0 hv hf

theorem body_ne_nil (i : StrChar) : i.body ≠ [] := by cases i <;> simp [StrChar.body]

/-- The first character of a literal's character is no quote. -/
theorem body_head (i : StrChar) : ∃ c t, i.body = c :: t ∧ c ≠ '"' ∧ isspace c = i.isBlank := by
  cases i with
  | plain c h => exact ⟨c, [], rfl, h.1, rfl⟩
  | simple c n h => exact ⟨'\\', [c], rfl, by decide, rfl⟩
  | oct ds hv hl hf => exact ⟨'\\', ds, rfl, by decide, rfl⟩
  | hex ds hv hl hf => exact ⟨'\\', 'x' :: ds, rfl, by decide, rfl⟩

/-! ### The literals -/

/-- A string literal. -/
structure Literal where
  chars : List StrChar
  separated : Separated chars

/-- A literal behind others, and the white space in front of it. -/
structure Later where
  blanks : List Char
  spaces : ∀ c ∈ blanks, isspace c = true
  literal : Literal

namespace Literal

/-- The literal as it is written. -/
def spelling (l : Literal) : List Char := '"' :: (textOf l.chars ++ ['"'])

/-- The bytes that it stands for. -/
def bytes (l : Literal) : List Nat := codesOf l.chars

/-- Does it begin with white space? -/
def blankFirst (l : Literal) : Bool := l.chars.head?.any StrChar.isBlank

/-- The literal without the white space at its start. -/
def trimmed (l : Literal) : List Nat := codesOf (l.chars.dropWhile StrChar.isBlank)

end Literal

/-- The text of the later literals. -/
def laterText (ls : List Later) : List Char := ls.flatMap fun p => p.blanks ++ p.literal.spelling

@[simp] theorem laterText_nil : laterText [] = [] := rfl

@[simp] theorem laterText_cons (p : Later) (ls : List Later) :
    laterText (p :: ls) = p.blanks ++ (p.literal.spelling ++ laterText ls) := by
  simp [laterText]

/-! ### Passing over the literals -/

/-- Characters that neither end a literal nor escape anything. -/
theorem delimit_ordinary {cs : List Char} (h : ∀ c ∈ cs, c ≠ '\x00' ∧ c ≠ '"' ∧ c ≠ '\\')
    (s : List Char) : delimit '"' false (cs ++ s) =
      (cs ++ (delimit '"' false s).1, (delimit '"' false s).2) := by
  induction cs with
  | nil => rfl
  | cons c cs ih =>
    obtain ⟨h0, hq, hb⟩ := h c (List.mem_cons_self ..)
    have hb' : (c == '\\') = false := beq_false_of_ne hb
    have ih := ih fun d hd => h d (List.mem_cons_of_mem _ hd)
    simp [delimit, h0, hq, hb', ih]

/-- An escape sequence of a backslash, a character that it escapes and ordinary ones. -/
theorem delimit_escape {c : Char} (hc : c ≠ '\x00') {cs : List Char}
    (h : ∀ c ∈ cs, c ≠ '\x00' ∧ c ≠ '"' ∧ c ≠ '\\') (s : List Char) :
    delimit '"' false ('\\' :: c :: cs ++ s) =
      ('\\' :: c :: cs ++ (delimit '"' false s).1, (delimit '"' false s).2) := by
  have h2 := delimit_ordinary h s
  simp [delimit, hc, h2]

/-- A digit is no character that `delimit` looks for. -/
theorem digit_ordinary {base : Nat} {c : Char} (h : (digitIn base c).isSome = true) :
    c ≠ '\x00' ∧ c ≠ '"' ∧ c ≠ '\\' := by
  refine ⟨?_, ?_, ?_⟩ <;> rintro rfl <;> simp [digitIn, Cpp.digitValue] at h

theorem delimit_body (i : StrChar) (s : List Char) : delimit '"' false (i.body ++ s) =
    (i.body ++ (delimit '"' false s).1, (delimit '"' false s).2) := by
  cases i with
  | plain c h => exact delimit_ordinary (by simp [StrChar.body, h.1, h.2.1, h.2.2.2.1]) s
  | simple c n h =>
    have hc : c ≠ '\x00' := by rintro rfl; simp [escapeSimple] at h
    exact delimit_escape hc (by simp) s
  | oct ds hv hl hf =>
    obtain ⟨d, ds, rfl⟩ := List.exists_cons_of_length_pos (show 0 < ds.length by omega)
    exact delimit_escape (digit_ordinary (hv d (List.mem_cons_self ..))).1
      (fun c hc => digit_ordinary (hv c (List.mem_cons_of_mem _ hc))) s
  | hex ds hv hl hf => exact delimit_escape (by decide) (fun c hc => digit_ordinary (hv c hc)) s

theorem delimit_textOf (s : List Char) : ∀ l : List StrChar,
    delimit '"' false (textOf l ++ '"' :: s) = (textOf l ++ ['"'], s, true)
  | [] => by simp [delimit]
  | i :: l => by
    rw [textOf_cons, List.append_assoc, delimit_body, delimit_textOf s l]
    simp

/-- `delimit` passes over a literal exactly. -/
theorem delimit_spelling (l : Literal) (s : List Char) :
    delimit '"' true (l.spelling ++ s) = (l.spelling, s, true) := by
  have h := delimit_textOf s l.chars
  simp [Literal.spelling, delimit, h]

theorem isspace_quote : isspace '"' = false := rfl

theorem dropWhile_blanks {bs : List Char} (h : ∀ c ∈ bs, isspace c = true) (s : List Char) :
    (bs ++ s).takeWhile isspace = bs ++ s.takeWhile isspace ∧
      (bs ++ s).dropWhile isspace = s.dropWhile isspace :=
  ⟨List.takeWhile_append_of_pos h, List.dropWhile_append_of_pos h⟩

/-- The first loop of `strlit` passes over all of the literals, and over no more. -/
theorem strlitLoop_literals {tail : List Char}
    (htail : headIs (· == '"') (tail.dropWhile isspace) = false) :
    ∀ (ls : List Later) (first : Literal) (fuel : Nat), ls.length < fuel →
      strlitLoop fuel (first.spelling ++ (laterText ls ++ tail)) =
        { text := first.spelling ++ laterText ls, blanks := tail.takeWhile isspace,
          rest := tail.dropWhile isspace, closed := true }
  | _, _, 0, h => absurd h (Nat.not_lt_zero _)
  | [], first, fuel + 1, _ => by
    simp [strlitLoop, delimit_spelling, htail]
  | p :: ls, first, fuel + 1, h => by
    have ih := strlitLoop_literals htail ls p.literal fuel (Nat.lt_of_succ_lt_succ h)
    obtain ⟨htake, hdrop⟩ := dropWhile_blanks p.spaces
      (p.literal.spelling ++ (laterText ls ++ tail))
    have hquote : ∀ s, (p.literal.spelling ++ s).takeWhile isspace = [] ∧
        (p.literal.spelling ++ s).dropWhile isspace = p.literal.spelling ++ s := fun s => by
      simp [Literal.spelling, isspace_quote]
    rw [(hquote _).1, List.append_nil] at htake
    rw [(hquote _).2] at hdrop
    have hhead : headIs (· == '"') (p.literal.spelling ++ (laterText ls ++ tail)) = true := rfl
    simp only [strlitLoop, delimit_spelling, laterText_cons, List.append_assoc, htake, hdrop, hhead,
      if_true, ih, Bool.not_true, Bool.false_eq_true, if_false]

/-! ### Reading the literals again -/

/-- With fuel enough for it, the text is read as the bytes. -/
def ReadsAs (s : List Char) (bs : List Nat) : Prop :=
  ∀ fuel, s.length ≤ fuel → strlitBytes fuel s = .ok bs

theorem readsAs_nil : ReadsAs [] [] := fun fuel _ => by cases fuel <;> rfl

/-- A quote, and the white space behind it, stand for nothing. -/
theorem readsAs_quote {s : List Char} {bs : List Nat} (h : ReadsAs (s.dropWhile isspace) bs) :
    ReadsAs ('"' :: s) bs := by
  intro fuel hf
  cases fuel with
  | zero => simp at hf
  | succ fuel =>
    have hd := List.length_dropWhile_le isspace s
    simp only [List.length_cons] at hf
    exact h fuel (by omega)

/-- A character of a literal stands for its byte. -/
theorem readsAs_char {i : StrChar} {c : Char} (hend : i.endsBefore c = true) {s : List Char}
    {bs : List Nat} (h : ReadsAs (c :: s) bs) : ReadsAs (i.body ++ c :: s) (i.code :: bs) := by
  intro fuel hf
  obtain ⟨d, t, hbody, hd, -⟩ := body_head i
  have hesc := escape_body hend s
  rw [hbody] at hf hesc ⊢
  cases fuel with
  | zero => simp at hf
  | succ fuel =>
    have hrest : strlitBytes fuel (c :: s) = .ok bs := h fuel (by simp at hf ⊢; omega)
    rw [List.cons_append] at hesc ⊢
    rw [strlitBytes.eq_4 _ _ _ (by rintro rfl; exact hd rfl), hesc]
    simp only [hrest]
    rfl

/-- What follows the characters begins with a quote, or with the next character. -/
theorem textOf_head (l : List StrChar) (s : List Char) :
    ∃ t, textOf l ++ '"' :: s = (textOf l).headD '"' :: t := by
  cases l with
  | nil => exact ⟨s, rfl⟩
  | cons i l =>
    obtain ⟨c, t, hbody, -⟩ := body_head i
    exact ⟨t ++ textOf l ++ '"' :: s, by simp [hbody]⟩

theorem readsAs_textOf {s : List Char} {bs : List Nat} (h : ReadsAs ('"' :: s) bs) :
    ∀ l : List StrChar, Separated l → ReadsAs (textOf l ++ '"' :: s) (codesOf l ++ bs)
  | [], _ => h
  | i :: l, hsep => by
    have ih := readsAs_textOf h l hsep.2
    obtain ⟨t, ht⟩ := textOf_head l s
    rw [ht] at ih
    rw [textOf_cons, List.append_assoc, ht]
    exact readsAs_char hsep.1 ih

theorem separated_dropWhile (p : StrChar → Bool) : ∀ l : List StrChar, Separated l →
    Separated (l.dropWhile p)
  | [], h => h
  | i :: l, h => by
    rw [List.dropWhile_cons]
    split
    · exact separated_dropWhile p l h.2
    · exact h

/-- The white space at the start of a literal is skipped as a separator is. -/
theorem dropWhile_textOf (s : List Char) : ∀ l : List StrChar,
    (textOf l ++ '"' :: s).dropWhile isspace = textOf (l.dropWhile StrChar.isBlank) ++ '"' :: s
  | [] => by simp [isspace_quote]
  | i :: l => by
    obtain ⟨c, t, hbody, -, hspace⟩ := body_head i
    rw [List.dropWhile_cons]
    cases hb : i.isBlank with
    | true =>
      cases i with
      | plain d h =>
        have hd : isspace d = true := hb
        simp [StrChar.body, hd, dropWhile_textOf s l]
      | simple => cases hb
      | oct => cases hb
      | hex => cases hb
    | false =>
      rw [hb] at hspace
      simp [hbody, hspace]

theorem readsAs_later : ∀ ls : List Later,
    ReadsAs ('"' :: laterText ls) (ls.flatMap fun p => p.literal.trimmed)
  | [] => readsAs_quote readsAs_nil
  | p :: ls => by
    have ih := readsAs_later ls
    have hsep := separated_dropWhile StrChar.isBlank _ p.literal.separated
    apply readsAs_quote
    have hclosing := readsAs_textOf ih _ hsep
    rw [← dropWhile_textOf] at hclosing
    have hopening := readsAs_quote hclosing
    rw [laterText_cons, (dropWhile_blanks p.spaces _).2]
    simpa [Literal.spelling, isspace_quote, Literal.trimmed] using hopening

/-- What the second loop of `strlit` makes of the literals. -/
theorem strlit_literals {F : Type} (first : Literal) (ls : List Later) :
    strlit (F := F) (first.spelling ++ laterText ls) =
      .ok ⟨.strlit, .text (first.bytes ++ ls.flatMap fun p => p.literal.trimmed)⟩ := by
  have h := readsAs_textOf (readsAs_later ls) first.chars first.separated
  have hlen := h (first.spelling ++ laterText ls).length (by simp [Literal.spelling])
  have htail : (first.spelling ++ laterText ls).tail =
      textOf first.chars ++ '"' :: laterText ls := by simp [Literal.spelling]
  rw [strlit, htail, hlen]
  rfl

/-! ### The contents of the literals -/

theorem trimmed_length (l : Literal) : l.trimmed.length ≤ l.bytes.length := by
  simp only [Literal.trimmed, Literal.bytes, codesOf, List.length_map]
  exact List.length_dropWhile_le ..

theorem trimmed_eq_iff (l : Literal) : l.trimmed = l.bytes ↔ l.blankFirst = false := by
  simp only [Literal.trimmed, Literal.bytes, Literal.blankFirst]
  cases l.chars with
  | nil => exact ⟨fun _ => rfl, fun _ => rfl⟩
  | cons i l =>
    cases hb : i.isBlank with
    | false => simp [hb]
    | true =>
      have hle := List.length_dropWhile_le StrChar.isBlank l
      simp only [List.dropWhile_cons, hb, if_true, List.head?_cons, Option.any_some,
        Bool.true_eq_false, iff_false]
      intro heq
      have := congrArg List.length heq
      simp only [codesOf, List.length_map, List.length_cons] at this
      omega

/-- Pieces no longer than others make up the same list only when each is the same. -/
theorem flatMap_eq_iff {α β : Type} {f g : α → List β} (hle : ∀ a, (f a).length ≤ (g a).length) :
    ∀ l : List α, l.flatMap f = l.flatMap g ↔ ∀ a ∈ l, f a = g a
  | [] => by simp
  | a :: l => by
    have hlen : ∀ l : List α, (l.flatMap f).length ≤ (l.flatMap g).length := fun l => by
      induction l with
      | nil => exact Nat.le_refl 0
      | cons b l ih =>
        have := hle b
        simp only [List.flatMap_cons, List.length_append]
        omega
    rw [List.flatMap_cons, List.flatMap_cons, List.forall_mem_cons, ← flatMap_eq_iff hle l]
    constructor
    · intro h
      have hsum := congrArg List.length h
      have h1 := hle a
      have h2 := hlen l
      simp only [List.length_append] at hsum
      exact List.append_inj h (by omega)
    · rintro ⟨h1, h2⟩
      rw [h1, h2]

/-- `strlit` makes one token of adjacent literals. -/
theorem lexToken_literals {F : Type} (libc : Libc F) (first : Literal) (ls : List Later)
    (tail : List Char) (htail : headIs (· == '"') (tail.dropWhile isspace) = false) :
    lexToken libc (first.spelling ++ (laterText ls ++ tail)) =
      .ok (⟨.strlit, .text (first.bytes ++ ls.flatMap fun p => p.literal.trimmed)⟩, tail) := by
  have hlen : ls.length < (first.spelling ++ (laterText ls ++ tail)).length := by
    have : ls.length ≤ (laterText ls).length := by
      induction ls with
      | nil => exact Nat.le_refl 0
      | cons p ls ih => simp [Literal.spelling]; omega
    simp [Literal.spelling]
    omega
  have hloop := strlitLoop_literals htail ls first _ hlen
  have hstart : ∀ p₁ p₂, dispatch '"' p₁ p₂ = .strlit := fun _ _ => rfl
  have hpeek : peek (first.spelling ++ (laterText ls ++ tail)) 0 = '"' := rfl
  rw [lexToken, hpeek, hstart]
  simp only [hloop, strlit_literals, if_true]
  simp [Except.map]

/-- The string is the concatenation of the literals' contents exactly when no literal behind the
    first begins with white space. -/
theorem strlit_iff {F : Type} (libc : Libc F) (first : Literal) (ls : List Later)
    (tail : List Char) (htail : headIs (· == '"') (tail.dropWhile isspace) = false) :
    lexToken libc (first.spelling ++ (laterText ls ++ tail)) =
        .ok (⟨.strlit, .text (first.bytes ++ ls.flatMap fun p => p.literal.bytes)⟩, tail) ↔
      ∀ p ∈ ls, p.literal.blankFirst = false := by
  rw [lexToken_literals libc first ls tail htail]
  simp only [Except.ok.injEq, Prod.mk.injEq, Token.mk.injEq, Value.text.injEq, true_and, and_true,
    List.append_cancel_left_eq]
  rw [flatMap_eq_iff fun p : Later => trimmed_length p.literal]
  exact forall₂_congr fun p _ => trimmed_eq_iff p.literal

/-- The letter a. -/
def letterA : StrChar := .plain 'a' (by decide +kernel)

/-- `"a\x20"  "\"a"` and a semicolon. -/
theorem strlit_iff_escapes :
    lexToken wholeText "\"a\\x20\"  \"\\\"a\";".toList =
      .ok (⟨.strlit, .text [97, 32, 34, 97]⟩, [';']) :=
  let space : StrChar := .hex ['2', '0'] (by simp; decide) (by decide) (by decide)
  let first : Literal := ⟨[letterA, space], by decide +kernel, by decide +kernel, trivial⟩
  let later : Literal := ⟨[.simple '"' 34 rfl, letterA], rfl, rfl, trivial⟩
  (strlit_iff wholeText first [⟨[' ', ' '], by simp; decide, later⟩] [';'] rfl).mpr
    fun p hp => List.mem_singleton.mp hp ▸ rfl

/-- The contents of the literals `"a" " a"` are `a a`, and `strlit` makes `aa` of them. -/
theorem strlit_blank_lost : ¬ ∀ (first : Literal) (ls : List Later) (tail : List Char),
    headIs (· == '"') (tail.dropWhile isspace) = false →
    lexToken wholeText (first.spelling ++ (laterText ls ++ tail)) =
      .ok (⟨.strlit, .text (first.bytes ++ ls.flatMap fun p => p.literal.bytes)⟩, tail) := by
  intro h
  let first : Literal := ⟨[letterA], rfl, trivial⟩
  let later : Literal := ⟨[.plain ' ' (by decide +kernel), letterA], rfl, rfl, trivial⟩
  exact absurd (h first [⟨[' '], by simp; decide, later⟩] [] rfl) (by decide +kernel)

end Ncc.Lex
