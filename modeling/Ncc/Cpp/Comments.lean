import Mathlib

/-! Comments (cpp/input.c: `erase_comments`).

    A logical line is scanned with the delimiter of the literal that the scan is in, and with a flag
    that tells a comment, which goes over from one line to the next. `Lexed` says what the comments
    of a line are in the language. The scan looks a backslash ahead and never behind, so that it
    takes the second half of an escaped backslash for one that escapes; where no literal ends in an
    escaped backslash, `eraseLines_lexed` says that exactly the comments are blanked. -/

namespace Ncc.Cpp

/-! ### The code -/

/-- The characters passed over, in front of what follows. -/
def emit (w : List Char) (r : List Char × Bool) : List Char × Bool := (w ++ r.1, r.2)

/-- The delimiter of the literal that the character opens. -/
def opens (c : Char) : Option Char := if c = '"' ∨ c = '\'' then some c else none

/-- The loop of `erase_comments`: the line, and `in_comment`. A blank written to `s[1]` is passed
    over at once, as the next turn would. -/
def eraseLoop : Option Char → Bool → List Char → List Char × Bool
  | _, inComment, [] => ([], inComment)
  | some delim, inComment, c :: s =>
    if c = delim then emit [c] (eraseLoop none inComment s)
    else match s with
      | [] => ([c], inComment)
      | d :: s' =>
        if c = '\\' ∧ d = delim then emit [c, d] (eraseLoop (some delim) inComment s')
        else emit [c] (eraseLoop (some delim) inComment (d :: s'))
  | none, true, c :: s =>
    match s with
    | [] => ([' '], true)
    | d :: s' =>
      if c = '*' ∧ d = '/' then emit [' ', ' '] (eraseLoop none false s')
      else emit [' '] (eraseLoop none true (d :: s'))
  | none, false, c :: s =>
    match s with
    | [] => ([c], false)
    | d :: s' =>
      if c = '/' ∧ d = '*' then emit [' ', ' '] (eraseLoop none true s')
      else emit [c] (eraseLoop (opens c) false (d :: s'))

/-- `if (space) *space = 0;` -/
def cutSpace (s : List Char) : List Char := (s.reverse.dropWhile (· == ' ')).reverse

/-- `erase_comments`. -/
def eraseComments (inComment : Bool) (s : List Char) : List Char × Bool :=
  let (s, inComment) := eraseLoop none inComment s
  (cutSpace s, inComment)

/-- `erase_comments` on one logical line after the other. -/
def eraseLines : Bool → List (List Char) → List (List Char)
  | _, [] => []
  | inComment, s :: lines =>
    let (s, inComment) := eraseComments inComment s
    s :: eraseLines inComment lines

/-! ### The comments of the language -/

/-- A character of a literal, or a backslash and the character that it escapes. -/
inductive LiteralChar where
  | plain (c : Char)
  | escaped (c : Char)
  deriving DecidableEq, Repr

/-- How it is written. -/
def LiteralChar.text : LiteralChar → List Char
  | plain c => [c]
  | escaped c => ['\\', c]

/-- The text between the delimiters. -/
def literalText (body : List LiteralChar) : List Char := body.flatMap LiteralChar.text

/-- The delimiters of string literals and character constants. -/
def IsQuote (q : Char) : Prop := q = '"' ∨ q = '\''

/-- Neither the delimiter nor a backslash stands in the literal by itself. -/
def Within (q : Char) (body : List LiteralChar) : Prop :=
  ∀ c, .plain c ∈ body → c ≠ q ∧ c ≠ '\\'

/-- Does the literal end in an escaped backslash? -/
def endsEscaped (body : List LiteralChar) : Bool := body.getLast? == some (.escaped '\\')

/-- Is there an end of a comment in the text? -/
def closes : List Char → Bool
  | [] => false
  | c :: s => (c == '*' && s.head? == some '/') || closes s

/-- The line, what is left of it when its comments are blanked, whether a comment goes over to the
    next line, and the literals of the line; the flag in front tells that one comes over from the
    line before. A literal ends with its line at the latest. -/
inductive Lexed : Bool → List Char → List Char → Bool → List (List LiteralChar) → Prop
  | done : Lexed false [] [] false []
  | char {c : Char} {s out : List Char} {b : Bool} {ls : List (List LiteralChar)}
      (quote : ¬ IsQuote c) (comment : ¬ (c = '/' ∧ s.head? = some '*'))
      (rest : Lexed false s out b ls) : Lexed false (c :: s) (c :: out) b ls
  | literal {q : Char} {body : List LiteralChar} {s out : List Char} {b : Bool}
      {ls : List (List LiteralChar)} (quote : IsQuote q) (within : Within q body)
      (rest : Lexed false s out b ls) :
      Lexed false (q :: (literalText body ++ q :: s)) (q :: (literalText body ++ q :: out)) b
        (body :: ls)
  | unclosed {q : Char} {body : List LiteralChar} {s : List Char} (quote : IsQuote q)
      (within : Within q body) (rest : s = [] ∨ s = ['\\']) :
      Lexed false (q :: (literalText body ++ s)) (q :: (literalText body ++ s)) false []
  | comment {s out : List Char} {b : Bool} {ls : List (List LiteralChar)}
      (rest : Lexed true s out b ls) : Lexed false ('/' :: '*' :: s) (' ' :: ' ' :: out) b ls
  | closed {body s out : List Char} {b : Bool} {ls : List (List LiteralChar)}
      (within : closes body = false) (rest : Lexed false s out b ls) :
      Lexed true (body ++ '*' :: '/' :: s) (List.replicate (body.length + 2) ' ' ++ out) b ls
  | carried {body : List Char} (within : closes body = false) :
      Lexed true body (List.replicate body.length ' ') true []

/-- One line after the other. -/
inductive LexedLines : Bool → List (List Char) → List (List Char) → List (List LiteralChar) → Prop
  | nil (b : Bool) : LexedLines b [] [] []
  | cons {b b' : Bool} {s out : List Char} {lines outs : List (List Char)}
      {ls ls' : List (List LiteralChar)} (line : Lexed b s out b' ls)
      (rest : LexedLines b' lines outs ls') : LexedLines b (s :: lines) (out :: outs) (ls ++ ls')

/-! ### Every line has its comments -/

theorem head?_eq_some {s : List Char} {d : Char} (h : s.head? = some d) : ∃ r, s = d :: r := by
  cases s with
  | nil => cases h
  | cons e r => exact ⟨r, by rw [Option.some.inj h]⟩

theorem closes_cons (c : Char) (s : List Char) :
    closes (c :: s) = false ↔ ¬ (c = '*' ∧ s.head? = some '/') ∧ closes s = false := by
  simp [closes]

/-- A comment ends somewhere in the text, or it does not end in it. -/
theorem closes_split : ∀ s : List Char, closes s = false ∨
    ∃ body r, s = body ++ '*' :: '/' :: r ∧ closes body = false
  | [] => .inl rfl
  | c :: s => by
    by_cases hc : c = '*' ∧ s.head? = some '/'
    · obtain ⟨r, rfl⟩ := head?_eq_some hc.2
      exact .inr ⟨[], r, by rw [hc.1]; rfl, rfl⟩
    · rcases closes_split s with h | ⟨body, r, rfl, hb⟩
      · exact .inl ((closes_cons c s).mpr ⟨hc, h⟩)
      · refine .inr ⟨c :: body, r, rfl, (closes_cons c body).mpr ⟨fun h => hc ⟨h.1, ?_⟩, hb⟩⟩
        obtain ⟨body', rfl⟩ := head?_eq_some h.2
        rfl

theorem within_nil {q : Char} : Within q [] := fun _ h => absurd h List.not_mem_nil

theorem within_cons {q : Char} {x : LiteralChar} {body : List LiteralChar}
    (hx : ∀ c, x = .plain c → c ≠ q ∧ c ≠ '\\') (h : Within q body) : Within q (x :: body) := by
  intro c hc
  rcases List.mem_cons.mp hc with hc | hc
  · exact hx c hc.symm
  · exact h c hc

/-- A literal ends somewhere in the text, or it does not end in it. -/
theorem literal_split (q : Char) : ∀ s : List Char,
    (∃ body r, s = literalText body ++ q :: r ∧ Within q body) ∨
    ∃ body r, s = literalText body ++ r ∧ Within q body ∧ (r = [] ∨ r = ['\\'])
  | [] => .inr ⟨[], [], rfl, within_nil, .inl rfl⟩
  | [c] => by
    by_cases hq : c = q
    · exact .inl ⟨[], [], by rw [hq]; rfl, within_nil⟩
    · by_cases hb : c = '\\'
      · exact .inr ⟨[], ['\\'], by rw [hb]; rfl, within_nil, .inr rfl⟩
      · exact .inr ⟨[.plain c], [], rfl, within_cons (fun _ h => by cases h; exact ⟨hq, hb⟩) within_nil,
          .inl rfl⟩
  | c :: d :: s => by
    by_cases hq : c = q
    · exact .inl ⟨[], d :: s, by rw [hq]; rfl, within_nil⟩
    · by_cases hb : c = '\\'
      · have hx : ∀ e, LiteralChar.escaped d = .plain e → e ≠ q ∧ e ≠ '\\' := fun _ h => nomatch h
        rcases literal_split q s with ⟨body, r, rfl, hw⟩ | ⟨body, r, rfl, hw, hr⟩
        · exact .inl ⟨.escaped d :: body, r, by rw [hb]; rfl, within_cons hx hw⟩
        · exact .inr ⟨.escaped d :: body, r, by rw [hb]; rfl, within_cons hx hw, hr⟩
      · have hx : ∀ e, LiteralChar.plain c = .plain e → e ≠ q ∧ e ≠ '\\' :=
          fun _ h => by cases h; exact ⟨hq, hb⟩
        rcases literal_split q (d :: s) with ⟨body, r, hs, hw⟩ | ⟨body, r, hs, hw, hr⟩
        · exact .inl ⟨.plain c :: body, r, by rw [hs]; rfl, within_cons hx hw⟩
        · exact .inr ⟨.plain c :: body, r, by rw [hs]; rfl, within_cons hx hw, hr⟩

/-- There is a way to read the line, wherever it begins. -/
theorem lexed_exists : ∀ (n : Nat) (s : List Char) (b : Bool), s.length ≤ n →
    ∃ out b' ls, Lexed b s out b' ls
  | _, [], false, _ => ⟨_, _, _, .done⟩
  | _, [], true, _ => ⟨_, _, _, .carried rfl⟩
  | 0, c :: s, _, h => by simp at h
  | n + 1, c :: s, true, h => by
    rcases closes_split (c :: s) with hc | ⟨body, r, hs, hb⟩
    · exact ⟨_, _, _, .carried hc⟩
    · have hr : r.length ≤ n := by
        have := congrArg List.length hs
        simp only [List.length_cons, List.length_append] at this h
        omega
      obtain ⟨out, b', ls, hl⟩ := lexed_exists n r false hr
      rw [hs]
      exact ⟨_, _, _, .closed hb hl⟩
  | n + 1, c :: s, false, h => by
    rw [List.length_cons] at h
    by_cases hq : IsQuote c
    · rcases literal_split c s with ⟨body, r, rfl, hw⟩ | ⟨body, r, rfl, hw, hr⟩
      · have hr : r.length ≤ n := by
          simp only [List.length_append, List.length_cons] at h
          omega
        obtain ⟨out, b', ls, hl⟩ := lexed_exists n r false hr
        exact ⟨_, _, _, .literal hq hw hl⟩
      · exact ⟨_, _, _, .unclosed hq hw hr⟩
    · by_cases hc : c = '/' ∧ s.head? = some '*'
      · obtain ⟨rfl, hs⟩ := hc
        obtain ⟨r, rfl⟩ := head?_eq_some hs
        rw [List.length_cons] at h
        obtain ⟨out, b', ls, hl⟩ := lexed_exists n r true (by omega)
        exact ⟨_, _, _, .comment hl⟩
      · obtain ⟨out, b', ls, hl⟩ := lexed_exists n s false (by omega)
        exact ⟨_, _, _, .char hq hc hl⟩

theorem lexedLines_exists : ∀ (lines : List (List Char)) (b : Bool),
    ∃ outs ls, LexedLines b lines outs ls
  | [], b => ⟨_, _, .nil b⟩
  | s :: lines, b => by
    obtain ⟨out, b', ls, hl⟩ := lexed_exists s.length s b le_rfl
    obtain ⟨outs, ls', hrest⟩ := lexedLines_exists lines b'
    exact ⟨_, _, .cons hl hrest⟩

/-! ### What the scan does -/

theorem eraseLoop_nil (o : Option Char) (b : Bool) : eraseLoop o b [] = ([], b) := by
  cases o <;> cases b <;> rfl

theorem eraseLoop_inLiteral (q c d : Char) (b : Bool) (s : List Char) :
    eraseLoop (some q) b (c :: d :: s) =
      if c = q then emit [c] (eraseLoop none b (d :: s))
      else if c = '\\' ∧ d = q then emit [c, d] (eraseLoop (some q) b s)
      else emit [c] (eraseLoop (some q) b (d :: s)) := rfl

theorem eraseLoop_inComment (c d : Char) (s : List Char) :
    eraseLoop none true (c :: d :: s) =
      if c = '*' ∧ d = '/' then emit [' ', ' '] (eraseLoop none false s)
      else emit [' '] (eraseLoop none true (d :: s)) := rfl

theorem eraseLoop_inCode (c d : Char) (s : List Char) :
    eraseLoop none false (c :: d :: s) =
      if c = '/' ∧ d = '*' then emit [' ', ' '] (eraseLoop none true s)
      else emit [c] (eraseLoop (opens c) false (d :: s)) := rfl

/-- The last character of a line. -/
theorem eraseLoop_last (c : Char) :
    (∀ q b, eraseLoop (some q) b [c] = if c = q then emit [c] ([], b) else ([c], b)) ∧
      eraseLoop none true [c] = ([' '], true) ∧ eraseLoop none false [c] = ([c], false) :=
  ⟨fun _ _ => rfl, rfl, rfl⟩

theorem emit_emit (v w : List Char) (r : List Char × Bool) :
    emit v (emit w r) = emit (v ++ w) r := by simp [emit]

/-- A character of a literal that neither ends it nor escapes its delimiter. -/
theorem eraseLoop_within {q c : Char} {s : List Char} (hq : c ≠ q)
    (h : ¬ (c = '\\' ∧ s.head? = some q)) (b : Bool) :
    eraseLoop (some q) b (c :: s) = emit [c] (eraseLoop (some q) b s) := by
  cases s with
  | nil => rw [(eraseLoop_last c).1, if_neg hq, eraseLoop_nil]; rfl
  | cons d s =>
    have h : ¬ (c = '\\' ∧ d = q) := fun hd => h ⟨hd.1, congrArg some hd.2⟩
    rw [eraseLoop_inLiteral, if_neg hq, if_neg h]

theorem eraseLoop_escaped (q : Char) (hq : q ≠ '\\') (b : Bool) (s : List Char) :
    eraseLoop (some q) b ('\\' :: q :: s) = emit ['\\', q] (eraseLoop (some q) b s) := by
  rw [eraseLoop_inLiteral, if_neg hq.symm, if_pos ⟨rfl, rfl⟩]

theorem eraseLoop_delim (q : Char) (b : Bool) (s : List Char) :
    eraseLoop (some q) b (q :: s) = emit [q] (eraseLoop none b s) := by
  cases s with
  | nil => rw [(eraseLoop_last q).1, if_pos rfl, eraseLoop_nil]
  | cons d s => rw [eraseLoop_inLiteral, if_pos rfl]

theorem eraseLoop_comment {c : Char} {s : List Char} (h : ¬ (c = '*' ∧ s.head? = some '/')) :
    eraseLoop none true (c :: s) = emit [' '] (eraseLoop none true s) := by
  cases s with
  | nil => rfl
  | cons d s =>
    have h : ¬ (c = '*' ∧ d = '/') := fun hd => h ⟨hd.1, congrArg some hd.2⟩
    rw [eraseLoop_inComment, if_neg h]

theorem eraseLoop_code {c : Char} {s : List Char} (h : ¬ (c = '/' ∧ s.head? = some '*')) :
    eraseLoop none false (c :: s) = emit [c] (eraseLoop (opens c) false s) := by
  cases s with
  | nil => rw [(eraseLoop_last c).2.2, eraseLoop_nil]; rfl
  | cons d s =>
    have h : ¬ (c = '/' ∧ d = '*') := fun hd => h ⟨hd.1, congrArg some hd.2⟩
    rw [eraseLoop_inCode, if_neg h]

/-- No character of a literal's text is taken for its delimiter, unless an escaped backslash stands
    in front of the delimiter itself. -/
theorem eraseLoop_literal {q : Char} (hq : q ≠ '\\') (r : List Char) :
    ∀ body : List LiteralChar, Within q body → (r.head? = some q → endsEscaped body = false) →
      eraseLoop (some q) false (literalText body ++ r) =
        emit (literalText body) (eraseLoop (some q) false r)
  | [], _, _ => rfl
  | x :: body, hw, he => by
    have hw' : Within q body := fun c hc => hw c (List.mem_cons_of_mem _ hc)
    have he' : r.head? = some q → endsEscaped body = false := fun hr => by
      have := he hr
      cases body with
      | nil => rfl
      | cons y body => rwa [endsEscaped, List.getLast?_cons_cons] at this
    have ih := eraseLoop_literal hq r body hw' he'
    have htext : literalText (x :: body) = x.text ++ literalText body := rfl
    rw [htext, List.append_assoc]
    cases x with
    | plain c =>
      obtain ⟨hc, hb⟩ := hw c (List.mem_cons_self ..)
      rw [LiteralChar.text, List.singleton_append, eraseLoop_within hc fun h => hb h.1, ih, emit_emit]
    | escaped c =>
      rw [LiteralChar.text, List.cons_append, List.singleton_append]
      by_cases hc : c = q
      · subst hc
        rw [eraseLoop_escaped c hq, ih, emit_emit]
      · -- the backslash escapes nothing here, and the next character is read by itself
        have hnext : ¬ (c = '\\' ∧ (literalText body ++ r).head? = some q) := by
          rintro ⟨rfl, hhead⟩
          cases body with
          | nil =>
            have := he hhead
            simp [endsEscaped] at this
          | cons y body =>
            cases y with
            | plain d => exact (hw' d (List.mem_cons_self ..)).1 (Option.some.inj hhead)
            | escaped d => exact hq (Option.some.inj hhead).symm
        have hnone : ¬ ('\\' = '\\' ∧ (c :: (literalText body ++ r)).head? = some q) :=
          fun h => hc (Option.some.inj h.2)
        rw [eraseLoop_within hq.symm hnone, eraseLoop_within hc hnext, ih,
          emit_emit, emit_emit]
        rfl

theorem eraseLoop_closed (s : List Char) : ∀ body : List Char, closes body = false →
    eraseLoop none true (body ++ '*' :: '/' :: s) =
      emit (List.replicate (body.length + 2) ' ') (eraseLoop none false s)
  | [], _ => by
    rw [List.nil_append, eraseLoop_inComment, if_pos ⟨rfl, rfl⟩]
    rfl
  | c :: body, h => by
    obtain ⟨hc, hb⟩ := (closes_cons c body).mp h
    have hc' : ¬ (c = '*' ∧ (body ++ '*' :: '/' :: s).head? = some '/') := by
      rintro ⟨rfl, hhead⟩
      cases body with
      | nil => cases hhead
      | cons d body => exact hc ⟨rfl, hhead⟩
    rw [List.cons_append, eraseLoop_comment hc', eraseLoop_closed s body hb, emit_emit]
    rfl

theorem eraseLoop_carried : ∀ body : List Char, closes body = false →
    eraseLoop none true body = (List.replicate body.length ' ', true)
  | [], _ => rfl
  | c :: body, h => by
    obtain ⟨hc, hb⟩ := (closes_cons c body).mp h
    rw [eraseLoop_comment hc, eraseLoop_carried body hb]
    rfl

theorem isQuote_ne {q : Char} (h : IsQuote q) : q ≠ '\\' ∧ q ≠ '/' ∧ opens q = some q := by
  rcases h with rfl | rfl <;> decide

/-- The loop blanks the comments of the line, and nothing else. -/
theorem eraseLoop_lexed {b b' : Bool} {s out : List Char} {ls : List (List LiteralChar)}
    (h : Lexed b s out b' ls) (hls : ∀ l ∈ ls, endsEscaped l = false) :
    eraseLoop none b s = (out, b') := by
  induction h with
  | done => rfl
  | @char c s out b ls quote comment rest ih =>
    rw [eraseLoop_code comment, show opens c = none from if_neg quote, ih hls]
    rfl
  | @literal q body s out b ls quote within rest ih =>
    obtain ⟨hb, hslash, hopens⟩ := isQuote_ne quote
    obtain ⟨hbody, hrest⟩ := List.forall_mem_cons.mp hls
    rw [eraseLoop_code fun h => hslash h.1, hopens,
      eraseLoop_literal hb (q :: s) body within fun _ => hbody, eraseLoop_delim, ih hrest]
    rfl
  | @unclosed q body s quote within rest =>
    obtain ⟨hb, hslash, hopens⟩ := isQuote_ne quote
    have hhead : s.head? ≠ some q := by
      rcases rest with rfl | rfl
      · exact nofun
      · exact fun h => hb (Option.some.inj h).symm
    have hend : eraseLoop (some q) false s = (s, false) := by
      rcases rest with rfl | rfl
      · rfl
      · rw [eraseLoop_within hb.symm fun h => by cases h.2]
        rfl
    rw [eraseLoop_code fun h => hslash h.1, hopens,
      eraseLoop_literal hb s body within fun h => absurd h hhead, hend]
    rfl
  | comment rest ih =>
    rw [eraseLoop_inCode, if_pos ⟨rfl, rfl⟩, ih hls]
    rfl
  | closed within rest ih =>
    rw [eraseLoop_closed _ _ within, ih hls]
    rfl
  | carried within => exact eraseLoop_carried _ within

/-- Every line can be read; where no literal ends in an escaped backslash, the comments are blanked
    and all else is left, but for the blanks at the end of a line. -/
theorem eraseLines_lexed (b : Bool) (lines : List (List Char)) :
    (∃ outs ls, LexedLines b lines outs ls) ∧
    ∀ outs ls, LexedLines b lines outs ls → (∀ l ∈ ls, endsEscaped l = false) →
      eraseLines b lines = outs.map cutSpace := by
  refine ⟨lexedLines_exists lines b, fun outs ls h => ?_⟩
  induction h with
  | nil b => exact fun _ => rfl
  | cons line rest ih =>
    intro hls
    obtain ⟨hline, hrest⟩ := List.forall_mem_append.mp hls
    rw [eraseLines, eraseComments, eraseLoop_lexed line hline]
    simp only [List.map_cons, ih hrest]

/-- The lines `x/*` and `"*/'/*\''`: a comment over both of them, and a literal. -/
theorem eraseLines_lexed_literal :
    eraseLines false [['x', '/', '*'], ['"', '*', '/', '\'', '/', '*', '\\', '\'', '\'']] =
      [['x'], [' ', ' ', ' ', '\'', '/', '*', '\\', '\'', '\'']] := by
  let body : List LiteralChar := [.plain '/', .plain '*', .escaped '\'']
  have hwithin : Within '\'' body := by simp [Within, body]
  have hsecond : Lexed true (['"'] ++ '*' :: '/' :: '\'' :: (literalText body ++ ['\''])) _ false [body] :=
    .closed rfl (.literal (.inr rfl) hwithin .done)
  have hfirst : Lexed false ['x', '/', '*'] _ true [] :=
    .char (by simp [IsQuote]) (by simp) (.comment (@Lexed.carried [] rfl))
  exact (eraseLines_lexed false _).2 _ _ (.cons hfirst (.cons hsecond (.nil false))) (by decide)

/-- The blank at the end of a line is in no comment, and is not kept. -/
theorem eraseLines_trailing : ¬ ∀ (b : Bool) (lines outs : List (List Char))
    (ls : List (List LiteralChar)), LexedLines b lines outs ls → eraseLines b lines = outs := by
  intro h
  have ha : Lexed false ['a', ' '] ['a', ' '] false [] :=
    .char (by simp [IsQuote]) (by simp) (.char (by simp [IsQuote]) (by simp) .done)
  exact absurd (h false _ _ _ (.cons ha (.nil false))) (by decide)

end Ncc.Cpp
