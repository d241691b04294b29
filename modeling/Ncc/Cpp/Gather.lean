import Ncc.Cpp.Macro

/-! The arguments of a macro (cpp/macro.c: `gather`; cpp/cpp.c: `parentheses`).

    `gather` walks the formals and the tokens in step. A comma behind the last argument is taken off
    the list before the formals are found to have run out, so that what is left over is rejected only
    when it shows: `gather_iff` says that one extra argument without a token in it is let through,
    and that nothing else is. -/

namespace Ncc.Cpp

/-! ### The code -/

/-- `parentheses` after the token. -/
def parenthesesAfter (parentheses : Nat) (t : Token) : Nat :=
  if t.cls = .lparen then parentheses + 1
  else if t.cls = .rparen then parentheses - 1
  else parentheses

/-- The inner loop of `gather`: the tokens of the argument, and what follows it. -/
def gatherTokens : Nat → List Token → List Token × List Token
  | _, [] => ([], [])
  | parentheses, t :: l =>
    if parentheses = 0 ∧ (t.cls = .comma ∨ t.cls = .rparen) then ([], t :: l)
    else
      let (a, l) := gatherTokens (parenthesesAfter parentheses t) l
      (t :: a, l)

/-- What `gather` makes of the tokens of an argument. -/
def argument (l : List Token) : List Token := listPlaceholder (listFoldSpaces (listStripEnds l))

/-- The outer loop of `gather`: the arguments, the formals that have none, and what follows. -/
def gatherLoop : List Token → List Token → List (List Token) × List Token × List Token
  | [], l => ([], [], l)
  | _ :: formals, l =>
    let (a, l) := gatherTokens 0 l
    if listFirstIs l .comma then
      let (args, formals, l) := gatherLoop formals l.tail
      (argument a :: args, formals, l)
    else ([argument a], formals, l)

/-- `gather`: the arguments, and what follows the closing parenthesis. -/
def gather (m : Macro) (l : List Token) : Except String (List (List Token) × List Token) :=
  let (args, formals, l) := gatherLoop m.formals l.tail
  if !formals.isEmpty then .error ("too few arguments to macro '" ++ m.name ++ "'")
  else match listSkipSpaces l with
    | [] => .error ("deformed arguments to macro '" ++ m.name ++ "'")
    | t :: l =>
      if t.cls ≠ .rparen then .error ("too many arguments to macro '" ++ m.name ++ "'")
      else .ok (args, l)

/-- The loop of `parentheses`: the number of tokens up to the closing one, if it is on the list. -/
def parenthesesLoop : Nat → List Token → Option Nat
  | _, [] => none
  | parentheses, t :: l =>
    if parenthesesAfter parentheses t = 0 then some 1
    else (parenthesesLoop (parenthesesAfter parentheses t) l).map (· + 1)

/-- `parentheses` on the tokens behind the identifier: 0 without an opening parenthesis, and `none`
    where it reads more input. -/
def parentheses (l : List Token) : Option Nat :=
  match listSkipSpaces l with
  | [] => none
  | t :: l' =>
    if t.cls ≠ .lparen then some 0
    else (parenthesesLoop 0 (t :: l')).map (· + (l.takeWhile (·.cls == .space)).length)

/-! ### The arguments of an invocation -/

/-- Every closing parenthesis has its opening one, with so many of them open in front. -/
def balanced : Nat → List Token → Bool
  | depth, [] => depth == 0
  | depth, t :: l =>
    (t.cls != .rparen || depth != 0) && balanced (parenthesesAfter depth t) l

/-- The pieces between the commas that no parentheses enclose. -/
def splitTop : Nat → List Token → List (List Token)
  | _, [] => [[]]
  | depth, t :: l =>
    if depth = 0 ∧ t.cls = .comma then [] :: splitTop 0 l
    else (splitTop (parenthesesAfter depth t) l).modifyHead (t :: ·)

/-- No token but white space. -/
def blank (l : List Token) : Bool := l.all (·.cls == .space)

/-- The arguments between the parentheses, of a macro with so many formals. -/
def arguments (n : Nat) (body : List Token) : List (List Token) :=
  if n = 0 ∧ blank body = true then [] else splitTop 0 body

/-- The argument holds the tokens of the piece; white space is dropped at its ends and folded
    elsewhere, and a placeholder stands for no token. -/
def Holds (arg piece : List Token) : Prop :=
  arg = argument piece ∧ listStripAll arg = listStripAll piece

/-- The arguments are gathered where there are as many as formals, and there is an error where
    there are not. -/
def GathersExactly (m : Macro) (lp : Token) (body : List Token) (rp : Token) (rest : List Token) :
    Prop :=
  let l := lp :: (body ++ rp :: rest)
  let pieces := arguments m.formals.length body
  (pieces.length = m.formals.length →
    ∃ args, gather m l = .ok (args, rest) ∧ List.Forall₂ Holds args pieces) ∧
  (pieces.length ≠ m.formals.length → ∃ e, gather m l = .error e)

/-- Behind as many pieces as there are formals stands one more, with no token in it. -/
def TrailingComma (m : Macro) (body : List Token) : Prop :=
  m.formals ≠ [] ∧ ∃ p, (splitTop 0 body).drop m.formals.length = [p] ∧ blank p = true

/-! ### White space -/

theorem listStripAll_append (l₁ l₂ : List Token) :
    listStripAll (l₁ ++ l₂) = listStripAll l₁ ++ listStripAll l₂ := List.filter_append ..

theorem listStripAll_reverse (l : List Token) :
    listStripAll l.reverse = (listStripAll l).reverse := List.filter_reverse ..

theorem listStripAll_space {t : Token} (h : t.cls = .space) (l : List Token) :
    listStripAll (t :: l) = listStripAll l := by simp [listStripAll, h]

theorem listStripAll_skipSpaces : ∀ l : List Token,
    listStripAll (listSkipSpaces l) = listStripAll l
  | [] => rfl
  | t :: l => by
    rw [listSkipSpaces]
    split
    · next h => rw [listStripAll_skipSpaces l, listStripAll_space h]
    · rfl

theorem listStripAll_stripEnds (l : List Token) :
    listStripAll (listStripEnds l) = listStripAll l := by
  rw [listStripEnds, listStripAll_reverse, listStripAll_skipSpaces, listStripAll_reverse,
    List.reverse_reverse, listStripAll_skipSpaces]

theorem listStripAll_foldSpaces : ∀ (l : List Token) (after : Bool),
    listStripAll (foldSpaces after l) = listStripAll l
  | [], _ => rfl
  | t :: l, after => by
    rw [foldSpaces]
    split
    · next h =>
      have ih := listStripAll_foldSpaces l true
      rw [listStripAll_space h]
      split
      · exact ih
      · rw [listStripAll_space (t := { t with text := " " }) h, ih]
    · have ih := listStripAll_foldSpaces l false
      simp only [listStripAll, List.filter_cons] at ih ⊢
      rw [ih]

theorem listStripAll_placeholder (l : List Token) :
    listStripAll (listPlaceholder l) = listStripAll l := by
  rw [listPlaceholder]
  split
  · next h => rw [List.isEmpty_iff.mp h]; rfl
  · rfl

/-- No token is lost, and none is duplicated. -/
theorem holds_argument (piece : List Token) : Holds (argument piece) piece := by
  refine ⟨rfl, ?_⟩
  rw [argument, listStripAll_placeholder, listFoldSpaces, listStripAll_foldSpaces,
    listStripAll_stripEnds]

theorem holds_arguments (pieces : List (List Token)) :
    List.Forall₂ Holds (pieces.map argument) pieces := by
  induction pieces with
  | nil => exact .nil
  | cons p ps ih => exact .cons (holds_argument p) ih

theorem blank_cons (t : Token) (l : List Token) :
    blank (t :: l) = true ↔ t.cls = .space ∧ blank l = true := by simp [blank]

theorem listSkipSpaces_blank : ∀ (l r : List Token), blank l = true →
    listSkipSpaces (l ++ r) = listSkipSpaces r
  | [], _, _ => rfl
  | t :: l, r, h => by
    obtain ⟨ht, hl⟩ := (blank_cons t l).mp h
    rw [List.cons_append, listSkipSpaces, if_pos ht, listSkipSpaces_blank l r hl]

/-- The first token that is not white space is none that closes a parenthesis. -/
theorem listSkipSpaces_balanced : ∀ (l r : List Token), balanced 0 l = true → blank l = false →
    ∃ t l', listSkipSpaces (l ++ r) = t :: l' ∧ t.cls ≠ .rparen
  | [], _, _, hb => by simp [blank] at hb
  | t :: l, r, hbal, hb => by
    rw [balanced, Bool.and_eq_true] at hbal
    by_cases ht : t.cls = .space
    · have hdepth : parenthesesAfter 0 t = 0 := by simp [parenthesesAfter, ht]
      have hl : blank l = false := by
        rw [Bool.eq_false_iff] at hb ⊢
        exact fun h => hb ((blank_cons t l).mpr ⟨ht, h⟩)
      rw [hdepth] at hbal
      obtain ⟨u, l', hu, hc⟩ := listSkipSpaces_balanced l r hbal.2 hl
      exact ⟨u, l', by rw [List.cons_append, listSkipSpaces, if_pos ht, hu], hc⟩
    · exact ⟨t, l ++ r, listSkipSpaces_cons ht _, by simpa using hbal.1⟩

/-! ### The pieces -/

theorem splitTop_ne_nil : ∀ (l : List Token) (d : Nat), splitTop d l ≠ []
  | [], _ => by simp [splitTop]
  | t :: l, d => by
    rw [splitTop]
    split
    · simp
    · have ih := splitTop_ne_nil l (parenthesesAfter d t)
      cases h : splitTop (parenthesesAfter d t) l with
      | nil => exact absurd h ih
      | cons p ps => simp

/-- A list that is not split is its own piece. -/
theorem splitTop_single : ∀ (l : List Token) (d : Nat) (p : List Token),
    splitTop d l = [p] → p = l
  | [], d, p, h => by
    rw [splitTop] at h
    exact (List.singleton_inj.mp h).symm
  | t :: l, d, p, h => by
    rw [splitTop] at h
    split at h
    · exact absurd (List.cons.inj h).2 (splitTop_ne_nil l 0)
    · cases hs : splitTop (parenthesesAfter d t) l with
      | nil => exact absurd hs (splitTop_ne_nil l _)
      | cons q qs =>
        rw [hs, List.modifyHead_cons] at h
        obtain ⟨rfl, rfl⟩ := List.cons.inj h
        rw [splitTop_single l _ q hs]

theorem splitTop_blank : ∀ l : List Token, blank l = true → splitTop 0 l = [l]
  | [], _ => rfl
  | t :: l, h => by
    obtain ⟨ht, hl⟩ := (blank_cons t l).mp h
    simp [splitTop, ht, parenthesesAfter, splitTop_blank l hl]

/-- One argument is gathered: the first piece, up to the closing parenthesis or to the comma in
    front of the other pieces. -/
theorem gatherTokens_splitTop {rp : Token} (hrp : rp.cls = .rparen) (rest : List Token) :
    ∀ (body : List Token) (d : Nat), balanced d body = true → ∃ p,
      (splitTop d body = [p] ∧ gatherTokens d (body ++ rp :: rest) = (p, rp :: rest)) ∨
      ∃ c body', c.cls = .comma ∧ balanced 0 body' = true ∧
        splitTop d body = p :: splitTop 0 body' ∧
        gatherTokens d (body ++ rp :: rest) = (p, c :: (body' ++ rp :: rest))
  | [], d, hb => by
    have hd : d = 0 := by simpa [balanced] using hb
    refine ⟨[], .inl ⟨rfl, ?_⟩⟩
    simp [gatherTokens, hd, hrp]
  | t :: body, d, hb => by
    rw [balanced, Bool.and_eq_true] at hb
    by_cases hc : d = 0 ∧ t.cls = .comma
    · have hdepth : parenthesesAfter d t = 0 := by simp [parenthesesAfter, hc.1, hc.2]
      rw [hdepth] at hb
      refine ⟨[], .inr ⟨t, body, hc.2, hb.2, ?_, ?_⟩⟩
      · rw [splitTop, if_pos hc]
      · rw [List.cons_append, gatherTokens, if_pos ⟨hc.1, .inl hc.2⟩]
    · have hgoes : ¬ (d = 0 ∧ (t.cls = .comma ∨ t.cls = .rparen)) := by
        rintro ⟨hd, h | h⟩
        · exact hc ⟨hd, h⟩
        · simp [hd, h] at hb
      obtain ⟨p, ⟨hs, hg⟩ | ⟨c, body', hcomma, hb', hs, hg⟩⟩ :=
        gatherTokens_splitTop hrp rest body _ hb.2
      · refine ⟨t :: p, .inl ⟨?_, ?_⟩⟩
        · rw [splitTop, if_neg hc, hs, List.modifyHead_cons]
        · simp only [List.cons_append, gatherTokens, if_neg hgoes, hg]
      · refine ⟨t :: p, .inr ⟨c, body', hcomma, hb', ?_, ?_⟩⟩
        · rw [splitTop, if_neg hc, hs, List.modifyHead_cons]
        · simp only [List.cons_append, gatherTokens, if_neg hgoes, hg]

/-- The formals that have a piece get it; where the formals run out, the other pieces stay. -/
theorem gatherLoop_splitTop {rp : Token} (hrp : rp.cls = .rparen) (rest : List Token) :
    ∀ (formals body : List Token), balanced 0 body = true →
      ((splitTop 0 body).length ≤ formals.length ∧
        gatherLoop formals (body ++ rp :: rest) =
          ((splitTop 0 body).map argument, formals.drop (splitTop 0 body).length, rp :: rest)) ∨
      ∃ body', balanced 0 body' = true ∧
        splitTop 0 body' = (splitTop 0 body).drop formals.length ∧
        gatherLoop formals (body ++ rp :: rest) =
          (((splitTop 0 body).take formals.length).map argument, [], body' ++ rp :: rest)
  | [], body, hb => .inr ⟨body, hb, rfl, rfl⟩
  | f :: formals, body, hb => by
    obtain ⟨p, ⟨hs, hg⟩ | ⟨c, body', hcomma, hb', hs, hg⟩⟩ :=
      gatherTokens_splitTop hrp rest body 0 hb
    · refine .inl ⟨by simp [hs], ?_⟩
      simp [gatherLoop, hg, hs, listFirstIs, hrp]
    · have hfirst : listFirstIs (c :: (body' ++ rp :: rest)) .comma = true := by
        simp [listFirstIs, hcomma]
      obtain ⟨hle, hl⟩ | ⟨body'', hb'', hs'', hl⟩ := gatherLoop_splitTop hrp rest formals body' hb'
      · refine .inl ⟨by simpa [hs] using hle, ?_⟩
        simp [gatherLoop, hg, hs, hfirst, hl]
      · refine .inr ⟨body'', hb'', by simpa [hs] using hs'', ?_⟩
        simp [gatherLoop, hg, hs, hfirst, hl]

/-! ### What `gather` accepts -/

theorem gather_few {m : Macro} {lp rp : Token} (hrp : rp.cls = .rparen) {body : List Token}
    (hb : balanced 0 body = true) (rest : List Token)
    (h : (splitTop 0 body).length < m.formals.length) :
    gather m (lp :: (body ++ rp :: rest)) =
      .error ("too few arguments to macro '" ++ m.name ++ "'") := by
  obtain ⟨-, hl⟩ | ⟨body', -, hs, -⟩ := gatherLoop_splitTop hrp rest m.formals body hb
  · have hne : (m.formals.drop (splitTop 0 body).length).isEmpty = false := by
      simp [List.isEmpty_eq_false_iff, List.drop_eq_nil_iff, h]
    simp [gather, hl, hne]
  · have hnil : splitTop 0 body' = [] := hs.trans (List.drop_of_length_le h.le)
    exact absurd hnil (splitTop_ne_nil body' 0)

theorem gather_equal {m : Macro} {lp rp : Token} (hrp : rp.cls = .rparen) {body : List Token}
    (hb : balanced 0 body = true) (rest : List Token)
    (h : (splitTop 0 body).length = m.formals.length) :
    gather m (lp :: (body ++ rp :: rest)) = .ok ((splitTop 0 body).map argument, rest) := by
  obtain ⟨-, hl⟩ | ⟨body', -, hs, -⟩ := gatherLoop_splitTop hrp rest m.formals body hb
  · have hspace : rp.cls ≠ .space := by simp [hrp]
    simp [gather, hl, h, listSkipSpaces_cons hspace, hrp]
  · have hnil : splitTop 0 body' = [] := hs.trans (List.drop_of_length_le h.le)
    exact absurd hnil (splitTop_ne_nil body' 0)

/-- With pieces left over, `gather` looks no further than to the first token of them. -/
theorem gather_many {m : Macro} {lp rp : Token} (hrp : rp.cls = .rparen) {body : List Token}
    (hb : balanced 0 body = true) (rest : List Token)
    (h : m.formals.length < (splitTop 0 body).length) :
    ∃ extra, splitTop 0 extra = (splitTop 0 body).drop m.formals.length ∧
      gather m (lp :: (body ++ rp :: rest)) =
        if blank extra = true then
          .ok (((splitTop 0 body).take m.formals.length).map argument, rest)
        else .error ("too many arguments to macro '" ++ m.name ++ "'") := by
  obtain ⟨hle, -⟩ | ⟨extra, hb', hs, hl⟩ := gatherLoop_splitTop hrp rest m.formals body hb
  · omega
  · refine ⟨extra, hs, ?_⟩
    cases hblank : blank extra with
    | true =>
      have hspace : rp.cls ≠ .space := by simp [hrp]
      simp [gather, hl, listSkipSpaces_blank _ _ hblank, listSkipSpaces_cons hspace, hrp]
    | false =>
      obtain ⟨t, l', ht, hc⟩ := listSkipSpaces_balanced extra (rp :: rest) hb' hblank
      simp [gather, hl, ht, hc]

/-- One piece is left over, and it is blank, exactly when all that is left over is blank. -/
theorem blank_extra {extra : List Token} {pieces : List (List Token)}
    (h : splitTop 0 extra = pieces) : blank extra = true ↔ ∃ p, pieces = [p] ∧ blank p = true := by
  constructor
  · intro hblank
    exact ⟨extra, h ▸ splitTop_blank extra hblank, hblank⟩
  · rintro ⟨p, hp, hblank⟩
    rwa [← splitTop_single extra 0 p (h.trans hp)]

/-- Without formals `gather` is right. -/
theorem gather_none {m : Macro} (hm : m.formals = []) {lp rp : Token} (hrp : rp.cls = .rparen)
    {body : List Token} (hb : balanced 0 body = true) (rest : List Token) :
    GathersExactly m lp body rp rest := by
  have hpos : m.formals.length < (splitTop 0 body).length := by
    rw [hm]
    exact List.length_pos_iff.mpr (splitTop_ne_nil body 0)
  obtain ⟨extra, hs, hg⟩ := @gather_many m lp rp hrp body hb rest hpos
  have hextra : blank extra = blank body := by
    rw [hm, List.length_nil, List.drop_zero] at hs
    rw [Bool.eq_iff_iff, blank_extra hs, ← blank_extra rfl]
  rw [hextra] at hg
  simp only [GathersExactly, arguments, hg, hm, List.length_nil]
  cases hblank : blank body with
  | true => simp
  | false => simp [splitTop_ne_nil]

/-- The arguments are gathered exactly, but for one argument too many without a token in it. -/
theorem gather_iff (m : Macro) {lp rp : Token} (hrp : rp.cls = .rparen) {body : List Token}
    (hb : balanced 0 body = true) (rest : List Token) :
    GathersExactly m lp body rp rest ↔ ¬ TrailingComma m body := by
  by_cases hm : m.formals = []
  · exact iff_of_true (gather_none hm hrp hb rest) fun h => h.1 hm
  · have hargs : arguments m.formals.length body = splitTop 0 body :=
      if_neg fun h => hm (List.length_eq_zero_iff.mp h.1)
    have hnot : (splitTop 0 body).length ≤ m.formals.length → ¬ TrailingComma m body := by
      rintro hle ⟨-, p, hp, -⟩
      rw [List.drop_of_length_le hle] at hp
      cases hp
    simp only [GathersExactly, hargs]
    rcases lt_trichotomy (splitTop 0 body).length m.formals.length with h | h | h
    · refine iff_of_true ⟨fun heq => absurd heq h.ne, fun _ => ?_⟩ (hnot h.le)
      exact ⟨_, gather_few hrp hb rest h⟩
    · refine iff_of_true ⟨fun _ => ?_, fun hne => absurd h hne⟩ (hnot h.le)
      exact ⟨_, gather_equal hrp hb rest h, holds_arguments _⟩
    · obtain ⟨extra, hs, hg⟩ := @gather_many m lp rp hrp body hb rest h
      have htrailing : TrailingComma m body ↔ blank extra = true :=
        (and_iff_right hm).trans (blank_extra hs).symm
      rw [htrailing, hg]
      constructor
      · rintro ⟨-, herr⟩ hblank
        obtain ⟨e, he⟩ := herr h.ne'
        rw [if_pos hblank] at he
        cases he
      · intro hblank
        refine ⟨fun heq => absurd heq h.ne', fun _ => ⟨_, if_neg hblank⟩⟩

/-- `f( (a,b) ,c)` for a macro of two formals. -/
theorem gather_iff_nested :
    let m : Macro := { name := "f", hasArgs := true, formals := [⟨.ident, "x", 0⟩, ⟨.ident, "y", 0⟩] }
    let body : List Token := [⟨.space, " ", 0⟩, ⟨.lparen, "(", 0⟩, ⟨.ident, "a", 0⟩, ⟨.comma, ",", 0⟩,
      ⟨.ident, "b", 0⟩, ⟨.rparen, ")", 0⟩, ⟨.space, " ", 0⟩, ⟨.comma, ",", 0⟩, ⟨.ident, "c", 0⟩]
    GathersExactly m ⟨.lparen, "(", 0⟩ body ⟨.rparen, ")", 0⟩ [] :=
  (gather_iff _ rfl (by decide) []).mpr fun ⟨_, _, hp, _⟩ => by cases hp

/-- `f(a,)` has two arguments, and a macro of one formal takes them for one. -/
theorem gather_trailing_comma : ¬ ∀ (m : Macro) (lp : Token) (body : List Token) (rp : Token)
    (rest : List Token), lp.cls = .lparen → rp.cls = .rparen → balanced 0 body = true →
    GathersExactly m lp body rp rest := by
  intro h
  let m : Macro := { name := "f", hasArgs := true, formals := [⟨.ident, "x", 0⟩] }
  let body : List Token := [⟨.ident, "a", 0⟩, ⟨.comma, ",", 0⟩]
  obtain ⟨e, he⟩ := (h m ⟨.lparen, "(", 0⟩ body ⟨.rparen, ")", 0⟩ [] rfl rfl (by decide)).2
    (by decide)
  have hok : gather m (⟨.lparen, "(", 0⟩ :: (body ++ [⟨.rparen, ")", 0⟩])) =
      .ok ([[⟨.ident, "a", 0⟩]], []) := by decide
  rw [hok] at he
  cases he

/-! ### What `parentheses` counts -/

/-- The tokens counted end with the parenthesis that closes the innermost open one. -/
theorem parenthesesLoop_balanced : ∀ (l : List Token) (depth k : Nat),
    parenthesesLoop (depth + 1) l = some k → ∃ body rp rest, l = body ++ rp :: rest ∧
      rp.cls = .rparen ∧ balanced depth body = true ∧ k = body.length + 1
  | [], _, _, h => by cases h
  | t :: l, d, k, h => by
    rw [parenthesesLoop] at h
    by_cases hend : t.cls = .rparen ∧ d = 0
    · obtain ⟨ht, rfl⟩ := hend
      have hafter : parenthesesAfter (0 + 1) t = 0 := by simp [parenthesesAfter, ht]
      rw [if_pos hafter] at h
      exact ⟨[], t, l, rfl, ht, rfl, (Option.some.inj h).symm⟩
    · have hafter : parenthesesAfter (d + 1) t = parenthesesAfter d t + 1 := by
        simp only [parenthesesAfter]
        split
        · rfl
        · split
          · have : d ≠ 0 := fun h0 => hend ⟨‹_›, h0⟩
            omega
          · rfl
      rw [hafter, if_neg (Nat.succ_ne_zero _)] at h
      obtain ⟨k', hk', rfl⟩ := Option.map_eq_some_iff.mp h
      obtain ⟨body, rp, rest, rfl, hrp, hb, rfl⟩ := parenthesesLoop_balanced l _ k' hk'
      refine ⟨t :: body, rp, rest, rfl, hrp, ?_, rfl⟩
      rw [balanced, hb, Bool.and_true, Bool.or_eq_true, bne_iff_ne, bne_iff_ne]
      tauto

theorem listSkipSpaces_dropWhile : ∀ l : List Token,
    listSkipSpaces l = l.dropWhile (·.cls == .space)
  | [] => rfl
  | t :: l => by by_cases ht : t.cls = .space <;> simp [listSkipSpaces, ht, listSkipSpaces_dropWhile l]

/-- The tokens that are handed on are an argument list as `gather_iff` supposes. -/
theorem parentheses_balanced {l : List Token} {k : Nat} (h : parentheses l = some k)
    (hk : k ≠ 0) : ∃ blanks lp body rp rest, l = blanks ++ lp :: (body ++ rp :: rest) ∧
      blank blanks = true ∧ lp.cls = .lparen ∧ rp.cls = .rparen ∧ balanced 0 body = true ∧
      k = blanks.length + (body.length + 2) := by
  have hsplit : l.takeWhile (·.cls == .space) ++ listSkipSpaces l = l := by
    rw [listSkipSpaces_dropWhile, List.takeWhile_append_dropWhile]
  rw [parentheses] at h
  cases hl : listSkipSpaces l with
  | nil => rw [hl] at h; cases h
  | cons lp l' =>
    rw [hl] at h hsplit
    simp only [ne_eq, ite_not] at h
    by_cases hlp : lp.cls = .lparen
    · have hafter : parenthesesAfter 0 lp = 0 + 1 := by simp [parenthesesAfter, hlp]
      rw [if_pos hlp, parenthesesLoop, hafter, if_neg (Nat.succ_ne_zero 0)] at h
      obtain ⟨k₁, h₁, rfl⟩ := Option.map_eq_some_iff.mp h
      obtain ⟨k₂, h₂, rfl⟩ := Option.map_eq_some_iff.mp h₁
      obtain ⟨body, rp, rest, rfl, hrp, hb, rfl⟩ := parenthesesLoop_balanced l' 0 k₂ h₂
      refine ⟨_, lp, body, rp, rest, hsplit.symm, ?_, hlp, hrp, hb, by omega⟩
      exact List.all_takeWhile
    · rw [if_neg hlp] at h
      exact absurd (Option.some.inj h).symm hk

/-- ` ((a))b` -/
theorem parentheses_balanced_nested : ∃ blanks lp body rp rest,
    [⟨.space, " ", 0⟩, ⟨.lparen, "(", 0⟩, ⟨.lparen, "(", 0⟩, ⟨.ident, "a", 0⟩, ⟨.rparen, ")", 0⟩,
      ⟨.rparen, ")", 0⟩, ⟨.ident, "b", 0⟩] = blanks ++ lp :: (body ++ rp :: rest) ∧
      blank blanks = true ∧ lp.cls = .lparen ∧ rp.cls = .rparen ∧ balanced 0 body = true ∧
      6 = blanks.length + (body.length + 2) :=
  parentheses_balanced (by decide) (by decide)

end Ncc.Cpp
