import Ncc.Strlit
import Ncc.Cpp.Gather
import Ncc.Cpp.Output

/-! The # operator, from the preprocessor to the compiler (cpp/token.c: `list_stringize`; cc1/lex.c:
    `strlit`).

    `list_stringize` builds the literal that `token_string` would build from the spellings of the
    tokens: only literals have quotes and backslashes to escape. What the compiler reads back is the
    spellings again. Runs of white space are folded before, where the argument is gathered, and not
    here. -/

namespace Ncc.Cpp

/-! ### Spellings -/

/-- A character that a line of the source can have. -/
def IsSource (c : Char) : Prop := c ≠ '\x00' ∧ c ≠ '\n' ∧ c.toNat < 256

instance (c : Char) : Decidable (IsSource c) :=
  inferInstanceAs (Decidable (c ≠ '\x00' ∧ c ≠ '\n' ∧ c.toNat < 256))

/-- A token that `token_scan` finds in a line of the source. -/
def Token.Scanned (t : Token) : Prop :=
  ∃ s r, (∀ c ∈ s, IsSource c) ∧ tokenScan s = .ok (t, r)

/-- The concatenated spellings. -/
def spell (l : List Token) : List Char := l.flatMap fun t => t.text.toList

/-- The concatenated spellings, with each run of white space folded to one space. -/
def spellFolded : List Token → List Char
  | [] => []
  | t :: l =>
    if t.cls = .space then if listFirstIs l .space then spellFolded l else ' ' :: spellFolded l
    else t.text.toList ++ spellFolded l

/-- The tokens without leading and trailing white space. -/
def trimEnds (l : List Token) : List Token :=
  (l.dropWhile (·.cls == .space)).rdropWhile (·.cls == .space)

@[simp] theorem spell_nil : spell [] = [] := rfl

@[simp] theorem spell_cons (t : Token) (l : List Token) :
    spell (t :: l) = t.text.toList ++ spell l := rfl

theorem listSkipSpaces_eq (l : List Token) : listSkipSpaces l = l.dropWhile (·.cls == .space) := by
  induction l with
  | nil => rfl
  | cons t l ih =>
    by_cases h : t.cls = .space
    · simp [listSkipSpaces, h, ih]
    · simp [listSkipSpaces, h]

theorem listStripEnds_eq (l : List Token) : listStripEnds l = trimEnds l := by
  rw [listStripEnds, listSkipSpaces_eq, listSkipSpaces_eq, trimEnds, List.rdropWhile]

/-- Folding the tokens folds their spelling. -/
theorem spell_foldSpaces (l : List Token) :
    spell (foldSpaces false l) = spellFolded l ∧
      spell (foldSpaces true l) = spellFolded (l.dropWhile (·.cls == .space)) := by
  have hrun : ∀ l : List Token,
      (if listFirstIs l .space then spellFolded l else ' ' :: spellFolded l) =
        ' ' :: spellFolded (l.dropWhile (·.cls == .space)) := by
    intro l
    induction l with
    | nil => rfl
    | cons t l ih =>
      by_cases h : t.cls = .space
      · simp [listFirstIs, spellFolded, h, ← ih]
      · simp [listFirstIs, h]
  induction l with
  | nil => exact ⟨rfl, rfl⟩
  | cons t l ih =>
    by_cases h : t.cls = .space
    · refine ⟨?_, ?_⟩
      · rw [spellFolded, if_pos h, hrun, foldSpaces, if_pos h, if_neg Bool.false_ne_true,
          spell_cons, ih.2]
        exact congrArg (· ++ _) (by decide +kernel : " ".toList = [' '])
      · simp [foldSpaces, h, ih.2]
    · simp [foldSpaces, spellFolded, h, ih.1]

/-! ### What has to be escaped -/

theorem scanNumber_chars : ∀ s : List Char, ∀ c ∈ (scanNumber s).1, isNumber c ∨ isSign c
  | [], c, h => by simp [scanNumber] at h
  | [d], c, h => by
    by_cases hd : isNumber d
    · rw [scanNumber, if_pos hd] at h
      exact .inl (List.mem_singleton.mp h ▸ hd)
    · simp [scanNumber, hd] at h
  | d :: e :: s, c, h => by
    by_cases hd : isNumber d
    · rw [scanNumber, if_pos hd] at h
      split at h
      · next he =>
        rcases List.mem_cons.mp h with rfl | h
        · exact .inl hd
        · rcases List.mem_cons.mp h with rfl | h
          · exact .inr (by simpa [isSign] using he.2)
          · exact scanNumber_chars s c h
      · rcases List.mem_cons.mp h with rfl | h
        · exact .inl hd
        · exact scanNumber_chars (e :: s) c h
    · simp [scanNumber, hd] at h

/-- Only literals, and a backslash by itself, have anything to escape. -/
theorem scanText_unquoted {s : List Char} {cls : TokenClass} {t r : List Char}
    (h : scanText s = .ok (cls, t, r)) (hstr : cls ≠ .string) (hchar : cls ≠ .char)
    (hother : cls = .other → t ≠ ['\\']) : ∀ c ∈ t, c ≠ '"' ∧ c ≠ '\\' := by
  have hspelling : ∀ cls : TokenClass, ∀ c ∈ cls.spelling, c ≠ '"' ∧ c ≠ '\\' := by
    intro cls
    cases cls <;> simp [TokenClass.spelling]
  have hspells := scanText_spells h
  by_cases hs : cls.spelling = []
  · cases s with
    | nil => cases h
    | cons c s =>
      simp only [scanText] at h
      split at h
      · cases h
      · exact absurd (terminated_ok.mp h).2.symm hstr
      · exact absurd (terminated_ok.mp h).2.symm hchar
      · next hc =>
        obtain rfl := begins_dot (classes_begins hc)
        rw [scanDot_eq] at h
        split at h <;> cases h <;> cases hs
      · cases h
        intro c hc
        rcases scanNumber_chars _ c hc with hn | hn
        · constructor <;> rintro rfl <;> exact absurd hn (by decide)
        · constructor <;> rintro rfl <;> exact absurd hn (by decide)
      · cases h
        intro c hc
        have hsp := List.mem_takeWhile_imp hc
        constructor <;> rintro rfl <;> exact absurd hsp (by decide)
      · cases h
        intro c hc
        have hid := List.mem_takeWhile_imp hc
        constructor <;> rintro rfl <;> exact absurd hid (by decide)
      · next hc =>
        obtain rfl := begins_minus (classes_begins hc)
        rw [scanMinus_eq] at h
        split at h
        · cases h; cases hs
        · have hop := scanOperator_spelling rfl (Except.ok.inj h)
          rw [hs] at hop
          rw [← hop]
          simp
      · next cls₀ h₁ h₂ h₃ h₄ h₅ h₆ h₇ hc =>
        rcases classes_spelling hc with hs' | hs'
        · have hop := scanOperator_spelling hs' (Except.ok.inj h)
          rw [hs] at hop
          rw [← hop]
          simp
        · obtain rfl : cls₀ = .other := by
            simp only [List.mem_cons, List.not_mem_nil, or_false] at hs'
            tauto
          rw [scanOperator_other] at h
          cases h
          have hb : c ≠ '\\' := fun hc => hother rfl (by rw [hc])
          intro d hd
          obtain rfl := List.mem_singleton.mp hd
          refine ⟨?_, hb⟩
          rintro rfl
          exact absurd (classes_begins hc) (by decide)
  · rw [TokenClass.Spells, if_neg hs] at hspells
    rw [hspells]
    exact hspelling cls

/-- A token whose characters `list_stringize` treats as `token_string` does. -/
def Token.Quotable (t : Token) : Prop :=
  t.cls.noText = false ∧ stringizeText t = t.text.toList.flatMap backslash

theorem flatMap_backslash {s : List Char} (h : ∀ c ∈ s, c ≠ '"' ∧ c ≠ '\\') :
    s.flatMap backslash = s := by
  induction s with
  | nil => rfl
  | cons c s ih =>
    obtain ⟨hc, hs⟩ := List.forall_mem_cons.mp h
    rw [List.flatMap_cons, ih hs, backslash, if_neg (by simp [hc])]
    rfl

theorem Token.Scanned.quotable {t : Token} (h : t.Scanned)
    (hother : t.cls = .other → t.text ≠ "\\") : t.Quotable := by
  obtain ⟨s, r, -, h⟩ := h
  obtain ⟨⟨cls, w, r'⟩, hw, he⟩ := map_ok.mp h
  cases he
  obtain ⟨c, v, rfl, hb⟩ := spells_cons (scanText_spells hw) (scanText_ok hw).2
  refine ⟨begins_noText hb, ?_⟩
  simp only [stringizeText, String.toList_ofList]
  split
  · rfl
  · next hc =>
    rw [not_or] at hc
    refine (flatMap_backslash (scanText_unquoted hw hc.1 hc.2 fun ho ht => hother ho ?_)).symm
    rw [ht]

theorem Token.Scanned.source {t : Token} (h : t.Scanned) : ∀ c ∈ t.text.toList, IsSource c := by
  obtain ⟨s, r, hs, h⟩ := h
  obtain ⟨⟨cls, w, r'⟩, hw, he⟩ := map_ok.mp h
  cases he
  intro c hc
  rw [String.toList_ofList] at hc
  rw [(scanText_ok hw).1] at hs
  exact hs c (List.mem_append_left _ hc)

/-! ### The literal -/

/-- The list without a space at its end. -/
def dropLastSpace : List Token → List Token
  | [] => []
  | [t] => if t.cls = .space then [] else [t]
  | t :: u :: l => t :: dropLastSpace (u :: l)

/-- The list without a space at its start. -/
def dropFirstSpace (l : List Token) : List Token := if listFirstIs l .space then l.tail else l

theorem stringizeLoop_false {l : List Token} (h : ∀ t ∈ l, t.Quotable) :
    stringizeLoop false l = .ok ((spell (dropLastSpace l)).flatMap backslash) := by
  induction l using dropLastSpace.induct with
  | case1 => rfl
  | case2 t ht =>
    obtain ⟨hn, -⟩ := List.forall_mem_singleton.mp h
    simp [stringizeLoop, dropLastSpace, ht, TokenClass.noText, pure, Except.pure, bind, Except.bind]
  | case3 t ht =>
    obtain ⟨hn, hq⟩ := List.forall_mem_singleton.mp h
    simp [stringizeLoop, dropLastSpace, hn, ht, hq, pure, Except.pure, bind, Except.bind]
  | case4 t u l ih =>
    obtain ⟨⟨hn, hq⟩, hl⟩ := List.forall_mem_cons.mp h
    rw [stringizeLoop, ih hl, dropLastSpace, spell_cons, List.flatMap_append, ← hq]
    simp [hn, pure, Except.pure, bind, Except.bind]

/-- `list_stringize` makes the string of the spellings, but for a space at either end. -/
theorem listStringize_eq {l : List Token} (h : ∀ t ∈ l, t.Quotable) :
    listStringize l = .ok (tokenString (spell (dropLastSpace (dropFirstSpace l)))) := by
  have hloop : stringizeLoop true l =
      .ok ((spell (dropLastSpace (dropFirstSpace l))).flatMap backslash) := by
    cases l with
    | nil => rfl
    | cons t l =>
      obtain ⟨⟨hn, hq⟩, hl⟩ := List.forall_mem_cons.mp h
      by_cases ht : t.cls = .space
      · rw [stringizeLoop, stringizeLoop_false hl]
        simp [ht, TokenClass.noText, dropFirstSpace, listFirstIs, pure, Except.pure, bind,
          Except.bind]
      · have hfirst : dropFirstSpace (t :: l) = t :: l := by simp [dropFirstSpace, listFirstIs, ht]
        rw [hfirst, ← stringizeLoop_false h, stringizeLoop, stringizeLoop]
        simp [ht]
  rw [listStringize, hloop]
  rfl

/-- The compiler reads back what `token_string` was given. -/
theorem lexToken_tokenString {F : Type} (libc : Lex.Libc F) {s : List Char}
    (h : ∀ c ∈ s, IsSource c) {tail : List Char}
    (htail : headIs (· == '"') (tail.dropWhile isspace) = false) :
    Lex.lexToken libc ((tokenString s).text.toList ++ tail) =
      .ok (⟨.strlit, .text (s.map Char.toNat)⟩, tail) := by
  obtain ⟨l, htext, hcodes, hsep⟩ : ∃ l : List Lex.StrChar, Lex.textOf l = s.flatMap backslash ∧
      Lex.codesOf l = s.map Char.toNat ∧ Lex.Separated l := by
    induction s with
    | nil => exact ⟨[], rfl, rfl, trivial⟩
    | cons c s ih =>
      obtain ⟨hc, hs⟩ := List.forall_mem_cons.mp h
      obtain ⟨l, htext, hcodes, hsep⟩ := ih hs
      obtain ⟨i, hbody, hcode, hends⟩ : ∃ i : Lex.StrChar, i.body = backslash c ∧
          i.code = c.toNat ∧ ∀ d, i.endsBefore d = true := by
        by_cases hq : c = '"'
        · subst hq
          exact ⟨.simple '"' 34 rfl, rfl, rfl, fun _ => rfl⟩
        · by_cases hb : c = '\\'
          · subst hb
            exact ⟨.simple '\\' 92 rfl, rfl, rfl, fun _ => rfl⟩
          · exact ⟨.plain c ⟨hq, hb, hc.2.1, hc.1, hc.2.2⟩, by simp [backslash, hq, hb,
              Lex.StrChar.body], rfl, fun _ => rfl⟩
      exact ⟨i :: l, by rw [Lex.textOf_cons, hbody, htext, List.flatMap_cons],
        by rw [Lex.codesOf_cons, hcode, hcodes, List.map_cons], hends _, hsep⟩
  have hlex := Lex.lexToken_literals libc ⟨l, hsep⟩ [] tail htail
  simp only [Lex.Literal.spelling, Lex.Literal.bytes, htext, hcodes, Lex.laterText_nil,
    List.nil_append, List.flatMap_nil, List.append_nil] at hlex
  rw [tokenString, String.toList_ofList]
  exact hlex

/-! ### White space at the ends -/

theorem dropLastSpace_concat (l : List Token) (t : Token) :
    dropLastSpace (l ++ [t]) = if t.cls = .space then l else l ++ [t] := by
  induction l with
  | nil => rfl
  | cons u l ih =>
    obtain ⟨v, l', hl⟩ := List.exists_cons_of_ne_nil (by simp : l ++ [t] ≠ [])
    rw [List.cons_append, hl, dropLastSpace, ← hl, ih]
    split <;> rfl

theorem dropLastSpace_eq (l : List Token) :
    dropLastSpace l = (dropFirstSpace l.reverse).reverse := by
  induction l using List.reverseRecOn with
  | nil => rfl
  | append_singleton l t _ =>
    rw [dropLastSpace_concat, List.reverse_append, List.reverse_singleton, List.singleton_append]
    by_cases h : t.cls = .space <;> simp [dropFirstSpace, listFirstIs, h]

theorem listFirstIs_trimEnds (l : List Token) :
    listFirstIs (trimEnds l) .space = false ∧ listFirstIs (trimEnds l).reverse .space = false := by
  constructor
  · cases h : trimEnds l with
    | nil => rfl
    | cons t l' =>
      obtain ⟨post, hpost⟩ := List.rdropWhile_prefix (·.cls == .space)
        (l.dropWhile (·.cls == .space))
      have hdrop : l.dropWhile (·.cls == .space) = t :: (l' ++ post) := by
        rw [← hpost, ← trimEnds, h]
        rfl
      have hhead := List.head?_dropWhile_not (·.cls == .space) l
      rw [hdrop] at hhead
      exact hhead
  · rw [trimEnds, List.rdropWhile, List.reverse_reverse]
    have hhead := List.head?_dropWhile_not (·.cls == .space)
      (l.dropWhile (·.cls == .space)).reverse
    cases h : (l.dropWhile (·.cls == .space)).reverse.dropWhile (·.cls == .space) with
    | nil => rfl
    | cons t l' =>
      rw [h] at hhead
      exact hhead

theorem getLast?_foldSpaces {l : List Token} {t : Token} (ht : t.cls ≠ .space)
    (h : l.getLast? = some t) : ∀ after, (foldSpaces after l).getLast? = some t := by
  induction l with
  | nil => cases h
  | cons u l ih =>
    intro after
    rcases List.eq_nil_or_concat l with rfl | ⟨l', v, rfl⟩
    · obtain rfl : u = t := by simpa using h
      simp [foldSpaces, ht]
    · rw [List.concat_eq_append, ← List.cons_append, List.getLast?_concat] at h
      have hl := ih (by rw [List.concat_eq_append, List.getLast?_concat, h])
      rw [foldSpaces]
      split
      · split
        · exact hl true
        · rw [List.getLast?_cons, hl]
          rfl
      · rw [List.getLast?_cons, hl]
        rfl

/-- An argument has no white space at its ends that `list_stringize` could leave out. -/
theorem dropSpaces_argument (l : List Token) :
    dropLastSpace (dropFirstSpace (argument l)) = argument l := by
  obtain ⟨hfirst, hlast⟩ := listFirstIs_trimEnds l
  have hend : ∀ m : List Token, listFirstIs m .space = false →
      listFirstIs m.reverse .space = false → dropLastSpace (dropFirstSpace m) = m := by
    intro m h₁ h₂
    have hd : dropFirstSpace m = m := by rw [dropFirstSpace, h₁, if_neg Bool.false_ne_true]
    rw [hd, dropLastSpace_eq, dropFirstSpace, h₂, if_neg Bool.false_ne_true, List.reverse_reverse]
  rw [argument, listStripEnds_eq, listFoldSpaces]
  cases h : trimEnds l with
  | nil => rfl
  | cons t l' =>
    rw [h] at hfirst hlast
    have ht : t.cls ≠ .space := by simpa [listFirstIs] using hfirst
    have hfold : foldSpaces false (t :: l') = t :: foldSpaces false l' := by
      rw [foldSpaces, if_neg ht]
    obtain ⟨m, u, hu⟩ := List.eq_nil_or_concat (t :: l') |>.resolve_left (by simp)
    have hne : u.cls ≠ .space := by
      rw [hu] at hlast
      simpa [listFirstIs] using hlast
    obtain ⟨m', hm'⟩ : ∃ m', foldSpaces false (t :: l') = m' ++ [u] :=
      List.getLast?_eq_some_iff.mp (getLast?_foldSpaces hne (by rw [hu]; simp) false)
    have hph : listPlaceholder (foldSpaces false (t :: l')) = foldSpaces false (t :: l') := by
      rw [hfold]
      rfl
    rw [hph]
    refine hend _ ?_ ?_
    · rw [hfold]
      simpa [listFirstIs] using ht
    · rw [hm']
      simpa [listFirstIs] using hne

/-- A run of white space is one token. -/
theorem inputTokenize_isChain {s : List Char} {ts : List Token} (h : inputTokenize s = .ok ts) :
    ts.IsChain fun t u => t.cls = .space → u.cls ≠ .space := by
  induction ts generalizing s with
  | nil => exact List.isChain_nil
  | cons t ts ih =>
    have hs : s ≠ [] := by
      rintro rfl
      cases h
    obtain ⟨t', r, ts', ht, hr, he⟩ := inputTokenize_ok h hs
    cases he
    cases ts with
    | nil => exact List.isChain_singleton t
    | cons u ts =>
      refine List.isChain_cons_cons.mpr ⟨fun hsp hu => ?_, ih hr⟩
      have hr' : r ≠ [] := by
        rintro rfl
        cases hr
      obtain ⟨u', r', us, hut, -, he⟩ := inputTokenize_ok hr hr'
      cases he
      obtain ⟨⟨cls, w, r₁⟩, hw, he⟩ := map_ok.mp ht
      cases he
      obtain ⟨⟨cls', w', r₂⟩, hw', he⟩ := map_ok.mp hut
      cases he
      obtain rfl : cls = .space := hsp
      obtain rfl : cls' = .space := hu
      obtain ⟨c, v, rfl, hb⟩ := spells_cons (scanText_spells hw') (scanText_ok hw').2
      have hgrows : headIs isspace r = false := (scanText_self hw).2
      rw [(scanText_ok hw').1] at hgrows
      simp only [List.cons_append, headIs, begins_isspace hb] at hgrows
      cases hgrows

/-- Where no two tokens of white space meet, `list_stringize` leaves out all of it that there is at
    the ends. -/
theorem dropSpaces_eq {l : List Token}
    (h : l.IsChain fun t u => t.cls = .space → u.cls ≠ .space) :
    dropLastSpace (dropFirstSpace l) = trimEnds l := by
  have hdrop : ∀ l : List Token, (l.IsChain fun t u => t.cls = .space → u.cls ≠ .space) →
      dropFirstSpace l = l.dropWhile (·.cls == .space) := by
    intro l h
    cases l with
    | nil => rfl
    | cons t l =>
      by_cases ht : t.cls = .space
      · cases l with
        | nil => simp [dropFirstSpace, listFirstIs, ht]
        | cons u l =>
          have hu := (List.isChain_cons_cons.mp h).1 ht
          simp [dropFirstSpace, listFirstIs, ht, hu]
      · simp [dropFirstSpace, listFirstIs, ht]
  have hchain : (l.dropWhile (·.cls == .space)).reverse.IsChain fun t u =>
      t.cls = .space → u.cls ≠ .space := by
    have hsuffix := h.suffix (List.dropWhile_suffix (·.cls == .space))
    exact List.isChain_reverse.mpr (hsuffix.imp fun t u htu hu ht => htu ht hu)
  rw [dropLastSpace_eq, hdrop l h, hdrop _ hchain, trimEnds, List.rdropWhile]

/-! ### The round trip -/

theorem mem_foldSpaces {l : List Token} {t : Token} : ∀ {after : Bool}, t ∈ foldSpaces after l →
    t ∈ l ∨ (t.cls = .space ∧ t.text = " ") := by
  induction l with
  | nil => exact fun h => nomatch h
  | cons u l ih =>
    intro after h
    rw [foldSpaces] at h
    have hrest : ∀ {b}, t ∈ foldSpaces b l → t ∈ u :: l ∨ (t.cls = .space ∧ t.text = " ") :=
      fun h => (ih h).imp_left (List.mem_cons_of_mem u)
    split at h
    · next hu =>
      split at h
      · exact hrest h
      · rcases List.mem_cons.mp h with rfl | h
        · exact .inr ⟨hu, rfl⟩
        · exact hrest h
    · rcases List.mem_cons.mp h with rfl | h
      · exact .inl (List.mem_cons_self ..)
      · exact hrest h

theorem mem_trimEnds {l : List Token} {t : Token} (h : t ∈ trimEnds l) : t ∈ l :=
  (List.dropWhile_sublist _).subset ((List.rdropWhile_prefix _ _).subset h)

/-- The tokens of an argument are among those gathered, but for folded white space and the
    placeholder. -/
theorem mem_argument {l : List Token} {t : Token} (h : t ∈ argument l) :
    t ∈ l ∨ (t.cls = .space ∧ t.text = " ") ∨ t = { cls := .other } := by
  rw [argument, listPlaceholder] at h
  split at h
  · exact .inr (.inr (List.mem_singleton.mp h))
  · rw [listStripEnds_eq] at h
    rcases mem_foldSpaces h with h | h
    · exact .inl (mem_trimEnds h)
    · exact .inr (.inl h)

theorem spell_argument (l : List Token) : spell (argument l) = spellFolded (trimEnds l) := by
  rw [← (spell_foldSpaces (trimEnds l)).1, ← listStripEnds_eq, argument, listFoldSpaces,
    listPlaceholder]
  split
  · next h =>
    rw [List.isEmpty_iff.mp h]
    decide
  · rfl

/-- Stringizing an argument and reading the literal gives the spellings of its tokens, white space
    folded and none at the ends. A list that has not been through `gather` keeps its inner white
    space. -/
theorem stringize_strlit {F : Type} (libc : Lex.Libc F) {ts : List Token}
    (hscan : ∀ t ∈ ts, t.Scanned) (hstray : ∀ t ∈ ts, t.cls = .other → t.text ≠ "\\")
    {tail : List Char} (htail : headIs (· == '"') (tail.dropWhile isspace) = false) :
    (∃ str, listStringize (argument ts) = .ok str ∧
      Lex.lexToken libc (str.text.toList ++ tail) =
        .ok (⟨.strlit, .text ((spellFolded (trimEnds ts)).map Char.toNat)⟩, tail)) ∧
    ∀ s, inputTokenize s = .ok ts → ∃ str, listStringize ts = .ok str ∧
      Lex.lexToken libc (str.text.toList ++ tail) =
        .ok (⟨.strlit, .text ((spell (trimEnds ts)).map Char.toNat)⟩, tail) := by
  have hspace : " ".toList = [' '] := by decide +kernel
  have hq : ∀ t ∈ ts, t.Quotable := fun t ht => (hscan t ht).quotable (hstray t ht)
  constructor
  · have hqa : ∀ t ∈ argument ts, t.Quotable ∧ ∀ c ∈ t.text.toList, IsSource c := by
      intro t ht
      rcases mem_argument ht with ht | ⟨hsp, htext⟩ | rfl
      · exact ⟨hq t ht, (hscan t ht).source⟩
      · refine ⟨⟨by rw [hsp]; rfl, ?_⟩, ?_⟩
        · rw [stringizeText, hsp, htext, hspace]
          decide
        · rw [htext, hspace]
          intro c hc
          obtain rfl := List.mem_singleton.mp hc
          exact ⟨by decide, by decide, by decide⟩
      · exact ⟨⟨rfl, by decide⟩, by simp⟩
    refine ⟨_, listStringize_eq fun t ht => (hqa t ht).1, ?_⟩
    rw [dropSpaces_argument, ← spell_argument]
    refine lexToken_tokenString libc (fun c hc => ?_) htail
    obtain ⟨t, ht, hc⟩ := List.mem_flatMap.mp hc
    exact (hqa t ht).2 c hc
  · intro s hs
    refine ⟨_, listStringize_eq hq, ?_⟩
    rw [dropSpaces_eq (inputTokenize_isChain hs)]
    refine lexToken_tokenString libc (fun c hc => ?_) htail
    obtain ⟨t, ht, hc⟩ := List.mem_flatMap.mp hc
    exact (hscan t (mem_trimEnds ht)).source c hc

theorem scanned_of {t : Token} {s : List Char} (hs : s.all fun c => decide (IsSource c))
    (h : (tokenScan s).toOption = some (t, [])) : t.Scanned := by
  refine ⟨s, [], fun c hc => of_decide_eq_true (List.all_eq_true.mp hs c hc), ?_⟩
  cases ht : tokenScan s with
  | error m =>
    rw [ht] at h
    cases h
  | ok p =>
    rw [ht] at h
    rw [Option.some.inj h]

/-- The tokens of `a  "\"\n"`. -/
def escapes : List Token :=
  [{ cls := .ident, text := "a" }, { cls := .space, text := "  " },
    { cls := .string, text := "\"\\\"\\n\"" }]

theorem escapes_scanned : ∀ t ∈ escapes, t.Scanned := by
  refine List.forall_mem_cons.mpr ⟨@scanned_of _ ['a'] (by decide) (by decide +kernel), ?_⟩
  refine List.forall_mem_cons.mpr ⟨@scanned_of _ [' ', ' '] (by decide) (by decide +kernel), ?_⟩
  exact List.forall_mem_singleton.mpr
    (@scanned_of _ ['"', '\\', '"', '\\', 'n', '"'] (by decide) (by decide +kernel))

/-- `a  "\"\n"` as the argument of #, in front of a semicolon. -/
theorem stringize_strlit_escapes :
    ∃ str, listStringize (argument escapes) = .ok str ∧
      Lex.lexToken Lex.wholeText (str.text.toList ++ [';']) =
        .ok (⟨.strlit, .text [97, 32, 34, 92, 34, 92, 110, 34]⟩, [';']) :=
  (stringize_strlit Lex.wholeText escapes_scanned (by decide) rfl).1

/-- The tokens of `a  b`. -/
def twoSpaces : List Token :=
  [{ cls := .ident, text := "a" }, { cls := .space, text := "  " }, { cls := .ident, text := "b" }]

theorem twoSpaces_scanned : ∀ t ∈ twoSpaces, t.Scanned := by
  refine List.forall_mem_cons.mpr ⟨@scanned_of _ ['a'] (by decide) (by decide +kernel), ?_⟩
  refine List.forall_mem_cons.mpr ⟨@scanned_of _ [' ', ' '] (by decide) (by decide +kernel), ?_⟩
  exact List.forall_mem_singleton.mpr (@scanned_of _ ['b'] (by decide) (by decide +kernel))

/-- `list_stringize` itself folds nothing: of `a  b` it makes a literal with two spaces. -/
theorem listStringize_unfolded : ¬ ∀ ts : List Token, (∀ t ∈ ts, t.Scanned) →
    (∀ t ∈ ts, t.cls = .other → t.text ≠ "\\") →
    ∃ str, listStringize ts = .ok str ∧ Lex.lexToken Lex.wholeText str.text.toList =
      .ok (⟨.strlit, .text ((spellFolded (trimEnds ts)).map Char.toNat)⟩, []) := by
  intro h
  obtain ⟨str, hstr, hlex⟩ := h twoSpaces twoSpaces_scanned (by decide)
  rw [listStringize_eq fun t ht => (twoSpaces_scanned t ht).quotable
    ((by decide : ∀ t ∈ twoSpaces, t.cls = .other → t.text ≠ "\\") t ht)] at hstr
  have hsource : ∀ c ∈ ['a', ' ', ' ', 'b'], IsSource c := by simp [IsSource]
  have hread := @lexToken_tokenString _ Lex.wholeText _ hsource [] rfl
  have hspell : spell (dropLastSpace (dropFirstSpace twoSpaces)) = ['a', ' ', ' ', 'b'] := by
    decide +kernel
  rw [hspell] at hstr
  rw [List.append_nil, Except.ok.inj hstr, hlex] at hread
  exact absurd hread (by decide +kernel)

end Ncc.Cpp
