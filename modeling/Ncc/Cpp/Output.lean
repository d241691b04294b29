import Ncc.Cpp.Scan

/-! What the preprocessor writes, and what it reads back as (cpp/token.c, cpp/cpp.c).

    `output` puts a space between two tokens where `token_separate` asks for one. It goes by their
    classes alone. The text of a list scans as that list, white space apart, unless two neighbours
    merge (`output_rescans_iff`): those that `token_separate` lets pass although the second begins
    with a character that the first goes on with are exactly `Merges`. -/

namespace Ncc.Cpp

/-- The part of `token_separate` that goes by the table of modifiers. -/
def separateOperator (first second : TokenClass) : Bool :=
  (first.eq'.isSome && (second == .eq || second == .eqeq)) ||
  match first.dup with
  | none => false
  | some dup =>
    second == first || second == dup || first.eq' == some second ||
      dup.dup == some second || dup.eq' == some second

/-- `token_separate`. -/
def tokenSeparate (first second : TokenClass) : Bool :=
  match first with
  | .ident =>
    second == .ident || second == .number ||
      (second == .ident || second == .number || second == .dot || second == .ellip)
  | .number => second == .ident || second == .number || second == .dot || second == .ellip
  | .dot => second == .dot || second == .ellip || second == .number
  | .minus =>
    second == .gt || second == .gteq || second == .shr || second == .shreq ||
      separateOperator .minus second
  | first => separateOperator first second

/-- A class without a text, as `%x` prints it. -/
def TokenClass.hex : TokenClass → String
  | .int => "80000038"
  | .uint => "80000039"
  | .arg => "8000003a"
  | _ => ""

/-- `output`, without taking the token off its list: what is written, and `last_class` after it. -/
def output (lastClass : Option TokenClass) (t : Token) :
    Except String (List Char × Option TokenClass) :=
  if t.cls.noText then
    .error ("CPP INTERNAL: attempt to output non-text token " ++ t.cls.hex)
  else
    let space := if lastClass.any (tokenSeparate · t.cls) then [' '] else []
    if t.text = "" then .ok (space, lastClass) else .ok (space ++ t.text.toList, some t.cls)

/-- The text of a line that is written token by token. -/
def outputs : Option TokenClass → List Token → Except String (List Char)
  | _, [] => .ok []
  | lastClass, t :: l => do
    let (s, lastClass) ← output lastClass t
    let r ← outputs lastClass l
    return s ++ r

/-- `token_paste`. -/
def tokenPaste (t₁ t₂ : Token) : Except String Token :=
  if t₁.cls.noText || t₂.cls.noText then .error "CPP INTERNAL: can't get text of non-text token"
  else do
    let vs := t₁.text.toList ++ t₂.text.toList
    let (t, r) ← tokenScan vs
    if !r.isEmpty || t.cls.notC then
      throw ("result of paste (##) '" ++ String.ofList vs ++ "' is not a token")
    return t

/-- `token_string`. -/
def tokenString (s : List Char) : Token :=
  { cls := .string, text := String.ofList ('"' :: s.flatMap backslash ++ ['"']) }

/-- The class is the one scanned, but that an identifier may be marked as not to be replaced. -/
def Marks (scanned cls : TokenClass) : Prop := cls = scanned ∨ scanned = .ident ∧ cls = .other

/-- The text of the token scans as the token. -/
def Token.Rereads (t : Token) : Prop :=
  ∃ cls, scanText t.text.toList = .ok (cls, t.text.toList, []) ∧ Marks cls t.cls

/-- An identifier that is marked as not to be replaced (`list_ennervate`). -/
def Token.inert (t : Token) : Bool :=
  t.cls == .other && headIs TokenClass.ident.begins t.text.toList

/-- Neighbours that `token_separate` lets pass and that scan as something else: a number that ends
    in E before a sign, `-` before `->`, and marked identifiers beside identifiers and numbers. -/
def Merges (t₁ t₂ : Token) : Bool :=
  (t₁.cls == .minus && t₂.cls == .arrow) ||
  (t₁.cls == .number && endsInE t₁.text.toList && headIs isSign t₂.text.toList) ||
  ((t₁.cls == .ident || t₁.cls == .number || t₁.inert) && t₂.inert) ||
  (t₁.inert && (t₂.cls == .ident || t₂.cls == .number))

/-! ### Neighbours -/

theorem begins_eq {cls : TokenClass} (h : cls.begins '=') : cls = .eq ∨ cls = .eqeq := by
  cases cls <;> first | exact .inl rfl | exact .inr rfl | exact absurd h (by decide)

theorem separateOperator_eq {c₁ c₂ : TokenClass} (h₁ : c₁.eq'.isSome) (h₂ : c₂.begins '=') :
    separateOperator c₁ c₂ := by
  rcases begins_eq h₂ with rfl | rfl <;> simp [separateOperator, h₁]

/-- What a token of the first class goes on with makes `token_separate` ask for a space. -/
theorem separateOperator_dup {c₁ c₂ : TokenClass} (h₁ : c₁.dup.isSome)
    (h₂ : c₂.begins (c₁.spelling.headD ' ')) :
    separateOperator c₁ c₂ ∨ c₁ = .minus ∧ c₂ = .arrow := by
  cases c₁ <;> first
    | exact absurd h₁ (by decide)
    | cases c₂ <;> first
        | exact absurd h₂ (by decide)
        | exact .inl (by decide)
        | exact .inr ⟨rfl, rfl⟩

theorem begins_static {cls : TokenClass} {c : Char} (h : cls.begins c) :
    cls.spelling.head? = some c ∨ cls ∈ [.ident, .number, .space, .string, .char, .other] := by
  cases cls <;> first | exact .inr (by decide) | exact .inl (eq_of_beq h)

theorem spelling_not_isIdent {cls : TokenClass} {c : Char} (h : cls.spelling.head? = some c) :
    isIdent c = false := by
  cases cls <;> cases h <;> decide

theorem spelling_not_isspace {cls : TokenClass} {c : Char} (h : cls.spelling.head? = some c) :
    isspace c = false := by
  cases cls <;> cases h <;> decide

theorem isspace_not_isIdent {c : Char} (h : isspace c) : isIdent c = false := by
  simp only [isspace, Bool.or_eq_true, beq_iff_eq] at h
  rcases h with ((((rfl | rfl) | rfl) | rfl) | rfl) | rfl <;> decide

theorem begins_other {c : Char} (h : TokenClass.other.begins c) :
    isIdent c = false ∧ isspace c = false := by
  simp only [TokenClass.begins, Bool.or_eq_true, beq_iff_eq] at h
  rcases h with ((rfl | rfl) | rfl) | rfl <;> decide

/-- Only an identifier or a number begins with a character that an identifier goes on with. -/
theorem begins_isIdent_iff {cls : TokenClass} {c : Char} (h : cls.begins c) :
    isIdent c ↔ cls = .ident ∨ cls = .number := by
  rcases begins_static h with hs | hs
  · rw [spelling_not_isIdent hs]
    refine iff_of_false (by decide) ?_
    rintro (rfl | rfl) <;> cases hs
  · simp only [List.mem_cons, List.not_mem_nil, or_false] at hs
    rcases hs with rfl | rfl | rfl | rfl | rfl | rfl
    · exact iff_of_true (begins_isIdent h) (.inl rfl)
    · refine iff_of_true ?_ (.inr rfl)
      have hd : c.isDigit = true := h
      simp [isIdent, Char.isAlphanum, hd]
    · rw [isspace_not_isIdent (begins_isspace h)]
      decide
    · obtain rfl : c = '"' := eq_of_beq h
      decide
    · obtain rfl : c = '\'' := eq_of_beq h
      decide
    · rw [(begins_other h).1]
      decide

theorem begins_isspace_iff {cls : TokenClass} {c : Char} (h : cls.begins c) :
    isspace c ↔ cls = .space := by
  rcases begins_static h with hs | hs
  · rw [spelling_not_isspace hs]
    refine iff_of_false (by decide) ?_
    rintro rfl
    cases hs
  · simp only [List.mem_cons, List.not_mem_nil, or_false] at hs
    have word : ∀ {c : Char}, isIdent c → isspace c = false := by
      intro c hc
      cases hsp : isspace c
      · rfl
      · exact absurd hc (by simp [isspace_not_isIdent hsp])
    rcases hs with rfl | rfl | rfl | rfl | rfl | rfl
    · simp [word (begins_isIdent h)]
    · simp [word ((begins_isIdent_iff h).mpr (.inr rfl))]
    · exact iff_of_true (begins_isspace h) rfl
    · obtain rfl : c = '"' := eq_of_beq h
      decide
    · obtain rfl : c = '\'' := eq_of_beq h
      decide
    · rw [(begins_other h).2]
      decide

theorem begins_period {cls : TokenClass} (h : cls.begins '.') : cls = .dot ∨ cls = .ellip := by
  cases cls <;> first | exact .inl rfl | exact .inr rfl | exact absurd h (by decide)

theorem begins_isNumber_iff {cls : TokenClass} {c : Char} (h : cls.begins c) :
    isNumber c ↔ cls = .ident ∨ cls = .number ∨ cls = .dot ∨ cls = .ellip := by
  have hn : isNumber c ↔ isIdent c ∨ c = '.' := by
    simp only [isNumber, isIdent, Bool.or_eq_true, beq_iff_eq]
    tauto
  rw [hn, begins_isIdent_iff h]
  constructor
  · rintro ((h' | h') | rfl)
    · exact .inl h'
    · exact .inr (.inl h')
    · rcases begins_period h with h' | h' <;> simp [h']
  · rintro (h' | h' | rfl | rfl)
    · exact .inl (.inl h')
    · exact .inl (.inr h')
    · exact .inr (Option.some.inj (eq_of_beq h)).symm
    · exact .inr (Option.some.inj (eq_of_beq h)).symm

theorem begins_gt {cls : TokenClass} (h : cls.begins '>') :
    tokenSeparate .minus cls = true := by
  cases cls <;> first | decide | exact absurd h (by decide)

theorem tokenSeparate_plain {c₁ : TokenClass} (h : c₁.plain) (c₂ : TokenClass) :
    tokenSeparate c₁ c₂ = separateOperator c₁ c₂ := by
  cases c₁ <;> first | rfl | cases h

theorem separateOperator_ident (c : TokenClass) : separateOperator c .ident = false := by
  cases c <;> decide

theorem separateOperator_marks {c c₂ cls : TokenClass} (hm : Marks c₂ cls)
    (h : separateOperator c c₂) : separateOperator c cls := by
  rcases hm with rfl | ⟨rfl, -⟩
  · exact h
  · exact absurd h (by simp [separateOperator_ident])

theorem growsOp_separates {c₁ c₂ cls : TokenClass} {d : Char} {w : List Char} (hb : c₂.begins d)
    (hm : Marks c₂ cls) (h : growsOp (c₁.spelling.headD ' ') c₁ (d :: w)) :
    separateOperator c₁ cls ∨ c₁ = .minus ∧ cls = .arrow := by
  simp only [growsOp, headIs, Bool.or_eq_true, Bool.and_eq_true, beq_iff_eq] at h
  rcases h with ⟨rfl, hd⟩ | ⟨rfl, he⟩
  · rcases separateOperator_dup hd hb with hs | ⟨rfl, rfl⟩
    · exact .inl (separateOperator_marks hm hs)
    · rcases hm with rfl | ⟨h, -⟩
      · exact .inr ⟨rfl, rfl⟩
      · cases h
  · exact .inl (separateOperator_marks hm (separateOperator_eq he hb))

/-- A token of a text that spells its class, with its first character. -/
theorem spells_cons {cls : TokenClass} {t : List Char} (h : cls.Spells t) (ht : t ≠ []) :
    ∃ c w, t = c :: w ∧ cls.begins c := by
  obtain ⟨c, w, rfl⟩ := List.exists_cons_of_ne_nil ht
  refine ⟨c, w, rfl, ?_⟩
  unfold TokenClass.Spells at h
  split at h
  · exact h
  · have hc : cls.spelling.head? = some c := by rw [← h]; rfl
    cases cls <;> first | exact beq_iff_eq.mpr hc | cases hc

theorem growsOp_text {c₁ : TokenClass} {t r : List Char} (h : c₁.Spells t) :
    growsOp (t.headD ' ') c₁ r = growsOp (c₁.spelling.headD ' ') c₁ r := by
  unfold TokenClass.Spells at h
  split at h
  · next hs =>
    have hd : c₁.dup = none ∧ c₁.eq' = none := by
      cases c₁ <;> first | exact ⟨rfl, rfl⟩ | cases hs
    rw [growsOp_none _ hd.1 hd.2, growsOp_none _ hd.1 hd.2]
  · rw [← h]

theorem inert_iff {t : Token} {cls : TokenClass} {c : Char} {w : List Char}
    (ht : t.text.toList = c :: w) (hb : cls.begins c) (hm : Marks cls t.cls) :
    t.inert ↔ cls = .ident ∧ t.cls = .other := by
  simp only [Token.inert, ht, headIs, Bool.and_eq_true, beq_iff_eq]
  constructor
  · rintro ⟨ho, hi⟩
    refine ⟨?_, ho⟩
    rcases (begins_isIdent_iff hb).mp (begins_isIdent hi) with h | rfl
    · exact h
    · rcases hm with h | ⟨h, -⟩
      · cases ho.symm.trans h
      · cases h
  · rintro ⟨rfl, ho⟩
    exact ⟨ho, hb⟩

/-- Where `token_separate` asks for no space, the first token goes on with the second exactly where
    the two merge, or where both are white space. -/
theorem grows_iff_merges {t₁ t₂ : Token} {c₁ c₂ : TokenClass}
    (h₁ : scanText t₁.text.toList = .ok (c₁, t₁.text.toList, [])) (m₁ : Marks c₁ t₁.cls)
    (h₂ : scanText t₂.text.toList = .ok (c₂, t₂.text.toList, [])) (m₂ : Marks c₂ t₂.cls)
    (hsep : tokenSeparate t₁.cls t₂.cls = false) (r : List Char) :
    grows c₁ t₁.text.toList (t₂.text.toList ++ r) ↔
      Merges t₁ t₂ ∨ c₁ = .space ∧ c₂ = .space := by
  obtain ⟨b, v, hv, hb⟩ := spells_cons (scanText_spells h₁) (scanText_ok h₁).2
  obtain ⟨d, w, hw, hd⟩ := spells_cons (scanText_spells h₂) (scanText_ok h₂).2
  have i₁ := inert_iff hv hb m₁
  have i₂ := inert_iff hw hd m₂
  have hident := begins_isIdent_iff hd
  simp only [Merges, Bool.or_eq_true, Bool.and_eq_true, beq_iff_eq, i₁, i₂]
  rw [hw, List.cons_append]
  rcases m₁ with m₁ | ⟨rfl, m₁⟩
  · rw [m₁] at hsep ⊢
    by_cases hp : c₁.plain
    · have hg := growsOp_text (scanText_spells h₁) (r := d :: (w ++ r))
      rw [grows_plain hp, hg]
      rw [tokenSeparate_plain hp] at hsep
      constructor
      · intro h
        rcases growsOp_separates hd m₂ h with hs | ⟨rfl, -⟩
        · cases hsep.symm.trans hs
        · cases hp
      · intro h
        cases c₁ <;> simp_all [TokenClass.plain]
    · obtain rfl | rfl | rfl | rfl | rfl : c₁ = .ident ∨ c₁ = .space ∨ c₁ = .number ∨ c₁ = .dot ∨
          c₁ = .minus := by
        cases c₁ <;> simp_all [TokenClass.plain]
      · simp only [grows, headIs, hident]
        rcases m₂ with m₂ | ⟨rfl, m₂⟩
        · rw [m₂] at hsep ⊢
          cases c₂ <;> simp_all [tokenSeparate]
        · rw [m₂]
          simp
      · simp only [grows, headIs, begins_isspace_iff hd]
        simp
      · have hnum : isNumber d ↔ c₂ = .ident ∨ c₂ = .number ∨ c₂ = .dot ∨ c₂ = .ellip :=
          begins_isNumber_iff hd
        simp only [grows, Bool.or_eq_true, Bool.and_eq_true, headIs, hnum]
        rcases m₂ with m₂ | ⟨rfl, m₂⟩
        · rw [m₂] at hsep ⊢
          cases c₂ <;> simp_all [tokenSeparate]
        · rw [m₂]
          simp
      · simp only [grows]
        refine iff_of_false ?_ (by simp)
        intro h
        have hdot : d = '.' := by
          cases w <;> cases r <;> simp_all [dots]
        subst hdot
        rcases m₂ with m₂ | ⟨rfl, m₂⟩
        · rw [m₂] at hsep
          rcases begins_period hd with rfl | rfl <;> cases hsep
        · cases hd
      · simp only [grows, Bool.or_eq_true]
        constructor
        · rintro (h | h)
          · obtain rfl : d = '>' := eq_of_beq h
            have hs := begins_gt hd
            rcases m₂ with m₂ | ⟨rfl, m₂⟩
            · rw [m₂] at hsep
              cases hsep.symm.trans hs
            · cases hd
          · have hgo : growsOp (TokenClass.minus.spelling.headD ' ') .minus (d :: (w ++ r)) := h
            rcases growsOp_separates hd m₂ hgo with hs | ⟨-, ha⟩
            · simp [tokenSeparate, hs] at hsep
            · simp [ha]
        · intro h
          have ha : t₂.cls = .arrow := by simpa using h
          rcases m₂ with m₂ | ⟨-, m₂⟩
          · rw [ha] at m₂
            subst m₂
            obtain rfl : '-' = d := Option.some.inj (eq_of_beq hd)
            exact .inr rfl
          · cases ha.symm.trans m₂
  · rw [m₁] at hsep ⊢
    simp only [grows, headIs, hident]
    rcases m₂ with m₂ | ⟨rfl, m₂⟩
    · rw [m₂]
      cases c₂ <;> simp
    · rw [m₂]
      simp

/-! ### Reading back -/

/-- The token scanned is the one written, but for its mark. -/
def Reads (scanned t : Token) : Prop := scanned.text = t.text ∧ Marks scanned.cls t.cls

/-- The text scans as exactly these tokens. -/
def ReadsAs (s : List Char) (l : List Token) : Prop :=
  ∃ ts, inputTokenize s = .ok ts ∧ List.Forall₂ Reads ts l

/-- White space. -/
def Token.isSpace (t : Token) : Bool := t.cls == .space

/-- The text scans as these tokens, white space apart. -/
def Rescans (s : List Char) (l : List Token) : Prop :=
  ∃ ts, inputTokenize s = .ok ts ∧
    List.Forall₂ Reads (ts.filter (!·.isSpace)) (l.filter (!·.isSpace))

theorem begins_not_newline {cls : TokenClass} : ¬ cls.begins '\n' := by
  cases cls <;> decide

theorem begins_noText {cls : TokenClass} {c : Char} (h : cls.begins c) : cls.noText = false := by
  cases cls <;> first | rfl | cases h

theorem tokenScan_ok {s : List Char} {cls : TokenClass} {t r : List Char}
    (h : scanText s = .ok (cls, t, r)) :
    tokenScan s = .ok ({ cls := cls, text := String.ofList t }, r) := by
  rw [tokenScan, h]
  rfl

/-- Every token scanned scans as itself. -/
theorem inputTokenize_self {s : List Char} {ts : List Token} (h : inputTokenize s = .ok ts) :
    ∀ t ∈ ts, scanText t.text.toList = .ok (t.cls, t.text.toList, []) := by
  induction ts generalizing s with
  | nil => exact List.forall_mem_nil _
  | cons t ts ih =>
    have hs : s ≠ [] := by
      rintro rfl
      cases h
    obtain ⟨t', r, l, ht, hr, he⟩ := inputTokenize_ok h hs
    cases he
    refine List.forall_mem_cons.mpr ⟨?_, ih hr⟩
    obtain ⟨⟨cls, w, r'⟩, hw, he⟩ := map_ok.mp ht
    cases he
    simpa using (scanText_self hw).1

/-- A token is read back first exactly where the rest does not extend it. -/
theorem readsAs_cons {t : Token} {cls : TokenClass} {r : List Char} {l : List Token}
    (h : scanText t.text.toList = .ok (cls, t.text.toList, [])) (hm : Marks cls t.cls) :
    ReadsAs (t.text.toList ++ r) (t :: l) ↔ grows cls t.text.toList r = false ∧ ReadsAs r l := by
  constructor
  · rintro ⟨ts, hts, hf⟩
    have hne : t.text.toList ++ r ≠ [] := by simp [(scanText_ok h).2]
    obtain ⟨t', r', ts', ht, hr, rfl⟩ := inputTokenize_ok hts hne
    obtain ⟨⟨cls', w, r''⟩, hw, he⟩ := map_ok.mp ht
    cases he
    cases hf with
    | cons hread hf =>
      have htext : w = t.text.toList := by
        have := congrArg String.toList hread.1
        simpa using this
      subst htext
      obtain rfl : r = r' := List.append_cancel_left (scanText_ok hw).1
      obtain ⟨hself, hg⟩ := scanText_append.mp hw
      obtain ⟨rfl, -⟩ := Prod.mk.inj (Except.ok.inj (hself.symm.trans h))
      exact ⟨hg, ts', hr, hf⟩
  · rintro ⟨hg, ts, hts, hf⟩
    have hs := tokenScan_ok (scanText_append.mpr ⟨h, hg⟩)
    refine ⟨_, (inputTokenize_scan hs).trans (congrArg _ hts), .cons ⟨?_, hm⟩ hf⟩
    exact String.ofList_toList

theorem marks_space {cls cls' : TokenClass} (hm : Marks cls cls') :
    cls' = .space ↔ cls = .space := by
  rcases hm with rfl | ⟨rfl, rfl⟩
  · rfl
  · decide

/-- What scans from a character of a token that is not white space is not white space. -/
theorem scan_not_space {cls cls' : TokenClass} {t r w r' : List Char}
    (h : scanText t = .ok (cls, t, [])) (hc : cls ≠ .space)
    (h' : scanText (t ++ r) = .ok (cls', w, r')) : cls' ≠ .space := by
  rintro rfl
  obtain ⟨c, v, rfl, hb⟩ := spells_cons (scanText_spells h) (scanText_ok h).2
  obtain ⟨d, u, rfl, hd⟩ := spells_cons (scanText_spells h') (scanText_ok h').2
  obtain ⟨rfl, -⟩ := List.cons.inj (scanText_ok h').1
  exact hc ((begins_isspace_iff hb).mp (begins_isspace hd))

theorem rescans_cons {t : Token} {cls : TokenClass} {r : List Char} {l : List Token}
    (h : scanText t.text.toList = .ok (cls, t.text.toList, [])) (hm : Marks cls t.cls)
    (hc : cls ≠ .space) :
    Rescans (t.text.toList ++ r) (t :: l) ↔ grows cls t.text.toList r = false ∧ Rescans r l := by
  have hsp : t.isSpace = false := by
    simpa [Token.isSpace, marks_space hm] using hc
  unfold Rescans
  rw [List.filter_cons_of_pos (by simp [hsp])]
  constructor
  · rintro ⟨ts, hts, hf⟩
    have hne : t.text.toList ++ r ≠ [] := by simp [(scanText_ok h).2]
    obtain ⟨t', r', ts', ht, hr, rfl⟩ := inputTokenize_ok hts hne
    obtain ⟨⟨cls', w, r''⟩, hw, he⟩ := map_ok.mp ht
    cases he
    rw [List.filter_cons_of_pos (by simp [Token.isSpace, scan_not_space h hc hw])] at hf
    cases hf with
    | cons hread hf =>
      have htext : w = t.text.toList := by
        have := congrArg String.toList hread.1
        simpa using this
      subst htext
      obtain rfl : r = r' := List.append_cancel_left (scanText_ok hw).1
      obtain ⟨hself, hg⟩ := scanText_append.mp hw
      obtain ⟨rfl, -⟩ := Prod.mk.inj (Except.ok.inj (hself.symm.trans h))
      exact ⟨hg, ts', hr, hf⟩
  · rintro ⟨hg, ts, hts, hf⟩
    have hs := tokenScan_ok (scanText_append.mpr ⟨h, hg⟩)
    refine ⟨_, (inputTokenize_scan hs).trans (congrArg _ hts), ?_⟩
    rw [List.filter_cons_of_pos (by simpa [Token.isSpace] using hc)]
    exact .cons ⟨String.ofList_toList, hm⟩ hf

/-- A blank begins a run of blanks. -/
theorem scanText_blank {c : Char} {s : List Char} (h : TokenClass.space.begins c) :
    scanText (c :: s) = .ok (.space, (c :: s).takeWhile isspace, (c :: s).dropWhile isspace) := by
  have hc : classes c = some .space := by
    simp only [TokenClass.begins, isspace, Bool.and_eq_true, Bool.or_eq_true, beq_iff_eq,
      bne_iff_ne] at h
    rcases h with ⟨((((rfl | rfl) | rfl) | rfl) | rfl) | rfl, hn⟩ <;>
      first | exact absurd rfl hn | decide
  simp only [scanText, hc]

theorem scanText_all_blank {w : List Char} (h : scanText w = .ok (.space, w, [])) :
    ∀ c ∈ w, isspace c := by
  obtain ⟨c, v, rfl, hb⟩ := spells_cons (scanText_spells h) (scanText_ok h).2
  have ht : (c :: v).takeWhile isspace = c :: v := by
    have := (scanText_blank hb).symm.trans h
    simp only [Except.ok.injEq, Prod.mk.injEq, true_and] at this
    exact this.1
  exact List.takeWhile_eq_self_iff.mp ht

theorem rescans_space {w r : List Char} {l : List Token}
    (h : scanText w = .ok (.space, w, [])) (hr : headIs (· == '\n') r = false) :
    Rescans (w ++ r) l ↔ Rescans r l := by
  have drop : ∀ {s r : List Char}, scanText s = .ok (.space, s.takeWhile isspace, r) →
      (Rescans s l ↔ Rescans r l) := by
    intro s r hs
    unfold Rescans
    rw [inputTokenize_scan (tokenScan_ok hs)]
    constructor
    · rintro ⟨ts, hts, hf⟩
      obtain ⟨ts', hts', rfl⟩ := map_ok.mp hts
      exact ⟨ts', hts', hf⟩
    · rintro ⟨ts, hts, hf⟩
      exact ⟨_, congrArg _ hts, hf⟩
  obtain ⟨c, v, rfl, hb⟩ := spells_cons (scanText_spells h) (scanText_ok h).2
  have hall := scanText_all_blank h
  have hw := drop (scanText_blank (s := v ++ r) hb)
  rw [List.cons_append, hw, ← List.cons_append, List.dropWhile_append_of_pos hall]
  cases r with
  | nil => rfl
  | cons d r =>
    cases hd : isspace d
    · rw [List.dropWhile_cons_of_neg (by simp [hd])]
    · have hbd : TokenClass.space.begins d := by
        simpa [TokenClass.begins, hd, headIs] using hr
      exact (drop (scanText_blank hbd)).symm

/-! ### The text of a line -/

/-- The text of a line whose tokens all have one. -/
def writes : Option TokenClass → List Token → List Char
  | _, [] => []
  | lastClass, t :: l =>
    (if lastClass.any (tokenSeparate · t.cls) then [' '] else []) ++
      (t.text.toList ++ writes (some t.cls) l)

/-- The token is written. -/
def Token.written (t : Token) : Bool := t.text != ""

/-- A placeholder leaves no trace. -/
theorem outputs_eq_writes : ∀ {l : List Token} {lastClass : Option TokenClass},
    (∀ t ∈ l, t.text = "" → t.cls = .other) → (∀ t ∈ l, t.cls.noText = false) →
      outputs lastClass l = .ok (writes lastClass (l.filter Token.written))
  | [], _, _, _ => rfl
  | t :: l, last, h, hn => by
    obtain ⟨ht, hl⟩ := List.forall_mem_cons.mp h
    obtain ⟨hnt, hnl⟩ := List.forall_mem_cons.mp hn
    by_cases he : t.text = ""
    · have hsep : last.any (tokenSeparate · t.cls) = false := by
        rw [ht he]
        rcases last with _ | c
        · rfl
        · cases c <;> decide
      rw [List.filter_cons_of_neg (by simp [Token.written, he]), outputs, output, hnt,
        if_neg (by decide), if_pos he, hsep]
      change (outputs last l >>= _) = _
      rw [outputs_eq_writes hl hnl]
      rfl
    · rw [List.filter_cons_of_pos (by simp [Token.written, he]), outputs, output, hnt,
        if_neg (by decide), if_neg he]
      change (outputs (some t.cls) l >>= _) = _
      rw [outputs_eq_writes hl hnl, writes, ← List.append_assoc]
      rfl

theorem isSign_not_isNumber {c : Char} (h : isSign c) : isNumber c = false := by
  simp only [isSign, Bool.or_eq_true, beq_iff_eq] at h
  rcases h with rfl | rfl <;> decide

/-- `token_separate` lets neighbours that merge pass. -/
theorem merges_not_separate {t₁ t₂ : Token} (h₂ : t₂.Rereads) (h : Merges t₁ t₂) :
    tokenSeparate t₁.cls t₂.cls = false := by
  obtain ⟨c₂, h₂, m₂⟩ := h₂
  obtain ⟨d, w, hw, hd⟩ := spells_cons (scanText_spells h₂) (scanText_ok h₂).2
  simp only [Merges, Token.inert, Bool.or_eq_true, Bool.and_eq_true, beq_iff_eq] at h
  rcases h with ((⟨h, h'⟩ | ⟨⟨h, -⟩, hs⟩) | ⟨h, h', -⟩) | ⟨⟨h, -⟩, h'⟩
  · rw [h, h']
    rfl
  · rw [h]
    rw [hw] at hs
    have hn : ¬ (c₂ = .ident ∨ c₂ = .number ∨ c₂ = .dot ∨ c₂ = .ellip) := by
      rw [← begins_isNumber_iff hd, isSign_not_isNumber hs]
      decide
    rcases m₂ with rfl | ⟨rfl, -⟩
    · simp only [not_or] at hn
      simp [tokenSeparate, hn]
    · exact absurd (.inl rfl) hn
  · rw [h']
    rcases h with (h | h) | ⟨h, -⟩ <;> rw [h] <;> rfl
  · rw [h]
    rcases h' with h' | h' <;> rw [h'] <;> rfl

theorem grows_blank {cls : TokenClass} {t : List Char} (h : cls.Spells t) (hc : cls ≠ .space)
    (r : List Char) : grows cls t (' ' :: r) = false := by
  by_cases hp : cls.plain
  · rw [grows_plain hp, growsOp_text h]
    cases cls <;> rfl
  · have hnum : (false || (endsInE t && false)) = false := by simp
    cases cls <;> first
      | exact absurd rfl hc
      | exact absurd rfl hp
      | rfl
      | exact hnum
      | cases r <;> rfl

/-- What a token is followed by extends it exactly where it merges with its neighbour. -/
theorem grows_writes {t : Token} {cls : TokenClass}
    (h : scanText t.text.toList = .ok (cls, t.text.toList, [])) (hm : Marks cls t.cls)
    (hc : cls ≠ .space) {l : List Token} (hl : ∀ t' ∈ l, t'.Rereads) :
    grows cls t.text.toList (writes (some t.cls) l) = false ↔
      ∀ t' ∈ l.head?, Merges t t' = false := by
  cases l with
  | nil =>
    have hg := (scanText_self h).2
    simpa [writes] using hg
  | cons t' l =>
    obtain ⟨ht', -⟩ := List.forall_mem_cons.mp hl
    simp only [List.head?_cons, Option.mem_def, Option.some.injEq, forall_eq', writes,
      Option.any_some]
    split
    · next hs =>
      refine iff_of_true (grows_blank (scanText_spells h) hc _) ?_
      cases hmg : Merges t t'
      · rfl
      · cases (merges_not_separate ht' hmg).symm.trans hs
    · next hs =>
      obtain ⟨c', h', m'⟩ := ht'
      have hg := grows_iff_merges h hm h' m' (by simpa using hs) (writes (some t'.cls) l)
      rw [List.nil_append, ← Bool.not_eq_true, hg]
      simp [hc]

theorem writes_newline {l : List Token} (h : ∀ t ∈ l, t.Rereads) (last : Option TokenClass) :
    headIs (· == '\n') (writes last l) = false := by
  cases l with
  | nil => rfl
  | cons t l =>
    obtain ⟨⟨cls, ht, -⟩, -⟩ := List.forall_mem_cons.mp h
    obtain ⟨c, w, hw, hb⟩ := spells_cons (scanText_spells ht) (scanText_ok ht).2
    have hn : (c == '\n') = false := by
      simp only [beq_eq_false_iff_ne]
      rintro rfl
      exact begins_not_newline hb
    rw [writes, hw]
    split
    · rfl
    · exact hn

/-- A line of tokens that each scan as themselves is read back exactly where no two merge. -/
theorem rescans_writes {l : List Token} (h : ∀ t ∈ l, t.Rereads) (last : Option TokenClass) :
    Rescans (writes last l) l ↔ l.IsChain fun t₁ t₂ => Merges t₁ t₂ = false := by
  induction l generalizing last with
  | nil => exact iff_of_true ⟨[], rfl, .nil⟩ .nil
  | cons t l ih =>
    obtain ⟨⟨cls, ht, hm⟩, hl⟩ := List.forall_mem_cons.mp h
    have hsp : Rescans (writes last (t :: l)) (t :: l) ↔
        Rescans (t.text.toList ++ writes (some t.cls) l) (t :: l) := by
      rw [writes]
      split
      · refine rescans_space (by decide) ?_
        have := writes_newline h none
        simpa [writes] using this
      · rfl
    rw [hsp, List.isChain_cons, ← ih hl (some t.cls)]
    by_cases hc : cls = .space
    · subst hc
      have hcls : t.cls = .space := (marks_space hm).mpr rfl
      have hdrop : ∀ s, Rescans s (t :: l) ↔ Rescans s l := by
        intro s
        unfold Rescans
        rw [List.filter_cons_of_neg (by simp [Token.isSpace, hcls])]
      have hno : ∀ t' ∈ l.head?, Merges t t' = false := by
        intro t' _
        simp [Merges, Token.inert, hcls]
      rw [hdrop, rescans_space ht (writes_newline hl _)]
      exact (and_iff_right hno).symm
    · rw [rescans_cons ht hm hc, grows_writes ht hm hc hl]

/-- The text of a line scans back to the tokens of the line that are written. -/
def LineRescans (l : List Token) : Prop :=
  ∃ s, outputs none l = .ok s ∧ Rescans s (l.filter Token.written)

/-- Only a placeholder has no text, and white space is white space. -/
def LineFormed (l : List Token) : Prop :=
  ∀ t ∈ l, (t.text = "" → t.cls = .other) ∧ (t.cls = .space → t.Rereads)

theorem rereads_noText {t : Token} (h : t.Rereads) : t.cls.noText = false := by
  obtain ⟨cls, h, hm⟩ := h
  obtain ⟨c, w, -, hb⟩ := spells_cons (scanText_spells h) (scanText_ok h).2
  rcases hm with hm | ⟨-, hm⟩
  · rw [hm]
    exact begins_noText hb
  · rw [hm]
    rfl

theorem outputs_noText : ∀ {l : List Token} {last : Option TokenClass} {s : List Char},
    outputs last l = .ok s → ∀ t ∈ l, t.cls.noText = false
  | [], _, _, _ => List.forall_mem_nil _
  | t :: l, last, s, h => by
    rw [outputs] at h
    obtain ⟨⟨w, last'⟩, ht, h⟩ := bind_ok.mp h
    obtain ⟨r, hr, -⟩ := bind_ok.mp h
    refine List.forall_mem_cons.mpr ⟨?_, outputs_noText hr⟩
    unfold output at ht
    split at ht
    · cases ht
    · next hn => simpa using hn

theorem forall₂_right {α β : Type} {R : α → β → Prop} {P : β → Prop} : ∀ {l : List α} {m : List β},
    List.Forall₂ R l m → (∀ a ∈ l, ∀ b, R a b → P b) → ∀ b ∈ m, P b
  | _, _, .nil, _ => List.forall_mem_nil _
  | _, _, .cons hab h, hp => by
    obtain ⟨ha, hl⟩ := List.forall_mem_cons.mp hp
    exact List.forall_mem_cons.mpr ⟨ha _ hab, forall₂_right h hl⟩

/-- What is read back scans as itself. -/
theorem rescans_rereads {s : List Char} {l : List Token} (h : Rescans s l) :
    ∀ t ∈ l, t.cls ≠ .space → t.Rereads := by
  obtain ⟨ts, hts, hf⟩ := h
  have hall : ∀ t ∈ l.filter (!·.isSpace), t.Rereads := by
    refine forall₂_right hf fun t ht t' hread => ⟨t.cls, ?_, hread.2⟩
    rw [← hread.1]
    exact inputTokenize_self hts t (List.mem_of_mem_filter ht)
  intro t ht hc
  exact hall t (List.mem_filter.mpr ⟨ht, by simpa [Token.isSpace] using hc⟩)

/-- Two neighbours for which `token_separate` asks for no space scan as the two exactly where they
    do not merge, and a line is read back exactly where each of its tokens scans as itself and no
    two neighbours merge. -/
theorem output_rescans_iff (t₁ t₂ : Token) (l : List Token) :
    (t₁.Rereads → t₂.Rereads → tokenSeparate t₁.cls t₂.cls = false →
      (ReadsAs (t₁.text.toList ++ t₂.text.toList) [t₁, t₂] ↔
        Merges t₁ t₂ = false ∧ ¬ (t₁.cls = .space ∧ t₂.cls = .space))) ∧
    (LineFormed l →
      (LineRescans l ↔
        (∀ t ∈ l.filter Token.written, t.Rereads) ∧
        (l.filter Token.written).IsChain fun t₁ t₂ => Merges t₁ t₂ = false)) := by
  constructor
  · rintro ⟨c₁, h₁, m₁⟩ ⟨c₂, h₂, m₂⟩ hsep
    have hg := grows_iff_merges h₁ m₁ h₂ m₂ hsep []
    have h₂' : ReadsAs t₂.text.toList [t₂] := by
      have hr := readsAs_cons (r := []) (l := []) h₂ m₂
      rw [List.append_nil] at hr
      exact hr.mpr ⟨(scanText_self h₂).2, [], rfl, .nil⟩
    rw [readsAs_cons h₁ m₁, and_iff_left h₂', marks_space m₁, marks_space m₂]
    rw [List.append_nil] at hg
    rw [← Bool.not_eq_true, hg, not_or, Bool.not_eq_true]
  · intro hl
    have hno : ∀ t ∈ l, t.text = "" → t.cls = .other := fun t ht => (hl t ht).1
    constructor
    · rintro ⟨s, hs, hr⟩
      rw [outputs_eq_writes hno (outputs_noText hs)] at hs
      cases hs
      have hre : ∀ t ∈ l.filter Token.written, t.Rereads := by
        intro t ht
        by_cases hc : t.cls = .space
        · exact (hl t (List.mem_of_mem_filter ht)).2 hc
        · exact rescans_rereads hr t ht hc
      exact ⟨hre, (rescans_writes hre none).mp hr⟩
    · rintro ⟨hre, hchain⟩
      have hnt : ∀ t ∈ l, t.cls.noText = false := by
        intro t ht
        by_cases he : t.text = ""
        · rw [hno t ht he]
          rfl
        · exact rereads_noText (hre t (List.mem_filter.mpr ⟨ht, by simpa [Token.written] using he⟩))
      exact ⟨_, outputs_eq_writes hno hnt, (rescans_writes hre none).mpr hchain⟩

theorem output_rescans_arrow :
    ReadsAs "a=".toList [⟨.ident, "a", 0⟩, ⟨.eq, "=", 0⟩] ∧
    LineRescans [⟨.ident, "a", 0⟩, ⟨.other, "", 0⟩, ⟨.space, " ", 0⟩, ⟨.plus, "+", 0⟩,
      ⟨.inc, "++", 0⟩, ⟨.other, "b", 0⟩] := by
  have ident : (⟨.ident, "a", 0⟩ : Token).Rereads := ⟨.ident, by decide, .inl rfl⟩
  have hl : LineFormed [⟨.ident, "a", 0⟩, ⟨.other, "", 0⟩, ⟨.space, " ", 0⟩, ⟨.plus, "+", 0⟩,
      ⟨.inc, "++", 0⟩, ⟨.other, "b", 0⟩] := by
    intro t ht
    simp only [List.mem_cons, List.not_mem_nil, or_false] at ht
    rcases ht with rfl | rfl | rfl | rfl | rfl | rfl <;> refine ⟨by decide, fun h => ?_⟩ <;>
      first | exact absurd h (by decide) | exact ⟨.space, by decide, .inl rfl⟩
  have hiff := output_rescans_iff ⟨.ident, "a", 0⟩ ⟨.eq, "=", 0⟩ [⟨.ident, "a", 0⟩,
    ⟨.other, "", 0⟩, ⟨.space, " ", 0⟩, ⟨.plus, "+", 0⟩, ⟨.inc, "++", 0⟩, ⟨.other, "b", 0⟩]
  refine ⟨(hiff.1 ident ⟨.eq, by decide, .inl rfl⟩ (by decide)).mpr (by decide),
    (hiff.2 hl).mpr ⟨?_, by decide⟩⟩
  intro t ht
  simp only [Token.written, List.filter_cons, List.filter_nil] at ht
  simp at ht
  rcases ht with rfl | rfl | rfl | rfl | rfl
  · exact ident
  · exact ⟨.space, by decide, .inl rfl⟩
  · exact ⟨.plus, by decide, .inl rfl⟩
  · exact ⟨.inc, by decide, .inl rfl⟩
  · exact ⟨.ident, by decide, .inr ⟨rfl, rfl⟩⟩

/-- After `#define M -` the text `M->` is written as `-->`, which scans as `--` and `>`. -/
theorem output_merges :
    (⟨.minus, "-", 0⟩ : Token).Rereads ∧ (⟨.arrow, "->", 0⟩ : Token).Rereads ∧
    tokenSeparate .minus .arrow = false ∧
    ¬ ReadsAs "-->".toList [⟨.minus, "-", 0⟩, ⟨.arrow, "->", 0⟩] ∧
    ¬ LineRescans [⟨.minus, "-", 0⟩, ⟨.arrow, "->", 0⟩] := by
  have hts : inputTokenize "-->".toList = .ok [⟨.dec, "--", 0⟩, ⟨.gt, ">", 0⟩] := by decide
  refine ⟨⟨.minus, by decide, .inl rfl⟩, ⟨.arrow, by decide, .inl rfl⟩, rfl, ?_, ?_⟩
  · rintro ⟨ts, h, hf⟩
    cases hts.symm.trans h
    cases hf with
    | cons hr _ => exact absurd hr.1 (by decide)
  · rintro ⟨s, hs, ts, h, hf⟩
    have ho : outputs none [⟨.minus, "-", 0⟩, ⟨.arrow, "->", 0⟩] = .ok "-->".toList := by decide
    cases ho.symm.trans hs
    cases hts.symm.trans h
    cases hf with
    | cons hr _ => exact absurd hr.1 (by decide)

/-! ### Tokens that scan as themselves -/

theorem tokenScan_rereads {s : List Char} {t : Token} {r : List Char}
    (h : tokenScan s = .ok (t, r)) : t.Rereads := by
  obtain ⟨⟨cls, w, r'⟩, hw, he⟩ := map_ok.mp h
  cases he
  exact ⟨cls, by simpa using (scanText_self hw).1, .inl rfl⟩

theorem tokenPaste_rereads {t₁ t₂ t : Token} (h : tokenPaste t₁ t₂ = .ok t) : t.Rereads := by
  unfold tokenPaste at h
  split at h
  · cases h
  · obtain ⟨⟨t', r⟩, ht, h⟩ := bind_ok.mp h
    dsimp only at h
    split at h
    · cases h
    · cases h
      exact tokenScan_rereads ht

theorem listEnnervate_rereads {l : List Token} {name : String} (h : ∀ t ∈ l, t.Rereads) :
    ∀ t ∈ listEnnervate l name, t.Rereads := by
  intro t ht
  obtain ⟨t', ht', rfl⟩ := List.mem_map.mp ht
  obtain ⟨cls, hs, hm⟩ := h t' ht'
  split
  · next hc =>
    refine ⟨cls, hs, .inr ⟨?_, rfl⟩⟩
    rcases hm with hm | ⟨-, hm⟩
    · exact hm.symm.trans hc.1
    · cases hm.symm.trans hc.1
  · exact ⟨cls, hs, hm⟩

theorem scanQuoted_backslash : ∀ s : List Char,
    scanQuoted '"' false (s.flatMap backslash ++ ['"']) =
      some (s.flatMap backslash ++ ['"'], [])
  | [] => by decide
  | c :: s => by
    have ih := scanQuoted_backslash s
    simp only [List.flatMap_cons, backslash]
    split
    · next hc =>
      have hstep : scanQuoted '"' true (c :: (s.flatMap backslash ++ ['"'])) =
          some (c :: (s.flatMap backslash ++ ['"']), []) := by
        simp [scanQuoted, ih]
      have hb : ('\\' : Char) ≠ '"' := by decide
      simp only [List.cons_append, List.nil_append]
      rw [scanQuoted, if_neg (by simp [hb])]
      simpa using hstep
    · next hc =>
      rw [not_or] at hc
      simp only [List.cons_append, List.nil_append]
      have hb : (c == '\\') = false := by simpa using hc.1
      rw [scanQuoted, if_neg (by simp [hc.2])]
      simp [hb, ih]

theorem tokenString_rereads (s : List Char) : (tokenString s).Rereads := by
  refine ⟨.string, ?_, .inl rfl⟩
  have h : scanQuoted '"' true ('"' :: (s.flatMap backslash ++ ['"'])) =
      some ('"' :: (s.flatMap backslash ++ ['"']), []) := by
    simp [scanQuoted, scanQuoted_backslash]
  simp only [tokenString, String.toList_ofList]
  exact terminated_ok.mpr ⟨h, rfl⟩

end Ncc.Cpp
