import Ncc.Buffer

/-! The outer lexer (cc1/lex.c), and the tokens of a file.

    `lex` filters the line markers out of the tokens of `lex0`, so it gives the same on two sources
    that do (`lexed_same`). A file that is read through the sliding buffer gives the tokens of its
    text where each of them has room in the buffer (`lexFile_sliding`). -/

namespace Ncc.Lex

open Ncc.Cpp (isIdent map_ok)

/-! ### The outer lexer -/

section
variable {F σ : Type} (step : σ → Except String (Option (Token F × σ)))

/-- What `lex` works on: the token pushed back (`next`), and where `lex0` stands. -/
structure Source (F σ : Type) where
  next : Option (Token F)
  rest : σ

/-- `lex1`. The end of the input is the token 0. -/
def lex1 (s : Source F σ) : Except String (Option (Token F) × Source F σ) :=
  match s.next with
  | some t => .ok (some t, { s with next := none })
  | none => (step s.rest).map fun
    | none => (none, s)
    | some (t, rest) => (some t, { next := none, rest := rest })

/-- `token.k == k`. -/
def isClass (k : K) (t : Option (Token F)) : Bool := t.any (·.k == k)

/-- The line marker behind a `#`: an integer and a string, both of which may be missing, and the
    end of the line; then the token behind it. -/
def lineMarker (s : Source F σ) : Except String (Option (Token F) × Source F σ) :=
  (lex1 step s).bind fun (t, s) =>
    (if isClass .icon t then
      (lex1 step s).bind fun (t, s) => if isClass .strlit t then lex1 step s else .ok (t, s)
    else .ok (t, s)).bind fun (t, s) =>
      if isClass .nl t then lex1 step s else .error "malformed directive"

/-- The loop of `lex`. Every time round takes a token of the input, except the first. -/
def lexLoop : Nat → Option (Token F) × Source F σ →
    Except String (Option (Token F) × Source F σ)
  | 0, r => .ok r
  | fuel + 1, (t, s) =>
    if isClass .nl t then
      (lex1 step s).bind fun (t, s) =>
        if isClass .hash t then (lineMarker step s).bind (lexLoop fuel)
        else lexLoop fuel (t, s)
    else .ok (t, s)

/-- `lex`: the next token of the program. -/
def lex (fuel : Nat) (s : Source F σ) : Except String (Option (Token F × Source F σ)) :=
  (lex1 step s).bind fun r => (lexLoop step fuel r).map fun (t, s) => t.map (·, s)

/-- The tokens that `fuel` calls of `lex` give, the first of which sees the initial K_NL. -/
def lexed (fuel : Nat) (s : σ) : List (Token F) × Option String :=
  drain (lex step fuel) fuel { next := some ⟨.nl, .none⟩, rest := s }

end

/-- The tokens of a file that is read through a buffer of `bufsz` characters, as far as `fuel` of
    them. -/
def lexFile {F : Type} (libc : Libc F) (bufsz fuel : Nat) (file : List Char) :
    List (Token F) × Option String :=
  lexed (lex0Buffer libc bufsz) fuel (lexInit bufsz file)

/-! ### The outer lexer on two sources -/

section
variable {F σ σ' : Type} {E : String → String → Prop} {R : σ → σ' → Prop}
  {step : σ → Except String (Option (Token F × σ))}
  {step' : σ' → Except String (Option (Token F × σ'))}

/-- The same token pushed back, and related states of `lex0`. -/
def SameSource (R : σ → σ' → Prop) (s : Source F σ) (s' : Source F σ') : Prop :=
  s.next = s'.next ∧ R s.rest s'.rest

/-- What the functions of the outer lexer give on two sources: the same error, or the same token
    (or the end) and related sources. -/
def SameStep (E : String → String → Prop) (R : σ → σ' → Prop) :
    Except String (Option (Token F) × Source F σ) →
      Except String (Option (Token F) × Source F σ') → Prop :=
  Related E (SameItem (SameSource R))

variable (hR : ∀ s s', R s s' → Related E (Option.Rel (SameItem R)) (step s) (step' s'))
include hR

theorem lex1_same {s : Source F σ} {s' : Source F σ'} (h : SameSource R s s') :
    SameStep E R (lex1 step s) (lex1 step' s') := by
  obtain ⟨next, rest⟩ := s
  obtain ⟨next', rest'⟩ := s'
  obtain ⟨rfl, hrest⟩ := h
  cases next with
  | some t => exact ⟨rfl, rfl, hrest⟩
  | none =>
    refine (hR rest rest' hrest).map fun o o' ho => ?_
    cases ho with
    | none => exact ⟨rfl, rfl, hrest⟩
    | some hp => exact ⟨congrArg some hp.1, rfl, hp.2⟩

theorem lineMarker_same {s : Source F σ} {s' : Source F σ'} (h : SameSource R s s')
    (hE : ∀ e, E e e) : SameStep E R (lineMarker step s) (lineMarker step' s') := by
  refine (lex1_same hR h).bind ?_
  rintro ⟨t, s₁⟩ ⟨_, s₁'⟩ ⟨rfl, h₁⟩
  have hpath : SameStep E R
      (if isClass .icon t then
        (lex1 step s₁).bind fun (t, s) => if isClass .strlit t then lex1 step s else .ok (t, s)
      else .ok (t, s₁))
      (if isClass .icon t then
        (lex1 step' s₁').bind fun (t, s) => if isClass .strlit t then lex1 step' s else .ok (t, s)
      else .ok (t, s₁')) := by
    split
    · refine (lex1_same hR h₁).bind ?_
      rintro ⟨t, s₂⟩ ⟨_, s₂'⟩ ⟨rfl, h₂⟩
      dsimp only
      split
      · exact lex1_same hR h₂
      · exact ⟨rfl, h₂⟩
    · exact ⟨rfl, h₁⟩
  refine hpath.bind ?_
  rintro ⟨t, s₃⟩ ⟨_, s₃'⟩ ⟨rfl, h₃⟩
  dsimp only
  split
  · exact lex1_same hR h₃
  · exact hE _

theorem lexLoop_same (hE : ∀ e, E e e) : ∀ (fuel : Nat) {t : Option (Token F)} {s : Source F σ}
    {s' : Source F σ'}, SameSource R s s' →
    SameStep E R (lexLoop step fuel (t, s)) (lexLoop step' fuel (t, s'))
  | 0, _, _, _, h => ⟨rfl, h⟩
  | fuel + 1, t, s, s', h => by
    rw [lexLoop, lexLoop]
    split
    · refine (lex1_same hR h).bind ?_
      rintro ⟨t, s₁⟩ ⟨_, s₁'⟩ ⟨rfl, h₁⟩
      dsimp only
      split
      · refine (lineMarker_same hR h₁ hE).bind ?_
        rintro ⟨t, s₂⟩ ⟨_, s₂'⟩ ⟨rfl, h₂⟩
        exact lexLoop_same hE fuel h₂
      · exact lexLoop_same hE fuel h₁
    · exact ⟨rfl, h⟩

theorem lex_same (hE : ∀ e, E e e) (fuel : Nat) {s : Source F σ} {s' : Source F σ'}
    (h : SameSource R s s') :
    Related E (Option.Rel (SameItem (SameSource R))) (lex step fuel s) (lex step' fuel s') := by
  refine (lex1_same hR h).bind ?_
  rintro ⟨t, s₁⟩ ⟨_, s₁'⟩ ⟨rfl, h₁⟩
  refine (lexLoop_same hR hE fuel h₁).map ?_
  rintro ⟨t, s₂⟩ ⟨_, s₂'⟩ ⟨rfl, h₂⟩
  cases t with
  | none => exact .none
  | some t => exact .some ⟨rfl, h₂⟩

/-- Sources that give the same tokens give the same tokens behind the line markers. -/
theorem lexed_same (hE : ∀ e, E e e) (fuel : Nat) {s : σ} {s' : σ'} (h : R s s') :
    (lexed step fuel s).1 = (lexed step' fuel s').1 ∧
      Option.Rel E (lexed step fuel s).2 (lexed step' fuel s').2 :=
  drain_related (fun _ _ => lex_same hR hE fuel) fuel ⟨rfl, h⟩

end

/-! ### Files whose tokens fit -/

section
variable {F : Type} (libc : Libc F)

/-- `lex0` comes to the text `s` of the file after some tokens. -/
def Reached (file s : List Char) : Prop :=
  Relation.ReflTransGen (fun s r => ∃ k, lex0 libc s = .ok (some (k, r))) file s

/-- The tokens of the file are shorter than the buffer. -/
def TokensShorter (bufsz : Nat) (file : List Char) : Prop :=
  ∀ s, Reached libc file s → ∀ n, span (s.dropWhile isBlank) = some n → n < bufsz

/-- The tokens of the file have room in the buffer. -/
def TokensFit (bufsz : Nat) (file : List Char) : Prop :=
  ∀ s, Reached libc file s → ∀ n, span (s.dropWhile isBlank) = some n →
    Room bufsz n (s.dropWhile isBlank).length

variable {libc} {bufsz : Nat}

theorem Reached.length_le {file s : List Char} (h : Reached libc file s) :
    s.length ≤ file.length := by
  induction h with
  | refl => exact le_rfl
  | tail _ hstep ih =>
    obtain ⟨k, hk⟩ := hstep
    exact (lex0_shorter hk).le.trans ih

/-- A buffer that is larger than the file has room for all of it. -/
theorem tokensFit_of_length {file : List Char} (h : file.length < bufsz) :
    TokensFit libc bufsz file := by
  intro s hs n _
  have hdrop := (List.dropWhile_suffix isBlank (l := s)).length_le
  exact .inr ((hdrop.trans hs.length_le).trans_lt h)

theorem lexInit_before (bufsz : Nat) (file : List Char) :
    (lexInit bufsz file).Before bufsz file := by
  refine ⟨⟨le_rfl, le_rfl, le_rfl, fun h => nomatch h⟩, ?_⟩
  show slice _ bufsz (bufsz - bufsz) ++ file = file
  rw [Nat.sub_self, slice, List.nil_append]

/-- The tokens of a file come through the buffer as they come from its text, where they have room in
    the buffer. -/
theorem lexFile_text (hsz : lookahead < bufsz) {file : List Char}
    (hfit : TokensFit libc bufsz file) (fuel : Nat) :
    (lexFile libc bufsz fuel file).1 = (lexed (lex0 libc) fuel file).1 ∧
      Option.Rel (SameError bufsz file.length) (lexFile libc bufsz fuel file).2
        (lexed (lex0 libc) fuel file).2 := by
  let R (b : Buffer) (s : List Char) : Prop := b.Before bufsz s ∧ Reached libc file s
  refine lexed_same (R := R) (fun b s h => ?_) (fun _ => .inl rfl) _
    ⟨lexInit_before bufsz file, .refl⟩
  have hsame : SameToken bufsz file.length (lex0Buffer libc bufsz b) (lex0 libc s) :=
    lex0Buffer_same hsz h.1 h.2.length_le (hfit s h.2)
  refine hsame.imp_ok fun o o' ho hrel => ?_
  cases hrel with
  | none => exact .none
  | @some p q hpq => exact .some ⟨hpq.1, hpq.2, h.2.tail ⟨q.1, ho⟩⟩

end

/-- A buffer that is larger than the file changes nothing. -/
theorem lexFile_large {F : Type} {libc : Libc F} {n : Nat} {file : List Char}
    (hn : file.length < n) (h₃ : lookahead < n) (fuel : Nat) :
    lexFile libc n fuel file = lexed (lex0 libc) fuel file := by
  have hfit : TokensFit libc n file := tokensFit_of_length hn
  obtain ⟨h₁, h₂⟩ := lexFile_text h₃ hfit fuel
  refine Prod.ext h₁ ?_
  generalize (lexFile libc n fuel file).2 = e at h₂
  generalize (lexed (lex0 libc) fuel file).2 = e' at h₂
  cases h₂ with
  | none => rfl
  | some h =>
    rcases h with rfl | ⟨hle, -⟩
    · rfl
    · exact absurd hn (Nat.not_lt.mpr hle)

/-- The tokens of a file that have room in the sliding buffer, each with the margin behind it or
    with all that is left of the file, come as from one buffer that holds the whole file; only
    where a literal does not end can the error be another. -/
theorem lexFile_sliding {F : Type} (libc : Libc F) (file : List Char) (n fuel : Nat)
    (hn : file.length < n) (h₃ : lookahead < n) (hfit : TokensFit libc lexBufsz file) :
    (lexFile libc lexBufsz fuel file).1 = (lexFile libc n fuel file).1 ∧
      ((lexFile libc lexBufsz fuel file).2 = (lexFile libc n fuel file).2 ∨
        (lexFile libc lexBufsz fuel file).2 = some "token too long" ∧
          ∃ q, (lexFile libc n fuel file).2 = some (unterminated q)) := by
  obtain ⟨h₁, h₂⟩ := lexFile_text (by decide) hfit fuel
  rw [lexFile_large hn h₃]
  refine ⟨h₁, ?_⟩
  generalize (lexFile libc lexBufsz fuel file).2 = e at h₂
  generalize (lexed (lex0 libc) fuel file).2 = e' at h₂
  cases h₂ with
  | none => exact .inl rfl
  | some h =>
    rcases h with rfl | ⟨-, rfl, q, rfl⟩
    · exact .inl rfl
    · exact .inr ⟨rfl, q, rfl⟩

/-- A file of many tokens, longer than the buffer. -/
def semicolons : List Char := List.replicate 5000 ';'

theorem Reached.suffix {F : Type} {libc : Libc F} {file s : List Char}
    (h : Reached libc file s) : s <:+ file := by
  induction h with
  | refl => exact List.suffix_refl _
  | @tail s r _ hstep ih =>
    obtain ⟨k, hk⟩ := hstep
    refine List.IsSuffix.trans ?_ ih
    rcases hs : s.dropWhile isBlank with _ | ⟨c, cs⟩
    · rw [lex0, hs] at hk
      cases hk
    · rw [lex0_cons hs] at hk
      obtain ⟨p, hp, he⟩ := map_ok.mp hk
      cases he
      obtain ⟨t, -, ht⟩ := lexToken_split hp
      exact List.IsSuffix.trans ⟨t, ht.symm⟩ (hs ▸ List.dropWhile_suffix isBlank)

theorem lexFile_semicolons :
    (lexFile wholeText lexBufsz 6000 semicolons).1 = (lexFile wholeText 8192 6000 semicolons).1 ∧
      ((lexFile wholeText lexBufsz 6000 semicolons).2 =
          (lexFile wholeText 8192 6000 semicolons).2 ∨
        (lexFile wholeText lexBufsz 6000 semicolons).2 = some "token too long" ∧
          ∃ q, (lexFile wholeText 8192 6000 semicolons).2 = some (unterminated q)) := by
  have hlen : semicolons.length < 8192 := by
    rw [semicolons, List.length_replicate]
    decide
  refine lexFile_sliding wholeText semicolons 8192 6000 hlen (by decide) fun s hs n hn => ?_
  have hall : ∀ c ∈ s, c = ';' := fun c hc => List.eq_of_mem_replicate (hs.suffix.mem hc)
  cases s with
  | nil => cases hn
  | cons c cs =>
    obtain rfl := hall c (List.mem_cons_self ..)
    rw [List.dropWhile_cons_of_neg (by decide)] at hn
    cases hn
    exact .inl (by decide)

/-! ### A token that is too long -/

/-- Where the buffer stands behind a part of a token, there is room for it. -/
theorem Buffer.At.room {bufsz : Nat} {b : Buffer} {t s : List Char} (h : b.At bufsz t s) :
    Room bufsz t.length (t ++ s).length := by
  have h₁ := h.ok.begin_le
  have h₂ := h.ok.pos_le
  have h₃ := h.ok.invalid_le
  have ht := b.token_length
  have hs := b.left_length
  rw [h.token] at ht
  rw [h.left, Buffer.unread] at hs
  rw [List.length_append]
  cases ho : b.isOpen with
  | true =>
    have hm := h.margin ho
    exact .inl (by omega)
  | false =>
    obtain ⟨hfile, hlt, -⟩ := h.ok.closed ho
    rw [hfile, List.length_nil] at hs
    exact .inr (by omega)

/-- An identifier for which there is no room. -/
theorem lex0Buffer_long {F : Type} (libc : Libc F) {bufsz : Nat} (hsz : lookahead < bufsz)
    {b : Buffer} {c : Char} {s : List Char} (h : b.Before bufsz (c :: s)) (hc : isBlank c = false)
    (hd : ∀ p₁ p₂, dispatch c p₁ p₂ = .ident)
    (hn : ¬ Room bufsz ((c :: s).takeWhile isIdent).length (c :: s).length) :
    lex0Buffer libc bufsz b = .error "token too long" := by
  obtain ⟨b₁, hb₁, h₁⟩ := refill_before hsz h
  have hskip : skipBlanks bufsz (b₁.unread + 1) b₁ = .ok b₁ := by
    rw [skipBlanks, h₁.peek_cons, if_neg (by rw [hc]; exact Bool.false_ne_true)]
  have hscan := skip_at (p := isIdent) (by decide) h₁ h₁.unread
  rw [lex0Buffer, hb₁]
  show (skipBlanks bufsz (b₁.unread + 1) b₁).bind _ = _
  rw [hskip]
  show lexBuffer libc bufsz b₁ = _
  rw [lexBuffer, h₁.peek_cons, hd]
  dsimp only
  generalize skip bufsz isIdent (b₁.unread + 1) b₁ = r at hscan ⊢
  cases hscan with
  | ok h₂ =>
    have hroom := h₂.room
    rw [List.append_assoc, List.takeWhile_append_dropWhile] at hroom
    exact absurd hroom hn
  | long _ => rfl

theorem span_le {s : List Char} {n : Nat} (h : span s = some n) : n ≤ s.length := by
  unfold span at h
  split at h
  · next k n' hd =>
    cases h
    cases s with
    | nil => cases hd
    | cons c s => exact dispatch_length hd
  · cases h
    exact (List.takeWhile_prefix isIdent).length_le
  · cases h
    have hlen := congrArg List.length (numberLoop_split s)
    rw [List.length_append] at hlen
    omega
  · have hlen := congrArg List.length (delimit_split '\'' s true)
    rw [List.length_append] at hlen
    dsimp only at h
    split at h
    · cases h
      omega
    · cases h
  · have hlen := congrArg List.length (strlitLoop_split s.length s)
    rw [List.length_append, List.length_append] at hlen
    dsimp only at h
    split at h
    · cases h
      rw [List.length_append]
      omega
    · cases h
  · cases h

theorem ident_class {F : Type} (w : List Char) :
    (ident w : Token F).k ≠ .nl ∧ (ident w : Token F).k ≠ .hash := by
  have hall : ∀ p ∈ keywords, p.2 ≠ .nl ∧ p.2 ≠ .hash := by decide
  unfold ident
  split
  · next k hk => exact hall _ (List.mem_of_find?_eq_some hk)
  · exact ⟨K.noConfusion, K.noConfusion⟩

theorem lexed_error {F σ : Type} {step : σ → Except String (Option (Token F × σ))} {s : σ}
    {e : String} (h : step s = .error e) (fuel : Nat) :
    lexed step (fuel + 2) s = ([], some e) := by
  have hlex : lex step (fuel + 2) ⟨some ⟨.nl, .none⟩, s⟩ = .error e := by
    simp [lex, lex1, lexLoop, isClass, h, Except.map, Except.bind]
  rw [lexed, drain_error hlex]

theorem lexed_ne_nil {F σ : Type} {step : σ → Except String (Option (Token F × σ))} {s s' : σ}
    {k : Token F} (h : step s = .ok (some (k, s'))) (hnl : k.k ≠ .nl) (hhash : k.k ≠ .hash)
    (fuel : Nat) : (lexed step (fuel + 2) s).1 ≠ [] := by
  have hlex : lex step (fuel + 2) ⟨some ⟨.nl, .none⟩, s⟩ = .ok (some (k, ⟨none, s'⟩)) := by
    simp [lex, lex1, lexLoop, isClass, h, Except.map, Except.bind, hnl, hhash]
  rw [lexed, drain_item hlex]
  exact List.cons_ne_nil _ _

/-- An identifier of `LEX_BUFSZ - LOOKAHEAD + 1` characters, and two more characters. -/
def longFile : List Char := List.replicate 4094 'a' ++ [';', '\n']

theorem longFile_length : longFile.length = 4096 := by
  rw [longFile, List.length_append, List.length_replicate]
  rfl

theorem longFile_ident : longFile.takeWhile isIdent = List.replicate 4094 'a' ∧
    longFile.dropWhile isIdent = [';', '\n'] := by
  have hall : ∀ c ∈ List.replicate 4094 'a', isIdent c = true := fun c hc => by
    rw [List.eq_of_mem_replicate hc]
    decide
  rw [longFile, List.takeWhile_append_of_pos hall, List.dropWhile_append_of_pos hall]
  exact ⟨List.append_nil _, rfl⟩

theorem longFile_cons : longFile = 'a' :: (List.replicate 4093 'a' ++ [';', '\n']) := by
  rw [longFile, List.replicate_succ, List.cons_append]

theorem lex0_longFile {F : Type} (libc : Libc F) :
    lex0 libc longFile = .ok (some (ident (List.replicate 4094 'a'), [';', '\n'])) := by
  have hcons := longFile_cons
  have hdrop : longFile.dropWhile isBlank = longFile := by
    rw [hcons, List.dropWhile_cons_of_neg (by decide)]
  rw [lex0_cons (hdrop.trans hcons), ← hcons, lexToken]
  have hd : dispatch (peek longFile 0) (peek longFile 1) (peek longFile 2) = .ident := by
    rw [hcons]
    rfl
  rw [hd]
  dsimp only
  rw [longFile_ident.1, longFile_ident.2]
  rfl

/-- The identifier is shorter than the buffer, and is given up. -/
theorem lexFile_long :
    TokensShorter wholeText lexBufsz longFile ∧
    lexFile wholeText lexBufsz 2 longFile = ([], some "token too long") ∧
    lexFile wholeText lexBufsz 2 longFile ≠ lexFile wholeText 8192 2 longFile := by
  have hlong : lex0Buffer wholeText lexBufsz (lexInit lexBufsz longFile) =
      .error "token too long" := by
    have hb := lexInit_before lexBufsz longFile
    rw [longFile_cons] at hb ⊢
    refine lex0Buffer_long wholeText (by decide) hb (by decide) (fun _ _ => rfl) ?_
    rw [← longFile_cons, longFile_ident.1, longFile_length, List.length_replicate]
    unfold Room lookahead lexBufsz
    omega
  have hbuf : lexFile wholeText lexBufsz 2 longFile = ([], some "token too long") :=
    lexed_error hlong 0
  refine ⟨fun s hs n hn => ?_, hbuf, fun he => ?_⟩
  · rcases Relation.ReflTransGen.cases_head hs with rfl | ⟨r, ⟨k, hk⟩, hr⟩
    · have hd : longFile.dropWhile isBlank = longFile := by
        rw [longFile_cons, List.dropWhile_cons_of_neg (by decide)]
      have hid : dispatch (peek longFile 0) (peek longFile 1) (peek longFile 2) = .ident := by
        rw [longFile_cons]
        rfl
      rw [hd, span, hid] at hn
      dsimp only at hn
      rw [longFile_ident.1, List.length_replicate] at hn
      rw [← Option.some.inj hn]
      decide
    · have hle := (span_le hn).trans (List.dropWhile_suffix isBlank (l := s)).length_le
      rw [lex0_longFile] at hk
      have hrest : [';', '\n'] = r := congrArg Prod.snd (Option.some.inj (Except.ok.inj hk))
      have hs := Reached.length_le hr
      rw [← hrest] at hs
      exact (hle.trans hs).trans_lt (by decide)
  · rw [hbuf, lexFile_large (by rw [longFile_length]; decide) (by decide)] at he
    obtain ⟨hnl, hhash⟩ := ident_class (F := List Char) (List.replicate 4094 'a')
    exact lexed_ne_nil (lex0_longFile wholeText) hnl hhash 0 (congrArg Prod.fst he).symm

end Ncc.Lex
