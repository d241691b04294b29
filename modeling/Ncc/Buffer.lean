import Ncc.Lex

/-! The sliding buffer of the lexer (cc1/lex.c).

    The text of the current token is held in `buf` from `begin` to `pos`, what has been read ahead
    of it up to `invalid`. `refill` slides this to the start of the buffer and reads what fits
    behind it, so that `LOOKAHEAD` characters stand at `pos`, or all of the file does with a NUL
    behind it. `lex0` scans a token through ADVANCE; where the token has room, this comes to what
    the lexer gives on the text itself (`lex0Buffer_same`). -/

namespace Ncc.Lex

open Ncc.Cpp (isspace isIdent isNumber headIs map_ok)

/-- `LEX_BUFSZ`. -/
def lexBufsz : Nat := 4096

/-- `LOOKAHEAD`. -/
def lookahead : Nat := 3

/-- The characters of `buf`, the offsets into it, and what `read` has not given of the file yet;
    `isOpen` is `fd != -1`. -/
structure Buffer where
  buf : Nat → Char
  begin : Nat
  pos : Nat
  invalid : Nat
  file : List Char
  isOpen : Bool

/-- `memmove(buf, buf + offset, bytes)`. -/
def memmove (buf : Nat → Char) (offset bytes : Nat) : Nat → Char :=
  fun i => if i < bytes then buf (offset + i) else buf i

/-- The characters are put into the buffer at the offset. -/
def store (buf : Nat → Char) (offset : Nat) (cs : List Char) : Nat → Char :=
  fun i => if offset ≤ i then cs.getD (i - offset) (buf i) else buf i

/-- `refill`. `read` gives fewer bytes than asked only at the end of the file. -/
def refill (bufsz : Nat) (b : Buffer) : Except String Buffer :=
  if b.invalid < b.pos + lookahead ∧ b.isOpen then
    let buf := memmove b.buf b.begin (b.invalid - b.begin)
    let pos := b.pos - b.begin
    let invalid := b.invalid - b.begin
    let bytes := bufsz - invalid
    if bytes = 0 then .error "token too long"
    else
      let chunk := b.file.take bytes
      let buf := store buf invalid chunk
      let invalid := invalid + chunk.length
      let file := b.file.drop bytes
      if chunk.length < bytes then
        let buf := store buf invalid ['\x00']
        .ok { buf, begin := 0, pos, invalid, file, isOpen := false }
      else .ok { buf, begin := 0, pos, invalid, file, isOpen := true }
  else .ok b

/-- ADVANCE. -/
def advance (bufsz : Nat) (b : Buffer) : Except String Buffer :=
  let b := { b with pos := b.pos + 1 }
  if b.invalid < b.pos + lookahead then refill bufsz b else .ok b

/-- `pos[i]`. -/
def Buffer.peek (b : Buffer) (i : Nat) : Char := b.buf (b.pos + i)

/-- The characters of the buffer from an offset. -/
def slice (buf : Nat → Char) : Nat → Nat → List Char
  | _, 0 => []
  | offset, n + 1 => buf offset :: slice buf (offset + 1) n

/-- The token: from `begin` to `pos`. -/
def Buffer.token (b : Buffer) : List Char := slice b.buf b.begin (b.pos - b.begin)

/-- The characters not passed over yet, which bound the steps of every loop. -/
def Buffer.unread (b : Buffer) : Nat := b.invalid - b.pos + b.file.length

/-- `while (p(*pos)) ADVANCE();` -/
def skip (bufsz : Nat) (p : Char → Bool) : Nat → Buffer → Except String Buffer
  | 0, b => .ok b
  | fuel + 1, b =>
    if p (b.peek 0) then (advance bufsz b).bind (skip bufsz p fuel) else .ok b

/-- The loop of `lex0` over the blanks. -/
def skipBlanks (bufsz : Nat) : Nat → Buffer → Except String Buffer
  | 0, b => .ok b
  | fuel + 1, b =>
    if isBlank (b.peek 0) then
      (advance bufsz b).bind fun b => skipBlanks bufsz fuel { b with begin := b.pos }
    else .ok b

/-- The error of `delimit`. -/
def unterminated (delimiter : Char) : String :=
  if delimiter = '\'' then "unterminated character constant" else "unterminated string literal"

/-- `delimit`, with `escaped` as it is at the head of the loop. -/
def delimitBuffer (bufsz : Nat) (delimiter : Char) : Nat → Bool → Buffer → Except String Buffer
  | 0, _, _ => .error (unterminated delimiter)
  | fuel + 1, escaped, b =>
    let c := b.peek 0
    if c = '\x00' then .error (unterminated delimiter)
    else
      (advance bufsz b).bind fun b =>
        if c = delimiter ∧ !escaped then .ok b
        else delimitBuffer bufsz delimiter fuel (!escaped && c == '\\') b

/-- The first loop of `strlit`, and the `len` that it leaves. -/
def strlitBuffer (bufsz : Nat) : Nat → Nat → Buffer → Except String (Buffer × Nat)
  | 0, len, b => .ok (b, len)
  | fuel + 1, len, b =>
    if b.peek 0 = '"' then
      (delimitBuffer bufsz '"' (b.unread + 1) true b).bind fun b =>
        let len := b.pos - b.begin
        (skip bufsz isspace (b.unread + 1) b).bind (strlitBuffer bufsz fuel len)
    else .ok (b, len)

/-- The loop of `number`. -/
def numberBuffer (bufsz : Nat) : Nat → Buffer → Except String Buffer
  | 0, b => .ok b
  | fuel + 1, b =>
    if isNumber (b.peek 0) then
      let b :=
        if (b.peek 0).toUpper = 'E' ∧ (b.peek 1 = '+' ∨ b.peek 1 = '-') then
          { b with pos := b.pos + 1 }
        else b
      (advance bufsz b).bind (numberBuffer bufsz fuel)
    else .ok b

section
variable {F : Type} (libc : Libc F)

/-- The switch of `lex0`. -/
def lexBuffer (bufsz : Nat) (b : Buffer) : Except String (Option (Token F × Buffer)) :=
  match dispatch (b.peek 0) (b.peek 1) (b.peek 2) with
  | .punct k n => .ok (some (⟨k, .none⟩, { b with pos := b.pos + n }))
  | .ident =>
    (skip bufsz isIdent (b.unread + 1) b).map fun b => some (ident b.token, b)
  | .number =>
    (numberBuffer bufsz (b.unread + 1) b).bind fun b =>
      (number libc b.token).map fun k => some (k, b)
  | .ccon =>
    (delimitBuffer bufsz '\'' (b.unread + 1) true b).bind fun b =>
      (ccon b.token).map fun k => some (k, b)
  | .strlit =>
    (strlitBuffer bufsz (b.unread + 1) 0 b).bind fun (b, len) =>
      let b := { b with pos := b.begin + len }
      (strlit b.token).map fun k => some (k, b)
  | .bad =>
    if b.peek 0 = '\x00' ∧ b.pos = b.invalid then .ok none
    else .error s!"invalid character (ASCII {(b.peek 0).toNat % 256})"

/-- `lex0`. -/
def lex0Buffer (bufsz : Nat) (b : Buffer) : Except String (Option (Token F × Buffer)) :=
  (refill bufsz { b with begin := b.pos }).bind fun b =>
    (skipBlanks bufsz (b.unread + 1) b).bind (lexBuffer libc bufsz)

end

/-- The buffer before the first call. -/
def lexInit (bufsz : Nat) (file : List Char) : Buffer :=
  { buf := fun _ => '\x00', begin := bufsz, pos := bufsz, invalid := bufsz, file := file,
    isOpen := true }

/-! ### Slices of the buffer -/

@[simp] theorem slice_length (f : Nat → Char) : ∀ i n : Nat, (slice f i n).length = n
  | _, 0 => rfl
  | i, n + 1 => congrArg (· + 1) (slice_length f (i + 1) n)

theorem slice_congr {f g : Nat → Char} : ∀ {n i j : Nat}, (∀ k < n, f (i + k) = g (j + k)) →
    slice f i n = slice g j n
  | 0, _, _, _ => rfl
  | n + 1, i, j, h => by
    have h₀ : f i = g j := h 0 (Nat.succ_pos n)
    have hs : slice f (i + 1) n = slice g (j + 1) n := by
      refine slice_congr fun k hk => ?_
      rw [Nat.add_assoc, Nat.add_comm 1, Nat.add_assoc, Nat.add_comm 1]
      exact h (k + 1) (by omega)
    rw [slice, slice, h₀, hs]

theorem slice_add (f : Nat → Char) : ∀ i m n : Nat,
    slice f i (m + n) = slice f i m ++ slice f (i + m) n
  | i, 0, n => by simp [slice]
  | i, m + 1, n => by
    have ih := slice_add f (i + 1) m n
    rw [Nat.add_right_comm, slice, ih, slice, Nat.add_right_comm i 1 m, Nat.add_assoc i m 1]
    rfl

theorem slice_getElem (f : Nat → Char) : ∀ (n i k : Nat) (h : k < (slice f i n).length),
    (slice f i n)[k] = f (i + k)
  | 0, _, k, h => absurd h (Nat.not_lt_zero k)
  | _ + 1, _, 0, _ => rfl
  | n + 1, i, k + 1, h => by
    have ih := slice_getElem f n (i + 1) k (by simpa [slice] using h)
    rw [Nat.add_assoc, Nat.add_comm 1 k] at ih
    exact ih

theorem slice_store (f : Nat → Char) (cs : List Char) (i : Nat) :
    slice (store f i cs) i cs.length = cs := by
  refine List.ext_getElem (slice_length ..) fun k hk hk' => ?_
  rw [slice_getElem]
  simp [store, hk']

theorem slice_store_below (f : Nat → Char) (cs : List Char) {i n o : Nat}
    (h : i + n ≤ o) : slice (store f o cs) i n = slice f i n := by
  refine slice_congr fun k hk => ?_
  rw [store, if_neg (by omega)]

theorem slice_memmove (f : Nat → Char) {offset bytes i n : Nat} (h : i + n ≤ bytes) :
    slice (memmove f offset bytes) i n = slice f (offset + i) n := by
  refine slice_congr fun k hk => ?_
  rw [memmove, if_pos (by omega), Nat.add_assoc]

/-! ### The invariant of the buffer -/

/-- The offsets are in order and inside the buffer. Once the file is closed it has been read, and a
    NUL stands behind its last character. -/
structure Buffer.Ok (bufsz : Nat) (b : Buffer) : Prop where
  begin_le : b.begin ≤ b.pos
  pos_le : b.pos ≤ b.invalid
  invalid_le : b.invalid ≤ bufsz
  closed : b.isOpen = false → b.file = [] ∧ b.invalid < bufsz ∧ b.buf b.invalid = '\x00'

/-- What has been read of the text at `pos`. -/
def Buffer.ahead (b : Buffer) : List Char := slice b.buf b.pos (b.invalid - b.pos)

/-- The text at `pos`. -/
def Buffer.left (b : Buffer) : List Char := b.ahead ++ b.file

/-- `LOOKAHEAD` characters can be looked at. -/
def Buffer.Margin (b : Buffer) : Prop := b.isOpen = true → b.pos + lookahead ≤ b.invalid

theorem Buffer.left_length (b : Buffer) : b.left.length = b.unread := by
  rw [left, List.length_append, ahead, slice_length, unread]

theorem Buffer.token_length (b : Buffer) : b.token.length = b.pos - b.begin := by
  rw [token, slice_length]

/-- A token of `passed` characters fits into the buffer, with `LOOKAHEAD` characters behind it or
    with all that is left of the file; `total` counts from its first character. -/
def Room (bufsz passed total : Nat) : Prop := passed + lookahead ≤ bufsz ∨ total < bufsz

theorem Room.mono {bufsz m n total : Nat} (h : Room bufsz n total) (hmn : m ≤ n) :
    Room bufsz m total := by
  unfold Room at h ⊢
  omega

/-- The buffer stands behind the characters `t` of the token and before the text `s`, and can be
    looked ahead in. -/
structure Buffer.At (bufsz : Nat) (t s : List Char) (b : Buffer) : Prop where
  ok : b.Ok bufsz
  margin : b.Margin
  token : b.token = t
  left : b.left = s

variable {bufsz : Nat}

/-- What `refill` slides to the start of the buffer, and reads behind it. -/
theorem slice_refill {b : Buffer} (hb : b.Ok bufsz) (cs : List Char) :
    let buf := store (memmove b.buf b.begin (b.invalid - b.begin)) (b.invalid - b.begin) cs
    slice buf 0 (b.pos - b.begin) = b.token ∧
      slice buf (b.pos - b.begin) (b.invalid - b.begin + cs.length - (b.pos - b.begin)) =
        b.ahead ++ cs := by
  have h₁ := hb.begin_le
  have h₂ := hb.pos_le
  intro buf
  constructor
  · rw [slice_store_below _ _ (by omega), slice_memmove _ (by omega)]
    rfl
  · have hn : b.invalid - b.begin + cs.length - (b.pos - b.begin) =
        (b.invalid - b.pos) + cs.length := by omega
    have hi : b.pos - b.begin + (b.invalid - b.pos) = b.invalid - b.begin := by omega
    have hp : b.begin + (b.pos - b.begin) = b.pos := by omega
    rw [hn, slice_add, hi, slice_store, slice_store_below _ _ (by omega),
      slice_memmove _ (by omega), hp]
    rfl

/-- `refill` moves neither the token nor the text, and gives up only where the two and the margin
    do not fit. -/
theorem refill_spec {b : Buffer} (hb : b.Ok bufsz)
    (hm : b.isOpen = true → b.pos + 2 ≤ b.invalid ∨ Room bufsz b.token.length
      (b.token ++ b.left).length) :
    (∃ b', refill bufsz b = .ok b' ∧ b'.At bufsz b.token b.left) ∨
      (refill bufsz b = .error "token too long" ∧
        ¬ Room bufsz b.token.length (b.token ++ b.left).length) := by
  have h₁ := hb.begin_le
  have h₂ := hb.pos_le
  have h₃ := hb.invalid_le
  rw [List.length_append, b.token_length, b.left_length, Buffer.unread] at hm ⊢
  unfold refill
  split
  · next hc =>
    obtain ⟨hshort, hopen⟩ := hc
    unfold lookahead at hshort
    dsimp only
    split
    · refine .inr ⟨rfl, fun hroom => ?_⟩
      unfold Room lookahead at hroom
      omega
    · next hz =>
      left
      set m := b.invalid - b.begin with hmdef
      obtain ⟨htoken, hahead⟩ := slice_refill hb (b.file.take (bufsz - m))
      rw [← hmdef] at htoken hahead
      have hpos : b.pos - b.begin ≤ m := by omega
      have hle : (b.file.take (bufsz - m)).length ≤ bufsz - m := List.length_take_le ..
      split
      · next hlt =>
        have hfile : b.file.length < bufsz - m := by
          rw [List.length_take] at hlt
          omega
        have htake : b.file.take (bufsz - m) = b.file := List.take_of_length_le hfile.le
        have hdrop : b.file.drop (bufsz - m) = [] := List.drop_eq_nil_of_le hfile.le
        refine ⟨_, rfl, ⟨?_, ?_, ?_, fun _ => ⟨hdrop, ?_, ?_⟩⟩, (fun h => nomatch h), ?_, ?_⟩
        · exact Nat.zero_le _
        · exact Nat.le_add_right_of_le hpos
        · show m + _ ≤ bufsz
          omega
        · show m + _ < bufsz
          omega
        · simp [store]
        · refine (slice_store_below _ _ ?_).trans htoken
          show 0 + (b.pos - b.begin) ≤ m + _
          omega
        · have hbelow := slice_store_below
            (store (memmove b.buf b.begin m) m (b.file.take (bufsz - m))) ['\x00']
            (i := b.pos - b.begin)
            (n := m + (b.file.take (bufsz - m)).length - (b.pos - b.begin))
            (o := m + (b.file.take (bufsz - m)).length) (by omega)
          show slice _ _ _ ++ b.file.drop (bufsz - m) = b.ahead ++ b.file
          rw [hdrop, List.append_nil, hbelow, hahead, htake]
      · next hge =>
        refine ⟨_, rfl, ⟨?_, ?_, ?_, (fun h => nomatch h)⟩, fun _ => ?_, htoken, ?_⟩
        · exact Nat.zero_le _
        · exact Nat.le_add_right_of_le hpos
        · show m + _ ≤ bufsz
          omega
        · show b.pos - b.begin + lookahead ≤ m + _
          have hlen : bufsz - m ≤ b.file.length := by
            rw [List.length_take] at hge
            omega
          have := hm hopen
          unfold Room at this
          unfold lookahead at this ⊢
          omega
        · rw [Buffer.left, Buffer.ahead, hahead, List.append_assoc]
          show _ ++ (_ ++ b.file.drop _) = _
          rw [List.take_append_drop]
          rfl
  · next hc =>
    refine .inl ⟨b, rfl, hb, fun hopen => ?_, rfl, rfl⟩
    rw [not_and] at hc
    by_contra hlt
    exact hc (by omega) hopen

theorem Buffer.Ok.left_cons {b : Buffer} (hb : b.Ok bufsz) (hm : b.Margin) {c : Char}
    {s : List Char} (h : b.left = c :: s) : b.pos < b.invalid := by
  by_contra hge
  cases ho : b.isOpen with
  | true =>
    have := hm ho
    unfold lookahead at this
    omega
  | false =>
    have hz : b.invalid - b.pos = 0 := by omega
    rw [left, ahead, hz, (hb.closed ho).1] at h
    cases h

/-- One more character is passed over. -/
theorem Buffer.Ok.succ {b : Buffer} (hb : b.Ok bufsz) (hlt : b.pos < b.invalid) :
    Buffer.Ok bufsz { b with pos := b.pos + 1 } ∧
      Buffer.token { b with pos := b.pos + 1 } = b.token ++ [b.peek 0] ∧
      b.left = b.peek 0 :: Buffer.left { b with pos := b.pos + 1 } := by
  have h₁ := hb.begin_le
  refine ⟨⟨Nat.le_succ_of_le h₁, hlt, hb.invalid_le, hb.closed⟩, ?_, ?_⟩
  · have hn : b.pos + 1 - b.begin = (b.pos - b.begin) + 1 := by omega
    have hp : b.begin + (b.pos - b.begin) = b.pos := by omega
    rw [token]
    show slice b.buf b.begin (b.pos + 1 - b.begin) = _
    rw [hn, slice_add, hp]
    rfl
  · have hn : b.invalid - b.pos = (b.invalid - (b.pos + 1)) + 1 := by omega
    rw [left, ahead, hn]
    rfl

/-- What a scan through the buffer comes to against the same scan of the text: behind the same
    characters, the same error, or a token for which there is no room. -/
inductive Reaches (bufsz : Nat) (room : Prop) :
    Except String Buffer → Except String (List Char × List Char) → Prop
  | ok {b : Buffer} {t s : List Char} : b.At bufsz t s → Reaches bufsz room (.ok b) (.ok (t, s))
  | error (e : String) : Reaches bufsz room (.error e) (.error e)
  | long {o : Except String (List Char × List Char)} : ¬ room →
      Reaches bufsz room (.error "token too long") o

theorem Reaches.bind {room room' : Prop} {r : Except String Buffer} {t s : List Char}
    {f : Buffer → Except String Buffer} {o : Except String (List Char × List Char)}
    (h : Reaches bufsz room r (.ok (t, s))) (hroom : room' → room)
    (hf : ∀ b, b.At bufsz t s → Reaches bufsz room' (f b) o) :
    Reaches bufsz room' (r.bind f) o := by
  cases h with
  | ok hb => exact hf _ hb
  | long hn => exact .long fun h => hn (hroom h)

theorem Reaches.of_room {room : Prop} {r : Except String Buffer} {t s : List Char}
    (h : Reaches bufsz room r (.ok (t, s))) (hroom : room) : ∃ b, r = .ok b ∧ b.At bufsz t s := by
  cases h with
  | ok hb => exact ⟨_, rfl, hb⟩
  | long hn => exact absurd hroom hn

/-- ADVANCE, from where it can be looked ahead in the buffer or where there is room. -/
theorem advance_spec {b : Buffer} {t s : List Char} {c : Char} (hb : b.Ok bufsz)
    (hlt : b.pos < b.invalid) (ht : b.token = t) (hs : b.left = c :: s)
    (hm : b.isOpen = true → b.pos + lookahead ≤ b.invalid ∨
      Room bufsz (t.length + 1) (t.length + (s.length + 1))) :
    Reaches bufsz (Room bufsz (t.length + 1) (t.length + (s.length + 1))) (advance bufsz b)
      (.ok (t ++ [c], s)) := by
  obtain ⟨hok, htoken, hleft⟩ := hb.succ hlt
  rw [hs] at hleft
  obtain ⟨hc, hs'⟩ := List.cons.inj hleft
  rw [ht, ← hc] at htoken
  have hlen : (t ++ [c]).length = t.length + 1 := by simp
  have htotal : (t ++ [c] ++ s).length = t.length + (s.length + 1) := by simp
  unfold advance
  dsimp only
  split
  · have hr := refill_spec hok
    rw [htoken, ← hs', hlen, htotal] at hr
    rcases hr hm with ⟨b', hb', hat⟩ | ⟨he, hn⟩
    · rw [hb']
      exact .ok hat
    · rw [he]
      exact .long hn
  · next hge => exact .ok ⟨hok, fun _ => Nat.not_lt.mp hge, htoken, hs'.symm⟩

theorem advance_at {b : Buffer} {t s : List Char} {c : Char} (h : b.At bufsz t (c :: s)) :
    Reaches bufsz (Room bufsz (t.length + 1) (t.length + (s.length + 1))) (advance bufsz b)
      (.ok (t ++ [c], s)) :=
  advance_spec h.ok (h.ok.left_cons h.margin h.left) h.token h.left fun ho => .inl (h.margin ho)

/-! ### Looking ahead -/

/-- What stands at `pos[i]` is what the text has there, as far as the NUL behind it. -/
theorem Buffer.At.peek_eq {b : Buffer} {t s : List Char} (h : b.At bufsz t s) {i : Nat}
    (hi : i ≤ s.length) (h₃ : i < lookahead) : b.peek i = Lex.peek s i := by
  have hle := h.ok.pos_le
  by_cases hin : b.pos + i < b.invalid
  · have hk : i < b.ahead.length := by
      rw [ahead, slice_length]
      omega
    rw [← h.left, Buffer.left, Lex.peek, List.getD_append _ _ _ _ hk, List.getD_eq_getElem _ _ hk]
    exact (slice_getElem ..).symm
  · have ho : b.isOpen = false := by
      by_contra ho
      have := h.margin (by simpa using ho)
      omega
    obtain ⟨hfile, -, hnul⟩ := h.ok.closed ho
    have hlen : s.length = b.invalid - b.pos := by
      rw [← h.left, Buffer.left, hfile, List.append_nil, ahead, slice_length]
    have he : b.pos + i = b.invalid := by omega
    have hs : i = s.length := by omega
    rw [Buffer.peek, he, hnul, Lex.peek, List.getD_eq_default _ _ hs.ge]

theorem Buffer.At.peek_cons {b : Buffer} {t s : List Char} {c : Char}
    (h : b.At bufsz t (c :: s)) : b.peek 0 = c :=
  h.peek_eq (Nat.zero_le _) (by decide)

theorem Buffer.At.peek_nil {b : Buffer} {t : List Char} (h : b.At bufsz t []) :
    b.peek 0 = '\x00' :=
  h.peek_eq (Nat.zero_le _) (by decide)

theorem Buffer.At.unread {b : Buffer} {t s : List Char} (h : b.At bufsz t s) :
    s.length < b.unread + 1 := by
  rw [← h.left, b.left_length]
  exact Nat.lt_succ_self _

/-- A third character is not looked at behind a NUL. -/
theorem dispatch_nul (p₀ p₂ p₂' : Char) : dispatch p₀ '\x00' p₂ = dispatch p₀ '\x00' p₂' := by
  unfold dispatch
  split
  · rfl
  · split
    · rfl
    · split <;> rfl

/-- The switch sees what it would see in the text. -/
theorem Buffer.At.dispatch_eq {b : Buffer} {t s : List Char} (h : b.At bufsz t s) :
    dispatch (b.peek 0) (b.peek 1) (b.peek 2) =
      dispatch (Lex.peek s 0) (Lex.peek s 1) (Lex.peek s 2) := by
  match s, h with
  | [], h =>
    rw [h.peek_nil]
    rfl
  | [c], h =>
    have h₁ : b.peek 1 = '\x00' := h.peek_eq le_rfl (by decide)
    rw [h.peek_cons, h₁]
    exact dispatch_nul ..
  | c :: d :: s, h =>
    have h₁ : b.peek 1 = d := h.peek_eq (by simp) (by decide)
    have h₂ : b.peek 2 = Lex.peek (c :: d :: s) 2 := h.peek_eq (by simp) (by decide)
    rw [h.peek_cons, h₁, h₂]
    rfl

/-! ### The loops -/

theorem skip_at {p : Char → Bool} (hp : p '\x00' = false) : ∀ {s t : List Char} {fuel : Nat}
    {b : Buffer}, b.At bufsz t s → s.length < fuel →
    Reaches bufsz (Room bufsz (t ++ s.takeWhile p).length (t ++ s).length) (skip bufsz p fuel b)
      (.ok (t ++ s.takeWhile p, s.dropWhile p))
  | _, _, 0, _, _, hf => absurd hf (Nat.not_lt_zero _)
  | [], t, fuel + 1, b, h, _ => by
    rw [skip, h.peek_nil, hp, if_neg Bool.false_ne_true, List.takeWhile_nil, List.append_nil]
    exact .ok h
  | c :: s, t, fuel + 1, b, h, hf => by
    rw [skip, h.peek_cons]
    by_cases hc : p c
    · have hs : s.length < fuel := Nat.lt_of_succ_lt_succ hf
      have htake : t ++ (c :: s).takeWhile p = t ++ [c] ++ s.takeWhile p := by
        rw [List.takeWhile_cons_of_pos hc, List.append_assoc, List.singleton_append]
      have htext : t ++ c :: s = t ++ [c] ++ s := by
        rw [List.append_assoc, List.singleton_append]
      rw [if_pos hc, htake, htext, List.dropWhile_cons_of_pos hc]
      refine (advance_at h).bind (fun hroom => ?_) fun b' h' => skip_at hp h' hs
      have hle : t.length + 1 ≤ (t ++ [c] ++ s.takeWhile p).length := by simp
      have htotal : (t ++ [c] ++ s).length = t.length + (s.length + 1) := by simp
      rw [← htotal]
      exact hroom.mono hle
    · rw [if_neg hc, List.takeWhile_cons_of_neg hc, List.dropWhile_cons_of_neg hc,
        List.append_nil]
      exact .ok h

/-- The blanks need room for one character only. -/
theorem skipBlanks_at (hsz : lookahead < bufsz) : ∀ {s : List Char} {fuel : Nat} {b : Buffer},
    b.At bufsz [] s → s.length < fuel →
    ∃ b', skipBlanks bufsz fuel b = .ok b' ∧ b'.At bufsz [] (s.dropWhile isBlank)
  | _, 0, _, _, hf => absurd hf (Nat.not_lt_zero _)
  | [], fuel + 1, b, h, _ => by
    rw [skipBlanks, h.peek_nil, if_neg (by decide)]
    exact ⟨b, rfl, h⟩
  | c :: s, fuel + 1, b, h, hf => by
    rw [skipBlanks, h.peek_cons]
    by_cases hc : isBlank c
    · rw [if_pos hc, List.dropWhile_cons_of_pos hc]
      have hadv := advance_at h
      revert hadv
      generalize advance bufsz b = r
      rintro (h' | _ | hn)
      · next b' =>
        refine skipBlanks_at hsz ⟨⟨le_rfl, h'.ok.pos_le, h'.ok.invalid_le,
          h'.ok.closed⟩, h'.margin, ?_, h'.left⟩ (Nat.lt_of_succ_lt_succ hf)
        show slice b'.buf b'.pos (b'.pos - b'.pos) = []
        rw [Nat.sub_self, slice]
      · exact absurd (.inl (by unfold lookahead at hsz ⊢; simp; omega)) hn
    · rw [if_neg hc, List.dropWhile_cons_of_neg hc]
      exact ⟨b, rfl, h⟩

/-- What `delimit` gives on a text. -/
def delimited (q : Char) (t : List Char) (d : List Char × List Char × Bool) :
    Except String (List Char × List Char) :=
  if d.2.2 then .ok (t ++ d.1, d.2.1) else .error (unterminated q)

theorem delimitBuffer_at (q : Char) : ∀ (escaped : Bool) {s t : List Char} {fuel : Nat}
    {b : Buffer}, b.At bufsz t s → s.length < fuel →
    Reaches bufsz (Room bufsz (t ++ (delimit q escaped s).1).length (t ++ s).length)
      (delimitBuffer bufsz q fuel escaped b) (delimited q t (delimit q escaped s))
  | _, _, _, 0, _, _, hf => absurd hf (Nat.not_lt_zero _)
  | escaped, [], t, fuel + 1, b, h, _ => by
    rw [delimitBuffer, h.peek_nil, if_pos rfl]
    exact .error _
  | escaped, c :: s, t, fuel + 1, b, h, hf => by
    rw [delimitBuffer, delimit, h.peek_cons]
    have htext : t ++ c :: s = t ++ [c] ++ s := by
      rw [List.append_assoc, List.singleton_append]
    have htotal : (t ++ [c] ++ s).length = t.length + (s.length + 1) := by simp
    by_cases hnul : c = '\x00'
    · rw [if_pos hnul, if_pos hnul]
      exact .error _
    · rw [if_neg hnul, if_neg hnul, htext]
      by_cases hend : c = q ∧ !escaped
      · rw [if_pos hend]
        refine (advance_at h).bind (fun hroom => ?_) fun b' h' => ?_
        · rw [← htotal]
          exact hroom.mono (by simp)
        · rw [if_pos hend]
          exact .ok h'
      · rw [if_neg hend]
        refine (advance_at h).bind (fun hroom => ?_) fun b' h' => ?_
        · rw [← htotal]
          exact hroom.mono (by simp)
        · rw [if_neg hend]
          have ih := delimitBuffer_at q (!escaped && c == '\\') h'
            (Nat.lt_of_succ_lt_succ hf)
          simp only [delimited, List.append_assoc, List.singleton_append] at ih ⊢
          exact ih

/-- The cursor is set back to an earlier end of the token. -/
theorem Buffer.At.back {b : Buffer} {t u s : List Char} (h : b.At bufsz (t ++ u) s) :
    Buffer.At bufsz t (u ++ s) { b with pos := b.begin + t.length } := by
  have h₁ := h.ok.begin_le
  have h₂ := h.ok.pos_le
  have htok := h.token
  have hlen := congrArg List.length htok
  rw [b.token_length, List.length_append] at hlen
  rw [Buffer.token, hlen, slice_add] at htok
  obtain ⟨ht, hu⟩ := List.append_inj htok (slice_length ..)
  have hle : b.begin + t.length ≤ b.pos := by omega
  refine ⟨⟨Nat.le_add_right .., hle.trans h₂, h.ok.invalid_le, h.ok.closed⟩, fun ho => ?_, ?_, ?_⟩
  · exact (Nat.add_le_add_right hle _).trans (h.margin ho)
  · show slice b.buf b.begin (b.begin + t.length - b.begin) = t
    rw [Nat.add_sub_cancel_left, ht]
  · have hn : b.invalid - (b.begin + t.length) = u.length + (b.invalid - b.pos) := by omega
    have hp : b.begin + t.length + u.length = b.pos := by omega
    show slice b.buf (b.begin + t.length) (b.invalid - (b.begin + t.length)) ++ b.file = u ++ s
    rw [hn, slice_add, hu, hp, List.append_assoc, ← h.left]
    rfl

/-- `pos = begin + len`. -/
def setBack (r : Buffer × Nat) : Buffer := { r.1 with pos := r.1.begin + r.2 }

/-- What the first loop of `strlit` gives on a text. -/
def grouped (t : List Char) (g : Group) : Except String (List Char × List Char) :=
  if g.closed then .ok (t ++ g.text, g.blanks ++ g.rest) else .error (unterminated '"')

theorem Reaches.map_bind {room room' : Prop} {r : Except String Buffer} {t s : List Char}
    {f : Buffer → Except String (Buffer × Nat)} {o : Except String (List Char × List Char)}
    (h : Reaches bufsz room r (.ok (t, s))) (hroom : room' → room)
    (hf : ∀ b, b.At bufsz t s → Reaches bufsz room' ((f b).map setBack) o) :
    Reaches bufsz room' ((r.bind f).map setBack) o := by
  cases h with
  | ok hb => exact hf _ hb
  | long hn => exact .long fun h => hn (hroom h)

theorem strlitBuffer_stop {fuel len : Nat} {s t : List Char} {b : Buffer} (h : b.At bufsz t s)
    (hs : headIs (· == '"') s = false) : strlitBuffer bufsz fuel len b = .ok (b, len) := by
  cases fuel with
  | zero => rfl
  | succ fuel =>
    cases s with
    | nil => rw [strlitBuffer, h.peek_nil, if_neg (by decide)]
    | cons c s =>
      have hc : c ≠ '"' := by simpa [headIs] using hs
      rw [strlitBuffer, h.peek_cons, if_neg hc]

theorem strlitBuffer_at : ∀ (n fuel len : Nat) {s t : List Char} {b : Buffer},
    b.At bufsz t ('"' :: s) → s.length < n → s.length < fuel →
    Reaches bufsz (Room bufsz (t ++ ((strlitLoop n ('"' :: s)).text ++
        (strlitLoop n ('"' :: s)).blanks)).length (t ++ '"' :: s).length)
      ((strlitBuffer bufsz (fuel + 1) len b).map setBack)
      (grouped t (strlitLoop n ('"' :: s)))
  | 0, _, _, _, _, _, _, hn, _ => absurd hn (Nat.not_lt_zero _)
  | n + 1, fuel, len, s, t, b, h, hn, hf => by
    have hd := delimitBuffer_at '"' true h h.unread
    have hsplit := delimit_split '"' ('"' :: s) true
    have hne := delimit_ne_nil (q := '"') (c := '"') (by decide) s true
    rw [strlitBuffer, h.peek_cons, if_pos rfl, strlitLoop]
    rcases hdel : delimit '"' true ('"' :: s) with ⟨u, r, closed⟩
    rw [hdel] at hd hsplit hne
    dsimp only at hd hsplit hne ⊢
    have hlen := congrArg List.length hsplit
    have hpos := List.length_pos_iff.mpr hne
    rw [List.length_append, List.length_cons] at hlen
    cases closed with
    | false =>
      revert hd
      generalize delimitBuffer bufsz '"' (b.unread + 1) true b = r'
      intro hd
      cases hd with
      | error => exact .error _
      | long hn' =>
        refine .long fun hroom => hn' ?_
        simpa using hroom
    | true =>
      have hspan : (r.takeWhile isspace ++ r.dropWhile isspace).length = r.length := by
        rw [List.takeWhile_append_dropWhile]
      have htotal : (t ++ u ++ r).length = (t ++ '"' :: s).length := by
        simp only [List.length_append, List.length_cons]
        omega
      refine Reaches.map_bind hd (fun hroom => hroom.mono ?_) fun b₁ h₁ => ?_
      · simp only [Bool.not_true, Bool.false_eq_true, if_false]
        split <;> simp
      · have hskip := skip_at (p := isspace) (by decide) h₁ h₁.unread
        have hback : b₁.pos - b₁.begin = (t ++ u).length := by rw [← h₁.token, b₁.token_length]
        rw [htotal] at hskip
        rw [hback]
        rw [List.length_append] at hspan
        cases hq : headIs (· == '"') (r.dropWhile isspace) with
        | false =>
          refine hskip.map_bind (fun hroom => hroom.mono ?_) fun b₂ h₂ => ?_
          · simp
          · rw [strlitBuffer_stop h₂ hq]
            have hb := Buffer.At.back h₂
            exact .ok hb
        | true =>
          obtain ⟨s₂, hs₂⟩ : ∃ s₂, r.dropWhile isspace = '"' :: s₂ := by
            cases hr : r.dropWhile isspace with
            | nil =>
              rw [hr] at hq
              cases hq
            | cons c s₂ =>
              rw [hr] at hq
              exact ⟨s₂, by simpa [headIs] using hq⟩
          rw [hs₂] at hskip hspan ⊢
          rw [List.length_cons] at hspan
          obtain ⟨fuel', rfl⟩ : ∃ k, fuel = k + 1 := ⟨fuel - 1, by omega⟩
          simp only [Bool.not_true, Bool.false_eq_true, if_false, if_true]
          refine hskip.map_bind (fun hroom => hroom.mono ?_) fun b₂ h₂ => ?_
          · simp
          · have ih := strlitBuffer_at n fuel' (t ++ u).length h₂
              (by omega) (by omega)
            have htotal₂ : (t ++ u ++ r.takeWhile isspace ++ '"' :: s₂).length =
                (t ++ '"' :: s).length := by
              simp only [List.length_append, List.length_cons]
              omega
            rw [htotal₂] at ih
            simp only [grouped, List.append_assoc] at ih ⊢
            exact ih

theorem Buffer.At.advance_room {b : Buffer} {t s u : List Char} {c : Char}
    (h : b.At bufsz t (c :: s)) (hroom : Room bufsz (t ++ c :: u).length (t ++ c :: s).length) :
    ∃ b', advance bufsz b = .ok b' ∧ b'.At bufsz (t ++ [c]) s := by
  refine (advance_at h).of_room ?_
  simp only [List.length_append, List.length_cons] at hroom
  exact hroom.mono (by omega)

/-- `++pos; ADVANCE();` goes past the margin, which is there again where there is room. -/
theorem Buffer.At.advance_two {b : Buffer} {t s u : List Char} {c d : Char}
    (h : b.At bufsz t (c :: d :: s))
    (hroom : Room bufsz (t ++ c :: d :: u).length (t ++ c :: d :: s).length) :
    ∃ b', advance bufsz { b with pos := b.pos + 1 } = .ok b' ∧ b'.At bufsz (t ++ [c, d]) s := by
  obtain ⟨hok, htoken, hleft⟩ := h.ok.succ (h.ok.left_cons h.margin h.left)
  rw [h.left] at hleft
  obtain ⟨hc, hs⟩ := List.cons.inj hleft
  rw [h.token, ← hc] at htoken
  have hlt : b.pos + 1 < b.invalid := by
    cases ho : b.isOpen with
    | true =>
      have hm := h.margin ho
      unfold lookahead at hm
      omega
    | false =>
      have hlen := b.left_length
      rw [h.left, Buffer.unread, (h.ok.closed ho).1] at hlen
      simp only [List.length_cons, List.length_nil] at hlen
      omega
  simp only [List.length_append, List.length_cons] at hroom
  have hroom' : Room bufsz ((t ++ [c]).length + 1) ((t ++ [c]).length + (s.length + 1)) := by
    have he : (t ++ [c]).length + (s.length + 1) = t.length + (s.length + 1 + 1) := by
      simp only [List.length_append, List.length_singleton]
      omega
    rw [he]
    exact hroom.mono (by simp)
  obtain ⟨b', hb', hat⟩ := (advance_spec hok hlt htoken hs.symm fun _ => .inr hroom').of_room hroom'
  rw [List.append_assoc] at hat
  exact ⟨b', hb', hat⟩

theorem Buffer.At.sign_iff {b : Buffer} {t s : List Char} {c d : Char}
    (h : b.At bufsz t (c :: d :: s)) :
    ((b.peek 0).toUpper = 'E' ∧ (b.peek 1 = '+' ∨ b.peek 1 = '-')) ↔
      (c.toUpper = 'E' ∧ (d = '+' ∨ d = '-')) := by
  have h₁ : b.peek 1 = d := h.peek_eq (by simp) (by decide)
  rw [h.peek_cons, h₁]

theorem numberBuffer_stop {fuel : Nat} {b : Buffer} (h : isNumber (b.peek 0) = false) :
    numberBuffer bufsz fuel b = .ok b := by
  cases fuel with
  | zero => rfl
  | succ fuel => rw [numberBuffer, if_neg (by simp [h])]

theorem numberBuffer_next {fuel : Nat} {b b' : Buffer} (h : isNumber (b.peek 0) = true)
    (he : ¬ ((b.peek 0).toUpper = 'E' ∧ (b.peek 1 = '+' ∨ b.peek 1 = '-')))
    (ha : advance bufsz b = .ok b') :
    numberBuffer bufsz (fuel + 1) b = numberBuffer bufsz fuel b' := by
  rw [numberBuffer, if_pos h, if_neg he]
  dsimp only
  rw [ha]
  rfl

theorem numberBuffer_sign {fuel : Nat} {b b' : Buffer} (h : isNumber (b.peek 0) = true)
    (he : (b.peek 0).toUpper = 'E' ∧ (b.peek 1 = '+' ∨ b.peek 1 = '-'))
    (ha : advance bufsz { b with pos := b.pos + 1 } = .ok b') :
    numberBuffer bufsz (fuel + 1) b = numberBuffer bufsz fuel b' := by
  rw [numberBuffer, if_pos h, if_pos he]
  dsimp only
  rw [ha]
  rfl

/-- The loop of `number`, where there is room for the constant. -/
theorem numberBuffer_at : ∀ (fuel : Nat) {s t : List Char} {b : Buffer}, b.At bufsz t s →
    s.length < fuel → Room bufsz (t ++ (numberLoop s).1).length (t ++ s).length →
    ∃ b', numberBuffer bufsz fuel b = .ok b' ∧
      b'.At bufsz (t ++ (numberLoop s).1) (numberLoop s).2
  | 0, _, _, _, _, hf, _ => absurd hf (Nat.not_lt_zero _)
  | fuel + 1, [], t, b, h, _, _ => by
    rw [numberBuffer_stop (by rw [h.peek_nil]; decide), numberLoop, List.append_nil]
    exact ⟨b, rfl, h⟩
  | fuel + 1, [c], t, b, h, hf, hroom => by
    rw [numberLoop] at hroom ⊢
    by_cases hc : isNumber c
    · rw [if_pos hc] at hroom ⊢
      obtain ⟨b', ha, h'⟩ := h.advance_room hroom
      have hp : b.peek 1 = '\x00' := h.peek_eq le_rfl (by decide)
      have he : ¬ ((b.peek 0).toUpper = 'E' ∧ (b.peek 1 = '+' ∨ b.peek 1 = '-')) := by
        rw [hp]
        simp
      rw [numberBuffer_next (by rw [h.peek_cons]; exact hc) he ha,
        numberBuffer_stop (by rw [h'.peek_nil]; decide)]
      exact ⟨b', rfl, h'⟩
    · rw [if_neg hc, List.append_nil,
        numberBuffer_stop (by rw [h.peek_cons]; simpa using hc)]
      exact ⟨b, rfl, h⟩
  | fuel + 1, c :: d :: s, t, b, h, hf, hroom => by
    rw [numberLoop] at hroom ⊢
    by_cases hc : isNumber c
    · have hn : isNumber (b.peek 0) = true := by rw [h.peek_cons]; exact hc
      rw [if_pos hc] at hroom ⊢
      simp only [List.length_cons] at hf
      by_cases he : c.toUpper = 'E' ∧ (d = '+' ∨ d = '-')
      · rw [if_pos he] at hroom ⊢
        obtain ⟨b', ha, h'⟩ := h.advance_two hroom
        rw [numberBuffer_sign hn (h.sign_iff.mpr he) ha]
        have ih := numberBuffer_at fuel h' (by omega) (by simpa using hroom)
        rw [List.append_assoc] at ih
        exact ih
      · rw [if_neg he] at hroom ⊢
        obtain ⟨b', ha, h'⟩ := h.advance_room hroom
        rw [numberBuffer_next hn (mt h.sign_iff.mp he) ha]
        have ih := numberBuffer_at fuel h' (by simp; omega) (by simpa using hroom)
        rw [List.append_assoc] at ih
        exact ih
    · rw [if_neg hc, List.append_nil,
        numberBuffer_stop (by rw [h.peek_cons]; simpa using hc)]
      exact ⟨b, rfl, h⟩

/-! ### A token -/

section
variable {F : Type} {libc : Libc F}

/-- The characters that `lex0` passes over for a token: of a group of string literals the white
    space behind it too. A literal that does not end is no token. -/
def span (s : List Char) : Option Nat :=
  match dispatch (peek s 0) (peek s 1) (peek s 2) with
  | .punct _ n => some n
  | .ident => some (s.takeWhile isIdent).length
  | .number => some (numberLoop s).1.length
  | .ccon =>
    let (t, _, closed) := delimit '\'' true s
    if closed then some t.length else none
  | .strlit =>
    let g := strlitLoop s.length s
    if g.closed then some (g.text ++ g.blanks).length else none
  | .bad => none

/-- The buffer between two tokens, before the text `s`. -/
structure Buffer.Before (bufsz : Nat) (b : Buffer) (s : List Char) : Prop where
  ok : b.Ok bufsz
  left : b.left = s

theorem Buffer.At.before {b : Buffer} {t s : List Char} (h : b.At bufsz t s) :
    b.Before bufsz s :=
  ⟨h.ok, h.left⟩

/-- The errors of the lexer with a buffer: those of the lexer without, but that a literal that does
    not end can be too long first. -/
def SameError (bufsz total : Nat) (e e' : String) : Prop :=
  e = e' ∨ (bufsz ≤ total ∧ e = "token too long" ∧ ∃ q, e' = unterminated q)

/-- Both fail alike, or give the same token, or are at the end. -/
def SameToken (bufsz total : Nat) :
    Except String (Option (Token F × Buffer)) → Except String (Option (Token F × List Char)) →
      Prop :=
  Related (SameError bufsz total) (Option.Rel (SameItem (Buffer.Before bufsz)))

theorem operator_chars {p₀ p₁ p₂ : Char} {self : K} {dup eq dupeq : Option K} {k : K} {n : Nat}
    (hp : p₀ ≠ '\x00') (h : operator p₀ p₁ p₂ self dup eq dupeq = .punct k n) :
    n ≤ 3 ∧ (1 < n → p₁ ≠ '\x00') ∧ (2 < n → p₂ ≠ '\x00') := by
  unfold operator at h
  split at h
  · next hc =>
    cases h
    exact ⟨le_rfl, fun _ => hc.2.1 ▸ hp, fun _ => by rw [hc.2.2]; decide⟩
  · split at h
    · next hc =>
      cases h
      exact ⟨by decide, fun _ => hc.2 ▸ hp, fun h => absurd h (by decide)⟩
    · split at h
      · next hc =>
        cases h
        exact ⟨by decide, fun _ => by rw [hc.2]; decide, fun h => absurd h (by decide)⟩
      · cases h
        exact ⟨by decide, fun h => absurd h (by decide), fun h => absurd h (by decide)⟩

/-- An operator takes characters of the text only. -/
theorem dispatch_chars {p₀ p₁ p₂ : Char} {k : K} {n : Nat}
    (h : dispatch p₀ p₁ p₂ = .punct k n) :
    n ≤ 3 ∧ (1 < n → p₁ ≠ '\x00') ∧ (2 < n → p₂ ≠ '\x00') := by
  have one : ∀ k' : K, Start.punct k' 1 = .punct k n →
      n ≤ 3 ∧ (1 < n → p₁ ≠ '\x00') ∧ (2 < n → p₂ ≠ '\x00') := by
    intro k' h
    cases h
    exact ⟨by decide, fun h => absurd h (by decide), fun h => absurd h (by decide)⟩
  unfold dispatch at h
  split at h
  · cases h
  · split at h
    · cases h
    · split at h <;> first
        | exact one _ h
        | exact operator_chars (by decide) h
        | cases h
        | skip
      · split at h
        · next hc =>
          cases h
          exact ⟨by decide, fun _ => by rw [hc]; decide, fun h => absurd h (by decide)⟩
        · exact operator_chars (by decide) h
      · split at h
        · next hc =>
          cases h
          exact ⟨le_rfl, fun _ => by rw [hc.1]; decide, fun _ => by rw [hc.2]; decide⟩
        · split at h
          · exact one _ h
          · cases h

theorem dispatch_length {c : Char} {s : List Char} {k : K} {n : Nat}
    (h : dispatch (peek (c :: s) 0) (peek (c :: s) 1) (peek (c :: s) 2) = .punct k n) :
    n ≤ (c :: s).length := by
  obtain ⟨h₃, h₁, h₂⟩ := dispatch_chars h
  match s with
  | [] =>
    by_contra hn
    exact h₁ (by simpa using hn) rfl
  | [d] =>
    by_contra hn
    exact h₂ (by simpa using hn) rfl
  | d :: e :: s => exact h₃.trans (by simp)

/-- An operator is passed over without ADVANCE. -/
theorem Buffer.At.skip_punct {b : Buffer} {s : List Char} {n : Nat} (h : b.At bufsz [] s)
    (h₃ : n ≤ lookahead) (hn : n ≤ s.length) :
    Buffer.Before bufsz { b with pos := b.pos + n } (s.drop n) := by
  have hlen := b.left_length
  rw [h.left, Buffer.unread] at hlen
  have hle : b.pos + n ≤ b.invalid := by
    cases ho : b.isOpen with
    | true => exact (Nat.add_le_add_left h₃ _).trans (h.margin ho)
    | false =>
      rw [(h.ok.closed ho).1, List.length_nil] at hlen
      have := h.ok.pos_le
      omega
  refine ⟨⟨h.ok.begin_le.trans (Nat.le_add_right ..), hle, h.ok.invalid_le, h.ok.closed⟩, ?_⟩
  have hsum : b.invalid - b.pos = n + (b.invalid - (b.pos + n)) := by omega
  have hs := h.left
  rw [Buffer.left, Buffer.ahead, hsum, slice_add, List.append_assoc] at hs
  rw [← hs, List.drop_left' (slice_length ..)]
  rfl

/-- The converted token, with the text behind it. -/
theorem sameToken_map {total : Nat} {b : Buffer} {t s : List Char}
    (conv : List Char → Except String (Token F)) (h : b.At bufsz t s) :
    SameToken bufsz total ((conv b.token).map fun k => some (k, b))
      (((conv t).map (·, s)).map some) := by
  rw [h.token]
  cases conv t with
  | error e => exact .inl rfl
  | ok k => exact .some ⟨rfl, h.before⟩

/-- A literal is scanned alike and converted alike, unless it is too long for the buffer. -/
theorem sameToken_closed {total : Nat} {room : Prop} {q : Char} {t s : List Char} {closed : Bool}
    {r : Except String Buffer} (conv : List Char → Except String (Token F))
    (h : Reaches bufsz room r (if closed then .ok (t, s) else .error (unterminated q)))
    (hroom : closed = true → room) (htotal : closed = false → bufsz ≤ total ∨ room) :
    SameToken bufsz total (r.bind fun b => (conv b.token).map fun k => some (k, b))
      ((if closed then (conv t).map (·, s) else .error (unterminated q)).map some) := by
  cases closed with
  | true =>
    obtain ⟨b, rfl, hb⟩ := h.of_room (hroom rfl)
    exact sameToken_map conv hb
  | false =>
    generalize ho : (if false = true then Except.ok (t, s) else .error (unterminated q)) = o at h
    cases h with
    | ok hb => cases ho
    | error e =>
      cases ho
      exact .inl rfl
    | long hn => exact .inr ⟨(htotal rfl).resolve_right hn, rfl, q, rfl⟩

theorem room_total {n total : Nat} {s : List Char} (hs : s.length ≤ total) :
    bufsz ≤ total ∨ Room bufsz n s.length := by
  unfold Room
  omega

/-- The switch of `lex0`: where what the token passes over has room, it comes to the same with the
    buffer and without. -/
theorem lexBuffer_same {total : Nat} {b : Buffer} {s s₀ : List Char} (h : b.At bufsz [] s)
    (hs : s₀.dropWhile isBlank = s) (htotal : s.length ≤ total)
    (hroom : ∀ n, span s = some n → Room bufsz n s.length) :
    SameToken bufsz total (lexBuffer libc bufsz b) (lex0 libc s₀) := by
  have hlen := b.left_length
  rw [h.left, Buffer.unread] at hlen
  have hle := h.ok.pos_le
  cases s with
  | nil =>
    have hend : b.peek 0 = '\x00' ∧ b.pos = b.invalid := by
      rw [List.length_nil] at hlen
      exact ⟨h.peek_nil, by omega⟩
    rw [lexBuffer, h.dispatch_eq, lex0, hs]
    show SameToken _ _ (if _ then _ else _) _
    rw [if_pos hend]
    exact .none
  | cons c cs =>
    rw [lexBuffer, h.dispatch_eq, lex0_cons hs, lexToken]
    unfold span at hroom
    cases hd : dispatch (peek (c :: cs) 0) (peek (c :: cs) 1) (peek (c :: cs) 2) with
    | punct k n =>
      have h₃ : n ≤ lookahead := (dispatch_chars hd).1
      exact .some ⟨rfl, h.skip_punct h₃ (dispatch_length hd)⟩
    | ident =>
      rw [hd] at hroom
      obtain ⟨b', hb', h'⟩ := (skip_at (p := isIdent) (by decide) h h.unread).of_room (hroom _ rfl)
      dsimp only
      rw [hb']
      refine .some ⟨?_, h'.before⟩
      rw [h'.token, List.nil_append]
    | number =>
      rw [hd] at hroom
      obtain ⟨b', hb', h'⟩ := numberBuffer_at _ h h.unread (hroom _ rfl)
      dsimp only
      rw [hb']
      exact sameToken_map (number libc) h'
    | ccon =>
      rw [hd] at hroom
      have hdel := delimitBuffer_at '\'' true h h.unread
      dsimp only at hroom ⊢
      refine sameToken_closed ccon hdel (fun hc => ?_) fun _ => room_total htotal
      rw [if_pos hc] at hroom
      exact hroom _ rfl
    | strlit =>
      rw [hd] at hroom
      have hfits : (dispatch (peek (c :: cs) 0) (peek (c :: cs) 1) (peek (c :: cs) 2)).Fits c :=
        dispatch_fits _ _ _
      rw [hd] at hfits
      obtain rfl : c = '"' := hfits
      have hgroup := strlitBuffer_at ('"' :: cs).length b.unread 0 h
        (Nat.lt_succ_self _) (by have := h.unread; rw [List.length_cons] at this; omega)
      dsimp only at hroom ⊢
      have hclosed : (strlitLoop ('"' :: cs).length ('"' :: cs)).closed = true →
          Room bufsz _ ('"' :: cs).length := fun hc => by
        rw [if_pos hc] at hroom
        exact hroom _ rfl
      have hsame : SameToken (F := F) bufsz total _ _ :=
        sameToken_closed strlit hgroup hclosed fun _ => room_total htotal
      cases hr : strlitBuffer bufsz (b.unread + 1) 0 b with
      | error e =>
        rw [hr] at hsame
        exact hsame
      | ok r =>
        rw [hr] at hsame
        exact hsame
    | bad =>
      have hlt : b.pos ≠ b.invalid := by
        rw [List.length_cons] at hlen
        have := h.ok.left_cons h.margin h.left
        omega
      dsimp only
      rw [if_neg fun hc => hlt hc.2, h.peek_cons]
      exact .inl rfl

/-! ### The tokens of a file -/

/-- `begin = pos; refill();` -/
theorem refill_before (hsz : lookahead < bufsz) {b : Buffer} {s : List Char}
    (h : b.Before bufsz s) :
    ∃ b', refill bufsz { b with begin := b.pos } = .ok b' ∧ b'.At bufsz [] s := by
  have hok : Buffer.Ok bufsz { b with begin := b.pos } :=
    ⟨le_rfl, h.ok.pos_le, h.ok.invalid_le, h.ok.closed⟩
  have htoken : Buffer.token { b with begin := b.pos } = [] := by
    show slice b.buf b.pos (b.pos - b.pos) = []
    rw [Nat.sub_self, slice]
  have hroom : Room bufsz (Buffer.token { b with begin := b.pos }).length
      (Buffer.token { b with begin := b.pos } ++ Buffer.left { b with begin := b.pos }).length := by
    rw [htoken]
    exact .inl (by rw [List.length_nil, Nat.zero_add]; exact hsz.le)
  rcases refill_spec hok fun _ => .inr hroom with ⟨b', hb', hat⟩ | ⟨-, hn⟩
  · rw [htoken] at hat
    refine ⟨b', hb', ?_⟩
    rw [← h.left]
    exact hat
  · exact absurd hroom hn

/-- `lex0`. -/
theorem lex0Buffer_same (hsz : lookahead < bufsz) {total : Nat} {b : Buffer} {s : List Char}
    (h : b.Before bufsz s) (htotal : s.length ≤ total)
    (hroom : ∀ n, span (s.dropWhile isBlank) = some n →
      Room bufsz n (s.dropWhile isBlank).length) :
    SameToken bufsz total (lex0Buffer libc bufsz b) (lex0 libc s) := by
  obtain ⟨b₁, hb₁, h₁⟩ := refill_before hsz h
  obtain ⟨b₂, hb₂, h₂⟩ := skipBlanks_at hsz h₁ h₁.unread
  have hdrop := (List.dropWhile_suffix isBlank (l := s)).length_le
  rw [lex0Buffer, hb₁]
  show SameToken _ _ ((skipBlanks bufsz (b₁.unread + 1) b₁).bind _) _
  rw [hb₂]
  exact lexBuffer_same h₂ rfl (hdrop.trans htotal) hroom

end

end Ncc.Lex
