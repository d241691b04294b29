import Ncc.Cpp.Vstring

/-! Logical lines (cpp/input.c: `concat_line`).

    `concat_line` puts every character into a static string and rubs a backslash out when a newline
    follows it. A line that ends there is left with the backslash where its NUL belongs
    (`concatLine_iff`). -/

namespace Ncc.Cpp

/-! ### The code -/

/-- The loop of `concat_line`; `c` is the character before. -/
def concatLoop : List Char → Char → Vstring → Nat → Except String (Vstring × List Char × Nat)
  | [], _, buf, lineNo => .ok (buf, [], lineNo)
  | d :: text, c, buf, lineNo =>
    if d = '\n' then
      if c = '\\' then do
        let buf ← buf.rubout
        concatLoop text d buf (lineNo + 1)
      else .ok (buf, text, lineNo)
    else do
      let buf ← buf.putc d
      concatLoop text d buf lineNo

/-- `concat_line` on what is left of the file: the buffer, what follows the line, and the line
    number; none at the end of the file. -/
def concatLine (buf : Vstring) (text : List Char) (lineNo : Nat) :
    Except String (Option (Vstring × List Char × Nat)) :=
  if text.isEmpty then .ok none else (concatLoop text nul buf.clear (lineNo + 1)).map some

/-! ### The logical line -/

/-- A line as the file has it: up to a newline that is not preceded by a backslash. `ended` is false
    where the file ends first. -/
structure RawLine where
  body : List Char
  rest : List Char
  ended : Bool
  deriving DecidableEq, Repr

/-- The line at the start of the text; `c` is the character before. -/
def rawLine : Char → List Char → RawLine
  | _, [] => { body := [], rest := [], ended := false }
  | c, d :: text =>
    if d = '\n' ∧ c ≠ '\\' then { body := [], rest := text, ended := true }
    else
      let l := rawLine d text
      { l with body := d :: l.body }

/-- The text without its backslash-newline pairs. -/
def removePairs : List Char → List Char
  | '\\' :: '\n' :: s => removePairs s
  | c :: s => c :: removePairs s
  | [] => []

/-- The physical lines that the line takes up; one that a newline does not end counts if there is a
    character in it. -/
def RawLine.lines (l : RawLine) : Nat :=
  l.body.count '\n' + if l.ended ∨ l.body.getLast? ≠ some '\n' then 1 else 0

/-- Does the line end in a backslash-newline pair? -/
def RawLine.endsInPair (l : RawLine) : Bool := l.body.getLast? == some '\n'

/-- The buffer is the logical line, what follows it is left, and the line number counts its physical
    lines. -/
def LogicalLine (text : List Char) (lineNo : Nat) (r : Vstring × List Char × Nat) : Prop :=
  let l := rawLine nul text
  Equals r.1 (removePairs l.body) ∧ r.2.1 = l.rest ∧ r.2.2 = lineNo + l.lines

/-! ### What the loop builds -/

/-- What the loop of `concat_line` builds. -/
def joined : Built → List Char → Built
  | b, [] => b
  | b, c :: s =>
    joined (if c = '\n' then { s := b.s.dropLast, removed := b.s.getLast? } else { s := b.s ++ [c] })
      s

/-- A backslash that was read last stands at the end of the string. -/
def Ends (c : Char) (s : List Char) : Prop := c = '\\' → s.getLast? = some '\\'

theorem ends_concat (c : Char) (s : List Char) : Ends c (s ++ [c]) := fun h => by
  rw [List.getLast?_concat, h]

theorem rawLine_end {c : Char} (h : c ≠ '\\') (text : List Char) :
    rawLine c ('\n' :: text) = { body := [], rest := text, ended := true } := if_pos ⟨rfl, h⟩

theorem rawLine_cons {c d : Char} (h : d = '\n' → c = '\\') (text : List Char) :
    rawLine c (d :: text) = { rawLine d text with body := d :: (rawLine d text).body } :=
  if_neg fun hd => hd.2 (h hd.1)

theorem joined_newline (b : Built) (s : List Char) : joined b ('\n' :: s) =
    joined { s := b.s.dropLast, removed := b.s.getLast? } s := rfl

theorem joined_cons {c : Char} (h : c ≠ '\n') (b : Built) (s : List Char) :
    joined b (c :: s) = joined { s := b.s ++ [c] } s := by rw [joined, if_neg h]

/-- The loop builds the line, whatever is left in the buffer behind it. -/
theorem concatLoop_joined : ∀ (text : List Char) {c : Char} {buf : Vstring} {b : Built}
    {lineNo : Nat} {r : Vstring × List Char × Nat}, Tracks buf b → Ends c b.s →
    concatLoop text c buf lineNo = .ok r →
    Tracks r.1 (joined b (rawLine c text).body) ∧ r.2.1 = (rawLine c text).rest ∧
      r.2.2 = lineNo + (rawLine c text).body.count '\n'
  | [], _, _, _, _, _, ht, _, h => by
    cases h
    exact ⟨ht, rfl, rfl⟩
  | d :: text, c, buf, b, lineNo, r, ht, he, h => by
    rw [concatLoop] at h
    by_cases hd : d = '\n'
    · subst hd
      rw [if_pos rfl] at h
      by_cases hc : c = '\\'
      · rw [if_pos hc] at h
        obtain ⟨buf', hr, hrest⟩ := bind_ok.mp h
        have ht' := tracks_rubout ht.toContains hr
        obtain ⟨h1, h2, h3⟩ := concatLoop_joined text ht' (fun h => by cases h) hrest
        rw [rawLine_cons fun _ => hc]
        refine ⟨h1, h2, ?_⟩
        rw [h3, List.count_cons_self]
        omega
      · rw [if_neg hc] at h
        cases h
        rw [rawLine_end hc]
        exact ⟨ht, rfl, rfl⟩
    · rw [if_neg hd] at h
      obtain ⟨buf', hp, hrest⟩ := bind_ok.mp h
      have ht' := tracks_putc ht.toContains hp
      obtain ⟨h1, h2, h3⟩ := concatLoop_joined text ht' (ends_concat d b.s) hrest
      rw [rawLine_cons fun h => absurd h hd]
      refine ⟨?_, h2, ?_⟩
      · rw [joined_cons hd]
        exact h1
      · rw [h3, List.count_cons_of_ne hd]

theorem removePairs_cons {c : Char} (h : c ≠ '\\') (s : List Char) :
    removePairs (c :: s) = c :: removePairs s :=
  removePairs.eq_2 c s fun _ hc _ => h hc

theorem removePairs_backslash {c : Char} (h : c ≠ '\n') (s : List Char) :
    removePairs ('\\' :: c :: s) = '\\' :: removePairs (c :: s) :=
  removePairs.eq_2 '\\' (c :: s) fun _ _ hs => h (List.cons.inj hs).1

/-- What is built is the line without its pairs; a backslash may be the first half of one. -/
theorem joined_removePairs : ∀ (text : List Char) (b : Built),
    (∀ c, c ≠ '\\' → (joined b (rawLine c text).body).s =
      b.s ++ removePairs (rawLine c text).body) ∧
    ∀ s, b.s = s ++ ['\\'] → (joined b (rawLine '\\' text).body).s =
      s ++ removePairs ('\\' :: (rawLine '\\' text).body)
  | [], b => ⟨fun _ _ => (List.append_nil _).symm, fun _ h => h⟩
  | d :: text, b => by
    refine ⟨fun c hc => ?_, fun s hs => ?_⟩
    · by_cases hd : d = '\n'
      · subst hd
        rw [rawLine_end hc]
        exact (List.append_nil _).symm
      · rw [rawLine_cons fun h => absurd h hd, joined_cons hd]
        obtain ⟨h1, h2⟩ := joined_removePairs text { s := b.s ++ [d] }
        by_cases hb : d = '\\'
        · subst hb
          exact h2 b.s rfl
        · rw [h1 d hb, removePairs_cons hb, List.append_assoc, List.singleton_append]
    · rw [rawLine_cons fun _ => rfl]
      by_cases hd : d = '\n'
      · subst hd
        obtain ⟨h1, -⟩ := joined_removePairs text { s := b.s.dropLast, removed := b.s.getLast? }
        rw [joined_newline, h1 '\n' (by decide), hs, List.dropLast_concat, removePairs]
      · obtain ⟨h1, h2⟩ := joined_removePairs text { s := b.s ++ [d] }
        rw [joined_cons hd, removePairs_backslash hd]
        by_cases hb : d = '\\'
        · subst hb
          rw [h2 b.s rfl, hs, List.append_assoc, List.singleton_append]
        · rw [h1 d hb, removePairs_cons hb, hs]
          simp

/-- The backslash of the last pair is left behind the string exactly when nothing follows it. -/
theorem joined_stale : ∀ (text : List Char) {c : Char} {b : Built}, Ends c b.s →
    (joined b (rawLine c text).body).stale =
      ((rawLine c text).body.getLast?.map (· == '\n')).getD b.stale
  | [], _, _, _ => rfl
  | d :: text, c, b, he => by
    have hlast : ∀ (x : Bool) (l : List Char),
        ((d :: l).getLast?.map (· == '\n')).getD x = (l.getLast?.map (· == '\n')).getD (d == '\n') :=
      fun x l => by
        cases l with
        | nil => rfl
        | cons e l => rw [List.getLast?_cons_cons, List.getLast?_cons]; rfl
    by_cases hd : d = '\n'
    · subst hd
      by_cases hc : c = '\\'
      · rw [rawLine_cons fun _ => hc, joined_newline, hlast, joined_stale text fun h => by cases h]
        rw [he hc]
        rfl
      · rw [rawLine_end hc]
        rfl
    · have hd' : (d == '\n') = false := beq_false_of_ne hd
      rw [rawLine_cons fun h => absurd h hd, joined_cons hd, hlast,
        joined_stale text (ends_concat d b.s), hd']
      rfl

/-- No text that a file can hold is too long for the buffer. -/
theorem concatLoop_ok : ∀ (text : List Char) {c : Char} {buf : Vstring} {b : Built} (lineNo : Nat),
    Tracks buf b → Ends c b.s → buf.len + text.length < 2 ^ 63 →
    ∃ r, concatLoop text c buf lineNo = .ok r
  | [], _, _, _, _, _, _, _ => ⟨_, rfl⟩
  | d :: text, c, buf, b, lineNo, ht, he, hlt => by
    rw [List.length_cons] at hlt
    rw [concatLoop]
    by_cases hd : d = '\n'
    · rw [if_pos hd]
      by_cases hc : c = '\\'
      · have hlen : buf.len ≠ 0 := by
          rw [ht.len]
          intro h0
          have := he hc
          rw [List.length_eq_zero_iff.mp h0] at this
          cases this
        have hr : buf.rubout = .ok { buf with len := buf.len - 1 } := if_neg hlen
        have ht' := tracks_rubout ht.toContains hr
        rw [if_pos hc, hr]
        refine concatLoop_ok text (lineNo + 1) ht' (fun h => ?_) ?_
        · rw [hd] at h
          cases h
        · show buf.len - 1 + text.length < 2 ^ 63
          omega
      · exact ⟨_, if_neg hc⟩
    · obtain ⟨buf', hp⟩ := putc_ok buf d (by omega)
      have ht' := tracks_putc ht.toContains hp
      have hlen : buf'.len = buf.len + 1 := by
        rw [ht'.len, List.length_append, ht.len, List.length_singleton]
      rw [if_neg hd, hp]
      exact concatLoop_ok text lineNo ht' (ends_concat d b.s) (by omega)

/-- `concat_line` gives the logical line exactly when that does not end in a pair. -/
theorem concatLine_logical {buf : Vstring} {b : Built} (ht : Tracks buf b) {text : List Char}
    (htext : text ≠ []) (lineNo : Nat) :
    (text.length < 2 ^ 63 → ∃ r, concatLine buf text lineNo = .ok (some r)) ∧
    ∀ r, concatLine buf text lineNo = .ok (some r) →
      (LogicalLine text lineNo r ↔ (rawLine nul text).endsInPair = false) := by
  have hclear := tracks_clear ht.toContains
  have hends : Ends nul ({} : Built).s := fun h => by cases h
  have hline : concatLine buf text lineNo =
      (concatLoop text nul buf.clear (lineNo + 1)).map some :=
    if_neg (by simpa using htext)
  rw [hline]
  refine ⟨fun hlt => ?_, fun r hr => ?_⟩
  · obtain ⟨r, hr⟩ := concatLoop_ok text (lineNo + 1) hclear hends (by
      rw [hclear.len]
      exact (Nat.zero_add _).trans_lt hlt)
    exact ⟨r, by rw [hr]; rfl⟩
  · obtain ⟨r', hr, heq⟩ := map_ok.mp hr
    cases heq
    obtain ⟨h1, h2, h3⟩ := concatLoop_joined text hclear hends hr
    have hs : (joined {} (rawLine nul text).body).s = removePairs (rawLine nul text).body :=
      (joined_removePairs text {}).1 nul (by decide)
    have hstale := joined_stale text hends
    have hequals := equals_iff h1
    rw [hs, hstale] at hequals
    have hpair : ((rawLine nul text).body.getLast?.map (· == '\n')).getD (Built.stale {}) =
        (rawLine nul text).endsInPair := by
      rw [RawLine.endsInPair]
      cases (rawLine nul text).body.getLast? with
      | none => rfl
      | some c => rfl
    rw [hpair] at hequals
    refine ⟨fun h => hequals.mp h.1, fun h => ⟨hequals.mpr h, h2, ?_⟩⟩
    have hlast : (rawLine nul text).body.getLast? ≠ some '\n' := by
      simpa [RawLine.endsInPair] using h
    rw [h3, RawLine.lines, if_pos (.inr hlast)]
    omega

/-- Each string of a run is what was built unless a character was rubbed out last, and with any of
    them for its buffer `concat_line` gives the logical line unless that ends in a pair. -/
theorem concatLine_iff {ops : List (Σ i, Op i)} {vss : Vstrings}
    (h : runOps ops (fun _ => Vstring.init) = .ok vss) (i : Nat) :
    (Equals (vss i) (build ops (fun _ => {}) i).s ↔ (build ops (fun _ => {}) i).stale = false) ∧
    ∀ (text : List Char) (lineNo : Nat), text ≠ [] →
      (text.length < 2 ^ 63 → ∃ r, concatLine (vss i) text lineNo = .ok (some r)) ∧
      ∀ r, concatLine (vss i) text lineNo = .ok (some r) →
        (LogicalLine text lineNo r ↔ (rawLine nul text).endsInPair = false) :=
  have ht := tracks_run ops (fun _ => tracks_init) h i
  ⟨equals_iff ht, fun _ lineNo htext => concatLine_logical ht htext lineNo⟩

/-- A string that was cleared after use, and a line of two physical ones. -/
theorem concatLine_iff_joined :
    ∃ vss, runOps [⟨0, .puts "old".toList (by decide)⟩, ⟨0, .rubout⟩, ⟨0, .clear⟩]
        (fun _ => Vstring.init) = .ok vss ∧ Equals (vss 0) [] ∧
      ∃ r, concatLine (vss 0) "a\\\nb\nc".toList 7 = .ok (some r) ∧
        LogicalLine "a\\\nb\nc".toList 7 r := by
  have h := @concatLine_iff [⟨0, .puts "old".toList (by decide)⟩, ⟨0, .rubout⟩, ⟨0, .clear⟩] _ rfl 0
  obtain ⟨hok, hline⟩ := h.2 "a\\\nb\nc".toList 7 (by decide)
  obtain ⟨r, hr⟩ := hok (by decide)
  exact ⟨_, rfl, h.1.mpr rfl, r, hr, (hline r hr).mpr (by decide)⟩

/-- A line of an a, a backslash-newline pair and nothing else is left as an a and a backslash. -/
theorem concatLine_stale : ¬ ∀ (text : List Char) (lineNo : Nat) (r : Vstring × List Char × Nat),
    concatLine Vstring.init text lineNo = .ok (some r) → LogicalLine text lineNo r := by
  intro h
  have hr : concatLine Vstring.init "a\\\n\nb".toList 0 = .ok (some
      (⟨none, 1, some 'a' :: some '\\' :: some nul :: List.replicate 20 none⟩, ['b'], 2)) := by decide
  exact absurd (h _ _ _ hr).1.2 (by decide)

end Ncc.Cpp
