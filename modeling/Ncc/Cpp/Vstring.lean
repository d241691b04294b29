import Ncc.Cpp.Token

/-! Strings that grow (cpp/vstring.c).

    A short string lies in the struct itself, a longer one in a block of its own; both keep a NUL
    behind the characters. `vstring_rubout` alone does not put one there. `Tracks` is the invariant:
    where the NUL belongs there stands at times the character that was rubbed out (`vstrings_iff`). -/

namespace Ncc.Cpp

/-- The character that ends a C string. -/
def nul : Char := '\x00'

/-! ### The code -/

/-- `struct vstring`: `cap` is none while `in.flag` is set. A byte that nothing has been written to
    is none. -/
structure Vstring where
  cap : Option Nat
  len : Nat
  buf : List (Option Char)
  deriving DecidableEq, Repr

/-- VSTRING_IN_CAP. -/
def vstringInCap : Nat := 23

/-- VSTRING_MIN_ALLOC. -/
def vstringMinAlloc : Nat := 32

/-- The values of a `size_t`. -/
def sizeMax : Nat := 2 ^ 64

/-- VSTRING_CAP. -/
def Vstring.capacity (vs : Vstring) : Nat := vs.cap.getD vstringInCap

/-- `memcpy(buf + i, s, len)`. -/
def store (buf : List (Option Char)) (i : Nat) (s : List Char) : List (Option Char) :=
  buf.take i ++ (s.map some ++ buf.drop (i + s.length))

namespace Vstring

/-- `vstring_init`, and VSTRING_INITIALIZER. -/
def init : Vstring :=
  { cap := none, len := 0, buf := some nul :: List.replicate (vstringInCap - 1) none }

/-- `vstring_clear`. -/
def clear (vs : Vstring) : Vstring := { vs with len := 0, buf := store vs.buf 0 [nul] }

/-- `vstring_rubout`. -/
def rubout (vs : Vstring) : Except String Vstring :=
  if vs.len = 0 then .error "CPP INTERNAL: vstring underflow" else .ok { vs with len := vs.len - 1 }

/-- `while (new_cap && (new_cap < min_cap)) new_cap <<= 1;` -/
def growCap : Nat → Nat → Nat → Nat
  | 0, newCap, _ => newCap
  | fuel + 1, newCap, minCap =>
    if newCap ≠ 0 ∧ newCap < minCap then growCap fuel (newCap * 2 % sizeMax) minCap else newCap

/-- The first half of `vstring_put`: there is room for so many characters and the NUL. -/
def grow (vs : Vstring) (len : Nat) : Except String Vstring :=
  let minCap := (vs.len + len + 1) % sizeMax
  if minCap < len then .error "CPP INTERNAL: vstring overflow"
  else if vs.capacity < minCap then
    let newCap := growCap 64 vstringMinAlloc minCap
    if newCap = 0 then .error "CPP INTERNAL: vstring overflow"
    else .ok { cap := some newCap, len := vs.len,
               buf := vs.buf.take vs.len ++ List.replicate (newCap - vs.len) none }
  else .ok vs

/-- The characters and the NUL behind the string. -/
def append (vs : Vstring) (s : List Char) : Vstring :=
  { vs with len := vs.len + s.length, buf := store vs.buf vs.len (s ++ [nul]) }

/-- `vstring_put`. -/
def put (vs : Vstring) (s : List Char) : Except String Vstring :=
  (vs.grow s.length).map (·.append s)

/-- `vstring_putc`. -/
def putc (vs : Vstring) (c : Char) : Except String Vstring :=
  if vs.len ≤ vs.capacity - 2 then .ok (vs.append [c]) else vs.put [c]

/-- The bytes from VSTRING_BUF on, VSTRING_LEN of them. -/
def text (vs : Vstring) : List Char := (vs.buf.take vs.len).map (·.getD nul)

end Vstring

/-- The operations on one string. Another string is what `vstring_concat` appends: the block that
    it would copy from is released when a string is appended to itself. -/
inductive Op (i : Nat) where
  | init
  | clear
  | rubout
  | put (s : List Char) (size : s.length < sizeMax)
  | puts (s : List Char) (size : s.length < sizeMax)
  | putc (c : Char)
  | concat (src : Nat) (other : src ≠ i)

/-- The strings of a program. -/
abbrev Vstrings := Nat → Vstring

/-- What an operation makes of the string. -/
def Op.run {i : Nat} (vss : Vstrings) : Op i → Except String Vstring
  | .init => .ok Vstring.init
  | .clear => .ok (vss i).clear
  | .rubout => (vss i).rubout
  | .put s _ => (vss i).put s
  | .puts s _ => (vss i).put (s.takeWhile (· != nul))
  | .putc c => (vss i).putc c
  | .concat src _ => (vss i).put (vss src).text

/-- An operation after the other, each on a string of its own choice. -/
def runOps : List (Σ i, Op i) → Vstrings → Except String Vstrings
  | [], vss => .ok vss
  | ⟨i, op⟩ :: ops, vss => do
    let vs ← op.run vss
    runOps ops (Function.update vss i vs)

/-! ### What the operations build -/

/-- A string, and the character that a rubout has taken off the end of it since it last grew. -/
structure Built where
  s : List Char := []
  removed : Option Char := none
  deriving DecidableEq, Repr

/-- What an operation builds. -/
def Op.build {i : Nat} (bs : Nat → Built) : Op i → Built
  | .init | .clear => {}
  | .rubout => { s := (bs i).s.dropLast, removed := (bs i).s.getLast? }
  | .put s _ => { s := (bs i).s ++ s }
  | .puts s _ => { s := (bs i).s ++ s.takeWhile (· != nul) }
  | .putc c => { s := (bs i).s ++ [c] }
  | .concat src _ => { s := (bs i).s ++ (bs src).s }

/-- What the operations build. -/
def build : List (Σ i, Op i) → (Nat → Built) → Nat → Built
  | [], bs => bs
  | ⟨i, op⟩ :: ops, bs => build ops (Function.update bs i (op.build bs))

/-- The buffer up to and including the terminating NUL is the string. -/
def Equals (vs : Vstring) (s : List Char) : Prop :=
  vs.len = s.length ∧ vs.buf.take (s.length + 1) = (s ++ [nul]).map some

/-- The last character rubbed out stands where the NUL belongs. -/
def Built.stale (b : Built) : Bool := b.removed.any (· != nul)

/-! ### The invariant -/

/-- The buffer is as large as the capacity says, and has room for the string and a NUL. -/
structure Vstring.Formed (vs : Vstring) : Prop where
  size : vs.buf.length = vs.capacity
  room : vs.len < vs.capacity
  least : vstringInCap ≤ vs.capacity
  bounded : vs.capacity < sizeMax

/-- The buffer holds the string. -/
structure Contains (vs : Vstring) (s : List Char) : Prop extends vs.Formed where
  len : vs.len = s.length
  chars : vs.buf.take s.length = s.map some

/-- Behind the string stands the NUL, or what was rubbed out there. -/
structure Tracks (vs : Vstring) (b : Built) : Prop extends Contains vs b.s where
  behind : vs.buf[b.s.length]? = some (some (b.removed.getD nul))

theorem tracks_init : Tracks Vstring.init {} where
  size := rfl
  room := by decide
  least := by decide
  bounded := by decide
  len := rfl
  chars := rfl
  behind := rfl

theorem store_length {buf : List (Option Char)} {i : Nat} {s : List Char}
    (h : i + s.length ≤ buf.length) : (store buf i s).length = buf.length := by
  simp only [store, List.length_append, List.length_take, List.length_map, List.length_drop]
  omega

/-- What is stored with a NUL behind it is found again behind what stood in front. -/
theorem store_nul {buf : List (Option Char)} {i : Nat} (s : List Char) (h : i ≤ buf.length) :
    (store buf i (s ++ [nul])).take (i + s.length) = buf.take i ++ s.map some ∧
      (store buf i (s ++ [nul]))[i + s.length]? = some (some nul) := by
  have hlen : (buf.take i ++ s.map some).length = i + s.length := by simp [h]
  have hstore : store buf i (s ++ [nul]) = (buf.take i ++ s.map some) ++
      some nul :: buf.drop (i + (s ++ [nul]).length) := by simp [store]
  rw [hstore, ← hlen]
  exact ⟨List.take_left, by simp⟩

/-- What is appended, with room for it, stands behind the string with the NUL behind it. -/
theorem tracks_append {vs : Vstring} {t : List Char} (h : Contains vs t) {s : List Char}
    (hroom : vs.len + s.length < vs.capacity) : Tracks (vs.append s) { s := t ++ s } := by
  have hsize : vs.len + (s ++ [nul]).length ≤ vs.buf.length := by
    rw [h.size, List.length_append, List.length_singleton]
    omega
  obtain ⟨hchars, hbehind⟩ := store_nul s (h.size ▸ h.room.le : vs.len ≤ vs.buf.length)
  have hlen : (t ++ s).length = vs.len + s.length := by rw [List.length_append, h.len]
  exact { size := (store_length hsize).trans h.size
          room := hroom
          least := h.least
          bounded := h.bounded
          len := hlen.symm
          chars := by
            rw [hlen, List.map_append, ← h.chars, ← h.len]
            exact hchars
          behind := by
            rw [hlen]
            exact hbehind }

theorem tracks_clear {vs : Vstring} {s : List Char} (h : Contains vs s) : Tracks vs.clear {} := by
  have hpos : 0 + [nul].length ≤ vs.buf.length := by
    rw [h.size]
    exact Nat.lt_of_le_of_lt (Nat.zero_le _) h.room
  exact { size := (store_length hpos).trans h.size
          room := Nat.lt_of_le_of_lt (Nat.zero_le _) h.room
          least := h.least
          bounded := h.bounded
          len := rfl
          chars := rfl
          behind := (store_nul [] (Nat.zero_le _)).2 }

/-- Nothing but the length changes, and the character stays where it was. -/
theorem tracks_rubout {vs vs' : Vstring} {s : List Char} (h : Contains vs s)
    (hr : vs.rubout = .ok vs') : Tracks vs' { s := s.dropLast, removed := s.getLast? } := by
  rw [Vstring.rubout] at hr
  split at hr
  · cases hr
  · next hne =>
    cases hr
    obtain ⟨t, c, rfl⟩ : ∃ t c, s = t ++ [c] := by
      have hs : s ≠ [] := fun h0 => hne (by rw [h.len, h0]; rfl)
      exact ⟨s.dropLast, s.getLast hs, (List.dropLast_concat_getLast hs).symm⟩
    rw [List.dropLast_concat, List.getLast?_concat]
    have hchars := h.chars
    rw [List.length_append, List.length_singleton, List.take_add_one, List.map_append] at hchars
    have htake : vs.buf.take t.length = t.map some := by
      have := congrArg (List.take t.length) h.chars
      rwa [List.take_take, List.length_append, Nat.min_eq_left (Nat.le_add_right ..),
        List.map_append, List.take_left' (by simp)] at this
    rw [htake, List.append_cancel_left_eq] at hchars
    have hlen : vs.len = t.length + 1 := by rw [h.len, List.length_append, List.length_singleton]
    exact { size := h.size
            room := Nat.lt_of_le_of_lt (Nat.sub_le _ _) h.room
            least := h.least
            bounded := h.bounded
            len := by rw [hlen]; rfl
            chars := htake
            behind := by
              cases hbuf : vs.buf[t.length]? with
              | none => rw [hbuf] at hchars; cases hchars
              | some o => rw [hbuf] at hchars; simpa using hchars }

/-! ### Growing -/

theorem growCap_zero (minCap : Nat) : ∀ fuel, Vstring.growCap fuel 0 minCap = 0
  | 0 => rfl
  | _ + 1 => rfl

theorem double_mod {k : Nat} (h : k < 63) : 2 ^ k * 2 % sizeMax = 2 ^ (k + 1) := by
  rw [← Nat.pow_succ]
  exact Nat.mod_eq_of_lt (Nat.pow_lt_pow_right Nat.one_lt_two (Nat.succ_lt_succ h))

/-- Doubling reaches every capacity up to the largest power of two of a `size_t`, and no other. -/
theorem growCap_spec : ∀ (fuel k minCap : Nat), k ≤ 63 → 65 ≤ fuel + k →
    (minCap ≤ 2 ^ 63 → minCap ≤ Vstring.growCap fuel (2 ^ k) minCap ∧
      2 ^ k ≤ Vstring.growCap fuel (2 ^ k) minCap ∧
      Vstring.growCap fuel (2 ^ k) minCap < sizeMax) ∧
    (2 ^ 63 < minCap → Vstring.growCap fuel (2 ^ k) minCap = 0)
  | 0, k, _, hk, hf => by omega
  | fuel + 1, k, minCap, hk, hf => by
    have hpos : 2 ^ k ≠ 0 := (Nat.two_pow_pos k).ne'
    have hle : 2 ^ k ≤ 2 ^ 63 := Nat.pow_le_pow_right Nat.two_pos hk
    rw [Vstring.growCap]
    by_cases hlt : 2 ^ k < minCap
    · rw [if_pos ⟨hpos, hlt⟩]
      rcases Nat.lt_or_ge k 63 with hk' | hk'
      · rw [double_mod hk']
        obtain ⟨hok, hzero⟩ := growCap_spec fuel (k + 1) minCap hk' (by omega)
        refine ⟨fun h => ?_, hzero⟩
        obtain ⟨h1, h2, h3⟩ := hok h
        exact ⟨h1, (Nat.pow_le_pow_right Nat.two_pos (Nat.le_succ k)).trans h2, h3⟩
      · have hk : k = 63 := Nat.le_antisymm hk hk'
        subst hk
        rw [show 2 ^ 63 * 2 % sizeMax = 0 from rfl, growCap_zero]
        exact ⟨fun h => absurd h (Nat.not_le_of_lt hlt), fun _ => rfl⟩
    · rw [if_neg fun h => hlt h.2]
      have hge := Nat.le_of_not_lt hlt
      refine ⟨fun _ => ⟨hge, le_rfl, hle.trans_lt (by decide)⟩, fun h => ?_⟩
      exact absurd (h.trans_le hge) (Nat.not_lt_of_le hle)

/-- Where the characters and the NUL fit into a block, there is room for them. -/
theorem grow_ok (vs : Vstring) {n : Nat} (hn : vs.len + n < 2 ^ 63) :
    ∃ vs', vs.grow n = .ok vs' := by
  have hmod : (vs.len + n + 1) % sizeMax = vs.len + n + 1 :=
    Nat.mod_eq_of_lt (Nat.lt_of_le_of_lt hn (by decide))
  rw [Vstring.grow, hmod]
  simp only
  rw [if_neg (by omega)]
  split
  · obtain ⟨hmin, -⟩ := (growCap_spec 64 5 (vs.len + n + 1) (by decide) (by decide)).1 hn
    rw [show vstringMinAlloc = 2 ^ 5 from rfl, if_neg (by omega)]
    exact ⟨_, rfl⟩
  · exact ⟨_, rfl⟩

/-- Growing moves the string, and makes room. -/
theorem contains_grow {vs vs' : Vstring} {s : List Char} (h : Contains vs s) {n : Nat}
    (hn : n < sizeMax) (hg : vs.grow n = .ok vs') :
    Contains vs' s ∧ vs'.len + n < vs'.capacity := by
  have hroom := h.room
  have hbounded := h.bounded
  rw [Vstring.grow] at hg
  simp only at hg
  split at hg
  · cases hg
  · next hover =>
    -- the sum is in the range of a `size_t`
    have hmod : (vs.len + n + 1) % sizeMax = vs.len + n + 1 := by
      refine Nat.mod_eq_of_lt (Nat.lt_of_not_le fun hge => hover ?_)
      rw [Nat.mod_eq_sub_mod hge, Nat.mod_eq_of_lt (by omega)]
      omega
    rw [hmod] at hg
    split at hg
    · next hcap =>
      rw [show vstringMinAlloc = 2 ^ 5 from rfl] at hg
      obtain ⟨hok, hzero⟩ := growCap_spec 64 5 (vs.len + n + 1) (by decide) (by decide)
      split at hg
      · cases hg
      · next hne =>
        cases hg
        obtain ⟨hmin, hleast, hlt⟩ := hok (Nat.le_of_not_lt fun hgt => hne (hzero hgt))
        have hlen : (vs.buf.take vs.len).length = vs.len :=
          List.length_take_of_le (h.size ▸ hroom.le)
        have hfits : vs.len + n < Vstring.growCap 64 (2 ^ 5) (vs.len + n + 1) := hmin
        refine ⟨⟨⟨?_, ?_, ?_, hlt⟩, h.len, ?_⟩, hfits⟩
        · simp only [List.length_append, hlen, List.length_replicate, Vstring.capacity,
            Option.getD_some]
          omega
        · exact Nat.lt_of_le_of_lt (Nat.le_add_right ..) hfits
        · exact Nat.le_trans (by decide) hleast
        · rw [← h.len, List.take_left' hlen, h.len, h.chars]
    · next hcap =>
      cases hg
      exact ⟨h, by omega⟩

theorem tracks_put {vs vs' : Vstring} {t : List Char} (h : Contains vs t) {s : List Char}
    (hs : s.length < sizeMax) (hp : vs.put s = .ok vs') : Tracks vs' { s := t ++ s } := by
  obtain ⟨vs₁, hg, rfl⟩ := map_ok.mp hp
  obtain ⟨hc, hroom⟩ := contains_grow h hs hg
  exact tracks_append hc hroom

theorem tracks_putc {vs vs' : Vstring} {t : List Char} (h : Contains vs t) {c : Char}
    (hp : vs.putc c = .ok vs') : Tracks vs' { s := t ++ [c] } := by
  rw [Vstring.putc] at hp
  split at hp
  · next hle =>
    cases hp
    have hleast := h.least
    refine tracks_append h ?_
    simp only [vstringInCap] at hleast
    simp only [List.length_singleton]
    omega
  · exact tracks_put h (show 1 < sizeMax by decide) hp

/-- A character is put behind any string that a block can hold. -/
theorem putc_ok (vs : Vstring) (c : Char) (hn : vs.len + 1 < 2 ^ 63) :
    ∃ vs', vs.putc c = .ok vs' := by
  rw [Vstring.putc]
  split
  · exact ⟨_, rfl⟩
  · obtain ⟨vs', hg⟩ := grow_ok vs (n := 1) hn
    exact ⟨vs'.append [c], by rw [Vstring.put, List.length_singleton, hg]; rfl⟩

/-! ### Runs -/

theorem text_eq {vs : Vstring} {s : List Char} (h : Contains vs s) : vs.text = s := by
  rw [Vstring.text, h.len, h.chars, List.map_map]
  exact List.map_id' s

/-- What an operation makes of a string is what it builds. -/
theorem tracks_op {vss : Vstrings} {bs : Nat → Built} (h : ∀ i, Tracks (vss i) (bs i)) {i : Nat}
    {op : Op i} {vs' : Vstring} (hr : op.run vss = .ok vs') : Tracks vs' (op.build bs) := by
  have hi := (h i).toContains
  cases op with
  | init => cases hr; exact tracks_init
  | clear => cases hr; exact tracks_clear hi
  | rubout => exact tracks_rubout hi hr
  | put s size => exact tracks_put hi size hr
  | puts s size =>
    exact tracks_put hi (Nat.lt_of_le_of_lt (List.takeWhile_sublist _).length_le size) hr
  | putc c => exact tracks_putc hi hr
  | concat src other =>
    have hsrc := (h src).toContains
    have hlt : (bs src).s.length < sizeMax := hsrc.len ▸ hsrc.room.trans hsrc.bounded
    rw [Op.run, text_eq hsrc] at hr
    exact tracks_put hi hlt hr

/-- So is what a run makes of each of them. -/
theorem tracks_run : ∀ (ops : List (Σ i, Op i)) {vss vss' : Vstrings} {bs : Nat → Built},
    (∀ i, Tracks (vss i) (bs i)) → runOps ops vss = .ok vss' →
    ∀ i, Tracks (vss' i) (build ops bs i)
  | [], _, _, _, h, hr => by cases hr; exact h
  | ⟨j, op⟩ :: ops, vss, vss', bs, h, hr => by
    obtain ⟨vs, hop, hrest⟩ := bind_ok.mp hr
    refine tracks_run ops (fun i => ?_) hrest
    by_cases hij : i = j
    · subst hij
      rw [Function.update_self, Function.update_self]
      exact tracks_op h hop
    · rw [Function.update_of_ne hij, Function.update_of_ne hij]
      exact h i

theorem equals_iff {vs : Vstring} {b : Built} (h : Tracks vs b) :
    Equals vs b.s ↔ b.stale = false := by
  rw [Equals, List.take_add_one, h.chars, h.behind, List.map_append, List.append_cancel_left_eq]
  cases hb : b.removed with
  | none => simp [h.len, Built.stale, hb]
  | some c => simp [h.len, Built.stale, hb]

end Ncc.Cpp
