import Ncc.Cpp.Token

/-! Integer and character constants, and their conversion (cpp/token.c, common/escape.c).

    A constant is given by the parts of its spelling; `token_convert_number` and
    `token_convert_char` read them back. The one part that is not read is the suffix U. -/

namespace Ncc.Cpp

/-- A value of an #if expression: all are of type long or unsigned long. -/
structure Value where
  uns : Bool
  bits : BitVec 64
  deriving DecidableEq, Repr

/-- The token that carries the value. -/
def Value.token (v : Value) : Token := { cls := if v.uns then .uint else .int, i := v.bits }

/-! ### Integer constants -/

/-- How the constant is written; the prefix of a hexadecimal one is 0x or 0X. -/
inductive Radix where
  | dec
  | oct
  | hex (upper : Bool)
  deriving DecidableEq, Repr

/-- The base of the digits. -/
def Radix.base : Radix → Nat
  | .dec => 10
  | .oct => 8
  | .hex _ => 16

/-- What precedes the digits. -/
def Radix.mark : Radix → List Char
  | .dec => []
  | .oct => ['0']
  | .hex upper => ['0', if upper then 'X' else 'x']

/-- A decimal constant does not begin with 0, and a hexadecimal one has a digit. -/
def Radix.admits : Radix → List Char → Bool
  | .dec, c :: _ => c != '0'
  | .oct, _ => true
  | .hex _, _ :: _ => true
  | _, [] => false

/-- The integer suffixes of C89. -/
def suffixes : List (List Char) :=
  [[], ['u'], ['U'], ['l'], ['L'], ['u', 'l'], ['u', 'L'], ['U', 'l'], ['U', 'L'],
   ['l', 'u'], ['l', 'U'], ['L', 'u'], ['L', 'U']]

/-- The number that the digits denote. -/
def denote (base : Nat) (ds : List Char) : Nat :=
  (ds.filterMap (digitIn base)).foldl (fun n d => n * base + d) 0

/-- An integer constant of C89 whose value some type can represent. -/
structure Constant where
  radix : Radix
  digits : List Char
  suffix : List Char
  admitted : radix.admits digits = true
  valid : ∀ c ∈ digits, (digitIn radix.base c).isSome = true
  suffixed : suffix ∈ suffixes
  fits : denote radix.base digits ≤ ulongMax

namespace Constant
variable (c : Constant)

/-- The number. -/
def number : Nat := denote c.radix.base c.digits

/-- Whether the suffix holds a U. -/
def suffixU : Bool := c.suffix.any (·.toUpper == 'U')

/-- The type: unsigned long with the suffix U, or when the number does not fit a long. -/
def isUnsigned : Bool := c.suffixU || decide (2 ^ 63 ≤ c.number)

/-- The value in C. -/
def value : Value := ⟨c.isUnsigned, BitVec.ofNat 64 c.number⟩

/-- The token. -/
def token : Token := { cls := .number, text := String.ofList (c.radix.mark ++ c.digits ++ c.suffix) }

end Constant

/-- The suffix begins with no digit, and with no X either. -/
theorem suffix_head {s : List Char} (h : s ∈ suffixes) :
    ∀ c ∈ s.head?, digitValue c = none ∧ c ≠ 'x' ∧ c ≠ 'X' := by
  simp only [suffixes, List.mem_cons, List.not_mem_nil, or_false] at h
  obtain rfl | rfl | rfl | rfl | rfl | rfl | rfl | rfl | rfl | rfl | rfl | rfl | rfl := h <;>
    intro c hc <;> cases hc <;> exact ⟨rfl, by decide, by decide⟩

theorem digitIn_of_none {base : Nat} {c : Char} (h : digitValue c = none) :
    digitIn base c = none := by
  rw [digitIn, h]
  rfl

/-- The digits are read up to the first character that is none. -/
theorem digits_append {base : Nat} {s : List Char} (hs : ∀ c ∈ s.head?, digitIn base c = none) :
    ∀ (ds : List Char) (n : Nat), (∀ c ∈ ds, (digitIn base c).isSome = true) →
      digits base n (ds ++ s) =
        ((ds.filterMap (digitIn base)).foldl (fun n d => n * base + d) n, s)
  | [], n, _ => by
    cases s with
    | nil => rfl
    | cons c s =>
      rw [List.nil_append, digits, hs c rfl]
      rfl
  | c :: ds, n, h => by
    obtain ⟨d, hd⟩ := Option.isSome_iff_exists.mp (h c (List.mem_cons_self ..))
    rw [List.cons_append, digits, hd]
    rw [List.filterMap_cons_some hd, List.foldl_cons]
    exact digits_append hs ds _ fun c hc => h c (List.mem_cons_of_mem _ hc)

theorem digitIn_zero {base : Nat} (hb : 0 < base) : digitIn base '0' = some 0 := by
  simp [digitIn, digitValue, hb]

theorem strtoulSign_of_ne {c : Char} {cs : List Char} (hm : c ≠ '-') (hp : c ≠ '+') :
    strtoulSign (c :: cs) = (false, c :: cs) := by
  rw [strtoulSign.eq_def]
  split <;> simp_all

/-- What `strtoul` makes of the number: its value, or ULONG_MAX and an error. -/
def strtoulValue (n : Nat) : BitVec 64 × Bool :=
  if ulongMax < n then (BitVec.ofNat 64 ulongMax, true) else (BitVec.ofNat 64 n, false)

theorem strtoulValue_fits {n : Nat} (h : n ≤ ulongMax) :
    strtoulValue n = (BitVec.ofNat 64 n, false) := if_neg (by omega)

theorem strtoulValue_errno {n : Nat} : (strtoulValue n).2 = decide (ulongMax < n) := by
  unfold strtoulValue
  split
  · next h => simp [h]
  · next h => simp [h]

/-- `strtoul` once the base is known. -/
theorem strtoul_of_base {base : Nat} {s body : List Char} {c : Char} {n : Nat} {rest : List Char}
    (hs : strtoulSign s = (false, s)) (hb : strtoulBase s = (base, c :: body))
    (hc : (digitIn base c).isSome = true) (hd : digits base 0 (c :: body) = (n, rest)) :
    strtoul s = ((strtoulValue n).1, rest, (strtoulValue n).2) := by
  have hsome : (digitIn base c).isNone = false := by
    rw [← Option.not_isSome, hc]
    rfl
  simp only [strtoul, hs, hb, hd, hsome, Bool.false_eq_true, if_false, strtoulValue]
  split <;> rfl

theorem digitIn_some_ne {base : Nat} {c : Char} (h : (digitIn base c).isSome = true) :
    c ≠ '-' ∧ c ≠ '+' := by
  constructor <;> rintro rfl <;> simp [digitIn, digitValue] at h

theorem digitIn_oct_ne {c : Char} (h : (digitIn 8 c).isSome = true) : c ≠ 'x' ∧ c ≠ 'X' := by
  constructor <;> rintro rfl <;> simp [digitIn, digitValue] at h

theorem strtoulBase_dec {c : Char} (h : c ≠ '0') (cs : List Char) :
    strtoulBase (c :: cs) = (10, c :: cs) := by
  rw [strtoulBase.eq_def]
  split <;> simp_all

theorem strtoulBase_oct {cs : List Char} (h : ∀ c ∈ cs.head?, c ≠ 'x' ∧ c ≠ 'X') :
    strtoulBase ('0' :: cs) = (8, '0' :: cs) := by
  rw [strtoulBase.eq_def]
  split <;> simp_all

/-- The digits end where the text goes on with none, and a 0 that nothing follows is no prefix. -/
structure Radix.Stops (radix : Radix) (ds rest : List Char) : Prop where
  digit : ∀ c ∈ rest.head?, digitIn radix.base c = none
  zero : radix = .oct → ds = [] → strtoulBase ('0' :: rest) = (8, '0' :: rest)

/-- `strtoul` reads the number and stops behind its digits. -/
theorem strtoul_read {radix : Radix} {ds rest : List Char} (hadm : radix.admits ds = true)
    (hvalid : ∀ c ∈ ds, (digitIn radix.base c).isSome = true) (hstop : radix.Stops ds rest) :
    strtoul (radix.mark ++ ds ++ rest) =
      ((strtoulValue (denote radix.base ds)).1, rest, (strtoulValue (denote radix.base ds)).2) := by
  have hread : ∀ n, digits radix.base n (ds ++ rest) =
      ((ds.filterMap (digitIn radix.base)).foldl (fun n d => n * radix.base + d) n, rest) :=
    fun n => digits_append hstop.digit ds n hvalid
  cases radix with
  | dec =>
    cases ds with
    | nil => cases hadm
    | cons d ds =>
      have hd := hvalid d (List.mem_cons_self ..)
      have hd0 : d ≠ '0' := by simpa [Radix.admits] using hadm
      exact strtoul_of_base (strtoulSign_of_ne (digitIn_some_ne hd).1 (digitIn_some_ne hd).2)
        (strtoulBase_dec hd0 (ds ++ rest)) hd (hread 0)
  | oct =>
    have hbase : strtoulBase ('0' :: (ds ++ rest)) = (8, '0' :: (ds ++ rest)) := by
      cases ds with
      | nil => exact hstop.zero rfl rfl
      | cons d ds =>
        refine strtoulBase_oct fun c hc => ?_
        cases hc
        exact digitIn_oct_ne (hvalid d (List.mem_cons_self ..))
    have hdig : digits 8 0 ('0' :: (ds ++ rest)) = digits 8 0 (ds ++ rest) := rfl
    exact strtoul_of_base (strtoulSign_of_ne (by decide) (by decide)) hbase rfl
      (hdig.trans (hread 0))
  | hex upper =>
    cases ds with
    | nil => cases hadm
    | cons d ds =>
      have hd := hvalid d (List.mem_cons_self ..)
      have hbase : strtoulBase ('0' :: (if upper then 'X' else 'x') :: d :: (ds ++ rest)) =
          (16, d :: (ds ++ rest)) := by
        cases upper <;> exact if_pos hd
      exact strtoul_of_base (strtoulSign_of_ne (by decide) (by decide)) hbase hd (hread 0)

/-- The digits end at a suffix. -/
theorem stops_suffix {radix : Radix} {ds s : List Char} (h : s ∈ suffixes) : radix.Stops ds s :=
  ⟨fun c hc => digitIn_of_none (suffix_head h c hc).1,
    fun _ _ => strtoulBase_oct fun c hc => (suffix_head h c hc).2⟩

/-- `strtoul` reads the number and stops at the suffix. -/
theorem strtoul_constant (c : Constant) :
    strtoul (c.radix.mark ++ c.digits ++ c.suffix) =
      (BitVec.ofNat 64 c.number, c.suffix, false) := by
  rw [strtoul_read c.admitted c.valid (stops_suffix c.suffixed), strtoulValue_fits c.fits]
  rfl

/-- What `token_convert_number` makes of the suffix: it ends at a U. -/
theorem convert_suffix {s : List Char} (h : s ∈ suffixes) :
    let rest := skipUpper 'L' s
    (skipUpper 'L' rest).isEmpty = !s.any (·.toUpper == 'U') ∧
      headUpper 'U' rest = s.any (·.toUpper == 'U') := by
  simp only [suffixes, List.mem_cons, List.not_mem_nil, or_false] at h
  obtain rfl | rfl | rfl | rfl | rfl | rfl | rfl | rfl | rfl | rfl | rfl | rfl | rfl := h <;>
    exact ⟨by decide, by decide⟩

/-- A constant with the suffix U is rejected, and any other becomes a TOKEN_INT. -/
theorem tokenConvertNumber_constant (c : Constant) :
    tokenConvertNumber c.token =
      if c.suffixU then .error "malformed integer constant"
      else .ok { cls := .int, i := BitVec.ofNat 64 c.number } := by
  obtain ⟨hempty, hupper⟩ := convert_suffix c.suffixed
  rw [tokenConvertNumber, Constant.token, String.toList_ofList, strtoul_constant]
  simp only [hempty, hupper, Bool.or_false, Bool.not_not]
  cases hu : c.suffixU <;> rw [Constant.suffixU] at hu <;> simp [hu]

/-- A constant is converted to its value exactly when its type is long. -/
theorem tokenConvertNumber_iff (c : Constant) :
    tokenConvertNumber c.token = .ok c.value.token ↔ c.isUnsigned = false := by
  rw [tokenConvertNumber_constant, Constant.value, Value.token, Constant.isUnsigned]
  cases hu : c.suffixU with
  | true => simp
  | false =>
    cases hn : decide (2 ^ 63 ≤ c.number) <;> simp

/-! ### Character constants -/

/-- A character constant of one character, whose value a char can represent. -/
inductive CharConstant where
  | plain (c : Char) (h : c ≠ '\'' ∧ c ≠ '\\' ∧ c.toNat < 256)
  | simple (c : Char) (n : Nat) (h : escapeSimple c = some n)
  | oct (ds : List Char) (valid : ∀ c ∈ ds, (digitIn 8 c).isSome = true)
      (length : 1 ≤ ds.length ∧ ds.length ≤ 3) (fits : denote 8 ds ≤ 255)
  | hex (ds : List Char) (valid : ∀ c ∈ ds, (digitIn 16 c).isSome = true)
      (length : 1 ≤ ds.length) (fits : denote 16 ds ≤ 255)

namespace CharConstant

/-- What stands between the quotes. -/
def body : CharConstant → List Char
  | .plain c _ => [c]
  | .simple c _ _ => ['\\', c]
  | .oct ds _ _ _ => '\\' :: ds
  | .hex ds _ _ _ => '\\' :: 'x' :: ds

/-- The code of the character; plain char is unsigned. -/
def code : CharConstant → Nat
  | .plain c _ => c.toNat
  | .simple _ n _ => n
  | .oct ds _ _ _ => denote 8 ds
  | .hex ds _ _ _ => denote 16 ds

/-- The value in C. -/
def value (c : CharConstant) : Value := ⟨false, BitVec.ofNat 64 c.code⟩

/-- The token. -/
def token (c : CharConstant) : Token :=
  { cls := .char, text := String.ofList ('\'' :: c.body ++ ['\'']) }

end CharConstant

theorem escape_plain {c : Char} (h : c ≠ '\\') (cs : List Char) :
    escape (c :: cs) = some (c.toNat % 256, cs) := by
  rw [escape.eq_def]
  split <;> simp_all

theorem escape_octal {c : Char} {d : Nat} (h : octal c = some d) (cs : List Char) :
    escape ('\\' :: c :: cs) = escapeOctal d cs := by
  rw [escape.eq_def]
  simp only [h]

theorem escape_other {c : Char} (h : octal c = none) (hx : c ≠ 'x') (cs : List Char) :
    escape ('\\' :: c :: cs) = (escapeSimple c).map (·, cs) := by
  rw [escape.eq_def]
  simp only [h, if_neg hx]

theorem escape_x (d : Char) (cs : List Char) :
    escape ('\\' :: 'x' :: d :: cs) =
      if (digitIn 16 d).isSome then escapeHex 0 (d :: cs) else none := rfl

theorem foldl_digits_le {base : Nat} (hb : 0 < base) : ∀ (l : List Nat) (n : Nat),
    n ≤ l.foldl (fun n d => n * base + d) n
  | [], n => Nat.le_refl n
  | d :: l, n => by
    rw [List.foldl_cons]
    refine le_trans ?_ (foldl_digits_le hb l _)
    exact le_trans (Nat.le_mul_of_pos_right n hb) (Nat.le_add_right _ _)

theorem and_hex_zero {n : Nat} (h : n ≤ 15) : n &&& 0xF0 = 0 := by
  interval_cases n <;> rfl

/-- A hexadecimal escape sequence that fits a char is read up to the closing quote. -/
theorem escapeHex_append : ∀ (ds : List Char) (n : Nat),
    (∀ c ∈ ds, (digitIn 16 c).isSome = true) →
    (ds.filterMap (digitIn 16)).foldl (fun n d => n * 16 + d) n ≤ 255 →
    escapeHex n (ds ++ ['\'']) =
      some ((ds.filterMap (digitIn 16)).foldl (fun n d => n * 16 + d) n, ['\''])
  | [], n, _, _ => rfl
  | c :: ds, n, h, hle => by
    obtain ⟨d, hd⟩ := Option.isSome_iff_exists.mp (h c (List.mem_cons_self ..))
    rw [List.filterMap_cons_some hd, List.foldl_cons] at hle ⊢
    have hstep := foldl_digits_le (by decide : 0 < 16) (ds.filterMap (digitIn 16)) (n * 16 + d)
    have hn : n &&& 0xF0 = 0 := and_hex_zero (by omega)
    rw [List.cons_append, escapeHex, hd]
    simp only [hn, ne_eq, not_true_eq_false, if_false]
    exact escapeHex_append ds _ (fun c hc => h c (List.mem_cons_of_mem _ hc)) hle

theorem escapeSimple_head {c : Char} {n : Nat} (h : escapeSimple c = some n) :
    octal c = none ∧ c ≠ 'x' := by
  rw [escapeSimple.eq_def] at h
  split at h <;> cases h <;> exact ⟨by decide, by decide⟩

/-- An octal escape sequence that fits a char is read up to the closing quote. -/
theorem escape_oct {ds : List Char} (hv : ∀ c ∈ ds, (digitIn 8 c).isSome = true)
    (hl : 1 ≤ ds.length ∧ ds.length ≤ 3) (hf : denote 8 ds ≤ 255) :
    escape ('\\' :: ds ++ ['\'']) = some (denote 8 ds, ['\'']) := by
  have hquote : octal '\'' = none := rfl
  obtain ⟨a, ds, rfl⟩ : ∃ a ds', ds = a :: ds' := by
    cases ds with
    | nil => simp at hl
    | cons a ds => exact ⟨a, ds, rfl⟩
  obtain ⟨i, hi⟩ := Option.isSome_iff_exists.mp (hv a (List.mem_cons_self ..))
  have hesc : escape ('\\' :: a :: ds ++ ['\'']) = escapeOctal i (ds ++ ['\'']) :=
    escape_octal hi (ds ++ ['\''])
  rw [hesc]
  rw [denote, List.filterMap_cons_some hi] at hf ⊢
  cases ds with
  | nil =>
    simp only [List.nil_append, escapeOctal, hquote, List.filterMap_nil, List.foldl_cons,
      List.foldl_nil, Nat.zero_mul, Nat.zero_add]
  | cons b ds =>
    obtain ⟨j, hj⟩ := Option.isSome_iff_exists.mp (hv b (by simp))
    rw [List.filterMap_cons_some hj] at hf ⊢
    cases ds with
    | nil =>
      simp only [List.cons_append, List.nil_append, escapeOctal, octal, hj, List.filterMap_nil,
        List.foldl_cons, List.foldl_nil, Nat.zero_mul, Nat.zero_add]
      rfl
    | cons c ds =>
      obtain ⟨k, hk⟩ := Option.isSome_iff_exists.mp (hv c (by simp))
      have hnil : ds = [] := by
        have := hl.2
        simp only [List.length_cons] at this
        exact List.length_eq_zero_iff.mp (by omega)
      subst hnil
      rw [List.filterMap_cons_some hk] at hf ⊢
      simp only [List.filterMap_nil, List.foldl_cons, List.foldl_nil, Nat.zero_mul,
        Nat.zero_add] at hf ⊢
      simp only [List.cons_append, List.nil_append, escapeOctal, octal, hj, hk]
      rw [if_neg (by omega)]

theorem escape_hex {ds : List Char} (hv : ∀ c ∈ ds, (digitIn 16 c).isSome = true)
    (hl : 1 ≤ ds.length) (hf : denote 16 ds ≤ 255) :
    escape ('\\' :: 'x' :: ds ++ ['\'']) = some (denote 16 ds, ['\'']) := by
  cases ds with
  | nil => simp at hl
  | cons d ds =>
    have hx := escape_x d (ds ++ ['\''])
    rw [if_pos (hv d (List.mem_cons_self ..))] at hx
    exact hx.trans (escapeHex_append (d :: ds) 0 hv hf)

/-- A character constant is converted to its value. -/
theorem tokenConvertChar_constant (c : CharConstant) :
    tokenConvertChar c.token = .ok c.value.token := by
  have hesc : escape (c.body ++ ['\'']) = some (c.code, ['\'']) := by
    cases c with
    | plain c h =>
      rw [CharConstant.body, List.cons_append, escape_plain h.2.1, Nat.mod_eq_of_lt h.2.2]
      rfl
    | simple c n h =>
      obtain ⟨ho, hx⟩ := escapeSimple_head h
      rw [CharConstant.body, CharConstant.code, List.cons_append, List.cons_append,
        escape_other ho hx, h]
      rfl
    | oct ds hv hl hf => exact escape_oct hv hl hf
    | hex ds hv hl hf => exact escape_hex hv hl hf
  rw [tokenConvertChar, CharConstant.token, String.toList_ofList, List.cons_append, List.tail_cons,
    hesc]
  rfl

end Ncc.Cpp
