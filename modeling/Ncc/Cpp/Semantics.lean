import Ncc.Cpp.Expression
import Ncc.Lib.IntType

/-! The C values of #if expressions (cpp/evaluate.c).

    Every operand is of type long or unsigned long. An expression has a value where the language
    defines one; operands that are not evaluated need none. The evaluator computes on signed words,
    for it rejects each constant with the suffix U and takes every other one to be a long, and it
    computes every operand. -/

namespace Ncc.Cpp

/-! ### Operators -/

namespace Value

/-- The number. -/
def int (v : Value) : Int := IntType.value ⟨64, v.uns⟩ v.bits

/-- A number as a value of type long or unsigned long. -/
def of (uns : Bool) (n : Int) : Value := ⟨uns, BitVec.ofInt 64 n⟩

/-- A truth value, of type long. -/
def ofBool (b : Bool) : Value := of false (if b then 1 else 0)

/-- Conversion. -/
def convert (uns : Bool) (v : Value) : Value := of uns v.int

end Value

/-- The arithmetic operators. -/
def intOp : TokenClass → Option IntOp
  | .plus => some .add
  | .minus => some .sub
  | .mul => some .mul
  | .div => some .div
  | .mod => some .mod
  | .and => some .and
  | .or => some .or
  | .xor => some .xor
  | .shl => some .shl
  | .shr => some .shr
  | _ => none

/-- The relational and the equality operators. -/
def relation : TokenClass → Option (Int → Int → Bool)
  | .lt => some fun x y => decide (x < y)
  | .lteq => some fun x y => decide (x ≤ y)
  | .gt => some fun x y => decide (x > y)
  | .gteq => some fun x y => decide (x ≥ y)
  | .eqeq => some fun x y => x == y
  | .noteq => some fun x y => x != y
  | _ => none

def isShift (op : TokenClass) : Bool := op == .shl || op == .shr

/-- A prefix operator. -/
def prefixValue (op : TokenClass) (v : Value) : Option Value :=
  match op with
  | .minus => (IntType.negate ⟨64, v.uns⟩ v.int).map (Value.of v.uns)
  | .tilde => some (Value.of v.uns (IntType.complement ⟨64, v.uns⟩ v.int))
  | .not => some (Value.ofBool (v.int == 0))
  | _ => some v

/-- A binary operator that evaluates both operands: the usual arithmetic conversions bring them to
    a common type, except that a shift has the type of its left operand. -/
def binaryValue (op : TokenClass) (l r : Value) : Option Value :=
  let uns := if isShift op then l.uns else l.uns || r.uns
  let x := (l.convert uns).int
  let y := if isShift op then r.int else (r.convert uns).int
  match intOp op, relation op with
  | some o, _ => (IntType.apply ⟨64, uns⟩ o x y).map (Value.of uns)
  | none, some rel => some (Value.ofBool (rel x y))
  | none, none => none

namespace Expr

/-- Whether the type is unsigned long. -/
def isUnsigned : Expr → Bool
  | num c => c.isUnsigned
  | chr _ | ident _ => false
  | un op e => op.cls != .not && e.isUnsigned
  | bin l op r =>
    if isShift op.cls then l.isUnsigned
    else (intOp op.cls).isSome && (l.isUnsigned || r.isUnsigned)
  | cond _ _ t _ f => t.isUnsigned || f.isUnsigned
  | comma _ _ r => r.isUnsigned
  | paren _ e _ => e.isUnsigned

/-- The value in C, where the language defines one. An operand of `&&`, `||` and `?:` that is not
    evaluated need not have one. -/
def value : Expr → Option Value
  | num c => some c.value
  | chr c => some c.value
  | ident _ => some (Value.of false 0)
  | un op e => e.value.bind (prefixValue op.cls)
  | bin l op r =>
    l.value.bind fun a =>
      if op.cls = .andand ∧ a.int = 0 then some (Value.ofBool false)
      else if op.cls = .oror ∧ a.int ≠ 0 then some (Value.ofBool true)
      else r.value.bind fun b =>
        if op.cls = .andand ∨ op.cls = .oror then some (Value.ofBool (b.int != 0))
        else binaryValue op.cls a b
  | cond c _ t _ f =>
    c.value.bind fun a =>
      (if a.int ≠ 0 then t.value else f.value).map (Value.convert (t.isUnsigned || f.isUnsigned))
  | comma l _ r => l.value.bind fun _ => r.value
  | paren _ e _ => e.value

/-- The integer constants. -/
def constants : Expr → List Constant
  | num c => [c]
  | chr _ | ident _ => []
  | un _ e => e.constants
  | bin l _ r => l.constants ++ r.constants
  | cond c _ t _ f => c.constants ++ (t.constants ++ f.constants)
  | comma l _ r => l.constants ++ r.constants
  | paren _ e _ => e.constants

/-- No constant is of type unsigned long: none has the suffix U or exceeds LONG_MAX. -/
def Plain (e : Expr) : Prop := ∀ c ∈ e.constants, c.isUnsigned = false

end Expr

/-! ### Arithmetic of signed words -/

/-- A prefix operator on signed words. -/
def prefixWord (op : TokenClass) (a : BitVec 64) : BitVec 64 :=
  match op with
  | .minus => -a
  | .tilde => ~~~a
  | .not => if a = 0 then 1 else 0
  | _ => a

/-- A binary operator on signed words, which wraps around. -/
def binaryWord (op : TokenClass) (a b : BitVec 64) : BitVec 64 :=
  match intOp op, relation op with
  | some o, _ => IntType.machine ⟨64, false⟩ o a b
  | none, some rel => if rel a.toInt b.toInt then 1 else 0
  | none, none =>
    if (if op = .andand then a != 0 && b != 0 else a != 0 || b != 0) then 1 else 0

/-- Whether a quotient of signed words exists. -/
def quotient (op : TokenClass) (a b : BitVec 64) : Bool :=
  !(op == .div || op == .mod) || (b != 0 && !(a == longMin && b == -1))

namespace Expr

/-- The word that wrap-around arithmetic on 64-bit signed words gives; every operand counts. -/
def word : Expr → BitVec 64
  | num c => BitVec.ofNat 64 c.number
  | chr c => BitVec.ofNat 64 c.code
  | ident _ => 0
  | un op e => prefixWord op.cls e.word
  | bin l op r => binaryWord op.cls l.word r.word
  | cond c _ t _ f => if c.word ≠ 0 then t.word else f.word
  | comma _ _ r => r.word
  | paren _ e _ => e.word

/-- Every division and every modulus, evaluated in C or not, has a quotient: no divisor is 0, and
    LONG_MIN is not divided by -1. -/
def divides : Expr → Bool
  | num _ | chr _ | ident _ => true
  | un _ e => e.divides
  | bin l op r => l.divides && r.divides && quotient op.cls l.word r.word
  | cond c _ t _ f => c.divides && t.divides && f.divides
  | comma l _ r => l.divides && r.divides
  | paren _ e _ => e.divides

end Expr

theorem prefixed_int (op : TokenClass) (a : BitVec 64) :
    prefixed op (tokenInt a) = tokenInt (prefixWord op a) := by
  rw [prefixed.eq_def, prefixWord.eq_def]
  cases op <;> rfl

theorem truth_if (b : Bool) : truth b = tokenInt (if b then 1 else 0) := rfl

/-- A computation that gives `v` where `b` holds, and an error elsewhere. -/
def Outcome {α : Type} (x : Except String α) (b : Bool) (v : α) : Prop :=
  (b = true → x = .ok v) ∧ (b = false → ∃ m, x = .error m)

theorem Outcome.ok {α : Type} {x : Except String α} {v : α} (h : x = .ok v) : Outcome x true v :=
  ⟨fun _ => h, fun h => (nomatch h)⟩

theorem Outcome.map {α β : Type} {x : Except String α} {b : Bool} {v : α} (f : α → β)
    (h : Outcome x b v) : Outcome (x.map f) b (f v) := by
  refine ⟨fun hb => ?_, fun hb => ?_⟩
  · rw [h.1 hb]
    rfl
  · obtain ⟨m, hm⟩ := h.2 hb
    exact ⟨m, by rw [hm]; rfl⟩

theorem Outcome.bind {α β : Type} {x : Except String α} {k : α → Except String β} {b b' : Bool}
    {v : α} {w : β} (hx : Outcome x b v) (hk : Outcome (k v) b' w) :
    Outcome (x >>= k) (b && b') w := by
  cases b with
  | false =>
    obtain ⟨m, rfl⟩ := hx.2 rfl
    exact ⟨fun h => (nomatch h), fun _ => ⟨m, rfl⟩⟩
  | true =>
    rw [hx.1 rfl]
    exact hk

theorem divide_int (zero : String) (sdiv udiv : BitVec 64 → BitVec 64 → BitVec 64)
    (a b : BitVec 64) :
    Outcome (divide false zero sdiv udiv a b) (quotient .div a b) (tokenInt (sdiv a b)) := by
  rw [divide]
  split
  · rename_i hb
    refine ⟨fun h => ?_, fun _ => ⟨_, rfl⟩⟩
    simp [quotient, hb] at h
  · rename_i hb
    rw [if_neg Bool.false_ne_true]
    split
    · rename_i hmin
      refine ⟨fun h => ?_, fun _ => ⟨_, rfl⟩⟩
      simp [quotient, hmin] at h
    · rename_i hmin
      refine ⟨fun _ => rfl, fun h => ?_⟩
      simp only [quotient, beq_self_eq_true, Bool.true_or, Bool.not_true, Bool.false_or,
        Bool.and_eq_false_iff, bne_eq_false_iff_eq, Bool.not_eq_false', Bool.and_eq_true,
        beq_iff_eq] at h
      exact absurd h (not_or_intro hb hmin)

/-- The `switch` of `binary` on signed words. -/
theorem operate_int {op : TokenClass} (h : op.prec ≠ 0) (a b : BitVec 64) :
    Outcome (operate op (tokenInt a) (tokenInt b)) (quotient op a b)
      (tokenInt (binaryWord op a b)) := by
  cases op with
  | div => exact divide_int _ _ _ a b
  | mod => exact divide_int _ _ _ a b
  | plus | minus | mul | and | or | xor | shl | shr => exact Outcome.ok rfl
  | lt | lteq | gt | gteq | andand | oror => exact Outcome.ok rfl
  | eqeq =>
    have hab : (a == b) = (a.toInt == b.toInt) := by
      rw [Bool.eq_iff_iff, beq_iff_eq, beq_iff_eq, BitVec.toInt_inj]
    exact Outcome.ok (congrArg (fun c => Except.ok (truth c)) hab)
  | noteq =>
    have hab : (a != b) = (a.toInt != b.toInt) := by
      rw [Bool.eq_iff_iff, bne_iff_ne, bne_iff_ne, ne_eq, ne_eq, BitVec.toInt_inj]
    exact Outcome.ok (congrArg (fun c => Except.ok (truth c)) hab)
  | _ => exact absurd rfl h

namespace Expr

theorem plain_bin {l r : Expr} {op : Token} (h : (bin l op r).Plain) : l.Plain ∧ r.Plain :=
  ⟨fun c hc => h c (List.mem_append_left _ hc), fun c hc => h c (List.mem_append_right _ hc)⟩

theorem plain_comma {l r : Expr} {op : Token} (h : (comma l op r).Plain) : l.Plain ∧ r.Plain :=
  ⟨fun c hc => h c (List.mem_append_left _ hc), fun c hc => h c (List.mem_append_right _ hc)⟩

theorem plain_cond {c t f : Expr} {quest colon : Token} (h : (cond c quest t colon f).Plain) :
    c.Plain ∧ t.Plain ∧ f.Plain :=
  ⟨fun k hk => h k (List.mem_append_left _ hk),
    fun k hk => h k (List.mem_append_right _ (List.mem_append_left _ hk)),
    fun k hk => h k (List.mem_append_right _ (List.mem_append_right _ hk))⟩

/-- Along a tree without unsigned constants the evaluator computes on signed words, and stops at
    the first quotient that does not exist. -/
theorem run_plain : ∀ e : Expr, e.grammatical = true → e.Plain →
    Outcome e.run e.divides (tokenInt e.word)
  | num c, _, hp => by
    have hu := hp c (List.mem_singleton_self c)
    refine Outcome.ok ?_
    rw [run, (tokenConvertNumber_iff c).mpr hu, Constant.value, Value.token, hu]
    rfl
  | chr c, _, _ => Outcome.ok (tokenConvertChar_constant c)
  | ident _, _, _ => Outcome.ok rfl
  | un op e, hg, hp => by
    simp only [grammatical, Bool.and_eq_true] at hg
    rw [run, word, ← prefixed_int]
    exact (run_plain e hg.2 hp).map _
  | bin l op r, hg, hp => by
    simp only [grammatical, Bool.and_eq_true, bne_iff_ne] at hg
    obtain ⟨⟨⟨⟨hop, -⟩, -⟩, hgl⟩, hgr⟩ := hg
    have hl := run_plain l hgl (plain_bin hp).1
    have hr := run_plain r hgr (plain_bin hp).2
    rw [run, divides, Bool.and_assoc]
    exact hl.bind (hr.bind (operate_int hop l.word r.word))
  | cond c quest t colon f, hg, hp => by
    simp only [grammatical, Bool.and_eq_true] at hg
    obtain ⟨⟨⟨-, hgc⟩, hgt⟩, hgf⟩ := hg
    obtain ⟨hpc, hpt, hpf⟩ := plain_cond hp
    have hc := run_plain c hgc hpc
    have ht := run_plain t hgt hpt
    have hf := run_plain f hgf hpf
    rw [run, divides, word, Bool.and_assoc, ← Bool.and_true f.divides]
    refine hc.bind (ht.bind (hf.bind (Outcome.ok ?_)))
    exact congrArg Except.ok (apply_ite tokenInt (c.word ≠ 0) _ _).symm
  | comma l op r, hg, hp => by
    simp only [grammatical, Bool.and_eq_true] at hg
    obtain ⟨⟨-, hgl⟩, hgr⟩ := hg
    have hl := run_plain l hgl (plain_comma hp).1
    have hr := run_plain r hgr (plain_comma hp).2
    rw [run, divides]
    exact hl.bind hr
  | paren lp e rp, hg, hp => by
    simp only [grammatical, Bool.and_eq_true] at hg
    exact run_plain e hg.2 hp

end Expr

/-! ### Values without unsigned constants -/

theorem Value.of_int (v : Value) : Value.of v.uns v.int = v := by
  obtain ⟨uns, bits⟩ := v
  exact congrArg (Value.mk uns) (IntType.pattern_value ⟨64, uns⟩ bits)

theorem Value.convert_signed (a : BitVec 64) : Value.convert false ⟨false, a⟩ = ⟨false, a⟩ :=
  Value.of_int ⟨false, a⟩

theorem Value.int_eq_zero {v : Value} : v.int = 0 ↔ v.bits = 0 := by
  refine ⟨fun h => ?_, fun h => ?_⟩
  · rw [← Value.of_int v, h]
    rfl
  · rw [Value.int, h, IntType.value]
    split <;> rfl

theorem Value.ofBool_eq (b : Bool) : Value.ofBool b = ⟨false, if b then 1 else 0⟩ := by
  cases b <;> rfl

theorem Value.int_bne (v : Value) : (v.int != 0) = (v.bits != 0) := by
  rw [Bool.eq_iff_iff, bne_iff_ne, bne_iff_ne, ne_eq, ne_eq, Value.int_eq_zero]

theorem binaryWord_andand (a b : BitVec 64) :
    binaryWord .andand a b = if a != 0 && b != 0 then 1 else 0 := rfl

theorem binaryWord_oror (a b : BitVec 64) :
    binaryWord .oror a b = if a != 0 || b != 0 then 1 else 0 := rfl

theorem prefixValue_plain {op : TokenClass} {a : BitVec 64} {v : Value}
    (h : prefixValue op ⟨false, a⟩ = some v) : v = ⟨false, prefixWord op a⟩ := by
  have hsame : prefixValue op ⟨false, a⟩ = some ⟨false, a⟩ → v = ⟨false, a⟩ := by
    intro hs
    rw [hs] at h
    exact (Option.some.inj h).symm
  cases op with
  | minus =>
    obtain ⟨n, hn, rfl⟩ := Option.map_eq_some_iff.mp h
    rw [← IntType.value_neg hn]
    exact congrArg (Value.mk false) (IntType.pattern_value ⟨64, false⟩ (-a))
  | tilde =>
    rw [← Option.some.inj h, Value.int, IntType.complement, IntType.pattern_value]
    exact congrArg (Value.mk false) (IntType.pattern_value ⟨64, false⟩ (~~~a))
  | not =>
    rw [← Option.some.inj h, Value.ofBool_eq]
    have hz : (Value.int ⟨false, a⟩ == 0) = decide (a = 0) := by
      rw [Bool.eq_iff_iff, beq_iff_eq, decide_eq_true_eq]
      exact Value.int_eq_zero
    simp only [hz, prefixWord, decide_eq_true_eq]
  | _ => exact hsame rfl

theorem binaryValue_plain {op : TokenClass} {a b : BitVec 64} {v : Value}
    (h : binaryValue op ⟨false, a⟩ ⟨false, b⟩ = some v) : v = ⟨false, binaryWord op a b⟩ := by
  rw [binaryValue] at h
  simp only [Bool.or_self, ite_self, Value.convert_signed] at h
  rw [binaryWord]
  cases ho : intOp op with
  | some o =>
    rw [ho] at h
    obtain ⟨n, hn, rfl⟩ := Option.map_eq_some_iff.mp h
    rw [← IntType.value_machine hn]
    exact congrArg (Value.mk false) (IntType.pattern_value ⟨64, false⟩ _)
  | none =>
    rw [ho] at h
    cases hr : relation op with
    | none => rw [hr] at h; cases h
    | some rel =>
      rw [hr] at h
      rw [← Option.some.inj h, Value.ofBool_eq]
      rfl

namespace Expr

theorem isUnsigned_plain : ∀ e : Expr, e.Plain → e.isUnsigned = false
  | num c, hp => hp c (List.mem_singleton_self c)
  | chr _, _ => rfl
  | ident _, _ => rfl
  | un op e, hp => by rw [isUnsigned, isUnsigned_plain e hp, Bool.and_false]
  | bin l op r, hp => by
    rw [isUnsigned, isUnsigned_plain l (plain_bin hp).1, isUnsigned_plain r (plain_bin hp).2,
      Bool.or_self, Bool.and_false, ite_self]
  | cond c _ t _ f, hp => by
    obtain ⟨-, hpt, hpf⟩ := plain_cond hp
    rw [isUnsigned, isUnsigned_plain t hpt, isUnsigned_plain f hpf, Bool.or_self]
  | comma l _ r, hp => isUnsigned_plain r (plain_comma hp).2
  | paren _ e _, hp => isUnsigned_plain e hp

/-- Where C gives an expression without unsigned constants a value, it is that of the signed
    words. -/
theorem value_plain : ∀ (e : Expr) {v : Value}, e.Plain → e.value = some v → v = ⟨false, e.word⟩
  | num c, v, hp, hv => by
    rw [← Option.some.inj hv, Constant.value, hp c (List.mem_singleton_self c)]
    rfl
  | chr c, v, _, hv => (Option.some.inj hv).symm
  | ident _, v, _, hv => (Option.some.inj hv).symm
  | un op e, v, hp, hv => by
    obtain ⟨a, ha, hop⟩ := Option.bind_eq_some_iff.mp hv
    rw [value_plain e hp ha] at hop
    exact prefixValue_plain hop
  | bin l op r, v, hp, hv => by
    obtain ⟨a, ha, hop⟩ := Option.bind_eq_some_iff.mp hv
    have hl := value_plain l (plain_bin hp).1 ha
    subst hl
    have hz : Value.int ⟨false, l.word⟩ = 0 ↔ l.word = 0 := Value.int_eq_zero
    rw [word]
    split at hop
    · rename_i hcut
      rw [← Option.some.inj hop, hcut.1, binaryWord_andand, hz.mp hcut.2]
      rfl
    · rename_i hand
      split at hop
      · rename_i hcut
        have hl : l.word ≠ 0 := fun h => hcut.2 (hz.mpr h)
        rw [← Option.some.inj hop, hcut.1, binaryWord_oror, bne_iff_ne.mpr hl]
        rfl
      · rename_i hor
        obtain ⟨b, hb, hop⟩ := Option.bind_eq_some_iff.mp hop
        have hr := value_plain r (plain_bin hp).2 hb
        subst hr
        split at hop
        · rename_i hlog
          rw [← Option.some.inj hop, Value.ofBool_eq, Value.int_bne]
          obtain hlog | hlog := hlog
          · have hl : l.word ≠ 0 := fun h => hand ⟨hlog, hz.mpr h⟩
            rw [hlog, binaryWord_andand, bne_iff_ne.mpr hl, Bool.true_and]
          · have hl : l.word = 0 := by_contra fun h => hor ⟨hlog, fun h' => h (hz.mp h')⟩
            rw [hlog, binaryWord_oror, hl, bne_self_eq_false, Bool.false_or]
        · exact binaryValue_plain hop
  | cond c _ t _ f, v, hp, hv => by
    obtain ⟨hpc, hpt, hpf⟩ := plain_cond hp
    obtain ⟨a, ha, hpick⟩ := Option.bind_eq_some_iff.mp hv
    have hc := value_plain c hpc ha
    rw [isUnsigned_plain t hpt, isUnsigned_plain f hpf, Bool.or_self] at hpick
    obtain ⟨b, hb, rfl⟩ := Option.map_eq_some_iff.mp hpick
    have hz : a.int = 0 ↔ c.word = 0 := by rw [Value.int_eq_zero, hc]
    rw [word]
    by_cases hw : c.word = 0
    · rw [if_neg (fun h => h (hz.mpr hw))] at hb
      rw [if_neg (fun h => h hw), value_plain f hpf hb]
      exact Value.convert_signed _
    · rw [if_pos (fun h => hw (hz.mp h))] at hb
      rw [if_pos hw, value_plain t hpt hb]
      exact Value.convert_signed _
  | comma l _ r, v, hp, hv => by
    obtain ⟨a, -, hr⟩ := Option.bind_eq_some_iff.mp hv
    exact value_plain r (plain_comma hp).2 hr
  | paren _ e _, v, hp, hv => value_plain e hp hv

end Expr

/-! ### The tokens of a list -/

/-- Undefined identifiers are no spaces, and neither is what they become. -/
theorem listStripAll_undefined (l : List Token) :
    listStripAll (undefined l) = undefined (listStripAll l) := by
  rw [undefined, undefined, listStripAll, listStripAll, List.filter_map]
  refine congrArg _ (List.filter_congr fun t _ => ?_)
  rw [Function.comp_apply]
  split
  · rename_i ht
    rw [ht]
    rfl
  · rfl

theorem prec_ident {c : TokenClass} (h : c.prec ≠ 0) : c ≠ .ident := by
  rintro rfl
  exact h rfl

theorem undefined_cons {t : Token} (h : t.cls ≠ .ident) (l : List Token) :
    undefined (t :: l) = t :: undefined l := by
  rw [undefined, List.map_cons, if_neg h]
  rfl

theorem undefined_append (l l' : List Token) :
    undefined (l ++ l') = undefined l ++ undefined l' := List.map_append

/-- What `undefined` leaves of the tokens of a tree. -/
theorem undefined_tokens : ∀ e : Expr, e.grammatical = true → undefined e.tokens = e.ready
  | .num c, _ => rfl
  | .chr c, _ => rfl
  | .ident _, _ => rfl
  | .un op e, h => by
    simp only [Expr.grammatical, Bool.and_eq_true] at h
    have hop : op.cls ≠ .ident := by
      intro hi
      rw [hi] at h
      cases h.1.1
    rw [Expr.tokens, Expr.ready, undefined_cons hop, undefined_tokens e h.2]
  | .bin l op r, h => by
    simp only [Expr.grammatical, Bool.and_eq_true, bne_iff_ne] at h
    obtain ⟨⟨⟨⟨hop, -⟩, -⟩, hl⟩, hr⟩ := h
    rw [Expr.tokens, Expr.ready, undefined_append, undefined_cons (prec_ident hop),
      undefined_tokens l hl, undefined_tokens r hr]
  | .cond c quest t colon f, h => by
    simp only [Expr.grammatical, Bool.and_eq_true, beq_iff_eq] at h
    obtain ⟨⟨⟨⟨⟨⟨hq, hcolon⟩, -⟩, -⟩, hc⟩, ht⟩, hf⟩ := h
    have hqi : quest.cls ≠ .ident := by rw [hq]; decide
    have hci : colon.cls ≠ .ident := by rw [hcolon]; decide
    rw [Expr.tokens, Expr.ready, undefined_append, undefined_cons hqi, undefined_append,
      undefined_cons hci, undefined_tokens c hc, undefined_tokens t ht, undefined_tokens f hf]
  | .comma l op r, h => by
    simp only [Expr.grammatical, Bool.and_eq_true, beq_iff_eq] at h
    obtain ⟨⟨⟨hop, -⟩, hl⟩, hr⟩ := h
    have hoi : op.cls ≠ .ident := by rw [hop]; decide
    rw [Expr.tokens, Expr.ready, undefined_append, undefined_cons hoi, undefined_tokens l hl,
      undefined_tokens r hr]
  | .paren lp e rp, h => by
    simp only [Expr.grammatical, Bool.and_eq_true, beq_iff_eq] at h
    have hl : lp.cls ≠ .ident := by rw [h.1.1]; decide
    have hr : rp.cls ≠ .ident := by rw [h.1.2]; decide
    rw [Expr.tokens, Expr.ready, undefined_cons hl, undefined_append, undefined_tokens e h.2,
      undefined_cons hr]
    rfl

/-! ### The evaluator -/

/-- What the evaluator makes of the tokens of a tree, once macros have been replaced. -/
theorem expression_tokens {m : List Token} {e : Expr} (hs : listStripAll m = e.tokens)
    (hg : e.grammatical = true) :
    Yields (fun n => expression n (listStripAll (undefined m))) (attach e []) := by
  have hend : Closed 10 [] := fun t ht => (nomatch ht)
  have h := (parses e hg).expression [] hend rfl rfl
  rw [listStripAll_undefined, hs, undefined_tokens e hg]
  simpa only [List.append_nil] using h

section
variable {replaceAll : List Token → Except String (List Token)} {table : Table} {l m : List Token}

theorem prepare_eq
    (hm : (defined table (listStripAll l).length (listStripAll l) >>= replaceAll) = .ok m) :
    prepare replaceAll table l = .ok (listStripAll (undefined m)) := by
  obtain ⟨d, hd, hr⟩ := bind_ok.mp hm
  rw [prepare, hd]
  exact bind_ok.mpr ⟨d, rfl, bind_ok.mpr ⟨m, hr, rfl⟩⟩

theorem evaluate_error {k : String}
    (hm : (defined table (listStripAll l).length (listStripAll l) >>= replaceAll) = .ok m)
    (h : Yields (fun n => expression n (listStripAll (undefined m))) (.error k)) :
    Yields (fun n => evaluate replaceAll n table l) (.error k) := by
  simp only [evaluate, prepare_eq hm]
  exact h.bind (fun k' hk => by rw [Except.error.inj hk]) fun a ha => (nomatch ha)

/-- The directive sees whether the value is 0. -/
theorem evaluate_value {v : Value}
    (hm : (defined table (listStripAll l).length (listStripAll l) >>= replaceAll) = .ok m)
    (h : Yields (fun n => expression n (listStripAll (undefined m))) (.ok (v.token, []))) :
    Yields (fun n => evaluate replaceAll n table l) (.ok (v.bits != 0, [])) := by
  have hcls : v.token.cls = .int ∨ v.token.cls = .uint := by
    rw [Value.token]
    cases v.uns
    · exact .inl rfl
    · exact .inr rfl
  simp only [evaluate, prepare_eq hm]
  refine h.bind (fun k hk => ?_) fun a ha => Yields.of_eq fun n => ?_
  · cases hk
  rw [← Except.ok.inj ha]
  exact if_pos hcls

/-- The evaluator computes the C value of an expression, with the type and the value of every
    constant in it, exactly when no constant is of type unsigned long and no division or modulus,
    evaluated or not, lacks a quotient. -/
theorem evaluates_iff {e : Expr} {v : Value}
    (hm : (defined table (listStripAll l).length (listStripAll l) >>= replaceAll) = .ok m)
    (hs : listStripAll m = e.tokens) (hg : e.grammatical = true) (hv : e.value = some v) :
    ((∀ c ∈ e.constants, tokenConvertNumber c.token = .ok c.value.token) ∧
      Yields (fun n => expression n (listStripAll (undefined m))) (.ok (v.token, [])) ∧
      Yields (fun n => evaluate replaceAll n table l) (.ok (v.bits != 0, []))) ↔
    e.Plain ∧ e.divides = true := by
  have hyields := expression_tokens hs hg
  constructor
  · rintro ⟨hc, he, -⟩
    have hp : e.Plain := fun c hmem => (tokenConvertNumber_iff c).mp (hc c hmem)
    refine ⟨hp, ?_⟩
    cases hd : e.divides with
    | true => rfl
    | false =>
      obtain ⟨k, hk⟩ := (Expr.run_plain e hg hp).2 hd
      rw [attach, hk] at hyields
      cases hyields.unique he
  · rintro ⟨hp, hd⟩
    have hrun : attach e [] = .ok (v.token, []) := by
      rw [attach, (Expr.run_plain e hg hp).1 hd, Expr.value_plain e hp hv]
      rfl
    rw [hrun] at hyields
    exact ⟨fun c hmem => (tokenConvertNumber_iff c).mpr (hp c hmem), hyields,
      evaluate_value hm hyields⟩

end

/-- The constant 0. -/
def zero : Constant :=
  ⟨.oct, [], [], rfl, List.forall_mem_nil _, by decide, Nat.zero_le (2 ^ 64 - 1)⟩

theorem denote_one_le : denote Radix.dec.base ['1'] ≤ ulongMax := by
  have h : denote Radix.dec.base ['1'] = 1 := rfl
  rw [h, ulongMax]
  norm_num

/-- The constant 1, with a suffix. -/
def one (suffix : List Char) (h : suffix ∈ suffixes) : Constant :=
  ⟨.dec, ['1'], suffix, rfl, List.forall_mem_singleton.mpr rfl, h, denote_one_le⟩

/-- `1 || 1 / 0`. -/
def cutZero : Expr :=
  .bin (.num (one [] (by decide))) ⟨.oror, "||", 0⟩
    (.bin (.num (one [] (by decide))) ⟨.div, "/", 0⟩ (.num zero))

/-- `1 || 0`. -/
def cut : Expr := .bin (.num (one [] (by decide))) ⟨.oror, "||", 0⟩ (.num zero)

theorem evaluates_iff_cut :
    ((∀ c ∈ cut.constants, tokenConvertNumber c.token = .ok c.value.token) ∧
      Yields (fun n => expression n (listStripAll (undefined cut.tokens)))
        (.ok ((Value.ofBool true).token, [])) ∧
      Yields (fun n => evaluate .ok n [] cut.tokens) (.ok (true, []))) ↔
    cut.Plain ∧ cut.divides = true :=
  evaluates_iff (v := .ofBool true) rfl rfl rfl rfl

/-- `1U`. -/
def unsignedOne : Expr := .num (one ['U'] (by decide))

/-- The value of `1 || 1 / 0` and of `1U` is 1, but there is a diagnostic for each. -/
theorem evaluates_diagnostic :
    (cutZero.grammatical = true ∧ cutZero.value = some (.ofBool true) ∧
      ¬ Yields (fun n => evaluate .ok n [] cutZero.tokens) (.ok (true, []))) ∧
    (unsignedOne.grammatical = true ∧ unsignedOne.value = some ⟨true, 1⟩ ∧
      ¬ Yields (fun n => evaluate .ok n [] unsignedOne.tokens) (.ok (true, []))) := by
  refine ⟨⟨rfl, rfl, fun h => ?_⟩, ⟨rfl, rfl, fun h => ?_⟩⟩
  · have hrun : attach cutZero [] = .error "division by zero" := rfl
    have he := expression_tokens (m := cutZero.tokens) rfl (e := cutZero) rfl
    rw [hrun] at he
    have herror : Yields (fun n => evaluate .ok n [] cutZero.tokens) (.error "division by zero") :=
      evaluate_error rfl he
    cases herror.unique h
  · have hrun : attach unsignedOne [] = .error "malformed integer constant" := rfl
    have he := expression_tokens (m := unsignedOne.tokens) rfl (e := unsignedOne) rfl
    rw [hrun] at he
    have herror : Yields (fun n => evaluate .ok n [] unsignedOne.tokens)
        (.error "malformed integer constant") :=
      evaluate_error rfl he
    cases herror.unique h

end Ncc.Cpp
