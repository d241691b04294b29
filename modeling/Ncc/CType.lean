import Mathlib

/-! C types and their compatibility (type.h, type.c).

    A type is a list of nodes that reads like the type: pointers, arrays and functions, and a terminal
    at the end. `typeCompat` walks two of them side by side, updating the first as its flags tell it
    to. `Compat` says when it accepts, and `update` what it leaves behind: `typeCompat_answers` is the
    lemma that the other modules use. -/

namespace Ncc

/-- The terminals other than structs and unions. -/
inductive Basic where
  | void | char | schar | uchar | short | ushort | int | uint | long | ulong
  | float | double | ldouble
  deriving DecidableEq, Repr

/-- T_QUALS: T_CONST and T_VOLATILE. -/
abbrev Quals := BitVec 2

/-- T_CONST. -/
def Quals.const : Quals := 1

/-- T_VOLATILE. -/
def Quals.volatile : Quals := 2

mutual

/-- `struct type`: its first node and the rest. An array of 0 elements is unbounded. A T_OLD_STYLE
    function has no formals, and T_VARIADIC is a mark of prototypes. -/
inductive CType where
  | basic (ts : Basic) (quals : Quals)
  | strun (tag : Nat) (quals : Quals)
  | ptr (quals : Quals) (target : CType)
  | array (quals : Quals) (nrElements : Nat) (element : CType)
  | oldFunc (quals : Quals) (ret : CType)
  | func (quals : Quals) (variadic : Bool) (formals : Formals) (ret : CType)

/-- `struct formals`: the identifier, if any, the `register` mark and the type of each. -/
inductive Formals where
  | nil
  | cons (id : Option Nat) (isRegister : Bool) (type : CType) (rest : Formals)

end

/-- TYPE_QUALS: the qualifiers of the first node. -/
def CType.quals : CType → Quals
  | basic _ q | strun _ q | ptr q _ | array q _ _ | oldFunc q _ | func q _ _ _ => q

/-- The same type with other qualifiers on the first node. -/
def CType.setQuals (q : Quals) : CType → CType
  | basic ts _ => basic ts q
  | strun tag _ => strun tag q
  | ptr _ t => ptr q t
  | array _ n e => array q n e
  | oldFunc _ r => oldFunc q r
  | func _ v fs r => func q v fs r

/-! ### Classes of types -/

/-- T_INTEGRAL. -/
def Basic.integral : Basic → Bool
  | .void | .float | .double | .ldouble => false
  | _ => true

/-- T_ARITH. -/
def Basic.arith : Basic → Bool
  | .void => false
  | _ => true

namespace CType

/-- TYPE_INTEGRAL. -/
def integral : CType → Bool
  | basic ts _ => ts.integral
  | _ => false

/-- TYPE_ARITH. -/
def arith : CType → Bool
  | basic ts _ => ts.arith
  | _ => false

/-- TYPE_PTR. -/
def isPtr : CType → Bool
  | ptr .. => true
  | _ => false

/-- TYPE_STRUN. -/
def isStrun : CType → Bool
  | strun .. => true
  | _ => false

/-- TYPE_VOID. -/
def isVoid : CType → Bool
  | basic .void _ => true
  | _ => false

/-- TYPE_VOID_PTR. -/
def isVoidPtr : CType → Bool
  | ptr _ t => t.isVoid
  | _ => false

/-- The nodes after the first one. -/
def next : CType → Option CType
  | basic .. | strun .. => none
  | ptr _ t => some t
  | array _ _ e => some e
  | oldFunc _ r => some r
  | func _ _ _ r => some r

end CType

/-! ### `type_compat` -/

/-- TYPE_COMPAT_FLAG_*. -/
structure CompatFlags where
  compose : Bool := false
  quals : Bool := false
  skip : Bool := false
  mergeQuals : Bool := false
  moreQuals : Bool := false

/-- TYPE_COMPAT_*. -/
inductive CompatRet where
  | ok | error | discard
  deriving DecidableEq, Repr

/-- What `type_compat` does with the qualifiers of two nodes, unless they are the first ones and
    these are skipped: the updated qualifiers of `dst`, or none if they have to be the same. -/
def qualsCompat (fl : CompatFlags) (first : Bool) (dst src : Quals) : Option Quals :=
  if fl.skip && first then some dst
  else if fl.quals && decide (dst ≠ src) then none
  else some (if fl.mergeQuals then dst ||| src else dst)

/-- Is a qualifier of `src` missing in `dst`, and does that matter? -/
def disqualifies (fl : CompatFlags) (first : Bool) (dst src : Quals) : Bool :=
  !(fl.skip && first) && fl.moreQuals && decide (dst &&& src ≠ src)

/-- The number of elements of `dst` after `tn_compat`. -/
def composeElements (fl : CompatFlags) (dst src : Nat) : Nat :=
  if fl.compose && dst == 0 then src else dst

/-- The return code when both types end. -/
def compatRet (disqualified : Bool) : CompatRet := if disqualified then .discard else .ok

mutual

/-- `type_compat`, from a pair of nodes on; `first` tells the first pair, and `dis` is `disqualified`
    so far. The result comes with the updated `dst`. -/
def typeCompatFrom (fl : CompatFlags) (first dis : Bool) : CType → CType → CompatRet × CType
  | .basic ts d, src =>
    match qualsCompat fl first d src.quals with
    | none => (.error, .basic ts d)
    | some q =>
      match src with
      | .basic ts' s =>
        if ts = ts' then (compatRet (dis || disqualifies fl first d s), .basic ts q)
        else (.error, .basic ts q)
      | _ => (.error, .basic ts q)
  | .strun tag d, src =>
    match qualsCompat fl first d src.quals with
    | none => (.error, .strun tag d)
    | some q =>
      match src with
      | .strun tag' s =>
        if tag = tag' then (compatRet (dis || disqualifies fl first d s), .strun tag q)
        else (.error, .strun tag q)
      | _ => (.error, .strun tag q)
  | .ptr d t, src =>
    match qualsCompat fl first d src.quals with
    | none => (.error, .ptr d t)
    | some q =>
      match src with
      | .ptr s t' =>
        let rest := typeCompatFrom fl false (dis || disqualifies fl first d s) t t'
        (rest.1, .ptr q rest.2)
      | _ => (.error, .ptr q t)
  | .array d n e, src =>
    match qualsCompat fl first d src.quals with
    | none => (.error, .array d n e)
    | some q =>
      match src with
      | .array s m e' =>
        if n ≠ 0 ∧ m ≠ 0 ∧ n ≠ m then (.error, .array q n e)
        else
          let rest := typeCompatFrom fl false (dis || disqualifies fl first d s) e e'
          (rest.1, .array q (composeElements fl n m) rest.2)
      | _ => (.error, .array q n e)
  | .oldFunc d r, src =>
    match qualsCompat fl first d src.quals with
    | none => (.error, .oldFunc d r)
    | some q =>
      match src with
      | .oldFunc s r' =>
        let rest := typeCompatFrom fl false (dis || disqualifies fl first d s) r r'
        (rest.1, .oldFunc q rest.2)
      | .func s _ fs r' =>
        let rest := typeCompatFrom fl false (dis || disqualifies fl first d s) r r'
        -- the formals are copied, T_VARIADIC is not
        (rest.1, if fl.compose then .func q false fs rest.2 else .oldFunc q rest.2)
      | _ => (.error, .oldFunc q r)
  | .func d v fs r, src =>
    match qualsCompat fl first d src.quals with
    | none => (.error, .func d v fs r)
    | some q =>
      match src with
      | .oldFunc s r' =>
        let rest := typeCompatFrom fl false (dis || disqualifies fl first d s) r r'
        (rest.1, .func q v fs rest.2)
      | .func s v' fs' r' =>
        if v ≠ v' then (.error, .func q v fs r)
        else
          let formals := formalsCompat fl.compose fs fs'
          if formals.1 = .ok then
            let rest := typeCompatFrom fl false (dis || disqualifies fl first d s) r r'
            (rest.1, .func q v formals.2 rest.2)
          else (formals.1, .func q v formals.2 r)
      | _ => (.error, .func q v fs r)

/-- `formals_compat`, from a pair of formals on. -/
def formalsCompat (compose : Bool) : Formals → Formals → CompatRet × Formals
  | .nil, .nil => (.ok, .nil)
  | .nil, .cons .. => (.error, .nil)
  | .cons id reg t rest, src =>
    match src with
    | .nil => (.error, .cons id reg t rest)
    | .cons _ _ t' rest' =>
      let type := typeCompatFrom { compose := compose, quals := true, skip := true } true false t t'
      if type.1 = .ok then
        let tail := formalsCompat compose rest rest'
        (tail.1, .cons id reg type.2 tail.2)
      else (type.1, .cons id reg type.2 rest)

end

/-- `type_compat`. -/
def typeCompat (dst src : CType) (fl : CompatFlags) : CompatRet × CType :=
  typeCompatFrom fl true false dst src

/-! ### When it accepts, and what it leaves behind -/

/-- The qualifiers of two nodes do not matter, or are the same. -/
def Qualified (q skip : Bool) (dst src : Quals) : Prop := skip = true ∨ q = false ∨ dst = src

mutual

/-- The types are compatible; `q` asks for the same qualifiers, `skip` not so at the first nodes. -/
inductive Compat : Bool → Bool → CType → CType → Prop
  | basic {q skip : Bool} {ts : Basic} {d s : Quals} : Qualified q skip d s →
      Compat q skip (.basic ts d) (.basic ts s)
  | strun {q skip : Bool} {tag : Nat} {d s : Quals} : Qualified q skip d s →
      Compat q skip (.strun tag d) (.strun tag s)
  | ptr {q skip : Bool} {d s : Quals} {t t' : CType} : Qualified q skip d s →
      Compat q false t t' → Compat q skip (.ptr d t) (.ptr s t')
  | array {q skip : Bool} {d s : Quals} {n m : Nat} {e e' : CType} : Qualified q skip d s →
      (n = 0 ∨ m = 0 ∨ n = m) → Compat q false e e' → Compat q skip (.array d n e) (.array s m e')
  | oldOld {q skip : Bool} {d s : Quals} {r r' : CType} : Qualified q skip d s →
      Compat q false r r' → Compat q skip (.oldFunc d r) (.oldFunc s r')
  | oldNew {q skip : Bool} {d s : Quals} {v : Bool} {fs : Formals} {r r' : CType} :
      Qualified q skip d s → Compat q false r r' → Compat q skip (.oldFunc d r) (.func s v fs r')
  | newOld {q skip : Bool} {d s : Quals} {v : Bool} {fs : Formals} {r r' : CType} :
      Qualified q skip d s → Compat q false r r' → Compat q skip (.func d v fs r) (.oldFunc s r')
  | newNew {q skip : Bool} {d s : Quals} {v : Bool} {fs fs' : Formals} {r r' : CType} :
      Qualified q skip d s → FormalsCompat fs fs' → Compat q false r r' →
      Compat q skip (.func d v fs r) (.func s v fs' r')

/-- The formals are compatible, one by one. -/
inductive FormalsCompat : Formals → Formals → Prop
  | nil : FormalsCompat .nil .nil
  | cons {id id' : Option Nat} {reg reg' : Bool} {t t' : CType} {rest rest' : Formals} :
      Compat true true t t' → FormalsCompat rest rest' →
      FormalsCompat (.cons id reg t rest) (.cons id' reg' t' rest')

end

/-- The qualifiers of a node of `dst` after an accepted pair. -/
def mergedQuals (fl : CompatFlags) (first : Bool) (dst src : Quals) : Quals :=
  if !(fl.skip && first) && fl.mergeQuals then dst ||| src else dst

mutual

/-- `dst` after it was found compatible with `src`. -/
def update (fl : CompatFlags) (first : Bool) : CType → CType → CType
  | .basic ts d, src => .basic ts (mergedQuals fl first d src.quals)
  | .strun tag d, src => .strun tag (mergedQuals fl first d src.quals)
  | .ptr d t, .ptr s t' => .ptr (mergedQuals fl first d s) (update fl false t t')
  | .array d n e, .array s m e' =>
    .array (mergedQuals fl first d s) (composeElements fl n m) (update fl false e e')
  | .oldFunc d r, .oldFunc s r' => .oldFunc (mergedQuals fl first d s) (update fl false r r')
  | .oldFunc d r, .func s _ fs r' =>
    if fl.compose then .func (mergedQuals fl first d s) false fs (update fl false r r')
    else .oldFunc (mergedQuals fl first d s) (update fl false r r')
  | .func d v fs r, .oldFunc s r' => .func (mergedQuals fl first d s) v fs (update fl false r r')
  | .func d v fs r, .func s _ fs' r' =>
    .func (mergedQuals fl first d s) v (updateFormals fl.compose fs fs') (update fl false r r')
  | dst, _ => dst

/-- The formals of `dst` after they were found compatible with those of `src`. -/
def updateFormals (compose : Bool) : Formals → Formals → Formals
  | .cons id reg t rest, .cons _ _ t' rest' =>
    .cons id reg (update { compose := compose, quals := true, skip := true } true t t')
      (updateFormals compose rest rest')
  | fs, _ => fs

end

/-- Accepted with the update, or refused. -/
def Answers {α : Type*} (compat : Prop) (upd : α) (x : CompatRet × α) : Prop :=
  compat ∧ x = (.ok, upd) ∨ ¬ compat ∧ x.1 = .error

theorem qualsCompat_eq (fl : CompatFlags) (first : Bool) (d s : Quals) :
    Qualified fl.quals (fl.skip && first) d s ∧
        qualsCompat fl first d s = some (mergedQuals fl first d s) ∨
      ¬ Qualified fl.quals (fl.skip && first) d s ∧ qualsCompat fl first d s = none := by
  unfold Qualified qualsCompat mergedQuals
  cases fl.skip && first <;> cases fl.quals <;> by_cases h : d = s <;> simp [h]

/-- When no qualifier has to be present, none is found missing. -/
theorem disqualifies_eq {fl : CompatFlags} (h : fl.moreQuals = false) (first : Bool) (d s : Quals) :
    disqualifies fl first d s = false := by
  simp [disqualifies, h]

mutual

theorem typeCompatFrom_answers {fl : CompatFlags} (hm : fl.moreQuals = false) (first : Bool) :
    ∀ d s : CType, Answers (Compat fl.quals (fl.skip && first) d s) (update fl first d s)
      (typeCompatFrom fl first false d s)
  | .basic ts d, src => by
      rw [typeCompatFrom, update]
      rcases qualsCompat_eq fl first d src.quals with ⟨hq, heq⟩ | ⟨hq, heq⟩
      · rw [heq]
        cases src with
        | basic ts' s =>
          by_cases hts : ts = ts'
          · subst hts
            simp only [if_true, disqualifies_eq hm, Bool.or_self]
            exact Or.inl ⟨.basic hq, rfl⟩
          · simp only [if_neg hts]
            exact Or.inr ⟨fun h => by cases h; exact hts rfl, rfl⟩
        | _ => exact Or.inr ⟨nofun, rfl⟩
      · rw [heq]
        exact Or.inr ⟨fun h => by cases h; exact hq ‹_›, rfl⟩
  | .strun tag d, src => by
      rw [typeCompatFrom, update]
      rcases qualsCompat_eq fl first d src.quals with ⟨hq, heq⟩ | ⟨hq, heq⟩
      · rw [heq]
        cases src with
        | strun tag' s =>
          by_cases htag : tag = tag'
          · subst htag
            simp only [if_true, disqualifies_eq hm, Bool.or_self]
            exact Or.inl ⟨.strun hq, rfl⟩
          · simp only [if_neg htag]
            exact Or.inr ⟨fun h => by cases h; exact htag rfl, rfl⟩
        | _ => exact Or.inr ⟨nofun, rfl⟩
      · rw [heq]
        exact Or.inr ⟨fun h => by cases h; exact hq ‹_›, rfl⟩
  | .ptr d t, src => by
      rw [typeCompatFrom]
      rcases qualsCompat_eq fl first d src.quals with ⟨hq, heq⟩ | ⟨hq, heq⟩
      · rw [heq]
        cases src with
        | ptr s t' =>
          simp only [disqualifies_eq hm, Bool.or_self, update]
          rcases typeCompatFrom_answers hm false t t' with ⟨hc, hx⟩ | ⟨hc, hx⟩
          · rw [Bool.and_false] at hc
            rw [hx]
            exact Or.inl ⟨.ptr hq hc, rfl⟩
          · rw [Bool.and_false] at hc
            exact Or.inr ⟨fun h => by cases h; exact hc ‹_›, hx⟩
        | _ => exact Or.inr ⟨nofun, rfl⟩
      · rw [heq]
        exact Or.inr ⟨fun h => by cases h; exact hq ‹_›, rfl⟩
  | .array d n e, src => by
      rw [typeCompatFrom]
      rcases qualsCompat_eq fl first d src.quals with ⟨hq, heq⟩ | ⟨hq, heq⟩
      · rw [heq]
        cases src with
        | array s m e' =>
          simp only [disqualifies_eq hm, Bool.or_self, update]
          by_cases hnm : n ≠ 0 ∧ m ≠ 0 ∧ n ≠ m
          · rw [if_pos hnm]
            exact Or.inr ⟨fun h => by cases h; grind, rfl⟩
          · rw [if_neg hnm]
            rcases typeCompatFrom_answers hm false e e' with ⟨hc, hx⟩ | ⟨hc, hx⟩
            · rw [Bool.and_false] at hc
              rw [hx]
              exact Or.inl ⟨.array hq (by grind) hc, rfl⟩
            · rw [Bool.and_false] at hc
              exact Or.inr ⟨fun h => by cases h; exact hc ‹_›, hx⟩
        | _ => exact Or.inr ⟨nofun, rfl⟩
      · rw [heq]
        exact Or.inr ⟨fun h => by cases h; exact hq ‹_›, rfl⟩
  | .oldFunc d r, src => by
      rw [typeCompatFrom]
      rcases qualsCompat_eq fl first d src.quals with ⟨hq, heq⟩ | ⟨hq, heq⟩
      · rw [heq]
        cases src with
        | oldFunc s r' =>
          simp only [disqualifies_eq hm, Bool.or_self, update]
          rcases typeCompatFrom_answers hm false r r' with ⟨hc, hx⟩ | ⟨hc, hx⟩
          · rw [Bool.and_false] at hc
            rw [hx]
            exact Or.inl ⟨.oldOld hq hc, rfl⟩
          · rw [Bool.and_false] at hc
            exact Or.inr ⟨fun h => by cases h; exact hc ‹_›, hx⟩
        | func s v fs r' =>
          simp only [disqualifies_eq hm, Bool.or_self, update]
          rcases typeCompatFrom_answers hm false r r' with ⟨hc, hx⟩ | ⟨hc, hx⟩
          · rw [Bool.and_false] at hc
            rw [hx]
            exact Or.inl ⟨.oldNew hq hc, rfl⟩
          · rw [Bool.and_false] at hc
            exact Or.inr ⟨fun h => by cases h; exact hc ‹_›, hx⟩
        | _ => exact Or.inr ⟨nofun, rfl⟩
      · rw [heq]
        exact Or.inr ⟨fun h => by cases h <;> exact hq ‹_›, rfl⟩
  | .func d v fs r, src => by
      rw [typeCompatFrom]
      rcases qualsCompat_eq fl first d src.quals with ⟨hq, heq⟩ | ⟨hq, heq⟩
      · rw [heq]
        cases src with
        | oldFunc s r' =>
          simp only [disqualifies_eq hm, Bool.or_self, update]
          rcases typeCompatFrom_answers hm false r r' with ⟨hc, hx⟩ | ⟨hc, hx⟩
          · rw [Bool.and_false] at hc
            rw [hx]
            exact Or.inl ⟨.newOld hq hc, rfl⟩
          · rw [Bool.and_false] at hc
            exact Or.inr ⟨fun h => by cases h; exact hc ‹_›, hx⟩
        | func s v' fs' r' =>
          simp only [disqualifies_eq hm, Bool.or_self, update]
          by_cases hv : v = v'
          · subst hv
            rw [if_neg (not_not.mpr rfl)]
            rcases formalsCompat_answers fl.compose fs fs' with ⟨hf, hy⟩ | ⟨hf, hy⟩
            · rw [hy, if_pos rfl]
              rcases typeCompatFrom_answers hm false r r' with ⟨hc, hx⟩ | ⟨hc, hx⟩
              · rw [Bool.and_false] at hc
                rw [hx]
                exact Or.inl ⟨.newNew hq hf hc, rfl⟩
              · rw [Bool.and_false] at hc
                exact Or.inr ⟨fun h => by cases h; exact hc ‹_›, hx⟩
            · rw [if_neg (by rw [hy]; simp)]
              exact Or.inr ⟨fun h => by cases h; exact hf ‹_›, hy⟩
          · rw [if_pos hv]
            exact Or.inr ⟨fun h => by cases h; exact hv rfl, rfl⟩
        | _ => exact Or.inr ⟨nofun, rfl⟩
      · rw [heq]
        exact Or.inr ⟨fun h => by cases h <;> exact hq ‹_›, rfl⟩

theorem formalsCompat_answers (compose : Bool) : ∀ d s : Formals,
    Answers (FormalsCompat d s) (updateFormals compose d s) (formalsCompat compose d s)
  | .nil, .nil => Or.inl ⟨.nil, rfl⟩
  | .nil, .cons .. => Or.inr ⟨nofun, rfl⟩
  | .cons id reg t rest, .nil => Or.inr ⟨nofun, rfl⟩
  | .cons id reg t rest, .cons id' reg' t' rest' => by
      rw [formalsCompat, updateFormals]
      simp only []
      rcases @typeCompatFrom_answers { compose := compose, quals := true, skip := true } rfl true t t'
        with ⟨hc, hx⟩ | ⟨hc, hx⟩
      · rw [hx, if_pos rfl]
        rcases formalsCompat_answers compose rest rest' with ⟨hf, hy⟩ | ⟨hf, hy⟩
        · rw [hy]
          exact Or.inl ⟨.cons hc hf, rfl⟩
        · exact Or.inr ⟨fun h => by cases h; exact hf ‹_›, hy⟩
      · rw [if_neg (by rw [hx]; simp)]
        exact Or.inr ⟨fun h => by cases h; exact hc ‹_›, hx⟩

end

/-- What `type_compat` answers, unless it has to look for missing qualifiers. -/
theorem typeCompat_answers {fl : CompatFlags} (hm : fl.moreQuals = false) (d s : CType) :
    Answers (Compat fl.quals fl.skip d s) (update fl true d s) (typeCompat d s fl) := by
  have h := typeCompatFrom_answers hm true d s
  rwa [Bool.and_true] at h

theorem typeCompat_ok_iff {fl : CompatFlags} (hm : fl.moreQuals = false) {d s : CType} :
    (typeCompat d s fl).1 = .ok ↔ Compat fl.quals fl.skip d s := by
  rcases typeCompat_answers hm d s with ⟨hc, hx⟩ | ⟨hc, hx⟩
  · rw [hx]; exact iff_of_true rfl hc
  · rw [hx]; exact iff_of_false (by simp) hc

/-! ### Compatibility as a relation -/

theorem Qualified.refl (q k : Bool) (d : Quals) : Qualified q k d d := Or.inr (Or.inr rfl)

theorem Qualified.symm {q k : Bool} {d s : Quals} (h : Qualified q k d s) : Qualified q k s d :=
  h.imp_right (Or.imp_right Eq.symm)

mutual

/-- Every type is compatible with itself. -/
theorem Compat.refl (q k : Bool) : ∀ t : CType, Compat q k t t
  | .basic _ d => .basic (.refl q k d)
  | .strun _ d => .strun (.refl q k d)
  | .ptr d t => .ptr (.refl q k d) (.refl q false t)
  | .array d _ e => .array (.refl q k d) (Or.inr (Or.inr rfl)) (.refl q false e)
  | .oldFunc d r => .oldOld (.refl q k d) (.refl q false r)
  | .func d _ fs r => .newNew (.refl q k d) (.refl fs) (.refl q false r)

theorem FormalsCompat.refl : ∀ fs : Formals, FormalsCompat fs fs
  | .nil => .nil
  | .cons _ _ t rest => .cons (.refl true true t) (.refl rest)

end

mutual

theorem Compat.symm {q k : Bool} {d s : CType} : Compat q k d s → Compat q k s d
  | .basic h => .basic h.symm
  | .strun h => .strun h.symm
  | .ptr h ht => .ptr h.symm ht.symm
  | .array h hn ht => .array h.symm (by omega) ht.symm
  | .oldOld h ht => .oldOld h.symm ht.symm
  | .oldNew h ht => .newOld h.symm ht.symm
  | .newOld h ht => .oldNew h.symm ht.symm
  | .newNew h hf ht => .newNew h.symm hf.symm ht.symm

theorem FormalsCompat.symm {d s : Formals} : FormalsCompat d s → FormalsCompat s d
  | .nil => .nil
  | .cons h hr => .cons h.symm hr.symm

end

end Ncc
