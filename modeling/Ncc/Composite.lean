import Ncc.CType

/-! Composite types (type.c): what `type_compat` makes of a declaration when it composes it with
    another one.

    `compose_composite_iff` says that the composite is compatible with both, knows what either knows
    and stays as it is when it is composed again, unless an old-style function meets a variadic
    prototype: there the formals are copied and the variadic mark is not. -/

namespace Ncc

mutual

/-- Every array bound and every prototype of the second type is in the first one. -/
def Informs : CType → CType → Prop
  | .basic ts _, .basic ts' _ => ts = ts'
  | .strun tag _, .strun tag' _ => tag = tag'
  | .ptr _ t, .ptr _ t' => Informs t t'
  | .array _ n e, .array _ m e' => (m ≠ 0 → n = m) ∧ Informs e e'
  | .oldFunc _ r, .oldFunc _ r' => Informs r r'
  | .func _ _ _ r, .oldFunc _ r' => Informs r r'
  | .func _ v fs r, .func _ v' fs' r' => v = v' ∧ FormalsInform fs fs' ∧ Informs r r'
  | _, _ => False

/-- So it is for every formal of the second list. -/
def FormalsInform : Formals → Formals → Prop
  | .nil, .nil => True
  | .cons _ _ t rest, .cons _ _ t' rest' => Informs t t' ∧ FormalsInform rest rest'
  | _, _ => False

end

mutual

/-- Somewhere an old-style function of the first type meets a variadic prototype of the second. -/
def MeetsVariadic : CType → CType → Prop
  | .ptr _ t, .ptr _ t' => MeetsVariadic t t'
  | .array _ _ e, .array _ _ e' => MeetsVariadic e e'
  | .oldFunc _ r, .oldFunc _ r' => MeetsVariadic r r'
  | .oldFunc _ r, .func _ v _ r' => v = true ∨ MeetsVariadic r r'
  | .func _ _ _ r, .oldFunc _ r' => MeetsVariadic r r'
  | .func _ _ fs r, .func _ _ fs' r' => FormalsMeetVariadic fs fs' ∨ MeetsVariadic r r'
  | _, _ => False

/-- So it is for two corresponding formals. -/
def FormalsMeetVariadic : Formals → Formals → Prop
  | .cons _ _ t rest, .cons _ _ t' rest' => MeetsVariadic t t' ∨ FormalsMeetVariadic rest rest'
  | _, _ => False

end

/-- What is asked of the composite `dst'` of `dst` and `src`. -/
def Composite (dst src dst' : CType) : Prop :=
  (typeCompat dst' src {}).1 = .ok ∧ (typeCompat dst' dst {}).1 = .ok ∧
    Informs dst' dst ∧ Informs dst' src ∧
    typeCompat dst' src { compose := true } = (.ok, dst')

/-! ### Composing -/

theorem mergedQuals_eq {fl : CompatFlags} (hg : fl.mergeQuals = false) (first : Bool) (d s : Quals) :
    mergedQuals fl first d s = d := by
  simp [mergedQuals, hg]

mutual

/-- A type composed with itself stays as it is. -/
theorem update_self {fl : CompatFlags} (hg : fl.mergeQuals = false) (first : Bool) : ∀ t : CType,
    update fl first t t = t
  | .basic ts d => by rw [update, mergedQuals_eq hg]
  | .strun tag d => by rw [update, mergedQuals_eq hg]
  | .ptr d t => by rw [update, mergedQuals_eq hg, update_self hg false t]
  | .array d n e => by
      rw [update, mergedQuals_eq hg, update_self hg false e, composeElements, ite_self]
  | .oldFunc d r => by rw [update, mergedQuals_eq hg, update_self hg false r]
  | .func d v fs r => by
      rw [update, mergedQuals_eq hg, update_self hg false r, updateFormals_self fl.compose fs]

theorem updateFormals_self (c : Bool) : ∀ fs : Formals, updateFormals c fs fs = fs
  | .nil => by simp [updateFormals]
  | .cons id reg t rest => by
      rw [updateFormals, update_self rfl true t, updateFormals_self c rest]

end

mutual

/-- The composite is compatible with the type it was made from. -/
theorem compat_update_dst {fl : CompatFlags} (hg : fl.mergeQuals = false) {q k q' k' first : Bool} {d s : CType} :
    Compat q k d s → Compat q' k' (update fl first d s) d
  | .basic _ => by rw [update, mergedQuals_eq hg]; exact .refl q' k' _
  | .strun _ => by rw [update, mergedQuals_eq hg]; exact .refl q' k' _
  | .ptr _ h => by
      rw [update, mergedQuals_eq hg]
      exact .ptr (.refl q' k' _) (compat_update_dst hg h)
  | @Compat.array _ _ _ _ n m _ _ _ hn h => by
      rw [update, mergedQuals_eq hg]
      refine .array (.refl q' k' _) ?_ (compat_update_dst hg h)
      unfold composeElements
      split <;> grind
  | .oldOld _ h => by
      rw [update, mergedQuals_eq hg]
      exact .oldOld (.refl q' k' _) (compat_update_dst hg h)
  | .oldNew _ h => by
      rw [update, mergedQuals_eq hg]
      split
      · exact .newOld (.refl q' k' _) (compat_update_dst hg h)
      · exact .oldOld (.refl q' k' _) (compat_update_dst hg h)
  | .newOld _ h => by
      rw [update, mergedQuals_eq hg]
      exact .newNew (.refl q' k' _) (.refl _) (compat_update_dst hg h)
  | .newNew _ hf h => by
      rw [update, mergedQuals_eq hg]
      exact .newNew (.refl q' k' _) (compat_updateFormals_dst hf) (compat_update_dst hg h)

theorem compat_updateFormals_dst {c : Bool} {d s : Formals} :
    FormalsCompat d s → FormalsCompat (updateFormals c d s) d
  | .nil => by rw [updateFormals]; exact .nil; simp
  | .cons h hr => by
      rw [updateFormals]
      exact .cons (compat_update_dst rfl h) (compat_updateFormals_dst hr)

end

theorem composeElements_compose {fl : CompatFlags} (hc : fl.compose = true) (n m : Nat) :
    composeElements fl n m = if n = 0 then m else n := by
  simp [composeElements, hc]

mutual

/-- The composite is compatible with the type it was completed from, if the marks of all prototypes
    that were copied are right. -/
theorem compat_update_src {fl : CompatFlags} (hc : fl.compose = true) (hg : fl.mergeQuals = false)
    {q k first : Bool} {d s : CType} : Compat q k d s → ¬ MeetsVariadic d s →
      Compat q k (update fl first d s) s
  | .basic hq, _ => by rw [update, mergedQuals_eq hg]; exact .basic hq
  | .strun hq, _ => by rw [update, mergedQuals_eq hg]; exact .strun hq
  | .ptr hq h, hno => by
      rw [update, mergedQuals_eq hg]
      exact .ptr hq (compat_update_src hc hg h hno)
  | @Compat.array _ _ _ _ n m _ _ hq hn h, hno => by
      rw [update, mergedQuals_eq hg, composeElements_compose hc]
      exact .array hq (by split <;> grind) (compat_update_src hc hg h hno)
  | .oldOld hq h, hno => by
      rw [update, mergedQuals_eq hg]
      exact .oldOld hq (compat_update_src hc hg h hno)
  | @Compat.oldNew _ _ _ _ v _ _ _ hq h, hno => by
      obtain ⟨hv, hr⟩ := not_or.mp hno
      rw [Bool.eq_false_of_not_eq_true hv, update, mergedQuals_eq hg, if_pos hc]
      exact .newNew hq (.refl _) (compat_update_src hc hg h hr)
  | .newOld hq h, hno => by
      rw [update, mergedQuals_eq hg]
      exact .newOld hq (compat_update_src hc hg h hno)
  | .newNew hq hf h, hno => by
      obtain ⟨hnf, hr⟩ := not_or.mp hno
      rw [update, mergedQuals_eq hg, hc]
      exact .newNew hq (compat_updateFormals_src hf hnf) (compat_update_src hc hg h hr)

theorem compat_updateFormals_src {d s : Formals} : FormalsCompat d s →
    ¬ FormalsMeetVariadic d s → FormalsCompat (updateFormals true d s) s
  | .nil, _ => by rw [updateFormals]; exact .nil; simp
  | .cons h hr, hno => by
      obtain ⟨hnt, hnr⟩ := not_or.mp hno
      rw [updateFormals]
      exact .cons (compat_update_src rfl rfl h hnt) (compat_updateFormals_src hr hnr)

end

mutual

/-- Where the mark of a copied prototype is lost, the composite is not compatible with it. -/
theorem not_compat_update_src {fl : CompatFlags} (hc : fl.compose = true) {q k first q' k' : Bool}
    {d s : CType} : Compat q k d s → MeetsVariadic d s → ¬ Compat q' k' (update fl first d s) s
  | .basic _, hm => hm.elim
  | .strun _, hm => hm.elim
  | .ptr _ h, hm => by
      rw [update]
      rintro ⟨⟩
      exact not_compat_update_src hc h hm ‹_›
  | .array _ _ h, hm => by
      rw [update]
      rintro ⟨⟩
      exact not_compat_update_src hc h hm ‹_›
  | .oldOld _ h, hm => by
      rw [update]
      rintro ⟨⟩
      exact not_compat_update_src hc h hm ‹_›
  | .oldNew _ h, hm => by
      rw [update, if_pos hc]
      rintro ⟨⟩
      rcases hm with hv | hr
      · exact absurd hv (by simp)
      · exact not_compat_update_src hc h hr ‹_›
  | .newOld _ h, hm => by
      rw [update]
      rintro ⟨⟩
      exact not_compat_update_src hc h hm ‹_›
  | .newNew _ hf h, hm => by
      rw [update, hc]
      rintro ⟨⟩
      rcases hm with hm | hm
      · exact not_compat_updateFormals_src hf hm ‹_›
      · exact not_compat_update_src hc h hm ‹_›

theorem not_compat_updateFormals_src {d s : Formals} : FormalsCompat d s →
    FormalsMeetVariadic d s → ¬ FormalsCompat (updateFormals true d s) s
  | .nil, hm => hm.elim
  | .cons h hr, hm => by
      rw [updateFormals]
      rintro ⟨⟩
      rcases hm with hm | hm
      · exact not_compat_update_src rfl h hm ‹_›
      · exact not_compat_updateFormals_src hr hm ‹_›

end

mutual

/-- A type has its own bounds and prototypes. -/
theorem informs_refl : ∀ t : CType, Informs t t
  | .basic .. => rfl
  | .strun .. => rfl
  | .ptr _ t => informs_refl t
  | .array _ _ e => ⟨fun _ => rfl, informs_refl e⟩
  | .oldFunc _ r => informs_refl r
  | .func _ _ fs r => ⟨rfl, formalsInform_refl fs, informs_refl r⟩

theorem formalsInform_refl : ∀ fs : Formals, FormalsInform fs fs
  | .nil => trivial
  | .cons _ _ t rest => ⟨informs_refl t, formalsInform_refl rest⟩

end

mutual

/-- Composing loses no bound and no prototype. -/
theorem informs_update_dst {fl : CompatFlags} (hc : fl.compose = true) {q k first : Bool}
    {d s : CType} : Compat q k d s → Informs (update fl first d s) d
  | .basic _ => by rw [update]; exact rfl
  | .strun _ => by rw [update]; exact rfl
  | .ptr _ h => by rw [update]; exact informs_update_dst hc h
  | @Compat.array _ _ _ _ n m _ _ _ hn h => by
      rw [update, composeElements_compose hc]
      exact ⟨fun hn' => by rw [if_neg hn'], informs_update_dst hc h⟩
  | .oldOld _ h => by rw [update]; exact informs_update_dst hc h
  | .oldNew _ h => by rw [update, if_pos hc]; exact informs_update_dst hc h
  | .newOld _ h => by
      rw [update]
      exact ⟨rfl, formalsInform_refl _, informs_update_dst hc h⟩
  | .newNew _ hf h => by
      rw [update, hc]
      exact ⟨rfl, formalsInform_updateFormals_dst hf, informs_update_dst hc h⟩

theorem formalsInform_updateFormals_dst {d s : Formals} : FormalsCompat d s →
    FormalsInform (updateFormals true d s) d
  | .nil => by rw [updateFormals]; exact trivial; simp
  | .cons h hr => by
      rw [updateFormals]
      exact ⟨informs_update_dst rfl h, formalsInform_updateFormals_dst hr⟩

end

mutual

/-- Composing adds every bound and every prototype, if no mark is lost. -/
theorem informs_update_src {fl : CompatFlags} (hc : fl.compose = true) {q k first : Bool}
    {d s : CType} : Compat q k d s → ¬ MeetsVariadic d s → Informs (update fl first d s) s
  | .basic _, _ => by rw [update]; exact rfl
  | .strun _, _ => by rw [update]; exact rfl
  | .ptr _ h, hno => by rw [update]; exact informs_update_src hc h hno
  | @Compat.array _ _ _ _ n m _ _ _ hn h, hno => by
      rw [update, composeElements_compose hc]
      exact ⟨fun hm => by split <;> grind, informs_update_src hc h hno⟩
  | .oldOld _ h, hno => by rw [update]; exact informs_update_src hc h hno
  | @Compat.oldNew _ _ _ _ v _ _ _ _ h, hno => by
      obtain ⟨hv, hr⟩ := not_or.mp hno
      rw [update, if_pos hc]
      exact ⟨(Bool.eq_false_of_not_eq_true hv).symm, formalsInform_refl _,
        informs_update_src hc h hr⟩
  | .newOld _ h, hno => by rw [update]; exact informs_update_src hc h hno
  | .newNew _ hf h, hno => by
      obtain ⟨hnf, hr⟩ := not_or.mp hno
      rw [update, hc]
      exact ⟨rfl, formalsInform_updateFormals_src hf hnf, informs_update_src hc h hr⟩

theorem formalsInform_updateFormals_src {d s : Formals} : FormalsCompat d s →
    ¬ FormalsMeetVariadic d s → FormalsInform (updateFormals true d s) s
  | .nil, _ => by rw [updateFormals]; exact trivial; simp
  | .cons h hr, hno => by
      obtain ⟨hnt, hnr⟩ := not_or.mp hno
      rw [updateFormals]
      exact ⟨informs_update_src rfl h hnt, formalsInform_updateFormals_src hr hnr⟩

end

mutual

/-- Composing again changes nothing. -/
theorem update_update {fl : CompatFlags} (hc : fl.compose = true) (hg : fl.mergeQuals = false)
    {q k first : Bool} {d s : CType} : Compat q k d s →
      update fl first (update fl first d s) s = update fl first d s
  | .basic _ => by simp only [update, mergedQuals_eq hg]
  | .strun _ => by simp only [update, mergedQuals_eq hg]
  | .ptr _ h => by simp only [update, mergedQuals_eq hg, update_update hc hg h]
  | @Compat.array _ _ _ _ n m _ _ _ hn h => by
      simp only [update, mergedQuals_eq hg, update_update hc hg h, composeElements_compose hc]
      split <;> simp
  | .oldOld _ h => by simp only [update, mergedQuals_eq hg, update_update hc hg h]
  | .oldNew _ h => by
      rw [update, if_pos hc, mergedQuals_eq hg, update, mergedQuals_eq hg, update_update hc hg h,
        hc, updateFormals_self]
  | .newOld _ h => by simp only [update, mergedQuals_eq hg, update_update hc hg h]
  | .newNew _ hf h => by
      simp only [update, mergedQuals_eq hg, update_update hc hg h, hc, updateFormals_updateFormals hf]

theorem updateFormals_updateFormals {d s : Formals} : FormalsCompat d s →
    updateFormals true (updateFormals true d s) s = updateFormals true d s
  | .nil => by simp [updateFormals]
  | .cons h hr => by
      rw [updateFormals, updateFormals, updateFormals_updateFormals hr,
        @update_update { compose := true, quals := true, skip := true } rfl rfl _ _ _ _ _ h]

end

/-- If `type_compat` composes two types, the result is their composite type exactly if no old-style
    function of the first one meets a variadic prototype of the second. -/
theorem compose_composite_iff (dst src dst' : CType)
    (h : typeCompat dst src { compose := true } = (.ok, dst')) :
    Composite dst src dst' ↔ ¬ MeetsVariadic dst src := by
  have hok : (typeCompat dst src { compose := true }).1 = .ok := by rw [h]
  have hcompat : Compat false false dst src := (typeCompat_ok_iff rfl).mp hok
  have hdst' : dst' = update { compose := true } true dst src := by
    rcases @typeCompat_answers { compose := true } rfl dst src with ⟨_, hx⟩ | ⟨hno, _⟩
    · exact (Prod.mk.inj (h.symm.trans hx)).2
    · exact absurd hcompat hno
  subst hdst'
  constructor
  · rintro ⟨hsrc, _⟩ hm
    exact not_compat_update_src rfl hcompat hm ((typeCompat_ok_iff rfl).mp hsrc)
  · intro hno
    have hsrc : Compat false false (update { compose := true } true dst src) src :=
      compat_update_src rfl rfl hcompat hno
    refine ⟨(typeCompat_ok_iff rfl).mpr hsrc,
      (typeCompat_ok_iff rfl).mpr (compat_update_dst rfl hcompat), informs_update_dst rfl hcompat,
      informs_update_src rfl hcompat hno, ?_⟩
    rcases @typeCompat_answers { compose := true } rfl
      (update { compose := true } true dst src) src with ⟨_, hx⟩ | ⟨hno', _⟩
    · rw [hx, update_update rfl rfl hcompat]
    · exact absurd hsrc hno'

/-- `int f(); int f(int);` -/
theorem compose_composite_int :
    Composite (.oldFunc 0 (.basic .int 0))
        (.func 0 false (.cons none false (.basic .int 0) .nil) (.basic .int 0))
        (.func 0 false (.cons none false (.basic .int 0) .nil) (.basic .int 0)) ↔
      ¬ MeetsVariadic (.oldFunc 0 (.basic .int 0))
        (.func 0 false (.cons none false (.basic .int 0) .nil) (.basic .int 0)) :=
  compose_composite_iff _ _ _ rfl

/-- `int f(); int f(int, ...);` is composed to `int f(int)`. -/
theorem not_compose_composite : ¬ ∀ dst src dst' : CType,
    typeCompat dst src { compose := true } = (.ok, dst') → Composite dst src dst' := by
  intro hall
  have h := hall (.oldFunc 0 (.basic .int 0))
    (.func 0 true (.cons none false (.basic .int 0) .nil) (.basic .int 0))
    (.func 0 false (.cons none false (.basic .int 0) .nil) (.basic .int 0)) rfl
  exact absurd h.1 nofun

end Ncc
