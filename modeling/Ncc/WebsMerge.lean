import Ncc.Webs

/-! Merging webs and renaming (webs.c).

    A USE gets a name from the web of the labels that reach it, and `webs_merge` puts those labels in one
    web; so when all webs are known, the first label of its web is a name that a USE shares with every
    DEF that reaches it. Webs only grow, and what is said about an insn is about elements of one web,
    so it stays true while later insns are merged. -/

namespace Ncc.Webs

/-! ### Merging -/

/-- Webs: a partition whose classes have one base each. -/
structure WebsOk (W : List Regs) : Prop where
  part : IsPartition W
  base : ∀ w ∈ W, ∀ x ∈ w, ∀ y ∈ w, pseudoRegBase x = pseudoRegBase y

/-- No web mixes labels with the register that stands for an unseen definition. -/
def Pure (W : List Regs) : Prop :=
  ∀ w ∈ W, ∀ x ∈ w, ∀ y ∈ w, x = pseudoRegBase x → y = pseudoRegBase y

section
variable {W W' : List Regs} {w : Regs} {x r : PseudoReg}

theorem webFind_some (h : webFind W x = some w) : w ∈ W ∧ x ∈ w := by
  refine ⟨List.mem_of_find?_eq_some h, ?_⟩
  have hc := List.find?_some h
  rw [List.contains_iff_mem] at hc
  exact (List.takeWhile_sublist _).subset hc

theorem webFind_of_mem (h : WebsOk W) (hw : w ∈ W) (hx : x ∈ w) : webFind W x = some w := by
  have hall : w.takeWhile (fun y => sameBase y x) = w := by
    rw [List.takeWhile_eq_self_iff]
    exact fun y hy => sameBase_iff.mpr (h.base w hw y hy x hx)
  have hp : (webFind W x).isSome := by
    rw [webFind, List.find?_isSome]
    refine ⟨w, hw, ?_⟩
    rw [hall, List.contains_iff_mem]
    exact hx
  obtain ⟨w', hw'⟩ := Option.isSome_iff_exists.mp hp
  obtain ⟨hm, hx'⟩ := webFind_some hw'
  rw [hw', eq_of_mem_class h.part.disjoint hm hw hx' hx]

theorem webFirst_mem (h : WebsOk W) (hw : w ∈ W) : webFirst (some w) ∈ w := by
  cases w with
  | nil => exact absurd hw h.part.nonempty
  | cons y w => exact List.mem_cons_self

/-- What merging the synonyms `ps` makes of the webs `W`. -/
structure Merged (W : List Regs) (ps : List PseudoReg) (w : Regs) (W' : List Regs) : Prop where
  ok : WebsOk W'
  mem : w ∈ W'
  syn : ∀ r ∈ ps, r ∈ w
  source : ∀ x ∈ w, ∃ r ∈ ps, Same W x r
  grow : ∀ x y, Same W x y → Same W' x y
  rest : ∀ v ∈ W', v = w ∨ v ∈ W

theorem foldl_websMerge1 : ∀ {rs ps : List PseudoReg} {w : Regs} {W' : List Regs}, ps ≠ [] →
    Merged W ps w W' → (∀ r ∈ rs, Same W r r) →
    (∀ r ∈ ps ++ rs, ∀ r' ∈ ps ++ rs, pseudoRegBase r = pseudoRegBase r') →
    ∃ w₂ W₂, rs.foldl websMerge1 (some w, W') = (some w₂, W₂) ∧ Merged W (ps ++ rs) w₂ W₂
  | [], ps, w, W', _, h, _, _ => ⟨w, W', rfl, by rw [List.append_nil]; exact h⟩
  | r :: rs, ps, w, W', hne, h, hrs, hb => by
      have happ : ps ++ r :: rs = (ps ++ [r]) ++ rs := by simp
      rw [happ] at hb ⊢
      obtain ⟨w₂, hw₂, hr₂, -⟩ := h.grow r r (hrs r List.mem_cons_self)
      have hf := webFind_of_mem h.ok hw₂ hr₂
      have hrest : ∀ y ∈ rs, Same W y y := fun y hy => hrs y (List.mem_cons_of_mem _ hy)
      rw [List.foldl_cons]
      by_cases heq : w = w₂
      · have hstep : websMerge1 (some w, W') r = (some w, W') := by
          simp [websMerge1, hf, heq]
        rw [hstep]
        refine foldl_websMerge1 (by simp) ⟨h.ok, h.mem, fun y hy => ?_, fun y hy => ?_, h.grow,
          h.rest⟩ hrest hb
        · rcases List.mem_append.mp hy with hy | hy
          · exact h.syn y hy
          · rw [List.mem_singleton.mp hy, heq]; exact hr₂
        · obtain ⟨z, hz, hs⟩ := h.source y hy
          exact ⟨z, List.mem_append_left _ hz, hs⟩
      · have hstep : websMerge1 (some w, W') r =
            (some (regsUnion w w₂), join regsUnion W' w w₂) := by
          simp [websMerge1, hf, heq]
        have hu : ∀ a b x, x ∈ regsUnion a b ↔ x ∈ a ∨ x ∈ b := fun a b x => mem_regsUnion
        have hold : w₂ ∈ W := (h.rest w₂ hw₂).resolve_left fun he => heq he.symm
        obtain ⟨p, hp⟩ := List.exists_mem_of_ne_nil ps hne
        -- the elements of the two webs have the base of the synonyms
        have hbase : ∀ y ∈ regsUnion w w₂, pseudoRegBase y = pseudoRegBase p := by
          intro y hy
          rcases mem_regsUnion.mp hy with hy | hy
          · exact h.ok.base w h.mem y hy p (h.syn p hp)
          · rw [h.ok.base w₂ hw₂ y hy r hr₂]
            exact hb r (by simp) p (by simp [hp])
        rw [hstep]
        refine foldl_websMerge1 (by simp) ⟨⟨h.ok.part.join hu h.mem hw₂ heq, fun v hv y hy z hz => ?_⟩,
          (mem_join h.mem heq).mpr (Or.inl rfl), fun y hy => ?_, fun y hy => ?_,
          fun y z hs => (h.grow y z hs).join hu h.mem heq, fun v hv => ?_⟩ hrest hb
        · rcases (mem_join h.mem heq).mp hv with rfl | ⟨hv, _⟩
          · rw [hbase y hy, hbase z hz]
          · exact h.ok.base v hv y hy z hz
        · rcases List.mem_append.mp hy with hy | hy
          · exact mem_regsUnion.mpr (Or.inl (h.syn y hy))
          · rw [List.mem_singleton.mp hy]; exact mem_regsUnion.mpr (Or.inr hr₂)
        · rcases mem_regsUnion.mp hy with hy | hy
          · obtain ⟨z, hz, hs⟩ := h.source y hy
            exact ⟨z, List.mem_append_left _ hz, hs⟩
          · exact ⟨r, by simp, w₂, hold, hy, hr₂⟩
        · rcases (mem_join h.mem heq).mp hv with rfl | ⟨hv, hvw, _⟩
          · exact Or.inl rfl
          · exact Or.inr ((h.rest v hv).resolve_left hvw)

/-- `webs_merge` puts the synonyms in one web, and changes no other web. -/
theorem websMerge_spec (h : WebsOk W) {ps : Regs} (hne : ps ≠ []) (hps : ∀ r ∈ ps, Same W r r)
    (hb : ∀ r ∈ ps, ∀ r' ∈ ps, pseudoRegBase r = pseudoRegBase r') :
    ∃ w W', websMerge W ps = (some w, W') ∧ Merged W ps w W' := by
  cases ps with
  | nil => exact absurd rfl hne
  | cons r rs =>
    obtain ⟨w, hw, hr, -⟩ := hps r List.mem_cons_self
    have hstep : websMerge W (r :: rs) = rs.foldl websMerge1 (some w, W) := by
      rw [websMerge, List.foldl_cons, websMerge1, webFind_of_mem h hw hr]
    rw [hstep]
    refine @foldl_websMerge1 W rs [r] w W (List.cons_ne_nil r []) ⟨h, hw, fun y hy => ?_,
      fun y hy => ?_, fun _ _ hs => hs,
      fun v hv => Or.inr hv⟩ (fun y hy => hps y (List.mem_cons_of_mem _ hy)) hb
    · rw [List.mem_singleton.mp hy]; exact hr
    · exact ⟨r, List.mem_singleton_self r, w, hw, hy, hr⟩

theorem Merged.pure {ps : List PseudoReg} (h : Merged W ps w W') (hp : Pure W)
    (hps : (∀ r ∈ ps, r = pseudoRegBase r) ∨ ∀ r ∈ ps, r ≠ pseudoRegBase r) : Pure W' := by
  intro v hv x hx y hy he
  rcases h.rest v hv with rfl | hvW
  · obtain ⟨r, hr, v₁, hv₁, hx₁, hr₁⟩ := h.source x hx
    obtain ⟨r', hr', v₂, hv₂, hy₂, hr₂⟩ := h.source y hy
    have hrb := hp v₁ hv₁ x hx₁ r hr₁ he
    rcases hps with hps | hps
    · exact hp v₂ hv₂ r' hr₂ y hy₂ (hps r' hr')
    · exact absurd hrb (hps r hr)
  · exact hp v hvW x hx y hy he

/-- `web_uninit` adds a web at most. -/
theorem webUninit_spec (h : WebsOk W) (r : PseudoReg) : WebsOk (webUninit W r) ∧
    Same (webUninit W r) r r ∧ (∀ x y, Same W x y → Same (webUninit W r) x y) ∧
      (Pure W → Pure (webUninit W r)) := by
  rw [webUninit]
  split
  · rename_i hn
    have hno : ¬ Same W r r := by
      rintro ⟨w, hw, hr, -⟩
      rw [webFind_of_mem h hw hr] at hn
      exact absurd hn (by simp)
    refine ⟨⟨h.part.snoc hno, fun w hw x hx y hy => ?_⟩, ⟨[r], by simp, by simp, by simp⟩,
      fun x y hs => hs.append, fun hp w hw x hx y hy he => ?_⟩
    · rcases List.mem_append.mp hw with hw | hw
      · exact h.base w hw x hx y hy
      · obtain rfl := List.mem_singleton.mp hw
        rw [List.mem_singleton.mp hx, List.mem_singleton.mp hy]
    · rcases List.mem_append.mp hw with hw | hw
      · exact hp w hw x hx y hy he
      · obtain rfl := List.mem_singleton.mp hw
        rw [List.mem_singleton.mp hy, ← List.mem_singleton.mp hx]
        exact he
  · rename_i hn
    obtain ⟨w, hw⟩ := Option.ne_none_iff_exists'.mp hn
    obtain ⟨hm, hr⟩ := webFind_some hw
    exact ⟨h, ⟨w, hm, hr, hr⟩, fun _ _ hs => hs, fun hp => hp⟩

end

section
variable {α : Type*} {q : WebQueries α} (A : Appearances q)

/-- The labels that reach an insn are in webs, and none is physical. -/
def Current (W : List Regs) (current : Regs) : Prop :=
  ∀ t ∈ current, Same W t t ∧ regPhysical t = false

/-- An insn after labelling: its DEFs have labels, one for each register, its pure USEs have none. -/
structure Decorated (W : List Regs) (i : α) : Prop where
  formed : A.formed i
  label : ∀ o, A.occurs i o → o.defs = true → regPhysical o.reg = false →
    o.reg ≠ pseudoRegBase o.reg ∧ Same W o.reg o.reg
  plain : ∀ o, A.occurs i o → o.defs = false → o.reg = pseudoRegBase o.reg
  unique : ∀ o o', A.occurs i o → A.occurs i o' → o.defs = true → o'.defs = true →
    regPhysical o.reg = false → pseudoRegBase o.reg = pseudoRegBase o'.reg → o.reg = o'.reg

/-- What merging the webs of the first USEs `ps` of an insn makes of the insn and the webs. -/
structure MergedUses (current : Regs) (W : List Regs) (i i' : α) (ps : List PseudoReg)
    (ν : Occ → PseudoReg) (W' : List Regs) : Prop where
  ren : Renaming q i i' ν
  ok : WebsOk W'
  grow : ∀ x y, Same W x y → Same W' x y
  keep : ∀ o, A.occurs i o → ¬ (o.use = true ∧ o.reg ∈ ps ∧ regPhysical o.reg = false) → ν o = o.reg
  name : ∀ o, A.occurs i o → o.use = true → o.reg ∈ ps → regPhysical o.reg = false →
    pseudoRegBase (ν o) = pseudoRegBase o.reg ∧ Same W' (ν o) (ν o) ∧
      (o.reg ≠ pseudoRegBase o.reg → Same W' (ν o) o.reg) ∧
      (∀ t ∈ current, pseudoRegBase t = pseudoRegBase o.reg → Same W' (ν o) t) ∧
      ((∀ t ∈ current, pseudoRegBase t ≠ pseudoRegBase o.reg) →
        Same W' (ν o) (pseudoRegBase o.reg))
  pure : Pure W → (∀ o, A.occurs i o → o.use = true → o.reg = pseudoRegBase o.reg) →
    (∀ t ∈ current, t ≠ pseudoRegBase t) → Pure W'

/-- The synonyms that `merge0` merges for one USE. -/
def useSynonyms (current : Regs) (r : PseudoReg) : Regs :=
  let tmp := regsSelectBase [] current r
  let tmp := if tmp.isEmpty then regsAdd tmp (pseudoRegBase r) else tmp
  if r ≠ pseudoRegBase r then regsAdd tmp r else tmp

/-- The webs they are looked up in. -/
def useWebs (current : Regs) (W : List Regs) (r : PseudoReg) : List Regs :=
  if (regsSelectBase [] current r).isEmpty then webUninit W (pseudoRegBase r) else W

theorem merge0Use_eq {current : Regs} {i : α} {W : List Regs} {r : PseudoReg}
    (h : regPhysical r = false) : merge0Use q current (i, W) r =
      (q.substitute i r (webFirst (websMerge (useWebs current W r) (useSynonyms current r)).1)
        false true, (websMerge (useWebs current W r) (useSynonyms current r)).2) := by
  rw [merge0Use, if_neg (by simp [h])]
  rfl

theorem mem_useSynonyms {current : Regs} {r x : PseudoReg} : x ∈ useSynonyms current r ↔
    (x ∈ current ∧ pseudoRegBase x = pseudoRegBase r) ∨
      ((∀ t ∈ current, pseudoRegBase t ≠ pseudoRegBase r) ∧ x = pseudoRegBase r) ∨
      (x = r ∧ r ≠ pseudoRegBase r) := by
  have hsel : ∀ x, x ∈ regsSelectBase [] current r ↔
      x ∈ current ∧ pseudoRegBase x = pseudoRegBase r := by
    intro x
    rw [mem_regsSelectBase]
    simp
  have hempty : (regsSelectBase [] current r).isEmpty = true ↔
      ∀ t ∈ current, pseudoRegBase t ≠ pseudoRegBase r := by
    rw [List.isEmpty_iff, List.eq_nil_iff_forall_not_mem]
    simp only [hsel, not_and, ne_eq]
  have htmp : ∀ x, x ∈ (if (regsSelectBase [] current r).isEmpty
      then regsAdd (regsSelectBase [] current r) (pseudoRegBase r)
      else regsSelectBase [] current r) ↔ (x ∈ current ∧ pseudoRegBase x = pseudoRegBase r) ∨
      ((∀ t ∈ current, pseudoRegBase t ≠ pseudoRegBase r) ∧ x = pseudoRegBase r) := by
    intro x
    split
    · rename_i he
      rw [mem_regsAdd, hsel, or_comm, and_iff_right (hempty.mp he)]
    · rename_i he
      rw [hsel, iff_self_or]
      exact fun h => absurd (hempty.mpr h.1) he
  rw [useSynonyms]
  split
  · rename_i hr
    rw [mem_regsAdd, htmp, and_iff_left hr]
    tauto
  · rename_i hr
    rw [htmp]
    tauto

/-- The synonyms are in webs, have one base, and there is one. -/
theorem useSynonyms_ok {current : Regs} {W : List Regs} {r : PseudoReg} (hW : WebsOk W)
    (hc : Current W current) (hr : r ≠ pseudoRegBase r → Same W r r) :
    WebsOk (useWebs current W r) ∧ (∀ x y, Same W x y → Same (useWebs current W r) x y) ∧
      (Pure W → Pure (useWebs current W r)) ∧ useSynonyms current r ≠ [] ∧
      (∀ x ∈ useSynonyms current r, Same (useWebs current W r) x x) ∧
      ∀ x ∈ useSynonyms current r, pseudoRegBase x = pseudoRegBase r := by
  have hbase : ∀ x ∈ useSynonyms current r, pseudoRegBase x = pseudoRegBase r := by
    intro x hx
    rcases mem_useSynonyms.mp hx with ⟨_, hb⟩ | ⟨_, rfl⟩ | ⟨rfl, _⟩
    · exact hb
    · exact base_base r
    · rfl
  obtain ⟨hu₁, hu₂, hu₃, hu₄⟩ := webUninit_spec hW (pseudoRegBase r)
  have hgrow : ∀ x y, Same W x y → Same (useWebs current W r) x y := by
    intro x y hs
    rw [useWebs]
    split
    · exact hu₃ x y hs
    · exact hs
  refine ⟨?_, hgrow, fun hp => ?_, ?_, fun x hx => ?_, hbase⟩
  · rw [useWebs]
    split
    · exact hu₁
    · exact hW
  · rw [useWebs]
    split
    · exact hu₄ hp
    · exact hp
  · by_cases he : ∀ t ∈ current, pseudoRegBase t ≠ pseudoRegBase r
    · exact List.ne_nil_of_mem (mem_useSynonyms.mpr (Or.inr (Or.inl ⟨he, rfl⟩)))
    · push Not at he
      obtain ⟨t, ht, hb⟩ := he
      exact List.ne_nil_of_mem (mem_useSynonyms.mpr (Or.inl ⟨ht, hb⟩))
  · rcases mem_useSynonyms.mp hx with ⟨hxc, _⟩ | ⟨hno, rfl⟩ | ⟨rfl, hne⟩
    · exact hgrow x x (hc x hxc).1
    · rw [useWebs, if_pos]
      · exact hu₂
      · rw [List.isEmpty_iff, List.eq_nil_iff_forall_not_mem]
        intro t ht
        rw [mem_regsSelectBase] at ht
        rcases ht with ht | ⟨ht, hb⟩
        · exact List.not_mem_nil ht
        · exact hno t ht hb
    · exact hgrow x x (hr hne)

/-- One USE is merged. -/
theorem mergedUses_snoc {current : Regs} {W W' : List Regs} {i i' : α} {ps : List PseudoReg}
    {ν : Occ → PseudoReg} {r : PseudoReg} (hi : Decorated A W i) (hc : Current W current)
    (h : MergedUses A current W i i' ps ν W') (hr : r ∈ q.usesRegs i)
    (hphys : regPhysical r = false) :
    ∃ ν', MergedUses A current W i (merge0Use q current (i', W') r).1 (ps ++ [r]) ν'
      (merge0Use q current (i', W') r).2 := by
  -- the USE is a label only if the operand is DEFd at once
  obtain ⟨o₀, ho₀, hu₀, rfl⟩ := (A.mem_uses hi.formed).mp hr
  have hlab : o₀.reg ≠ pseudoRegBase o₀.reg → o₀.defs = true ∧ Same W o₀.reg o₀.reg := by
    intro hne
    cases hd : o₀.defs with
    | true => exact ⟨rfl, (hi.label o₀ ho₀ hd hphys).2⟩
    | false => exact absurd (hi.plain o₀ ho₀ hd) hne
  obtain ⟨hok, hgrow₁, hpure₁, hne, hsyn, hbase⟩ := @useSynonyms_ok current W' o₀.reg h.ok
    (fun t ht => ⟨h.grow t t (hc t ht).1, (hc t ht).2⟩)
    (fun hne => h.grow _ _ (hlab hne).2)
  obtain ⟨w, W'', hm, hM⟩ := websMerge_spec hok hne hsyn
    fun x hx y hy => (hbase x hx).trans (hbase y hy).symm
  rw [merge0Use_eq hphys, hm]
  have hfm : webFirst (some w) ∈ w := webFirst_mem hM.ok hM.mem
  generalize hf : webFirst (some w) = f at hfm ⊢
  have hgrow : ∀ x y, Same W' x y → Same W'' x y := fun x y hs => hM.grow x y (hgrow₁ x y hs)
  have hfs : ∀ x ∈ useSynonyms current o₀.reg, Same W'' f x :=
    fun x hx => ⟨w, hM.mem, hfm, hM.syn x hx⟩
  have hfb : pseudoRegBase f = pseudoRegBase o₀.reg := by
    obtain ⟨x, hx⟩ := List.exists_mem_of_ne_nil _ hne
    rw [hM.ok.base w hM.mem f hfm x (hM.syn x hx), hbase x hx]
  have hfp : regPhysical f = false := (physical_eq hfb).trans hphys
  have hself : Same W'' f f := ⟨w, hM.mem, hfm, hfm⟩
  have hcur : ∀ t ∈ current, pseudoRegBase t = pseudoRegBase o₀.reg → Same W'' f t :=
    fun t ht hb => hfs t (mem_useSynonyms.mpr (Or.inl ⟨ht, hb⟩))
  have hnone : (∀ t ∈ current, pseudoRegBase t ≠ pseudoRegBase o₀.reg) →
      Same W'' f (pseudoRegBase o₀.reg) :=
    fun hno => hfs _ (mem_useSynonyms.mpr (Or.inr (Or.inl ⟨hno, rfl⟩)))
  refine ⟨_, h.ren.step o₀.reg f false true hphys hfp, hM.ok,
    fun x y hs => hgrow x y (h.grow x y hs), fun o ho hno => ?_, fun o ho hu hps hp => ?_,
    fun hp hplain hcl => ?_⟩
  · -- not a USE that was merged
    have hk := h.keep o ho fun hc => hno ⟨hc.1, List.mem_append_left _ hc.2.1, hc.2.2⟩
    rw [substitute_reg, hk, if_neg]
    rintro ⟨he, hu⟩
    have hu : o.use = true := by simpa using hu
    exact hno ⟨hu, he ▸ List.mem_append_right _ (List.mem_singleton_self _), he ▸ hphys⟩
  · have hsub : ({ o with reg := ν o }.substitute o₀.reg f false true).reg =
        if ν o = o₀.reg then f else ν o := by
      rw [substitute_reg]
      simp only [Bool.false_and, Bool.true_and, Bool.false_or, hu, and_true]
    rw [hsub]
    by_cases hin : o.reg ∈ ps
    · obtain ⟨hb, hs, hl, hcu, hun⟩ := h.name o ho hu hin hp
      by_cases he : ν o = o₀.reg
      · -- its new name is the register at hand, and becomes a name of the same web
        rw [if_pos he]
        have hb₀ : pseudoRegBase o₀.reg = pseudoRegBase o.reg := by rw [← he, hb]
        have hlink : Same W'' f (ν o) := by
          by_cases hex : ∃ t ∈ current, pseudoRegBase t = pseudoRegBase o.reg
          · obtain ⟨t, ht, htb⟩ := hex
            exact Same.trans hM.ok.part (hcur t ht (htb.trans hb₀.symm))
              (hgrow _ _ (hcu t ht htb)).symm
          · push Not at hex
            have hno := hnone fun t ht => by rw [hb₀]; exact hex t ht
            rw [hb₀] at hno
            exact Same.trans hM.ok.part hno (hgrow _ _ (hun hex)).symm
        refine ⟨hfb.trans hb₀, hself, fun hne => ?_, fun t ht htb => hcur t ht (htb.trans hb₀.symm),
          fun hno => ?_⟩
        · exact Same.trans hM.ok.part hlink (hgrow _ _ (hl hne))
        · rw [← hb₀]; exact hnone fun t ht => by rw [hb₀]; exact hno t ht
      · rw [if_neg he]
        exact ⟨hb, hgrow _ _ hs, fun hne => hgrow _ _ (hl hne),
          fun t ht htb => hgrow _ _ (hcu t ht htb), fun hno => hgrow _ _ (hun hno)⟩
    · have he : o.reg = o₀.reg := by
        rcases List.mem_append.mp hps with hps | hps
        · exact absurd hps hin
        · exact List.mem_singleton.mp hps
      have hk := h.keep o ho fun hc => hin hc.2.1
      rw [hk, if_pos he, he]
      exact ⟨hfb, hself, fun hne => hfs _ (mem_useSynonyms.mpr (Or.inr (Or.inr ⟨rfl, hne⟩))), hcur,
        hnone⟩
  · -- a plain USE is merged with labels only, or with the unseen definition only
    have hp₀ := hplain o₀ ho₀ hu₀
    refine hM.pure (hpure₁ (h.pure hp hplain hcl)) ?_
    by_cases hex : ∃ t ∈ current, pseudoRegBase t = pseudoRegBase o₀.reg
    · refine Or.inr fun x hx => ?_
      obtain ⟨t, ht, htb⟩ := hex
      rcases mem_useSynonyms.mp hx with ⟨hxc, _⟩ | ⟨hno, _⟩ | ⟨_, hne⟩
      · exact hcl x hxc
      · exact absurd htb (hno t ht)
      · exact absurd hp₀ hne
    · push Not at hex
      refine Or.inl fun x hx => ?_
      rcases mem_useSynonyms.mp hx with ⟨hxc, hxb⟩ | ⟨_, rfl⟩ | ⟨_, hne⟩
      · exact absurd hxb (hex x hxc)
      · exact (base_base _).symm
      · exact absurd hp₀ hne

/-- The loop over the USEs of an insn; `ps` are those that are merged already. -/
theorem foldl_merge0Use {current : Regs} {W : List Regs} {i : α} (hi : Decorated A W i)
    (hc : Current W current) : ∀ {rs ps : Regs} {i' : α} {W' : List Regs} {ν : Occ → PseudoReg},
      ps ++ rs = q.usesRegs i → MergedUses A current W i i' ps ν W' →
      ∃ ν', MergedUses A current W i (rs.foldl (merge0Use q current) (i', W')).1 (q.usesRegs i) ν'
        (rs.foldl (merge0Use q current) (i', W')).2
  | [], ps, i', W', ν, hps, h => by
      rw [List.append_nil] at hps
      exact ⟨ν, hps ▸ h⟩
  | r :: rs, ps, i', W', ν, hps, h => by
      have hps' : (ps ++ [r]) ++ rs = q.usesRegs i := by rw [← hps]; simp
      have hmem : r ∈ q.usesRegs i := by rw [← hps]; simp
      rw [List.foldl_cons]
      cases hphys : regPhysical r with
      | false =>
        obtain ⟨ν', h'⟩ := mergedUses_snoc A hi hc h hmem hphys
        exact foldl_merge0Use hi hc hps' h'
      | true =>
        have hskip : merge0Use q current (i', W') r = (i', W') := if_pos hphys
        rw [hskip]
        have hin : ∀ {x}, x ∈ ps ++ [r] → regPhysical x = false → x ∈ ps := by
          intro x hx hp
          rcases List.mem_append.mp hx with hx | hx
          · exact hx
          · rw [List.mem_singleton.mp hx, hphys] at hp; exact absurd hp (by decide)
        exact foldl_merge0Use hi hc hps' ⟨h.ren, h.ok, h.grow,
          fun o ho hno => h.keep o ho fun hc => hno ⟨hc.1, List.mem_append_left _ hc.2.1, hc.2.2⟩,
          fun o ho hu hps hp => h.name o ho hu (hin hps hp) hp, h.pure⟩

theorem mergedUses_nil {current : Regs} {W : List Regs} {i : α} (hW : WebsOk W) :
    MergedUses A current W i i [] Occ.reg W :=
  ⟨.refl, hW, fun _ _ h => h, fun _ _ _ => rfl, fun _ _ _ h => absurd h List.not_mem_nil,
    fun h _ _ => h⟩

end

/-! ### The labels that reach an insn -/

theorem mem_merge0Defs {x : PseudoReg} : ∀ {defs current : Regs}, x ∈ merge0Defs current defs →
    x ∈ current ∨ (x ∈ defs ∧ regPhysical x = false)
  | [], _, h => Or.inl h
  | d :: defs, current, h => by
      rw [merge0Defs, List.foldl_cons] at h
      rcases mem_merge0Defs h with h | ⟨h, hp⟩
      · cases hd : regPhysical d with
        | true => rw [if_pos hd] at h; exact Or.inl h
        | false =>
          rw [if_neg (by simp [hd]), mem_regsReplaceBase] at h
          rcases h with rfl | ⟨h, _⟩
          · exact Or.inr ⟨List.mem_cons_self, hd⟩
          · exact Or.inl h
      · exact Or.inr ⟨List.mem_cons_of_mem _ h, hp⟩

/-- A label stays until its register is DEFd. -/
theorem merge0Defs_keep {x : PseudoReg} : ∀ {defs current : Regs}, x ∈ current →
    (∀ d ∈ defs, regPhysical d = false → pseudoRegBase x ≠ pseudoRegBase d) →
    x ∈ merge0Defs current defs
  | [], _, h, _ => h
  | d :: defs, current, h, hd => by
      rw [merge0Defs, List.foldl_cons]
      refine merge0Defs_keep ?_ fun y hy => hd y (List.mem_cons_of_mem _ hy)
      cases hp : regPhysical d with
      | true => rw [if_pos rfl]; exact h
      | false =>
        rw [if_neg (by simp), mem_regsReplaceBase]
        exact Or.inr ⟨h, hd d List.mem_cons_self hp⟩

/-- A register that is DEFd has one of its new labels. -/
theorem merge0Defs_new {d : PseudoReg} (hp : regPhysical d = false) :
    ∀ {defs current : Regs}, (d ∈ defs ∨ (∃ t ∈ current, pseudoRegBase t = pseudoRegBase d)) →
      ∃ t ∈ merge0Defs current defs, pseudoRegBase t = pseudoRegBase d
  | [], current, h => h.resolve_left List.not_mem_nil
  | e :: defs, current, h => by
      rw [merge0Defs, List.foldl_cons]
      refine merge0Defs_new hp ?_
      rcases h with h | ⟨t, ht, hb⟩
      · rcases List.mem_cons.mp h with rfl | h
        · refine Or.inr ⟨d, ?_, rfl⟩
          rw [if_neg (by simp [hp]), mem_regsReplaceBase]
          exact Or.inl rfl
        · exact Or.inl h
      · refine Or.inr ?_
        cases he : regPhysical e with
        | true => rw [if_pos rfl]; exact ⟨t, ht, hb⟩
        | false =>
          rw [if_neg (by simp)]
          by_cases hbe : pseudoRegBase t = pseudoRegBase e
          · exact ⟨e, mem_regsReplaceBase.mpr (Or.inl rfl), hbe.symm.trans hb⟩
          · exact ⟨t, mem_regsReplaceBase.mpr (Or.inr ⟨ht, hbe⟩), hb⟩

/-- No older label of a register that is DEFd is left. -/
theorem merge0Defs_old {x d : PseudoReg} (hp : regPhysical d = false) :
    ∀ {defs current : Regs}, d ∈ defs → x ∈ merge0Defs current defs →
      pseudoRegBase x = pseudoRegBase d → x ∈ defs
  | e :: defs, current, hd, hx, hb => by
      rcases List.mem_cons.mp hd with rfl | hd
      · rw [merge0Defs, List.foldl_cons] at hx
        rcases mem_merge0Defs hx with hx | ⟨hx, _⟩
        · rw [if_neg (by simp [hp]), mem_regsReplaceBase] at hx
          rcases hx with rfl | ⟨_, hne⟩
          · exact List.mem_cons_self
          · exact absurd hb hne
        · exact List.mem_cons_of_mem _ hx
      · rw [merge0Defs, List.foldl_cons] at hx
        exact List.mem_cons_of_mem _ (merge0Defs_old hp hd hx hb)

section
variable {α : Type*} {q : WebQueries α} (A : Appearances q)

/-- After an insn: the labels are in webs; one that is not redefined still reaches; and a label that
    the insn gave shares a web with one that reaches. -/
theorem current_step {current : Regs} {W W' : List Regs} {i i' : α} {ν : Occ → PseudoReg}
    (hi : Decorated A W i) (hc : Current W current)
    (h : MergedUses A current W i i' (q.usesRegs i) ν W') :
    Current W' (merge0Defs current (q.defsRegs i')) ∧
      (∀ t ∈ current, (∀ y ∈ q.defsRegs i, pseudoRegBase y ≠ pseudoRegBase t) →
        t ∈ merge0Defs current (q.defsRegs i')) ∧
      (∀ o, A.occurs i o → o.defs = true → regPhysical o.reg = false →
        ∃ t ∈ merge0Defs current (q.defsRegs i'), Same W' t o.reg) ∧
      ((∀ o, A.occurs i o → o.use = true → o.reg = pseudoRegBase o.reg) →
        (∀ t ∈ current, t ≠ pseudoRegBase t) →
        ∀ t ∈ merge0Defs current (q.defsRegs i'), t ≠ pseudoRegBase t) := by
  -- what a DEF is called now
  have hdef : ∀ o, A.occurs i o → o.defs = true → regPhysical o.reg = false →
      Same W' (ν o) o.reg ∧ pseudoRegBase (ν o) = pseudoRegBase o.reg := by
    intro o ho hd hp
    obtain ⟨hne, hs⟩ := hi.label o ho hd hp
    by_cases hu : o.use = true
    · obtain ⟨hb, -, hl, -⟩ := h.name o ho hu ((A.mem_uses hi.formed).mpr ⟨o, ho, hu, rfl⟩) hp
      exact ⟨hl hne, hb⟩
    · rw [h.keep o ho fun hc => hu hc.1]
      exact ⟨h.grow _ _ hs, rfl⟩
  have hphys : ∀ o, A.occurs i o → regPhysical (ν o) = regPhysical o.reg := by
    intro o ho
    by_cases hc : o.use = true ∧ o.reg ∈ q.usesRegs i ∧ regPhysical o.reg = false
    · exact physical_eq (h.name o ho hc.1 hc.2.1 hc.2.2).1
    · rw [h.keep o ho hc]
  have hmem : ∀ x, x ∈ q.defsRegs i' ↔ ∃ o, A.occurs i o ∧ o.defs = true ∧ ν o = x :=
    fun x => h.ren.mem_defs A hi.formed
  refine ⟨fun t ht => ?_, fun t ht hno => ?_, fun o ho hd hp => ?_, fun hplain hcl t ht => ?_⟩
  · rcases mem_merge0Defs ht with ht | ⟨ht, hp⟩
    · exact ⟨h.grow t t (hc t ht).1, (hc t ht).2⟩
    · obtain ⟨o, ho, hd, rfl⟩ := (hmem t).mp ht
      obtain ⟨hs, -⟩ := hdef o ho hd (hphys o ho ▸ hp)
      exact ⟨Same.trans h.ok.part hs hs.symm, hp⟩
  · refine merge0Defs_keep ht fun x hx hp he => ?_
    obtain ⟨o, ho, hd, rfl⟩ := (hmem x).mp hx
    have hpo : regPhysical o.reg = false := hphys o ho ▸ hp
    exact hno o.reg ((A.mem_defs hi.formed).mpr ⟨o, ho, hd, rfl⟩)
      ((hdef o ho hd hpo).2.symm.trans he.symm)
  · obtain ⟨hs, hb⟩ := hdef o ho hd hp
    have hin : ν o ∈ q.defsRegs i' := (hmem _).mpr ⟨o, ho, hd, rfl⟩
    have hpn : regPhysical (ν o) = false := (hphys o ho).trans hp
    obtain ⟨t, ht, htb⟩ := @merge0Defs_new (ν o) hpn (q.defsRegs i') current (Or.inl hin)
    refine ⟨t, ht, ?_⟩
    obtain ⟨o', ho', hd', rfl⟩ := (hmem t).mp (merge0Defs_old hpn hin ht htb)
    have hp' : regPhysical o'.reg = false := by
      rw [← hphys o' ho', physical_eq htb]; exact hpn
    obtain ⟨hs', hb'⟩ := hdef o' ho' hd' hp'
    rw [hi.unique o o' ho ho' hd hd' hp (by rw [← hb, ← hb', htb])]
    exact hs'
  · rcases mem_merge0Defs ht with ht | ⟨ht, hp⟩
    · exact hcl t ht
    · obtain ⟨o, ho, hd, rfl⟩ := (hmem t).mp ht
      have hpo : regPhysical o.reg = false := hphys o ho ▸ hp
      obtain ⟨hne, -⟩ := hi.label o ho hd hpo
      rw [h.keep o ho fun hc => hne (hplain o ho hc.1)]
      exact hne

/-- No insn between the positions DEFs a register with the base. -/
def NoLabel (q : WebQueries α) (l : List α) (base : PseudoReg) (m n : ℕ) : Prop :=
  ∀ k j, m ≤ k → k < n → l[k]? = some j → ∀ y ∈ q.defsRegs j, pseudoRegBase y ≠ base

/-- What merging does to a list of insns. -/
structure MergedInsns (inn : Regs) (W W' : List Regs) (l l' : List α) (ν : ℕ → Occ → PseudoReg) :
    Prop where
  ok : WebsOk W'
  grow : ∀ x y, Same W x y → Same W' x y
  length : l'.length = l.length
  insn : ∀ n i, l[n]? = some i → ∃ i', l'[n]? = some i' ∧ Renaming q i i' (ν n)
  keep : ∀ n i, l[n]? = some i → ∀ o, A.occurs i o → ¬ (o.use = true ∧ regPhysical o.reg = false) →
    ν n o = o.reg
  name : ∀ n i, l[n]? = some i → ∀ o, A.occurs i o → o.use = true → regPhysical o.reg = false →
    pseudoRegBase (ν n o) = pseudoRegBase o.reg ∧ Same W' (ν n o) (ν n o) ∧
      (o.reg ≠ pseudoRegBase o.reg → Same W' (ν n o) o.reg)
  before : ∀ n i, l[n]? = some i → ∀ o, A.occurs i o → o.use = true → regPhysical o.reg = false →
    ∀ t ∈ inn, ∀ x, Same W t x → pseudoRegBase x = pseudoRegBase o.reg →
      NoLabel q l (pseudoRegBase o.reg) 0 n → Same W' (ν n o) x
  inside : ∀ n i, l[n]? = some i → ∀ o, A.occurs i o → o.use = true → regPhysical o.reg = false →
    ∀ m j, m < n → l[m]? = some j → ∀ d, A.occurs j d → d.defs = true →
      pseudoRegBase d.reg = pseudoRegBase o.reg → NoLabel q l (pseudoRegBase o.reg) (m + 1) n →
      Same W' (ν n o) d.reg
  pure : Pure W → (∀ i ∈ l, ∀ o, A.occurs i o → o.use = true → o.reg = pseudoRegBase o.reg) →
    (∀ t ∈ inn, t ≠ pseudoRegBase t) → Pure W'

theorem Decorated.mono {W W' : List Regs} {i : α} (h : Decorated A W i)
    (hg : ∀ x y, Same W x y → Same W' x y) : Decorated A W' i :=
  ⟨h.formed, fun o ho hd hp => ⟨(h.label o ho hd hp).1, hg _ _ (h.label o ho hd hp).2⟩, h.plain,
    h.unique⟩

theorem merge0Insns_merged : ∀ {l : List α} {inn : Regs} {W : List Regs},
    (∀ i ∈ l, Decorated A W i) → WebsOk W → Current W inn →
    ∃ ν, MergedInsns A inn W (merge0Insns q l inn W).2 l (merge0Insns q l inn W).1 ν
  | [], inn, W, _, hW, _ => by
      refine ⟨fun _ => Occ.reg, hW, fun _ _ h => h, rfl, ?_, ?_, ?_, ?_, ?_, fun h _ _ => h⟩ <;>
        intro n i h <;> exact absurd h (by simp)
  | i :: l, inn, W, hl, hW, hc => by
      have hi := hl i List.mem_cons_self
      obtain ⟨ν₀, h₀⟩ := @foldl_merge0Use α q A inn W i hi hc (q.usesRegs i) [] i W Occ.reg rfl
        (mergedUses_nil A hW)
      obtain ⟨hc', hkeep, hnew, hpl⟩ := current_step A hi hc h₀
      obtain ⟨ν, h⟩ := @merge0Insns_merged l _ _
        (fun j hj => (hl j (List.mem_cons_of_mem _ hj)).mono A h₀.grow) h₀.ok hc'
      have huse : ∀ {o : Occ}, A.occurs i o → o.use = true → o.reg ∈ q.usesRegs i :=
        fun ho hu => (A.mem_uses hi.formed).mpr ⟨_, ho, hu, rfl⟩
      have hskip : ∀ {b : PseudoReg} {m n : ℕ}, NoLabel q (i :: l) b (m + 1) (n + 1) →
          NoLabel q l b m n :=
        fun hno k j hk hkn hj => hno (k + 1) j (by omega) (by omega) hj
      refine ⟨consPos ν₀ ν, h.ok, fun x y hs => h.grow x y (h₀.grow x y hs), ?_, fun n j hj => ?_,
        fun n j hj o ho hno => ?_, fun n j hj o ho hu hp => ?_,
        fun n j hj o ho hu hp t ht x hs hb hno => ?_,
        fun n j hj o ho hu hp m k hmn hk d hd hdd hb hno => ?_, fun hp hplain hcl => ?_⟩
      · simp [merge0Insns, h.length]
      · cases n with
        | zero =>
          obtain rfl := Option.some.inj hj
          exact ⟨_, rfl, h₀.ren⟩
        | succ n => exact h.insn n j hj
      · cases n with
        | zero =>
          obtain rfl := Option.some.inj hj
          exact h₀.keep o ho fun hc => hno ⟨hc.1, hc.2.2⟩
        | succ n => exact h.keep n j hj o ho hno
      · cases n with
        | zero =>
          obtain rfl := Option.some.inj hj
          obtain ⟨hb, hs, hl, -⟩ := h₀.name o ho hu (huse ho hu) hp
          exact ⟨hb, h.grow _ _ hs, fun hne => h.grow _ _ (hl hne)⟩
        | succ n => exact h.name n j hj o ho hu hp
      · cases n with
        | zero =>
          obtain rfl := Option.some.inj hj
          obtain ⟨-, -, -, hcu, -⟩ := h₀.name o ho hu (huse ho hu) hp
          have htb : pseudoRegBase t = pseudoRegBase o.reg := by
            obtain ⟨w, hw, htw, hxw⟩ := hs
            rw [hW.base w hw t htw x hxw, hb]
          exact h.grow _ _ (Same.trans h₀.ok.part (hcu t ht htb) (h₀.grow _ _ hs))
        | succ n =>
          have htb : pseudoRegBase t = pseudoRegBase o.reg := by
            obtain ⟨w, hw, htw, hxw⟩ := hs
            rw [hW.base w hw t htw x hxw, hb]
          refine h.before n j hj o ho hu hp t (hkeep t ht fun y hy => ?_) x (h₀.grow _ _ hs) hb
            (fun k j hk hkn hj => hno (k + 1) j (Nat.zero_le _) (by omega) hj)
          rw [htb]
          exact hno 0 i le_rfl (Nat.succ_pos n) rfl y hy
      · cases n with
        | zero => exact absurd hmn (Nat.not_lt_zero m)
        | succ n =>
          cases m with
          | zero =>
            obtain rfl := Option.some.inj hk
            have hdp : regPhysical d.reg = false := (physical_eq hb).trans hp
            obtain ⟨t, ht, hs⟩ := hnew d hd hdd hdp
            exact h.before n j hj o ho hu hp t ht d.reg hs hb (hskip hno)
          | succ m =>
            exact h.inside n j hj o ho hu hp m k (by omega) hk d hd hdd hb (hskip hno)
      · refine h.pure (h₀.pure hp (hplain i List.mem_cons_self) hcl)
          (fun j hj => hplain j (List.mem_cons_of_mem _ hj)) ?_
        exact hpl (hplain i List.mem_cons_self) hcl

end

section
variable {α : Type*} {q : WebQueries α} (A : Appearances q)

/-! ### All blocks -/

/-- What merging has done to a block, as far as the webs `W` tell. -/
structure MergedBlock (inn : Regs) (W : List Regs) (l l' : List α) (ν : ℕ → Occ → PseudoReg) :
    Prop where
  length : l'.length = l.length
  insn : ∀ n i, l[n]? = some i → ∃ i', l'[n]? = some i' ∧ Renaming q i i' (ν n)
  keep : ∀ n i, l[n]? = some i → ∀ o, A.occurs i o → ¬ (o.use = true ∧ regPhysical o.reg = false) →
    ν n o = o.reg
  name : ∀ n i, l[n]? = some i → ∀ o, A.occurs i o → o.use = true → regPhysical o.reg = false →
    pseudoRegBase (ν n o) = pseudoRegBase o.reg ∧ Same W (ν n o) (ν n o) ∧
      (o.reg ≠ pseudoRegBase o.reg → Same W (ν n o) o.reg)
  before : ∀ n i, l[n]? = some i → ∀ o, A.occurs i o → o.use = true → regPhysical o.reg = false →
    ∀ t ∈ inn, pseudoRegBase t = pseudoRegBase o.reg → NoLabel q l (pseudoRegBase o.reg) 0 n →
      Same W (ν n o) t
  inside : ∀ n i, l[n]? = some i → ∀ o, A.occurs i o → o.use = true → regPhysical o.reg = false →
    ∀ m j, m < n → l[m]? = some j → ∀ d, A.occurs j d → d.defs = true →
      pseudoRegBase d.reg = pseudoRegBase o.reg → NoLabel q l (pseudoRegBase o.reg) (m + 1) n →
      Same W (ν n o) d.reg

theorem MergedBlock.mono {inn : Regs} {W W' : List Regs} {l l' : List α} {ν : ℕ → Occ → PseudoReg}
    (h : MergedBlock A inn W l l' ν) (hg : ∀ x y, Same W x y → Same W' x y) :
    MergedBlock A inn W' l l' ν := by
  refine ⟨h.length, h.insn, h.keep, fun n i hi o ho hu hp => ?_,
    fun n i hi o ho hu hp t ht hb hno => hg _ _ (h.before n i hi o ho hu hp t ht hb hno),
    fun n i hi o ho hu hp m j hm hj d hd hdd hb hno =>
      hg _ _ (h.inside n i hi o ho hu hp m j hm hj d hd hdd hb hno)⟩
  obtain ⟨hb, hs, hl⟩ := h.name n i hi o ho hu hp
  exact ⟨hb, hg _ _ hs, fun hne => hg _ _ (hl hne)⟩

theorem MergedInsns.block {inn : Regs} {W W' : List Regs} {l l' : List α}
    {ν : ℕ → Occ → PseudoReg} (h : MergedInsns A (regsUnion [] inn) W W' l l' ν)
    (hc : Current W inn) : MergedBlock A inn W' l l' ν :=
  ⟨h.length, h.insn, h.keep, h.name, fun n i hi o ho hu hp t ht hb hno =>
    h.before n i hi o ho hu hp t (mem_regsUnion.mpr (Or.inr ht)) t (hc t ht).1 hb hno, h.inside⟩

/-- What merging has done when the blocks `bs` are merged. -/
structure MergedBlocks (inn : BlockId → Regs) (bs : List BlockId) (st st' : WebState α)
    (ν : BlockId → ℕ → Occ → PseudoReg) : Prop where
  ok : WebsOk st'.webs
  grow : ∀ x y, Same st.webs x y → Same st'.webs x y
  block : ∀ b ∈ bs, MergedBlock A (inn b) st'.webs (st.insns b) (st'.insns b) (ν b)
  rest : ∀ b, b ∉ bs → st'.insns b = st.insns b

theorem foldl_merge0 {inn : BlockId → Regs} {st : WebState α} : ∀ {bs ps : List BlockId}
    {st' : WebState α} {ν : BlockId → ℕ → Occ → PseudoReg}, (ps ++ bs).Nodup →
    (∀ b ∈ bs, (∀ i ∈ st.insns b, Decorated A st.webs i) ∧ Current st.webs (inn b)) →
    MergedBlocks A inn ps st st' ν →
    ∃ ν, MergedBlocks A inn (ps ++ bs) st (bs.foldl (merge0 q inn) st') ν ∧
      (Pure st'.webs →
        (∀ b ∈ bs, ∀ i ∈ st.insns b, ∀ o, A.occurs i o → o.use = true →
          o.reg = pseudoRegBase o.reg) →
        (∀ b ∈ bs, ∀ t ∈ inn b, t ≠ pseudoRegBase t) →
        Pure (bs.foldl (merge0 q inn) st').webs)
  | [], ps, st', ν, _, _, h => by
      rw [List.append_nil]
      exact ⟨ν, h, fun hp _ _ => hp⟩
  | b :: bs, ps, st', ν, hnd, hb, h => by
      have hbp : b ∉ ps := fun hc => (List.disjoint_of_nodup_append hnd) hc List.mem_cons_self
      obtain ⟨hdec, hcur⟩ := hb b List.mem_cons_self
      have hst : st'.insns b = st.insns b := h.rest b hbp
      have hcur' : Current st'.webs (inn b) := fun t ht => ⟨h.grow t t (hcur t ht).1, (hcur t ht).2⟩
      have hcur'' : Current st'.webs (regsUnion [] (inn b)) := fun t ht =>
        hcur' t ((mem_regsUnion.mp ht).resolve_left List.not_mem_nil)
      obtain ⟨ν₁, h₁⟩ := @merge0Insns_merged α q A (st.insns b) (regsUnion [] (inn b)) st'.webs
        (fun i hi => (hdec i hi).mono A h.grow) h.ok hcur''
      have hself : (merge0 q inn st' b).insns b =
          (merge0Insns q (st.insns b) (regsUnion [] (inn b)) st'.webs).1 := by
        simp [merge0, hst]
      have hwebs : (merge0 q inn st' b).webs =
          (merge0Insns q (st.insns b) (regsUnion [] (inn b)) st'.webs).2 := by
        simp [merge0, hst]
      have hother : ∀ c, c ≠ b → (merge0 q inn st' b).insns c = st'.insns c :=
        fun c hc => Function.update_of_ne hc ..
      have hne : ∀ c ∈ ps, c ≠ b := by rintro c hc rfl; exact hbp hc
      have hnext : MergedBlocks A inn (ps ++ [b]) st (merge0 q inn st' b)
          (Function.update ν b ν₁) := by
        refine ⟨hwebs ▸ h₁.ok, fun x y hs => hwebs ▸ h₁.grow x y (h.grow x y hs),
          fun c hc => ?_, fun c hc => ?_⟩
        · rcases List.mem_append.mp hc with hc | hc
          · rw [hother c (hne c hc), Function.update_of_ne (hne c hc), hwebs]
            exact (h.block c hc).mono A h₁.grow
          · obtain rfl := List.mem_singleton.mp hc
            rw [hself, hwebs, Function.update_self]
            exact h₁.block A hcur'
        · have hcb : c ≠ b := by rintro rfl; exact hc (by simp)
          rw [hother c hcb]
          exact h.rest c fun hin => hc (List.mem_append_left _ hin)
      have happ : ps ++ b :: bs = (ps ++ [b]) ++ bs := by simp
      rw [happ] at hnd ⊢
      obtain ⟨ν', h', hp'⟩ := foldl_merge0 hnd (fun c hc => hb c (List.mem_cons_of_mem _ hc)) hnext
      refine ⟨ν', h', fun hp hplain hcl => hp' ?_
        (fun c hc => hplain c (List.mem_cons_of_mem _ hc))
        (fun c hc => hcl c (List.mem_cons_of_mem _ hc))⟩
      rw [hwebs]
      refine h₁.pure hp (hplain b List.mem_cons_self) fun t ht => ?_
      exact hcl b List.mem_cons_self t ((mem_regsUnion.mp ht).resolve_left List.not_mem_nil)

/-! ### Rewriting -/

/-- The common name of a web. -/
def webName (W : List Regs) (r : PseudoReg) : PseudoReg := webFirst (webFind W r)

theorem webName_same {W : List Regs} {r : PseudoReg} (h : WebsOk W) (hr : Same W r r) :
    Same W (webName W r) r := by
  obtain ⟨w, hw, hx, -⟩ := hr
  rw [webName, webFind_of_mem h hw hx]
  exact ⟨w, hw, webFirst_mem h hw, hx⟩

theorem webName_eq {W : List Regs} {x y : PseudoReg} (h : WebsOk W) :
    Same W x y → webName W x = webName W y
  | ⟨_, hw, hx, hy⟩ => by rw [webName, webName, webFind_of_mem h hw hx, webFind_of_mem h hw hy]

theorem base_webName {W : List Regs} {r : PseudoReg} (h : WebsOk W) (hr : Same W r r) :
    pseudoRegBase (webName W r) = pseudoRegBase r := by
  obtain ⟨w, hw, hx, hy⟩ := webName_same h hr
  exact h.base w hw _ hx _ hy

/-- The loop over the registers of an insn; `ps` are those that have their name already. -/
theorem foldl_rewrite0Reg {W : List Regs} {i : α} (hf : A.formed i) (hW : WebsOk W)
    (hs : ∀ r, (r ∈ q.defsRegs i ∨ r ∈ q.usesRegs i) → regPhysical r = false → Same W r r) :
    ∀ {rs ps : Regs} {i' : α} {ν : Occ → PseudoReg},
      (∀ r ∈ rs, r ∈ q.defsRegs i ∨ r ∈ q.usesRegs i) →
      (∀ r ∈ ps, r ∈ q.defsRegs i ∨ r ∈ q.usesRegs i) → Renaming q i i' ν →
      (∀ o, A.occurs i o → ν o = if (o.defs = true ∨ o.use = true) ∧ o.reg ∈ ps ∧
        regPhysical o.reg = false then webName W o.reg else o.reg) →
      ∃ ν, Renaming q i (rs.foldl (rewrite0Reg q W) i') ν ∧
        ∀ o, A.occurs i o → ν o = if (o.defs = true ∨ o.use = true) ∧ o.reg ∈ ps ++ rs ∧
          regPhysical o.reg = false then webName W o.reg else o.reg
  | [], ps, i', ν, _, _, hr, ho => by
      rw [List.append_nil]
      exact ⟨ν, hr, ho⟩
  | r :: rs, ps, i', ν, hrs, hps, hr, ho => by
      have hrest : ∀ x ∈ rs, x ∈ q.defsRegs i ∨ x ∈ q.usesRegs i :=
        fun x hx => hrs x (List.mem_cons_of_mem _ hx)
      have hrr := hrs r List.mem_cons_self
      have hps' : ∀ x ∈ ps ++ [r], x ∈ q.defsRegs i ∨ x ∈ q.usesRegs i := by
        intro x hx
        rcases List.mem_append.mp hx with hx | hx
        · exact hps x hx
        · exact List.mem_singleton.mp hx ▸ hrr
      have happ : ps ++ r :: rs = (ps ++ [r]) ++ rs := by simp
      rw [happ, List.foldl_cons]
      cases hphys : regPhysical r with
      | true =>
        have hskip : rewrite0Reg q W i' r = i' := if_pos hphys
        rw [hskip]
        refine foldl_rewrite0Reg hf hW hs hrest hps' hr fun o hoc => ?_
        rw [ho o hoc]
        refine if_congr ⟨fun h => ⟨h.1, List.mem_append_left _ h.2.1, h.2.2⟩, fun h => ⟨h.1, ?_,
          h.2.2⟩⟩ rfl rfl
        rcases List.mem_append.mp h.2.1 with hin | hin
        · exact hin
        · rw [List.mem_singleton.mp hin, hphys] at h; exact absurd h.2.2 (by decide)
      | false =>
        have hstep : rewrite0Reg q W i' r = q.substitute i' r (webName W r) true true :=
          if_neg (by simp [hphys])
        have hsr := hs r hrr hphys
        have hp' : regPhysical (webName W r) = false :=
          (physical_eq (base_webName hW hsr)).trans hphys
        rw [hstep]
        refine foldl_rewrite0Reg hf hW hs hrest hps' (hr.step r _ true true hphys hp')
          fun o hoc => ?_
        rw [substitute_reg, ho o hoc]
        simp only [Bool.true_and, Bool.or_eq_true, List.mem_append, List.mem_singleton]
        by_cases hin : (o.defs = true ∨ o.use = true) ∧ o.reg ∈ ps ∧ regPhysical o.reg = false
        · rw [if_pos hin, if_pos (⟨hin.1, Or.inl hin.2.1, hin.2.2⟩ : _ ∧ _ ∧ _)]
          split
          · -- the name of its web is the register at hand, which gets the same name
            rename_i he
            rw [← he.1]
            exact webName_eq hW (webName_same hW (hs o.reg (hps o.reg hin.2.1) hin.2.2))
          · rfl
        · rw [if_neg hin]
          by_cases hor : o.reg = r ∧ (o.defs = true ∨ o.use = true)
          · rw [if_pos hor, if_pos ⟨hor.2, Or.inr hor.1, hor.1 ▸ hphys⟩, hor.1]
          · rw [if_neg hor, if_neg]
            rintro ⟨h₁, h₂ | h₂, h₃⟩
            · exact hin ⟨h₁, h₂, h₃⟩
            · exact hor ⟨h₂, h₁⟩

/-- Every register gets the name of its web. -/
theorem rewrite0Insn_spec {W : List Regs} {i : α} (hf : A.formed i) (hW : WebsOk W)
    (hs : ∀ o, A.occurs i o → (o.defs = true ∨ o.use = true) → regPhysical o.reg = false →
      Same W o.reg o.reg) :
    ∃ ν, Renaming q i (rewrite0Insn q W i) ν ∧ ∀ o, A.occurs i o → ν o =
      if (o.defs = true ∨ o.use = true) ∧ regPhysical o.reg = false then webName W o.reg
      else o.reg := by
  have hmem : ∀ r, r ∈ regsUnion (regsUnion [] (q.defsRegs i)) (q.usesRegs i) ↔
      r ∈ q.defsRegs i ∨ r ∈ q.usesRegs i := by
    intro r
    simp [mem_regsUnion]
  have hs' : ∀ r, (r ∈ q.defsRegs i ∨ r ∈ q.usesRegs i) → regPhysical r = false → Same W r r := by
    rintro r (hr | hr) hp
    · obtain ⟨o, ho, hd, rfl⟩ := (A.mem_defs hf).mp hr
      exact hs o ho (Or.inl hd) hp
    · obtain ⟨o, ho, hu, rfl⟩ := (A.mem_uses hf).mp hr
      exact hs o ho (Or.inr hu) hp
  obtain ⟨ν, hr, ho⟩ := @foldl_rewrite0Reg α q A W i hf hW hs'
    (regsUnion (regsUnion [] (q.defsRegs i)) (q.usesRegs i)) [] i Occ.reg
    (fun r hr => (hmem r).mp hr) (fun r hr => absurd hr List.not_mem_nil) .refl
    (fun o _ => by simp)
  refine ⟨ν, hr, fun o hoc => ?_⟩
  rw [ho o hoc]
  refine if_congr ⟨fun h => ⟨h.1, h.2.2⟩, fun h => ⟨h.1, ?_, h.2⟩⟩ rfl rfl
  rw [List.nil_append, hmem]
  exact h.1.imp (fun hd => (A.mem_defs hf).mpr ⟨o, hoc, hd, rfl⟩)
    fun hu => (A.mem_uses hf).mpr ⟨o, hoc, hu, rfl⟩

theorem foldl_rewrite0 : ∀ {bs : List BlockId} {st : WebState α}, bs.Nodup →
    (bs.foldl (rewrite0 q) st).webs = st.webs ∧
      ∀ b, (bs.foldl (rewrite0 q) st).insns b =
        if b ∈ bs then (st.insns b).map (rewrite0Insn q st.webs) else st.insns b
  | [], _, _ => ⟨rfl, fun _ => by simp⟩
  | c :: bs, st, hnd => by
      obtain ⟨hc, hbs⟩ := List.nodup_cons.mp hnd
      obtain ⟨hw, hi⟩ := @foldl_rewrite0 bs (rewrite0 q st c) hbs
      rw [List.foldl_cons]
      refine ⟨hw, fun b => ?_⟩
      rw [hi b]
      by_cases hbc : b = c
      · subst hbc
        rw [if_neg hc, if_pos List.mem_cons_self]
        exact Function.update_self ..
      · have hb : (rewrite0 q st c).insns b = st.insns b := Function.update_of_ne hbc ..
        simp only [hb, List.mem_cons, hbc, false_or]
        rfl

end
end Ncc.Webs
