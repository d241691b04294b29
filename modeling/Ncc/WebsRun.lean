import Ncc.WebsInsn
import Ncc.WebsMerge

/-! Running the renamed function (webs.c).

    After `webs_analyze` a USE has the name of every DEF that reaches it, whatever path control takes,
    so the two functions run in lockstep: the register that a USE is renamed to holds the word that
    the original register holds. The control operand of a switch is not renamed; so all of this goes
    wrong exactly when a DEF reaches a control operand. -/

namespace Ncc.Webs

section
variable {α : Type*} {q : WebQueries α} (A : Appearances q)

/-! ### The renamed function -/

/-- What the callers of `webs_analyze` see to: the registers are undecorated, and as long as there
    are switch blocks, the insns are target-independent, so that no operand is USEd and DEFd at
    once. -/
structure Ready (g : BlockGraph α) : Prop where
  nodup : g.blocks.Nodup
  formed : ∀ b ∈ g.blocks, ∀ i ∈ g.insns b, A.formed i
  plain : ∀ b ∈ g.blocks, ∀ i ∈ g.insns b, ∀ o, A.occurs i o → pseudoRegBase o.reg = o.reg
  control : ∀ b ∈ g.blocks, ∀ r ∈ operandRegs (g.control b), pseudoRegBase r = r
  untied : ∀ c ∈ g.blocks, g.control c ≠ none → ∀ b ∈ g.blocks, ∀ i ∈ g.insns b, ∀ o,
    A.occurs i o → o.use = true → o.defs = false

/-- No register is DEFd by more insns than there are indices. -/
def FewDefs (q : WebQueries α) (g : BlockGraph α) : Prop := ∀ r, defCount q g r g.blocks < 1024

/-- `g'` is `g` with the appearances of registers renamed; `N` is what they are called. A USE has the
    name of every DEF that reaches it. -/
structure Renamed (g g' : BlockGraph α) (N : BlockId → ℕ → Occ → PseudoReg) : Prop where
  graph : g' = { g with insns := g'.insns }
  length : ∀ b ∈ g.blocks, (g'.insns b).length = (g.insns b).length
  rest : ∀ b, b ∉ g.blocks → g'.insns b = g.insns b
  insn : ∀ b ∈ g.blocks, ∀ n i, (g.insns b)[n]? = some i →
    ∃ i', (g'.insns b)[n]? = some i' ∧ Renaming q i i' (N b n)
  base : ∀ b ∈ g.blocks, ∀ n i, (g.insns b)[n]? = some i → ∀ o, A.occurs i o →
    pseudoRegBase (N b n o) = o.reg ∧ (regPhysical o.reg = true → N b n o = o.reg)
  reach : ∀ r d b n, regPhysical r = false → DefReaches q g r d b n →
    ∀ i, (g.insns b)[n]? = some i → ∀ o, A.occurs i o → o.use = true → o.reg = r →
    ∀ i₀, (g.insns d.1)[d.2]? = some i₀ → ∀ o₀, A.occurs i₀ o₀ → o₀.defs = true → o₀.reg = r →
      N b n o = N d.1 d.2 o₀
  label : (∀ b ∈ g.blocks, ∀ i ∈ g.insns b, ∀ o, A.occurs i o → o.use = true → o.defs = false) →
    ∀ b ∈ g.blocks, ∀ n i, (g.insns b)[n]? = some i → ∀ o, A.occurs i o → o.defs = true →
      regPhysical o.reg = false → N b n o ≠ o.reg

variable {A} {g : BlockGraph α} {live : BlockId → LiveData} {outs : BlockId → Regs}
  {st st' : WebState α} {ν ν' : BlockId → ℕ → Occ → PseudoReg}
  {ℓ : BlockId → ℕ → PseudoReg → PseudoReg}

theorem webs_pure_of_labels (h : LabelInv ⟨st.idx, st.webs, []⟩) (hfew : ∀ r, st.idx r < 1024) :
    Pure st.webs := by
  intro w hw x hx y hy he
  obtain ⟨k, hk, hle, hxk⟩ := h.label w hw x hx
  have hlt := hfew (pseudoRegBase x)
  have h0 : pseudoRegSetIdx x k = pseudoRegSetIdx x 0 := by rw [← hxk, setIdx_zero, ← he]
  have hle : k ≤ st.idx (pseudoRegBase x) := hle
  have := setIdx_inj (by omega) (by omega) h0
  omega

theorem idx_foldl_def0 (A : Appearances q) (y : PseudoReg) : ∀ {bs : List BlockId}
    {st : WebState α}, bs.Nodup → (∀ b ∈ bs, st.insns b = g.insns b) →
    (∀ b ∈ bs, ∀ i ∈ g.insns b, A.formed i) →
    (∀ b ∈ bs, ∀ i ∈ g.insns b, ∀ o, A.occurs i o → pseudoRegBase o.reg = o.reg) →
    (bs.foldl (def0 q live) st).idx y ≤ st.idx y + defCount q g y bs
  | [], _, _, _, _, _ => Nat.le_add_right _ _
  | b :: bs, st, hnd, hst, hf, hb => by
      obtain ⟨hbn, hnd⟩ := List.nodup_cons.mp hnd
      have hi := (@idx_def0Insns α q A y (g.insns b) ⟨st.idx, st.webs, []⟩
        (hf b List.mem_cons_self) (hb b List.mem_cons_self)).2
      have hone : (def0 q live st b).idx y ≤ st.idx y + (g.insns b).countP fun i =>
          decide (y ∈ q.defsRegs i ∧ regPhysical y = false) := by
        simpa only [def0, hst b List.mem_cons_self] using hi
      have hrest := @idx_foldl_def0 A y bs (def0 q live st b) hnd (fun c hc => by
          have hcb : c ≠ b := by rintro rfl; exact hbn hc
          exact (Function.update_of_ne hcb ..).trans (hst c (List.mem_cons_of_mem _ hc)))
        (fun c hc => hf c (List.mem_cons_of_mem _ hc)) fun c hc => hb c (List.mem_cons_of_mem _ hc)
      rw [List.foldl_cons, defCount, List.map_cons, List.sum_cons]
      rw [defCount] at hrest
      omega

/-- After labelling, insns are decorated. -/
theorem LabelledBlocks.decorated (h : LabelledBlocks A g live g.blocks st ν ℓ) (hg : Ready A g)
    {b : BlockId} (hb : b ∈ g.blocks) : ∀ i ∈ st.insns b, Decorated A st.webs i := by
  intro i₁ hi₁
  obtain ⟨n, hn⟩ := List.mem_iff_getElem?.mp hi₁
  have hlt : n < (g.insns b).length := by
    rw [← h.length b hb]
    exact (List.getElem?_eq_some_iff.mp hn).1
  obtain ⟨i, hi⟩ : ∃ i, (g.insns b)[n]? = some i := ⟨_, List.getElem?_eq_getElem hlt⟩
  obtain ⟨i', hi', hr⟩ := h.insn b hb n i hi
  obtain rfl := Option.some.inj (hn.symm.trans hi')
  have hmem : i ∈ g.insns b := List.mem_of_getElem? hi
  have hf := hg.formed b hb i hmem
  have hlab : ∀ o, A.occurs i o → o.defs = true → regPhysical (ν b n o) = false →
      ν b n o = ℓ b n o.reg ∧ pseudoRegBase (ν b n o) = o.reg ∧ ν b n o ≠ o.reg ∧
        Same st.webs (ν b n o) (ν b n o) := by
    intro o ho hd hp
    have hn := h.name b hb n i hi o ho
    have hpo : regPhysical o.reg = false := by
      rw [← Bool.not_eq_true]
      intro hpt
      rw [if_neg (by simp [hpt])] at hn
      rw [hn, hpt] at hp
      exact absurd hp (by decide)
    rw [if_pos ⟨hd, hpo⟩] at hn
    obtain ⟨hbase, hne, hs⟩ := h.label b hb n i hi o.reg ((A.mem_defs hf).mpr ⟨o, ho, hd, rfl⟩) hpo
    rw [hn]
    exact ⟨rfl, hbase, hne, hs⟩
  refine ⟨hr.formed A hf, fun o' ho' hd hp => ?_, fun o' ho' hd => ?_,
    fun o' o'' ho' ho'' hd' hd'' hp hbase => ?_⟩
  · obtain ⟨o, ho, rfl⟩ := (hr.occurs A hf).mp ho'
    obtain ⟨-, hbo, hne, hs⟩ := hlab o ho hd hp
    exact ⟨fun he => hne (he.trans hbo), hs⟩
  · obtain ⟨o, ho, rfl⟩ := (hr.occurs A hf).mp ho'
    have hd : o.defs = false := hd
    show ν b n o = pseudoRegBase (ν b n o)
    rw [h.name b hb n i hi o ho, if_neg (by simp [hd])]
    exact (hg.plain b hb i hmem o ho).symm
  · obtain ⟨o, ho, rfl⟩ := (hr.occurs A hf).mp ho'
    obtain ⟨p, hpo, rfl⟩ := (hr.occurs A hf).mp ho''
    obtain ⟨h₁, h₂, -, -⟩ := hlab o ho hd' hp
    obtain ⟨h₃, h₄, -, -⟩ := hlab p hpo hd'' ((physical_eq hbase).symm.trans hp)
    have heq : o.reg = p.reg := h₂.symm.trans (hbase.trans h₄)
    show ν b n o = ν b n p
    rw [h₁, h₃, heq]

/-- A register of the labelled insn at a position, from the original one. -/
theorem LabelledBlocks.noLabel (h : LabelledBlocks A g live g.blocks st ν ℓ) (hg : Ready A g)
    {b : BlockId} (hb : b ∈ g.blocks) {r : PseudoReg} {m n : ℕ}
    (hno : NoDef q r (g.insns b) m n) : NoLabel q (st.insns b) r m n := by
  intro k j hk hkn hj y hy he
  have hlt : k < (g.insns b).length := by
    rw [← h.length b hb]
    exact (List.getElem?_eq_some_iff.mp hj).1
  obtain ⟨i, hi⟩ : ∃ i, (g.insns b)[k]? = some i := ⟨_, List.getElem?_eq_getElem hlt⟩
  obtain ⟨i', hi', hr⟩ := h.insn b hb k i hi
  obtain rfl := Option.some.inj (hj.symm.trans hi')
  have hmem : i ∈ g.insns b := List.mem_of_getElem? hi
  have hf := hg.formed b hb i hmem
  obtain ⟨o, ho, hd, rfl⟩ := (hr.mem_defs A hf).mp hy
  refine hno k i hk hkn hi ((A.mem_defs hf).mpr ⟨o, ho, hd, ?_⟩)
  have hn := h.name b hb k i hi o ho
  by_cases hp : regPhysical o.reg = false
  · rw [if_pos ⟨hd, hp⟩] at hn
    obtain ⟨hbase, -, -⟩ := h.label b hb k i hi o.reg ((A.mem_defs hf).mpr ⟨o, ho, hd, rfl⟩) hp
    rw [← he, hn, hbase]
  · rw [if_neg fun hc => hp hc.2] at hn
    rw [← he, hn, hg.plain b hb i hmem o ho]

/-- Labelling keeps the bases. -/
theorem LabelledBlocks.base (h : LabelledBlocks A g live g.blocks st ν ℓ) (hg : Ready A g)
    {b : BlockId} (hb : b ∈ g.blocks) {n : ℕ} {i : α} (hi : (g.insns b)[n]? = some i) {o : Occ}
    (ho : A.occurs i o) : pseudoRegBase (ν b n o) = o.reg := by
  have hmem : i ∈ g.insns b := List.mem_of_getElem? hi
  rw [h.name b hb n i hi o ho]
  split
  · rename_i hc
    exact (h.label b hb n i hi o.reg
      ((A.mem_defs (hg.formed b hb i hmem)).mpr ⟨o, ho, hc.1, rfl⟩) hc.2).1
  · exact hg.plain b hb i hmem o ho

/-- The name that merging gives a USE is in one web with the label of a DEF that reaches it. -/
theorem use_reached (h : LabelledBlocks A g live g.blocks st ν ℓ) (hg : Ready A g)
    (hlive : ∀ b ∈ g.blocks, ∀ r, (.reg r ∈ (live b).inn ↔ LiveAt q.toQueries g (.reg r) b) ∧
      (.reg r ∈ (live b).out ↔ ∃ c ∈ g.succs b, .reg r ∈ (live c).inn))
    (hsol : ∀ c ∈ g.blocks, websOut q g live st.gen outs c ⊆ outs c)
    (hM : MergedBlocks A (websIn g live outs) g.blocks st st' ν')
    {r : PseudoReg} (hp : regPhysical r = false) {d : BlockId × ℕ} {b : BlockId} {n : ℕ}
    (hd : DefReaches q g r d b n) {i : α} (hi : (g.insns b)[n]? = some i) {o : Occ}
    (ho : A.occurs i o) (hu : o.use = true) (hr : o.reg = r) :
    Same st'.webs (ν' b n { o with reg := ν b n o }) (ℓ d.1 d.2 r) := by
  have hb := hd.mem
  obtain ⟨hdb, i₀, hi₀, hr₀⟩ := hd.defs
  have hmem : i ∈ g.insns b := List.mem_of_getElem? hi
  have hf := hg.formed b hb i hmem
  obtain ⟨i₁, hi₁, hren⟩ := h.insn b hb n i hi
  have ho₁ : A.occurs i₁ { o with reg := ν b n o } := (hren.occurs A hf).mpr ⟨o, ho, rfl⟩
  have hbase : pseudoRegBase (ν b n o) = r := (h.base hg hb hi ho).trans hr
  have hphys : regPhysical (ν b n o) = false := by
    rw [← physical_base, hbase]
    exact hp
  obtain ⟨hlab, -, -⟩ := h.label d.1 hdb d.2 i₀ hi₀ r hr₀ hp
  have hblock := hM.block b hb
  have hbases : ∀ b ∈ g.blocks, ∀ i ∈ g.insns b, ∀ r ∈ q.defsRegs i, pseudoRegBase r = r := by
    intro c hc j hj y hy
    obtain ⟨p, hpo, -, rfl⟩ := (A.mem_defs (hg.formed c hc j hj)).mp hy
    exact hg.plain c hc j hj p hpo
  rcases label_reaches h hlive hsol hbases hp hd with ⟨rfl, hlt, hno⟩ | ⟨hno, hin⟩
  · -- the DEF is in front of the USE in its block
    obtain ⟨j, hj, hrenj⟩ := h.insn d.1 hb d.2 i₀ hi₀
    have hf₀ := hg.formed d.1 hb i₀ (List.mem_of_getElem? hi₀)
    obtain ⟨p, hpo, hpd, rfl⟩ := (A.mem_defs hf₀).mp hr₀
    have hname := h.name d.1 hb d.2 i₀ hi₀ p hpo
    rw [if_pos ⟨hpd, hp⟩] at hname
    have hs := hblock.inside n i₁ hi₁ _ ho₁ hu hphys d.2 j hlt hj { p with reg := ν d.1 d.2 p }
      ((hrenj.occurs A hf₀).mpr ⟨p, hpo, rfl⟩) hpd
      ((h.base hg hb hi₀ hpo).trans hbase.symm)
      (h.noLabel hg hb (by rw [hbase]; exact hno))
    rw [hname] at hs
    exact hs
  · refine hblock.before n i₁ hi₁ _ ho₁ hu hphys _ (hin ?_) (hlab.trans hbase.symm)
      (h.noLabel hg hb (by rw [hbase]; exact hno))
    -- the register is live in, since it is USEd before it is DEFd
    obtain ⟨hlt, rfl⟩ := List.getElem?_eq_some_iff.mp hi
    have hsplit : g.insns b = (g.insns b).take n ++ (g.insns b)[n] :: (g.insns b).drop (n + 1) := by
      rw [← List.drop_eq_getElem_cons hlt, List.take_append_drop]
    refine ((hlive b hb r).1).mpr (LiveAt.use hsplit
      (decide_eq_true ((A.mem_uses hf).mpr ⟨o, ho, hu, hr⟩)) fun j hj => ?_)
    obtain ⟨k, hk⟩ := List.mem_iff_getElem?.mp hj
    have hkn : k < n := by
      have := (List.getElem?_eq_some_iff.mp hk).1
      rw [List.length_take] at this
      omega
    rw [List.getElem?_take_of_lt hkn] at hk
    exact decide_eq_false (hno k j (Nat.zero_le k) hkn hk)

/-- What a labelled register is called after merging: a physical register keeps its name, any other
    name has the same base, and a DEF stays in the web of its label. -/
theorem merged_name (h : LabelledBlocks A g live g.blocks st ν ℓ) (hg : Ready A g)
    (hM : MergedBlocks A (websIn g live outs) g.blocks st st' ν') {b : BlockId} (hb : b ∈ g.blocks)
    {n : ℕ} {i : α} (hi : (g.insns b)[n]? = some i) {o : Occ} (ho : A.occurs i o) :
    (regPhysical o.reg = true → ν' b n { o with reg := ν b n o } = o.reg) ∧
      pseudoRegBase (ν' b n { o with reg := ν b n o }) = o.reg ∧
      (regPhysical o.reg = false → (o.defs = true ∨ o.use = true) →
        Same st'.webs (ν' b n { o with reg := ν b n o }) (ν' b n { o with reg := ν b n o })) ∧
      (regPhysical o.reg = false → o.defs = true →
        Same st'.webs (ν' b n { o with reg := ν b n o }) (ℓ b n o.reg)) := by
  have hmem : i ∈ g.insns b := List.mem_of_getElem? hi
  have hf := hg.formed b hb i hmem
  obtain ⟨i₁, hi₁, hren⟩ := h.insn b hb n i hi
  have ho₁ : A.occurs i₁ { o with reg := ν b n o } := (hren.occurs A hf).mpr ⟨o, ho, rfl⟩
  have hbase := h.base hg hb hi ho
  have hname := h.name b hb n i hi o ho
  have hphys : regPhysical (ν b n o) = regPhysical o.reg := by rw [← physical_base, hbase]
  have hblock := hM.block b hb
  have hlab : regPhysical o.reg = false → o.defs = true → ν b n o = ℓ b n o.reg ∧
      ν b n o ≠ pseudoRegBase (ν b n o) ∧ Same st'.webs (ν b n o) (ν b n o) := by
    intro hp hd
    rw [if_pos ⟨hd, hp⟩] at hname
    obtain ⟨-, hne, hs⟩ := h.label b hb n i hi o.reg ((A.mem_defs hf).mpr ⟨o, ho, hd, rfl⟩) hp
    refine ⟨hname, ?_, ?_⟩
    · rw [hbase, hname]; exact hne
    · rw [hname]; exact hM.grow _ _ hs
  by_cases hu : o.use = true ∧ regPhysical o.reg = false
  · obtain ⟨hb₁, hs, hl⟩ := hblock.name n i₁ hi₁ _ ho₁ hu.1 (hphys.trans hu.2)
    refine ⟨fun hp => absurd (hp.symm.trans hu.2) (by decide), hb₁.trans hbase, fun _ _ => hs,
      fun hp hd => ?_⟩
    obtain ⟨hn, hne, -⟩ := hlab hp hd
    have hs' := hl hne
    rw [hn] at hs'
    rw [hn]
    exact hs'
  · have hk := hblock.keep n i₁ hi₁ _ ho₁ fun hc => hu ⟨hc.1, hphys ▸ hc.2⟩
    rw [hk]
    refine ⟨fun hp => ?_, hbase, fun hp hdu => ?_, fun hp hd => ?_⟩
    · rw [if_neg (by simp [hp])] at hname
      exact hname
    · exact (hlab hp (hdu.resolve_right fun hc => hu ⟨hc, hp⟩)).2.2
    · obtain ⟨hn, -, hs⟩ := hlab hp hd
      show Same st'.webs (ν b n o) _
      rw [← hn]
      exact hs

/-- The three phases one after the other. -/
theorem renamed_of_phases (h : LabelledBlocks A g live g.blocks st ν ℓ) (hg : Ready A g)
    (hlive : ∀ b ∈ g.blocks, ∀ r, (.reg r ∈ (live b).inn ↔ LiveAt q.toQueries g (.reg r) b) ∧
      (.reg r ∈ (live b).out ↔ ∃ c ∈ g.succs b, .reg r ∈ (live c).inn))
    (hsol : ∀ c ∈ g.blocks, websOut q g live st.gen outs c ⊆ outs c)
    (hM : MergedBlocks A (websIn g live outs) g.blocks st st' ν')
    (hpure : (∀ b ∈ g.blocks, ∀ i ∈ g.insns b, ∀ o, A.occurs i o → o.use = true → o.defs = false) →
      Pure st'.webs) :
    ∃ N, Renamed A g { g with insns := (g.blocks.foldl (rewrite0 q) st').insns } N := by
  obtain ⟨-, hrw⟩ := @foldl_rewrite0 α q g.blocks st' hg.nodup
  have hren : ∀ b ∈ g.blocks, ∀ n i, (g.insns b)[n]? = some i → ∃ i₂, (st'.insns b)[n]? = some i₂ ∧
      Renaming q i i₂ fun o => ν' b n { o with reg := ν b n o } := by
    intro b hb n i hi
    obtain ⟨i₁, hi₁, h₁⟩ := h.insn b hb n i hi
    obtain ⟨i₂, hi₂, h₂⟩ := (hM.block b hb).insn n i₁ hi₁
    exact ⟨i₂, hi₂, h₁.trans h₂⟩
  -- what rewriting makes of the insn at a position
  have hlast : ∀ b n, ∃ ν₃ : Occ → PseudoReg, b ∈ g.blocks → ∀ i, (g.insns b)[n]? = some i →
      (∃ i', ((g.blocks.foldl (rewrite0 q) st').insns b)[n]? = some i' ∧
        Renaming q i i' fun o => ν₃ { o with reg := ν' b n { o with reg := ν b n o } }) ∧
      ∀ o, A.occurs i o → ν₃ { o with reg := ν' b n { o with reg := ν b n o } } =
        if (o.defs = true ∨ o.use = true) ∧ regPhysical o.reg = false
        then webName st'.webs (ν' b n { o with reg := ν b n o })
        else ν' b n { o with reg := ν b n o } := by
    intro b n
    by_cases hb : b ∈ g.blocks
    · cases hi : (g.insns b)[n]? with
      | none => exact ⟨Occ.reg, fun _ i hi => absurd hi (by simp)⟩
      | some i =>
        obtain ⟨i₂, hi₂, hr⟩ := hren b hb n i hi
        have hf := hg.formed b hb i (List.mem_of_getElem? hi)
        have hphys : ∀ o, A.occurs i o →
            regPhysical (ν' b n { o with reg := ν b n o }) = regPhysical o.reg := by
          intro o ho
          rw [← physical_base, (merged_name h hg hM hb hi ho).2.1]
        obtain ⟨ν₃, h₃, hn₃⟩ := rewrite0Insn_spec A (hr.formed A hf) hM.ok (fun o' ho' hdu hp => by
          obtain ⟨o, ho, rfl⟩ := (hr.occurs A hf).mp ho'
          exact (merged_name h hg hM hb hi ho).2.2.1 (hphys o ho ▸ hp) hdu)
        refine ⟨ν₃, fun _ j hj => ?_⟩
        obtain rfl := Option.some.inj hj
        refine ⟨⟨_, ?_, hr.trans h₃⟩, fun o ho => ?_⟩
        · rw [hrw b, if_pos hb, List.getElem?_map, hi₂]
          rfl
        · rw [hn₃ _ ((hr.occurs A hf).mpr ⟨o, ho, rfl⟩)]
          simp only [hphys o ho]
    · exact ⟨Occ.reg, fun hc => absurd hc hb⟩
  choose ν₃ hν₃ using hlast
  have hdefn : ∀ b ∈ g.blocks, ∀ n i, (g.insns b)[n]? = some i → ∀ o, A.occurs i o → o.defs = true →
      regPhysical o.reg = false → ν₃ b n { o with reg := ν' b n { o with reg := ν b n o } } =
        webName st'.webs (ℓ b n o.reg) := by
    intro b hb n i hi o ho hd hp
    rw [(hν₃ b n hb i hi).2 o ho, if_pos ⟨Or.inl hd, hp⟩]
    exact webName_eq hM.ok ((merged_name h hg hM hb hi ho).2.2.2 hp hd)
  refine ⟨fun b n o => ν₃ b n { o with reg := ν' b n { o with reg := ν b n o } }, rfl, fun b hb => ?_,
    fun b hb => ?_, fun b hb n i hi => (hν₃ b n hb i hi).1, fun b hb n i hi o ho => ?_,
    fun r d b n hp hd i hi o ho hu hr i₀ hi₀ o₀ ho₀ hd₀ hr₀ => ?_,
    fun hun b hb n i hi o ho hd hp => ?_⟩
  · show ((g.blocks.foldl (rewrite0 q) st').insns b).length = _
    rw [hrw b, if_pos hb, List.length_map, (hM.block b hb).length, h.length b hb]
  · show (g.blocks.foldl (rewrite0 q) st').insns b = _
    rw [hrw b, if_neg hb, hM.rest b hb, h.rest b hb]
  · obtain ⟨hph, hbase, hs, -⟩ := merged_name h hg hM hb hi ho
    have hn := (hν₃ b n hb i hi).2 o ho
    refine ⟨?_, fun hp => ?_⟩
    · rw [hn]
      split
      · rename_i hc
        rw [base_webName hM.ok (hs hc.2 hc.1), hbase]
      · exact hbase
    · rw [hn, if_neg (by simp [hp])]
      exact hph hp
  · obtain ⟨hdb, -⟩ := hd.defs
    have hs := use_reached h hg hlive hsol hM hp hd hi ho hu hr
    have hn := (hν₃ b n hd.mem i hi).2 o ho
    rw [if_pos ⟨Or.inr hu, hr ▸ hp⟩] at hn
    show ν₃ b n _ = ν₃ d.1 d.2 _
    rw [hn, hdefn d.1 hdb d.2 i₀ hi₀ o₀ ho₀ hd₀ (hr₀ ▸ hp), hr₀]
    exact webName_eq hM.ok hs
  · -- the web of a label has no register without a label
    show ν₃ b n _ ≠ _
    rw [hdefn b hb n i hi o ho hd hp]
    obtain ⟨hlb, hne, hs⟩ := h.label b hb n i hi o.reg
      ((A.mem_defs (hg.formed b hb i (List.mem_of_getElem? hi))).mpr ⟨o, ho, hd, rfl⟩) hp
    have hs' := hM.grow _ _ hs
    obtain ⟨w, hw, hx, hy⟩ := webName_same hM.ok hs'
    intro he
    have := hpure hun w hw _ hx _ hy (by rw [base_webName hM.ok hs', hlb]; exact he)
    rw [hlb] at this
    exact hne this

/-- `webs_analyze` renames the appearances of registers, and a USE gets the name of every DEF that
    reaches it. -/
theorem websAnalyze_renamed (hg : Ready A g) (hfew : FewDefs q g) :
    ∃ n₀ g' N, (∀ n ≥ n₀, websAnalyze q g n = some g') ∧ Renamed A g g' N := by
  obtain ⟨n₁, live, hl, hlive⟩ := liveAnalyze_ranges q.toQueries g
  have hempty : LabelledBlocks A g live [] ⟨g.insns, fun _ => 0, [], fun _ => []⟩
      (fun _ _ => Occ.reg) (fun _ _ => id) := by
    refine ⟨?_, ?_, ?_, ?_, ?_, ?_, fun _ _ => rfl, isPartition_nil, ?_, ?_⟩
    all_goals intro b hb
    all_goals exact absurd hb List.not_mem_nil
  obtain ⟨ν, ℓ, h⟩ := @foldl_def0 α q A g live g.blocks [] _ _ _ (by simpa using hg.nodup) hg.formed
    hg.plain hempty (by simpa using fun r => hfew r)
  rw [List.nil_append] at h
  generalize hst : g.blocks.foldl (def0 q live) ⟨g.insns, fun _ => 0, [], fun _ => []⟩ = st at h
  have hidx : ∀ r, st.idx r < 1024 := by
    intro r
    have := @idx_foldl_def0 α q g live A r g.blocks ⟨g.insns, fun _ => 0, [], fun _ => []⟩ hg.nodup
      (fun _ _ => rfl) hg.formed hg.plain
    rw [hst] at this
    have := hfew r
    simp only [Nat.zero_add] at *
    omega
  obtain ⟨n₂, outs, ho⟩ := compute_ends q g live st.gen
  obtain ⟨hsol, hlab⟩ := compute_stable ho
  have hcur : ∀ b, Current st.webs (websIn g live outs b) ∧
      ∀ t ∈ websIn g live outs b, t ≠ pseudoRegBase t := by
    intro b
    have hin : ∀ t ∈ websIn g live outs b, t ≠ pseudoRegBase t ∧ regPhysical t = false ∧
        Same st.webs t t := by
      intro t ht
      obtain ⟨⟨p, -, -, htp⟩, -⟩ := mem_websIn.mp ht
      obtain ⟨c, hc, htc⟩ := hlab p t htp
      exact h.gen c hc t htc
    exact ⟨fun t ht => ⟨(hin t ht).2.2, (hin t ht).2.1⟩, fun t ht => (hin t ht).1⟩
  have hok : WebsOk st.webs := ⟨h.inv.part, h.inv.base⟩
  obtain ⟨ν', hM, hpure⟩ := @foldl_merge0 α q A (websIn g live outs) st g.blocks [] st
    (fun _ _ => Occ.reg) (by simpa using hg.nodup)
    (fun b hb => ⟨h.decorated hg hb, (hcur b).1⟩)
    ⟨hok, fun _ _ hs => hs, fun b hb => absurd hb List.not_mem_nil, fun _ _ => rfl⟩
  rw [List.nil_append] at hM
  have hpl : (∀ b ∈ g.blocks, ∀ i ∈ g.insns b, ∀ o, A.occurs i o → o.use = true →
      o.defs = false) → Pure (g.blocks.foldl (merge0 q (websIn g live outs)) st).webs := by
    intro hun
    refine hpure (webs_pure_of_labels h.inv hidx) (fun b hb i₁ hi₁ o' ho' hu => ?_)
      fun b _ => (hcur b).2
    -- a USE is not a DEF, so it got no label
    have hdec := h.decorated hg hb i₁ hi₁
    refine hdec.plain o' ho' ?_
    obtain ⟨n, hn⟩ := List.mem_iff_getElem?.mp hi₁
    have hlt : n < (g.insns b).length := by
      rw [← h.length b hb]
      exact (List.getElem?_eq_some_iff.mp hn).1
    obtain ⟨i, hi⟩ : ∃ i, (g.insns b)[n]? = some i := ⟨_, List.getElem?_eq_getElem hlt⟩
    obtain ⟨i', hi', hr⟩ := h.insn b hb n i hi
    obtain rfl := Option.some.inj (hn.symm.trans hi')
    have hmem := List.mem_of_getElem? hi
    obtain ⟨o, hoc, rfl⟩ := (hr.occurs A (hg.formed b hb i hmem)).mp ho'
    exact hun b hb i hmem o hoc hu
  obtain ⟨N, hN⟩ := renamed_of_phases h hg
    (fun b hb r => ⟨(hlive ⟨b, hb⟩ r).1, (hlive ⟨b, hb⟩ r).2.1⟩) hsol hM hpl
  refine ⟨max n₁ n₂, _, N, fun n hn => ?_, hN⟩
  have hln := hl n (le_trans (le_max_left _ _) hn)
  have hon := iterate_mono (le_trans (le_max_right _ _) hn) ho
  simp only [websAnalyze, hln, Option.bind_some, hst, hon, Option.map_some]

end

/-! ### Lockstep -/

section
variable {α : Type*} {q : WebQueries α} (A : Appearances q) (g : BlockGraph α) (V M : Type)

/-- The registers, and everything else. -/
abbrev RegState := (PseudoReg → V) × M

/-- What executes the insns. An insn changes the registers it DEFs; what it does depends on the
    registers it USEs, not on what they are called; and where control goes depends on the register
    of the control operand and on what is no register. -/
structure Machine where
  exec : α → RegState V M → RegState V M
  branch : BlockId → RegState V M → Option BlockId
  frame : ∀ {i s r}, A.formed i → r ∉ q.defsRegs i → (exec i s).1 r = s.1 r
  rename : ∀ {i i' ν s t}, A.formed i → Renaming q i i' ν → t.2 = s.2 →
    (∀ o, A.occurs i o → o.use = true → t.1 (ν o) = s.1 o.reg) →
    (∀ o o', A.occurs i o → A.occurs i o' → o.defs = true → o'.defs = true → ν o = ν o' →
      o.reg = o'.reg) →
    (exec i' t).2 = (exec i s).2 ∧
      ∀ o, A.occurs i o → o.defs = true → (exec i' t).1 (ν o) = (exec i s).1 o.reg
  branch_mem : ∀ {b s c}, b ∈ g.blocks → branch b s = some c → c ∈ g.succs b
  branch_congr : ∀ {b s t}, b ∈ g.blocks → t.2 = s.2 →
    (∀ r ∈ operandRegs (g.control b), t.1 r = s.1 r) → branch b t = branch b s

variable {A g V M}

/-- Where control is, and the state. -/
structure Config (V M : Type) where
  block : BlockId
  pos : ℕ
  state : RegState V M

namespace Machine
variable (X : Machine A g V M)

/-- Execute the next insn of the block, or branch when there is none. -/
def step (f : BlockGraph α) (c : Config V M) : Option (Config V M) :=
  match (f.insns c.block)[c.pos]? with
  | some i => some ⟨c.block, c.pos + 1, X.exec i c.state⟩
  | none => (X.branch c.block c.state).map fun b => ⟨b, 0, c.state⟩

/-- A run of `n` steps. -/
def steps (f : BlockGraph α) : ℕ → Config V M → Option (Config V M)
  | 0, c => some c
  | n + 1, c => (steps f n c).bind (X.step f)

end Machine

/-- Both are at the same place, what is no register is the same, and every USE has the value it has in
    the original, the control operand included. -/
structure Alike (g g' : BlockGraph α) (c c' : Config V M) : Prop where
  block : c'.block = c.block
  pos : c'.pos = c.pos
  rest : c'.state.2 = c.state.2
  uses : ∀ i', (g'.insns c.block)[c.pos]? = some i' → ∀ u ∈ q.usesRegs i',
    c'.state.1 u = c.state.1 (pseudoRegBase u)
  control : (g.insns c.block)[c.pos]? = none → ∀ u ∈ operandRegs (g'.control c.block),
    c'.state.1 u = c.state.1 (pseudoRegBase u)

/-- The runs are alike; at the start all registers with one base hold the word of the original. -/
def SameRun (X : Machine A g V M) (g' : BlockGraph α) : Prop :=
  ∀ b ∈ g.blocks, ∀ (regs : PseudoReg → V) (m : M) (n : ℕ),
    Option.Rel (@Alike α q V M g g') (X.steps g n ⟨b, 0, regs, m⟩)
      (X.steps g' n ⟨b, 0, fun r => regs (pseudoRegBase r), m⟩)

/-- The registers of the renamed function, at a position: a register holds its word under the name of
    a DEF that reaches the position, or under all its names. -/
structure Agree (A : Appearances q) (g : BlockGraph α) (N : BlockId → ℕ → Occ → PseudoReg)
    (b : BlockId) (n : ℕ) (s t : RegState V M) : Prop where
  rest : t.2 = s.2
  physical : ∀ r, regPhysical r = true → pseudoRegBase r = r → t.1 r = s.1 r
  regs : ∀ r, regPhysical r = false → (∀ x, pseudoRegBase x = r → t.1 x = s.1 r) ∨
    ∃ d i o, DefReaches q g r d b n ∧ (g.insns d.1)[d.2]? = some i ∧ A.occurs i o ∧
      o.defs = true ∧ o.reg = r ∧ t.1 (N d.1 d.2 o) = s.1 r

variable {g' : BlockGraph α} {N : BlockId → ℕ → Occ → PseudoReg} {b : BlockId} {n : ℕ}
  {s t : RegState V M}

/-- A USE has the value it has in the original. -/
theorem Agree.use (h : Agree A g N b n s t) (hg : Ready A g) (hN : Renamed A g g' N)
    (hb : b ∈ g.blocks) {i : α} (hi : (g.insns b)[n]? = some i) {o : Occ} (ho : A.occurs i o)
    (hu : o.use = true) : t.1 (N b n o) = s.1 o.reg := by
  obtain ⟨hbase, hphys⟩ := hN.base b hb n i hi o ho
  have hplain := hg.plain b hb i (List.mem_of_getElem? hi) o ho
  cases hp : regPhysical o.reg with
  | true => rw [hphys hp]; exact h.physical o.reg hp hplain
  | false =>
    rcases h.regs o.reg hp with hall | ⟨d, i₀, o₀, hd, hi₀, ho₀, hd₀, hr₀, hv⟩
    · exact hall _ hbase
    · rw [hN.reach o.reg d b n hp hd i hi o ho hu rfl i₀ hi₀ o₀ ho₀ hd₀ hr₀]
      exact hv

/-- One insn, executed by both. -/
theorem Agree.exec (X : Machine A g V M) (h : Agree A g N b n s t) (hg : Ready A g)
    (hN : Renamed A g g' N) (hb : b ∈ g.blocks) {i i' : α} (hi : (g.insns b)[n]? = some i)
    (hi' : (g'.insns b)[n]? = some i') : Agree A g N b (n + 1) (X.exec i s) (X.exec i' t) := by
  obtain ⟨j, hj, hr⟩ := hN.insn b hb n i hi
  obtain rfl := Option.some.inj (hi'.symm.trans hj)
  have hf := hg.formed b hb i (List.mem_of_getElem? hi)
  have hbase : ∀ o, A.occurs i o → pseudoRegBase (N b n o) = o.reg :=
    fun o ho => (hN.base b hb n i hi o ho).1
  obtain ⟨hrest, hdefs⟩ := X.rename hf hr h.rest (fun o ho hu => h.use hg hN hb hi ho hu)
    fun o o' ho ho' _ _ he => (hbase o ho).symm.trans ((congrArg _ he).trans (hbase o' ho'))
  -- a name of a register that the insn does not DEF is not DEFd by the renamed insn
  have hframe : ∀ x r, pseudoRegBase x = r → r ∉ q.defsRegs i →
      (X.exec i' t).1 x = t.1 x ∧ (X.exec i s).1 r = s.1 r := by
    intro x r hx hr'
    refine ⟨X.frame (hr.formed A hf) fun hc => hr' ?_, X.frame hf hr'⟩
    obtain ⟨o, ho, hd, rfl⟩ := (hr.mem_defs A hf).mp hc
    exact (A.mem_defs hf).mpr ⟨o, ho, hd, (hbase o ho).symm.trans hx⟩
  refine ⟨hrest, fun r hp hplain => ?_, fun r hp => ?_⟩
  · by_cases hd : r ∈ q.defsRegs i
    · obtain ⟨o, ho, hod, rfl⟩ := (A.mem_defs hf).mp hd
      have hv := hdefs o ho hod
      rw [(hN.base b hb n i hi o ho).2 hp] at hv
      exact hv
    · obtain ⟨h₁, h₂⟩ := hframe r r hplain hd
      rw [h₁, h₂]
      exact h.physical r hp hplain
  · by_cases hd : r ∈ q.defsRegs i
    · obtain ⟨o, ho, hod, rfl⟩ := (A.mem_defs hf).mp hd
      exact Or.inr ⟨(b, n), i, o, .defn hb hi hd, hi, ho, hod, rfl, hdefs o ho hod⟩
    · rcases h.regs r hp with hall | ⟨d, i₀, o₀, hdr, hi₀, ho₀, hd₀, hr₀, hv⟩
      · refine Or.inl fun x hx => ?_
        obtain ⟨h₁, h₂⟩ := hframe x r hx hd
        rw [h₁, h₂]
        exact hall x hx
      · refine Or.inr ⟨d, i₀, o₀, .insn hdr hi hd, hi₀, ho₀, hd₀, hr₀, ?_⟩
        obtain ⟨hdb, -⟩ := hdr.defs
        obtain ⟨h₁, h₂⟩ := hframe _ r ((hN.base d.1 hdb d.2 i₀ hi₀ o₀ ho₀).1.trans hr₀) hd
        rw [h₁, h₂]
        exact hv

/-- No DEF of a register that is no physical one reaches a switch on it. -/
def NoControlDef (q : WebQueries α) (g : BlockGraph α) : Prop :=
  ∀ b ∈ g.blocks, ∀ r ∈ operandRegs (g.control b), regPhysical r = false →
    ∀ d, ¬ DefReaches q g r d b (g.insns b).length

theorem Agree.control (h : Agree A g N b (g.insns b).length s t) (hg : Ready A g)
    (hctl : NoControlDef q g) (hb : b ∈ g.blocks) :
    ∀ r ∈ operandRegs (g.control b), t.1 r = s.1 r := by
  intro r hr
  have hplain := hg.control b hb r hr
  cases hp : regPhysical r with
  | true => exact h.physical r hp hplain
  | false =>
    rcases h.regs r hp with hall | ⟨d, i₀, o₀, hd, -⟩
    · exact hall r hplain
    · exact absurd hd (hctl b hb r hr hp d)

/-- Control goes to the same block. -/
theorem Agree.edge (h : Agree A g N b (g.insns b).length s t) {c : BlockId} (hc : c ∈ g.succs b) :
    Agree A g N c 0 s t := by
  refine ⟨h.rest, h.physical, fun r hp => (h.regs r hp).imp id ?_⟩
  rintro ⟨d, i, o, hd, hrest⟩
  exact ⟨d, i, o, .edge hd hc, hrest⟩

/-- Where the two runs are after any number of steps. -/
structure InStep (A : Appearances q) (g : BlockGraph α) (N : BlockId → ℕ → Occ → PseudoReg)
    (c c' : Config V M) : Prop where
  block : c'.block = c.block
  pos : c'.pos = c.pos
  mem : c.block ∈ g.blocks
  le : c.pos ≤ (g.insns c.block).length
  agree : Agree A g N c.block c.pos c.state c'.state

theorem InStep.alike {c c' : Config V M} (h : InStep A g N c c') (hg : Ready A g)
    (hN : Renamed A g g' N) (hctl : NoControlDef q g) : @Alike α q V M g g' c c' := by
  refine ⟨h.block, h.pos, h.agree.rest, fun i' hi' u hu => ?_, fun hnone u hu => ?_⟩
  · have hlt : c.pos < (g.insns c.block).length := by
      rw [← hN.length c.block h.mem]
      exact (List.getElem?_eq_some_iff.mp hi').1
    obtain ⟨i, hi⟩ : ∃ i, (g.insns c.block)[c.pos]? = some i := ⟨_, List.getElem?_eq_getElem hlt⟩
    obtain ⟨j, hj, hr⟩ := hN.insn c.block h.mem c.pos i hi
    obtain rfl := Option.some.inj (hi'.symm.trans hj)
    have hf := hg.formed c.block h.mem i (List.mem_of_getElem? hi)
    obtain ⟨o, ho, huse, rfl⟩ := (hr.mem_uses A hf).mp hu
    rw [(hN.base c.block h.mem c.pos i hi o ho).1]
    exact h.agree.use hg hN h.mem hi ho huse
  · have hend : c.pos = (g.insns c.block).length :=
      le_antisymm h.le (List.getElem?_eq_none_iff.mp hnone)
    have hagree := h.agree
    rw [hend] at hagree
    have hu' : u ∈ operandRegs (g.control c.block) := by
      rw [hN.graph] at hu
      exact hu
    rw [hg.control c.block h.mem u hu']
    exact hagree.control hg hctl h.mem u hu'

/-- One step of both. -/
theorem InStep.step (X : Machine A g V M) {c c' : Config V M} (h : InStep A g N c c')
    (hg : Ready A g) (hN : Renamed A g g' N) (hctl : NoControlDef q g) :
    Option.Rel (InStep A g N) (X.step g c) (X.step g' c') := by
  rw [Machine.step, Machine.step, h.block, h.pos]
  cases hi : (g.insns c.block)[c.pos]? with
  | some i =>
    obtain ⟨i', hi', -⟩ := hN.insn c.block h.mem c.pos i hi
    rw [hi']
    exact .some ⟨rfl, rfl, h.mem, (List.getElem?_eq_some_iff.mp hi).1,
      h.agree.exec X hg hN h.mem hi hi'⟩
  | none =>
    have hend : c.pos = (g.insns c.block).length :=
      le_antisymm h.le (List.getElem?_eq_none_iff.mp hi)
    have hi' : (g'.insns c.block)[c.pos]? = none := by
      rw [List.getElem?_eq_none_iff, hN.length c.block h.mem]
      exact hend.ge
    have hagree := h.agree
    rw [hend] at hagree
    have hbr := X.branch_congr h.mem hagree.rest (hagree.control hg hctl h.mem)
    rw [hi', hbr]
    cases hb : X.branch c.block c.state with
    | none => exact .none
    | some d =>
      have hd := X.branch_mem h.mem hb
      exact .some ⟨rfl, rfl, g.closed _ h.mem d hd, Nat.zero_le _, hagree.edge hd⟩

theorem inStep_steps (X : Machine A g V M) (hg : Ready A g) (hN : Renamed A g g' N)
    (hctl : NoControlDef q g) {c c' : Config V M} (h : InStep A g N c c') : ∀ n,
      Option.Rel (InStep A g N) (X.steps g n c) (X.steps g' n c')
  | 0 => .some h
  | n + 1 => by
      rw [Machine.steps, Machine.steps]
      have hn := inStep_steps X hg hN hctl h n
      revert hn
      generalize X.steps g n c = x, X.steps g' n c' = y
      rintro (hn | _)
      · exact hn.step X hg hN hctl
      · exact .none

/-- The renamed function runs in lockstep with the original, when no switch sees a DEF. -/
theorem sameRun (X : Machine A g V M) (hg : Ready A g) (hN : Renamed A g g' N)
    (hctl : NoControlDef q g) : SameRun X g' := by
  intro b hb regs m n
  have h₀ : InStep A g N (⟨b, 0, regs, m⟩ : Config V M)
      ⟨b, 0, fun r => regs (pseudoRegBase r), m⟩ := by
    refine ⟨rfl, rfl, hb, Nat.zero_le _, rfl, fun r _ hr => ?_, fun r _ => Or.inl fun x hx => ?_⟩
    · exact congrArg regs hr
    · exact congrArg regs hx
  have hn := inStep_steps X hg hN hctl h₀ n
  revert hn
  generalize X.steps g n _ = x, X.steps g' n _ = y
  rintro (hn | _)
  · exact .some (hn.alike hg hN hctl)
  · exact .none

end

/-! ### The machine of target-independent insns -/

/-- What is no register. -/
abbrev RestState := CcSet × Mem × List Arg × Option Word

/-- The state of the machine as a state of the function. -/
def toState (s : RegState Word RestState) : State := ⟨s.1, s.2.1, s.2.2.1, s.2.2.2.1, s.2.2.2.2⟩

/-- And back. -/
def ofState (s : State) : RegState Word RestState := (s.regs, s.ccs, s.mem, s.args, s.ret)

/-- The machine that executes a function of target-independent insns. -/
def insnMachine (env : Env) (f : Func) (hf : f.Closed) :
    Machine insnAppearances (f.graph hf) Word RestState where
  exec i s := ofState (Ncc.exec env i (toState s))
  branch b s := Ncc.branch env (f.block b) (toState s)
  frame _ h := exec_regs_of_notMem env h
  rename {i i' ν s t} hi hr hrest huse hinj :=
    exec_mirrors env hi hr (by simpa only [toState] using hrest) huse hinj
  branch_mem _ h := Ncc.branch_mem h
  branch_congr {b s t} _ hrest hregs := by
    obtain ⟨sr, sm⟩ := s
    obtain ⟨tr, tm⟩ := t
    obtain rfl : tm = sm := hrest
    have hregs : ∀ r ∈ operandRegs (f.block b).control, tr r = sr r := hregs
    cases hc : (f.block b).control with
    | none =>
      simp only [Ncc.branch, hc]
      rfl
    | some o =>
      have hread : o.read env tr = o.read env sr :=
        @readOpt_congr env sr tr (some o) fun r hr => hregs r (by rw [hc]; exact hr)
      simp only [Ncc.branch, hc]
      exact congrArg _ hread

/-- Target-independent code runs as before after web renaming, when no DEF reaches a control
    operand. -/
theorem insn_sameRun (env : Env) (f : Func) (hf : f.Closed) (hg : Ready insnAppearances (f.graph hf))
    (hfew : FewDefs insnWebQueries (f.graph hf)) (hctl : NoControlDef insnWebQueries (f.graph hf)) :
    ∃ n₀ g', (∀ n ≥ n₀, websAnalyze insnWebQueries (f.graph hf) n = some g') ∧
      SameRun (insnMachine env f hf) g' := by
  obtain ⟨n₀, g', N, hends, hN⟩ := websAnalyze_renamed hg hfew
  exact ⟨n₀, g', hends, sameRun _ hg hN hctl⟩

/-! ### Web renaming -/

section
variable {α : Type*} {q : WebQueries α} {A : Appearances q} {g g' : BlockGraph α}
  {N : BlockId → ℕ → Occ → PseudoReg}

/-- Web renaming separates independent live ranges only: a USE in an insn and the control operand of a
    switch have the name of every DEF that reaches them, the renamed function gives every USE the
    value it had, and stripping restores the names. -/
structure WebsSound (A : Appearances q) (g g' : BlockGraph α) : Prop where
  uses : ∀ r d b n, regPhysical r = false → DefReaches q g r d b n →
    ∀ i', (g'.insns b)[n]? = some i' → ∀ u ∈ q.usesRegs i', pseudoRegBase u = r →
    ∀ i₀', (g'.insns d.1)[d.2]? = some i₀' → ∀ x ∈ q.defsRegs i₀', pseudoRegBase x = r → u = x
  control : ∀ r d b, regPhysical r = false → DefReaches q g r d b (g.insns b).length →
    ∀ u ∈ operandRegs (g'.control b), pseudoRegBase u = r →
    ∀ i₀', (g'.insns d.1)[d.2]? = some i₀' → ∀ x ∈ q.defsRegs i₀', pseudoRegBase x = r → u = x
  run : ∀ (V M : Type) (X : Machine A g V M), SameRun X g'
  strip : websStrip q g' = g

theorem Renamed.uses (hg : Ready A g) (hN : Renamed A g g' N) (r : PseudoReg) (d : BlockId × ℕ)
    (b : BlockId) (n : ℕ) (hp : regPhysical r = false) (hd : DefReaches q g r d b n) :
    ∀ i', (g'.insns b)[n]? = some i' → ∀ u ∈ q.usesRegs i', pseudoRegBase u = r →
      ∀ i₀', (g'.insns d.1)[d.2]? = some i₀' → ∀ x ∈ q.defsRegs i₀', pseudoRegBase x = r →
        u = x := by
  intro i' hi' u hu hub i₀' hi₀' x hx hxb
  have hb := hd.mem
  obtain ⟨hdb, i₀, hi₀, -⟩ := hd.defs
  have hlt : n < (g.insns b).length := by
    rw [← hN.length b hb]
    exact (List.getElem?_eq_some_iff.mp hi').1
  obtain ⟨i, hi⟩ : ∃ i, (g.insns b)[n]? = some i := ⟨_, List.getElem?_eq_getElem hlt⟩
  obtain ⟨j, hj, hr⟩ := hN.insn b hb n i hi
  obtain rfl := Option.some.inj (hi'.symm.trans hj)
  obtain ⟨j₀, hj₀, hr₀⟩ := hN.insn d.1 hdb d.2 i₀ hi₀
  obtain rfl := Option.some.inj (hi₀'.symm.trans hj₀)
  obtain ⟨o, ho, huse, rfl⟩ := (hr.mem_uses A (hg.formed b hb i (List.mem_of_getElem? hi))).mp hu
  obtain ⟨o₀, ho₀, hdef, rfl⟩ :=
    (hr₀.mem_defs A (hg.formed d.1 hdb i₀ (List.mem_of_getElem? hi₀))).mp hx
  rw [(hN.base b hb n i hi o ho).1] at hub
  rw [(hN.base d.1 hdb d.2 i₀ hi₀ o₀ ho₀).1] at hxb
  exact hN.reach r d b n hp hd i hi o ho huse hub i₀ hi₀ o₀ ho₀ hdef hxb

/-- Stripping restores the names. -/
theorem Renamed.strip (hg : Ready A g) (hN : Renamed A g g' N) : websStrip q g' = g := by
  have hinsns : (websStrip q g').insns = g.insns := by
    funext b
    have hblocks : g'.blocks = g.blocks := by rw [hN.graph]
    simp only [websStrip, hblocks]
    split
    · rename_i hb
      refine List.ext_getElem? fun n => ?_
      rw [List.getElem?_map]
      cases hi : (g.insns b)[n]? with
      | none =>
        rw [List.getElem?_eq_none_iff] at hi
        rw [List.getElem?_eq_none_iff.mpr (by rw [hN.length b hb]; exact hi)]
        rfl
      | some i =>
        obtain ⟨i', hi', hr⟩ := hN.insn b hb n i hi
        have hmem := List.mem_of_getElem? hi
        rw [hi', Option.map_some, A.strip (hg.formed b hb i hmem) hr fun o ho =>
          ⟨hg.plain b hb i hmem o ho, (hN.base b hb n i hi o ho).1⟩]
    · rename_i hb
      exact hN.rest b hb
  rw [hN.graph] at hinsns ⊢
  obtain ⟨bs, is, cond, ctl, ss, cl⟩ := g
  simp only [websStrip] at hinsns ⊢
  rw [hinsns]

/-- A control operand does not get the name of a DEF that reaches it. -/
theorem Renamed.control_ne (hg : Ready A g) (hN : Renamed A g g' N) {b : BlockId}
    {r : PseudoReg} (hr : r ∈ operandRegs (g.control b)) (hp : regPhysical r = false)
    {d : BlockId × ℕ} (hd : DefReaches q g r d b (g.insns b).length) : ¬ WebsSound A g g' := by
  intro hs
  have hb := hd.mem
  obtain ⟨hdb, i, hi, hri⟩ := hd.defs
  have hctl : g.control b ≠ none := by
    intro hc
    rw [hc] at hr
    exact List.not_mem_nil hr
  have hf := hg.formed d.1 hdb i (List.mem_of_getElem? hi)
  obtain ⟨o, ho, hdef, rfl⟩ := (A.mem_defs hf).mp hri
  obtain ⟨i', hi', hren⟩ := hN.insn d.1 hdb d.2 i hi
  have hmem : N d.1 d.2 o ∈ q.defsRegs i' := (hren.mem_defs A hf).mpr ⟨o, ho, hdef, rfl⟩
  have hr' : o.reg ∈ operandRegs (g'.control b) := by
    rw [hN.graph]
    exact hr
  have heq := hs.control o.reg d b hp hd o.reg hr' (hg.control b hb _ hr) i' hi' _ hmem
    (hN.base d.1 hdb d.2 i hi o ho).1
  exact hN.label (hg.untied b hb hctl) d.1 hdb d.2 i hi o ho hdef hp heq.symm

/-- `webs_analyze` ends, and web renaming is sound exactly if no DEF reaches a control operand. -/
theorem websAnalyze_iff (hg : Ready A g) (hfew : FewDefs q g) :
    ∃ n₀ g', (∀ n ≥ n₀, websAnalyze q g n = some g') ∧ (WebsSound A g g' ↔ NoControlDef q g) := by
  obtain ⟨n₀, g', N, hends, hN⟩ := websAnalyze_renamed hg hfew
  refine ⟨n₀, g', hends, fun hs b hb r hr hp d hd => hN.control_ne hg hr hp hd hs, fun hctl =>
    ⟨hN.uses hg, fun r d b hp hd u hu hub => ?_, fun V M X => sameRun X hg hN hctl, hN.strip hg⟩⟩
  rw [hN.graph] at hu
  have hb := hd.mem
  rw [hg.control b hb u hu] at hub
  exact absurd hd (hctl b hb r (hub ▸ hu) hp d)

end

/-- `x = 1; switch (x)`. -/
def switchOnDef : BlockGraph Insn where
  blocks := [0, 1]
  insns b := if b = 0 then [insnNew .move (some (operandReg .int 16)) (some (operandI .int 1 none))]
    else []
  conditional _ := false
  control b := if b = 0 then some (operandReg .int 16) else none
  succs b := if b = 0 then [1] else []
  closed := by decide

theorem mem_switchOnDef {b : BlockId} {i : Insn} (h : i ∈ switchOnDef.insns b) :
    b = 0 ∧ i = insnNew .move (some (operandReg .int 16)) (some (operandI .int 1 none)) := by
  simp only [switchOnDef] at h
  split at h
  · exact ⟨by assumption, List.mem_singleton.mp h⟩
  · exact absurd h List.not_mem_nil

theorem occurs_switchOnDef {b : BlockId} {i : Insn} (h : i ∈ switchOnDef.insns b) {o : Occ}
    (ho : insnOccurs i o) : o = ⟨16, false, true⟩ := by
  obtain ⟨-, rfl⟩ := mem_switchOnDef h
  obtain ⟨r, use, defs⟩ := o
  rcases ho with ⟨hr, hd, hu⟩ | ⟨hr, -, -⟩
  · have hr : r = 16 := List.mem_singleton.mp hr
    simp only at hd hu
    rw [hr, hd, hu]
  · exact absurd hr List.not_mem_nil

theorem ready_switchOnDef : Ready insnAppearances switchOnDef := by
  refine ⟨by decide, fun b _ i hi => ?_, fun b _ i hi o ho => ?_, fun b _ r hr => ?_,
    fun _ _ _ b _ i hi o ho hu => ?_⟩
  · obtain ⟨-, rfl⟩ := mem_switchOnDef hi
    exact ⟨⟨by decide, fun h => absurd h (by decide), fun cc h => absurd h (by simp [insnNew])⟩,
      fun h => absurd h (by decide)⟩
  · rw [occurs_switchOnDef hi ho]
    decide
  · simp only [switchOnDef] at hr
    split at hr
    · rw [List.mem_singleton.mp hr]
      decide
    · exact absurd hr List.not_mem_nil
  · rw [occurs_switchOnDef hi ho] at hu
    exact absurd hu (by decide)

theorem fewDefs_switchOnDef : FewDefs insnWebQueries switchOnDef := by
  intro r
  have h₀ : (switchOnDef.insns 0).countP (fun i =>
      decide (r ∈ insnWebQueries.defsRegs i ∧ regPhysical r = false)) ≤ 1 := List.countP_le_length
  have h₁ : (switchOnDef.insns 1).countP (fun i =>
      decide (r ∈ insnWebQueries.defsRegs i ∧ regPhysical r = false)) ≤ 0 := List.countP_le_length
  simp only [defCount, switchOnDef, List.map_cons, List.map_nil, List.sum_cons, List.sum_nil] at *
  omega

theorem websAnalyze_iff_switch : ∃ n₀ g', (∀ n ≥ n₀, websAnalyze insnWebQueries switchOnDef n =
    some g') ∧ (WebsSound insnAppearances switchOnDef g' ↔ NoControlDef insnWebQueries switchOnDef) :=
  websAnalyze_iff ready_switchOnDef fewDefs_switchOnDef

/-- The DEF gets an index, the control operand does not. -/
theorem websAnalyze_control_stale : ∃ n₀ g', (∀ n ≥ n₀, websAnalyze insnWebQueries switchOnDef n =
    some g') ∧ ¬ WebsSound insnAppearances switchOnDef g' := by
  obtain ⟨n₀, g', N, hends, hN⟩ := websAnalyze_renamed ready_switchOnDef fewDefs_switchOnDef
  have hdef : DefReaches insnWebQueries switchOnDef 16 (0, 0) 0 1 :=
    .defn (List.mem_cons_self ..) rfl (List.mem_singleton_self _)
  exact ⟨n₀, g', hends, hN.control_ne ready_switchOnDef (b := 0) (List.mem_singleton_self _)
    (by decide) hdef⟩

end Ncc.Webs
