import Ncc.Kill
import Ncc.Liveness
import Ncc.Lib.Partition

/-! Breaking registers into webs (webs.c).

    Every DEF is labelled with an index of its own, reaching labels are iterated over the graph, and
    labels that reach one USE are joined in one web; then all appearances of a web get its first
    label. The analysis works on target-independent and on target insns, where one operand may be
    USEd and DEFd at once. A switch has its control operand outside the insn list, and no phase looks
    at it. -/

namespace Ncc.Webs

/-- An appearance of a register in an insn. -/
structure Occ where
  reg : PseudoReg
  use : Bool
  defs : Bool
  deriving DecidableEq

/-- What a substitution of `aft` for `bef` makes of an appearance; the flags are
    INSN_SUBSTITUTE_DEFS and INSN_SUBSTITUTE_USES. -/
def Occ.substitute (o : Occ) (bef aft : PseudoReg) (defs uses : Bool) : Occ :=
  if o.reg = bef ∧ ((defs && o.defs) || (uses && o.use)) = true then { o with reg := aft } else o

/-- `amd64_reg_physical`. -/
def regPhysical (r : PseudoReg) : Bool := decide ((r &&& 0x000FFFFF).toNat < 16)

/-- What insn.c and the target do with the registers of an insn. -/
structure WebQueries (α : Type*) extends Queries α where
  substitute : α → PseudoReg → PseudoReg → Bool → Bool → α
  strip : α → α

section
variable {α : Type*} (q : WebQueries α)

/-! ### Webs -/

/-- `web_find`: a web is skipped as soon as a synonym has another base. -/
def webFind (webs : List Regs) (r : PseudoReg) : Option Regs :=
  webs.find? fun w => (w.takeWhile fun x => sameBase x r).contains r

/-- WEB_FIRST. -/
def webFirst (w : Option Regs) : PseudoReg := (w.bind List.head?).getD regNone

/-- `web_uninit`. -/
def webUninit (webs : List Regs) (r : PseudoReg) : List Regs :=
  if webFind webs r = none then webs ++ [[r]] else webs

/-- One turn of the loop in `webs_merge`. Every synonym has a web. -/
def websMerge1 (x : Option Regs × List Regs) (r : PseudoReg) : Option Regs × List Regs :=
  match x.1, webFind x.2 r with
  | none, w₂ => (w₂, x.2)
  | some w, some w₂ => if w = w₂ then x else (some (regsUnion w w₂), join regsUnion x.2 w w₂)
  | some _, none => x

/-- `webs_merge`. -/
def websMerge (webs : List Regs) (synonyms : Regs) : Option Regs × List Regs :=
  synonyms.foldl websMerge1 (none, webs)

/-! ### Labels -/

/-- The indices of the symbols, the webs, and the GEN set of a block. -/
structure Labels where
  idx : PseudoReg → Nat
  webs : List Regs
  gen : Regs

/-- `def0` on one register that an insn DEFs. -/
def def0Reg (x : α × Labels) (r : PseudoReg) : α × Labels :=
  if regPhysical r then x
  else
    let idx := x.2.idx (pseudoRegBase r) + 1
    let reg := pseudoRegSetIdx r idx
    (q.substitute x.1 r reg true false,
      { idx := Function.update x.2.idx (pseudoRegBase r) idx
        webs := x.2.webs ++ [[reg]]
        gen := regsReplaceBase x.2.gen reg })

/-- `def0` on one insn. -/
def def0Insn (i : α) (st : Labels) : α × Labels := (q.defsRegs i).foldl (def0Reg q) (i, st)

/-- The loop of `def0`. -/
def def0Insns : List α → Labels → List α × Labels
  | [], st => ([], st)
  | i :: l, st =>
    let x := def0Insn q i st
    let rest := def0Insns l x.2
    (x.1 :: rest.1, rest.2)

/-- The registers of a live set. -/
def liveRegs (s : LiveRegs) : Regs :=
  (s.sort LiveReg.le).filterMap fun k => match k with
    | .reg r => some r
    | .cc => none

/-- What the phases keep for the whole function. -/
structure WebState (α : Type*) where
  insns : BlockId → List α
  idx : PseudoReg → Nat
  webs : List Regs
  gen : BlockId → Regs

/-- `def0`. -/
def def0 (live : BlockId → LiveData) (st : WebState α) (b : BlockId) : WebState α :=
  let x := def0Insns q (st.insns b) ⟨st.idx, st.webs, []⟩
  { insns := Function.update st.insns b x.1
    idx := x.2.idx
    webs := x.2.webs
    gen := Function.update st.gen b (regsIntersectBases x.2.gen (liveRegs (live b).out)) }

/-! ### Reaching labels -/

variable (g : BlockGraph α)

/-- `kill.kill`: what the insns of the block DEF. -/
def killSet (b : BlockId) : Regs := (g.insns b).foldl (fun s i => regsUnion s (q.defsRegs i)) []

/-- IN(), from the OUT() sets of the predecessors. -/
def websIn (live : BlockId → LiveData) (outs : BlockId → Regs) (b : BlockId) : Regs :=
  regsSelectBases []
    ((g.blocks.filter fun p => b ∈ g.succs p).foldl (fun s p => regsUnion s (outs p)) [])
    (liveRegs (live b).inn)

/-- OUT(). -/
def websOut (live : BlockId → LiveData) (gen outs : BlockId → Regs) (b : BlockId) : Regs :=
  regsUnion (regsEliminateBases (regsUnion [] (websIn g live outs b)) (killSet q g b)) (gen b)

/-- `compute0`; the flag is BLOCKS_ITER_REITER. The IN() set is recomputed whenever it is needed: on
    the last visit it is what `websIn` makes of the final OUT() sets. -/
def compute0 (live : BlockId → LiveData) (gen : BlockId → Regs) (b : BlockId)
    (outs : BlockId → Regs) : (BlockId → Regs) × Bool :=
  let tmp := websOut q g live gen outs b
  if tmp.length ≠ (outs b).length then (Function.update outs b tmp, true) else (outs, false)

/-! ### Merging and rewriting -/

/-- `merge0` on one register that an insn USEs. -/
def merge0Use (current : Regs) (x : α × List Regs) (r : PseudoReg) : α × List Regs :=
  if regPhysical r then x
  else
    let base := pseudoRegBase r
    let tmp := regsSelectBase [] current r
    let uninit := tmp.isEmpty
    let webs := if uninit then webUninit x.2 base else x.2
    let tmp := if uninit then regsAdd tmp base else tmp
    let tmp := if r ≠ base then regsAdd tmp r else tmp
    let m := websMerge webs tmp
    (q.substitute x.1 r (webFirst m.1) false true, m.2)

/-- The labels that reach the next insn. -/
def merge0Defs (current defs : Regs) : Regs :=
  defs.foldl (fun c r => if regPhysical r then c else regsReplaceBase c r) current

/-- The loop of `merge0`. -/
def merge0Insns : List α → Regs → List Regs → List α × List Regs
  | [], _, webs => ([], webs)
  | i :: l, current, webs =>
    let x := (q.usesRegs i).foldl (merge0Use q current) (i, webs)
    let rest := merge0Insns l (merge0Defs current (q.defsRegs x.1)) x.2
    (x.1 :: rest.1, rest.2)

/-- `merge0`. -/
def merge0 (inn : BlockId → Regs) (st : WebState α) (b : BlockId) : WebState α :=
  let x := merge0Insns q (st.insns b) (regsUnion [] (inn b)) st.webs
  { st with insns := Function.update st.insns b x.1, webs := x.2 }

/-- `rewrite0` on one register. -/
def rewrite0Reg (webs : List Regs) (i : α) (r : PseudoReg) : α :=
  if regPhysical r then i else q.substitute i r (webFirst (webFind webs r)) true true

/-- `rewrite0` on one insn. -/
def rewrite0Insn (webs : List Regs) (i : α) : α :=
  (regsUnion (regsUnion [] (q.defsRegs i)) (q.usesRegs i)).foldl (rewrite0Reg q webs) i

/-- `rewrite0`. -/
def rewrite0 (st : WebState α) (b : BlockId) : WebState α :=
  { st with insns := Function.update st.insns b ((st.insns b).map (rewrite0Insn q st.webs)) }

/-- `webs_analyze`, with fuel for the two iterations. -/
def websAnalyze (n : Nat) : Option (BlockGraph α) :=
  (liveAnalyze q.toQueries g n).bind fun live =>
    let st := g.blocks.foldl (def0 q live) ⟨g.insns, fun _ => 0, [], fun _ => []⟩
    (iterate (compute0 q g live st.gen) g.blocks n fun _ => []).map fun outs =>
      let st := g.blocks.foldl (merge0 q (websIn g live outs)) st
      { g with insns := (g.blocks.foldl (rewrite0 q) st).insns }

/-- `webs_strip`. -/
def websStrip : BlockGraph α :=
  { g with insns := fun b => if b ∈ g.blocks then (g.insns b).map q.strip else g.insns b }

end

/-! ### Renaming -/

section
variable {α : Type*} (q : WebQueries α)

/-- `i'` is `i` after substitutions of non-physical registers; `ν` is what became of its registers. -/
inductive Renaming (i : α) : α → (Occ → PseudoReg) → Prop
  | refl : Renaming i i Occ.reg
  | step {i' : α} {ν : Occ → PseudoReg} (bef aft : PseudoReg) (defs uses : Bool) :
      Renaming i i' ν → regPhysical bef = false → regPhysical aft = false →
      Renaming i (q.substitute i' bef aft defs uses)
        fun o => ({ o with reg := ν o }.substitute bef aft defs uses).reg

/-- The appearances of registers in insns, and how the queries relate to them. An appearance that a
    substitution does not reach is one of a physical register. -/
structure Appearances where
  formed : α → Prop
  occurs : α → Occ → Prop
  mem_defs : ∀ {i r}, formed i →
    (r ∈ q.defsRegs i ↔ ∃ o, occurs i o ∧ o.defs = true ∧ o.reg = r)
  mem_uses : ∀ {i r}, formed i → (r ∈ q.usesRegs i ↔ ∃ o, occurs i o ∧ o.use = true ∧ o.reg = r)
  formed_substitute : ∀ {i bef aft defs uses}, formed i → regPhysical bef = false →
    regPhysical aft = false → formed (q.substitute i bef aft defs uses)
  occurs_substitute : ∀ {i bef aft defs uses o'}, formed i → regPhysical bef = false →
    regPhysical aft = false → (occurs (q.substitute i bef aft defs uses) o' ↔
      ∃ o, occurs i o ∧ o' = o.substitute bef aft defs uses)
  strip : ∀ {i i' ν}, formed i → Renaming q i i' ν →
    (∀ o, occurs i o → pseudoRegBase o.reg = o.reg ∧ pseudoRegBase (ν o) = o.reg) → q.strip i' = i

variable {q} (A : Appearances q) {i i' i'' : α} {ν ν' : Occ → PseudoReg}

@[simp] theorem use_substitute (o : Occ) (bef aft : PseudoReg) (d u : Bool) :
    (o.substitute bef aft d u).use = o.use := by unfold Occ.substitute; split <;> rfl

@[simp] theorem defs_substitute (o : Occ) (bef aft : PseudoReg) (d u : Bool) :
    (o.substitute bef aft d u).defs = o.defs := by unfold Occ.substitute; split <;> rfl

theorem Renaming.trans (h : Renaming q i i' ν) (h' : Renaming q i' i'' ν') :
    Renaming q i i'' fun o => ν' { o with reg := ν o } := by
  induction h' with
  | refl => exact h
  | step bef aft d u _ hb ha ih => exact .step bef aft d u ih hb ha

theorem Renaming.formed (hf : A.formed i) (h : Renaming q i i' ν) : A.formed i' := by
  induction h with
  | refl => exact hf
  | step _ _ _ _ _ hb ha ih => exact A.formed_substitute ih hb ha

/-- The appearances in a renamed insn. -/
theorem Renaming.occurs (hf : A.formed i) (h : Renaming q i i' ν) : ∀ {o' : Occ},
    A.occurs i' o' ↔ ∃ o, A.occurs i o ∧ o' = { o with reg := ν o } := by
  induction h with
  | refl => exact fun {o'} => ⟨fun h => ⟨o', h, rfl⟩, fun ⟨o, h, he⟩ => he ▸ h⟩
  | @step i' ν bef aft d u hr hb ha ih =>
    intro o'
    have heq : ∀ o : Occ, ({ o with reg := ν o } : Occ).substitute bef aft d u =
        { o with reg := (({ o with reg := ν o } : Occ).substitute bef aft d u).reg } := by
      intro o
      unfold Occ.substitute
      split <;> rfl
    rw [A.occurs_substitute (hr.formed A hf) hb ha]
    constructor
    · rintro ⟨o₁, ho₁, rfl⟩
      obtain ⟨o, ho, rfl⟩ := ih.mp ho₁
      exact ⟨o, ho, heq o⟩
    · rintro ⟨o, ho, rfl⟩
      exact ⟨_, ih.mpr ⟨o, ho, rfl⟩, (heq o).symm⟩

theorem Renaming.mem_defs (hf : A.formed i) (h : Renaming q i i' ν) {r : PseudoReg} :
    r ∈ q.defsRegs i' ↔ ∃ o, A.occurs i o ∧ o.defs = true ∧ ν o = r := by
  rw [A.mem_defs (h.formed A hf)]
  constructor
  · rintro ⟨o', ho', hd, rfl⟩
    obtain ⟨o, ho, rfl⟩ := (h.occurs A hf).mp ho'
    exact ⟨o, ho, hd, rfl⟩
  · rintro ⟨o, ho, hd, rfl⟩
    exact ⟨_, (h.occurs A hf).mpr ⟨o, ho, rfl⟩, hd, rfl⟩

theorem Renaming.mem_uses (hf : A.formed i) (h : Renaming q i i' ν) {r : PseudoReg} :
    r ∈ q.usesRegs i' ↔ ∃ o, A.occurs i o ∧ o.use = true ∧ ν o = r := by
  rw [A.mem_uses (h.formed A hf)]
  constructor
  · rintro ⟨o', ho', hd, rfl⟩
    obtain ⟨o, ho, rfl⟩ := (h.occurs A hf).mp ho'
    exact ⟨o, ho, hd, rfl⟩
  · rintro ⟨o, ho, hd, rfl⟩
    exact ⟨_, (h.occurs A hf).mpr ⟨o, ho, rfl⟩, hd, rfl⟩

/-- One more substitution, seen from the original insn. -/
theorem substitute_reg (o : Occ) (r bef aft : PseudoReg) (d u : Bool) :
    ({ o with reg := r }.substitute bef aft d u).reg =
      if r = bef ∧ ((d && o.defs) || (u && o.use)) = true then aft else r := by
  unfold Occ.substitute
  split <;> rfl

end

theorem physical_base (r : PseudoReg) : regPhysical (pseudoRegBase r) = regPhysical r := by
  have h : (~~~0x7FE00000#32) &&& 0x000FFFFF#32 = 0x000FFFFF#32 := by decide
  rw [regPhysical, regPhysical, pseudoRegBase, BitVec.and_assoc]
  exact congrArg (fun m : PseudoReg => decide ((r &&& m).toNat < 16)) h

theorem physical_eq {r r' : PseudoReg} (h : pseudoRegBase r = pseudoRegBase r') :
    regPhysical r = regPhysical r' := by
  rw [← physical_base, h, physical_base]

section
variable {α : Type*} {q : WebQueries α} (A : Appearances q)

/-! ### Labelling -/

/-- Every web is made of labels that were handed out. -/
structure LabelInv (st : Labels) : Prop where
  part : IsPartition st.webs
  label : ∀ w ∈ st.webs, ∀ x ∈ w, ∃ k, 1 ≤ k ∧ k ≤ st.idx (pseudoRegBase x) ∧
    x = pseudoRegSetIdx x k
  base : ∀ w ∈ st.webs, ∀ x ∈ w, ∀ y ∈ w, pseudoRegBase x = pseudoRegBase y

/-- What labelling an insn, or the first of its DEFs `rs`, does to the state. -/
structure Labelled (rs : Regs) (ℓ : PseudoReg → PseudoReg) (st st' : Labels) : Prop where
  base : ∀ r ∈ rs, regPhysical r = false → pseudoRegBase (ℓ r) = r
  label : ∀ r ∈ rs, regPhysical r = false → ℓ r ≠ r ∧ Same st'.webs (ℓ r) (ℓ r)
  gen : ∀ x, x ∈ st'.gen ↔ (x ∈ st.gen ∧ ∀ r ∈ rs, regPhysical r = false → pseudoRegBase x ≠ r) ∨
    ∃ r ∈ rs, regPhysical r = false ∧ x = ℓ r
  grow : ∀ x y, Same st.webs x y → Same st'.webs x y
  inv : LabelInv st'

theorem labelled_nil {st : Labels} (h : LabelInv st) (ℓ : PseudoReg → PseudoReg) :
    Labelled [] ℓ st st := by
  refine ⟨fun r hr => absurd hr List.not_mem_nil, fun r hr => absurd hr List.not_mem_nil,
    fun x => ?_, fun x y h => h, h⟩
  simp

/-- One more DEF is labelled. -/
theorem labelled_snoc {rs : Regs} {ℓ : PseudoReg → PseudoReg} {st st' : Labels} {r : PseudoReg}
    (h : Labelled rs ℓ st st') (hr : r ∉ rs) (hbase : pseudoRegBase r = r)
    (hphys : regPhysical r = false) (hlt : st'.idx r + 1 < 1024) :
    Labelled (rs ++ [r]) (Function.update ℓ r (pseudoRegSetIdx r (st'.idx r + 1))) st
      { idx := Function.update st'.idx r (st'.idx r + 1)
        webs := st'.webs ++ [[pseudoRegSetIdx r (st'.idx r + 1)]]
        gen := regsReplaceBase st'.gen (pseudoRegSetIdx r (st'.idx r + 1)) } := by
  have hnew : pseudoRegBase (pseudoRegSetIdx r (st'.idx r + 1)) = r := by
    rw [base_setIdx r hlt, hbase]
  have hfresh : ¬ Same st'.webs (pseudoRegSetIdx r (st'.idx r + 1))
      (pseudoRegSetIdx r (st'.idx r + 1)) := by
    rintro ⟨w, hw, hx, -⟩
    obtain ⟨k, -, hk, he⟩ := h.inv.label w hw _ hx
    rw [hnew] at hk
    have := setIdx_inj hlt (by omega) he
    omega
  have hne : ∀ x ∈ rs, Function.update ℓ r (pseudoRegSetIdx r (st'.idx r + 1)) x = ℓ x := by
    intro x hx
    refine Function.update_of_ne ?_ ..
    rintro rfl
    exact hr hx
  have hself : Function.update ℓ r (pseudoRegSetIdx r (st'.idx r + 1)) r =
      pseudoRegSetIdx r (st'.idx r + 1) := Function.update_self ..
  refine ⟨fun x hx hp => ?_, fun x hx hp => ?_, fun x => ?_, fun x y hxy =>
    (h.grow x y hxy).append, h.inv.part.snoc hfresh, fun w hw x hx => ?_, fun w hw x hx y hy => ?_⟩
  · rcases List.mem_append.mp hx with hx | hx
    · rw [hne x hx]; exact h.base x hx hp
    · rw [List.mem_singleton.mp hx, hself]; exact hnew
  · rcases List.mem_append.mp hx with hx | hx
    · rw [hne x hx]
      exact ⟨(h.label x hx hp).1, (h.label x hx hp).2.append⟩
    · rw [List.mem_singleton.mp hx, hself]
      refine ⟨fun he => ?_, [_], List.mem_append_right _ (List.mem_singleton_self _),
        List.mem_singleton_self _, List.mem_singleton_self _⟩
      have h0 : pseudoRegSetIdx r (st'.idx r + 1) = pseudoRegSetIdx r 0 := by
        rw [he, setIdx_zero, hbase]
      have := setIdx_inj hlt (by omega) h0
      omega
  · simp only [mem_regsReplaceBase, hnew, h.gen x, List.mem_append, List.mem_singleton]
    constructor
    · rintro (rfl | ⟨⟨hx, hxs⟩ | ⟨y, hy, hp, rfl⟩, hxr⟩)
      · exact Or.inr ⟨r, Or.inr rfl, hphys, hself.symm⟩
      · refine Or.inl ⟨hx, fun y hy hp => ?_⟩
        rcases hy with hy | rfl
        · exact hxs y hy hp
        · exact hxr
      · exact Or.inr ⟨y, Or.inl hy, hp, (hne y hy).symm⟩
    · rintro (⟨hx, hxs⟩ | ⟨y, hy | rfl, hp, rfl⟩)
      · exact Or.inr ⟨Or.inl ⟨hx, fun y hy hp => hxs y (Or.inl hy) hp⟩, hxs r (Or.inr rfl) hphys⟩
      · refine Or.inr ⟨Or.inr ⟨y, hy, hp, hne y hy⟩, ?_⟩
        rw [hne y hy, h.base y hy hp]
        exact fun he => hr (he ▸ hy)
      · exact Or.inl hself
  · rcases List.mem_append.mp hw with hw | hw
    · obtain ⟨k, hk, hle, he⟩ := h.inv.label w hw x hx
      refine ⟨k, hk, hle.trans ?_, he⟩
      by_cases hxr : pseudoRegBase x = r
      · simp [hxr]
      · simp [Function.update_of_ne hxr]
    · rw [List.mem_singleton.mp hw] at hx
      rw [List.mem_singleton.mp hx]
      refine ⟨st'.idx r + 1, by omega, ?_, ?_⟩
      · simp [hnew]
      · simp only [pseudoRegSetIdx]
        rw [show pseudoRegBase (pseudoRegBase r ||| BitVec.ofNat 32 (st'.idx r + 1) <<< 21) =
          pseudoRegBase r from base_setIdx r hlt]
  · rcases List.mem_append.mp hw with hw | hw
    · exact h.inv.base w hw x hx y hy
    · rw [List.mem_singleton.mp hw] at hx hy
      rw [List.mem_singleton.mp hx, List.mem_singleton.mp hy]

/-- A physical register gets no label. -/
theorem labelled_physical {rs : Regs} {ℓ : PseudoReg → PseudoReg} {st st' : Labels} {r : PseudoReg}
    (h : Labelled rs ℓ st st') (hphys : regPhysical r = true) : Labelled (rs ++ [r]) ℓ st st' := by
  have hmem : ∀ {x}, x ∈ rs ++ [r] → regPhysical x = false → x ∈ rs := by
    intro x hx hp
    rcases List.mem_append.mp hx with hx | hx
    · exact hx
    · rw [List.mem_singleton.mp hx, hphys] at hp; exact absurd hp (by decide)
  refine ⟨fun x hx hp => h.base x (hmem hx hp) hp, fun x hx hp => h.label x (hmem hx hp) hp,
    fun x => ?_, h.grow, h.inv⟩
  rw [h.gen x]
  constructor
  · rintro (⟨hx, hxs⟩ | ⟨y, hy, hp, rfl⟩)
    · exact Or.inl ⟨hx, fun y hy hp => hxs y (hmem hy hp) hp⟩
    · exact Or.inr ⟨y, List.mem_append_left _ hy, hp, rfl⟩
  · rintro (⟨hx, hxs⟩ | ⟨y, hy, hp, rfl⟩)
    · exact Or.inl ⟨hx, fun y hy hp => hxs y (List.mem_append_left _ hy) hp⟩
    · exact Or.inr ⟨y, hmem hy hp, hp, rfl⟩

/-- How many DEFs of `y` get a label. -/
theorem idx_foldl_def0Reg (y : PseudoReg) : ∀ (rs : Regs) (x : α × Labels),
    (rs.foldl (def0Reg q) x).2.idx y = x.2.idx y +
      rs.countP fun r => decide (regPhysical r = false ∧ pseudoRegBase r = y)
  | [], _ => rfl
  | r :: rs, x => by
      rw [List.foldl_cons, idx_foldl_def0Reg y rs, List.countP_cons, def0Reg]
      by_cases hp : regPhysical r = true
      · simp [hp]
      · by_cases hy : y = pseudoRegBase r
        · subst hy
          simp [hp]
          omega
        · simp [hp, Function.update_of_ne hy, Ne.symm hy]

/-- The loop over the DEFs of an insn; `ps` are those that have labels already. -/
theorem foldl_def0Reg {i : α} (hf : A.formed i)
    (hb : ∀ o, A.occurs i o → pseudoRegBase o.reg = o.reg) {st : Labels} :
    ∀ {rs ps : Regs} {i' : α} {st' : Labels} {ν : Occ → PseudoReg} {ℓ : PseudoReg → PseudoReg},
      ps ++ rs = q.defsRegs i → Renaming q i i' ν →
      (∀ o, A.occurs i o → ν o =
        if o.defs = true ∧ o.reg ∈ ps ∧ regPhysical o.reg = false then ℓ o.reg else o.reg) →
      Labelled ps ℓ st st' → (∀ r, (rs.foldl (def0Reg q) (i', st')).2.idx r < 1024) →
      ∃ ν ℓ, Renaming q i (rs.foldl (def0Reg q) (i', st')).1 ν ∧
        (∀ o, A.occurs i o → ν o =
          if o.defs = true ∧ regPhysical o.reg = false then ℓ o.reg else o.reg) ∧
        Labelled (q.defsRegs i) ℓ st (rs.foldl (def0Reg q) (i', st')).2
  | [], ps, i', st', ν, ℓ, hps, hr, ho, hl, _ => by
      rw [List.append_nil] at hps
      subst hps
      refine ⟨ν, ℓ, hr, fun o hoc => ?_, hl⟩
      rw [ho o hoc]
      refine if_congr ⟨fun h => ⟨h.1, h.2.2⟩, fun h => ⟨h.1, ?_, h.2⟩⟩ rfl rfl
      exact (A.mem_defs hf).mpr ⟨o, hoc, h.1, rfl⟩
  | r :: rs, ps, i', st', ν, ℓ, hps, hr, ho, hl, hlt => by
      have hps' : (ps ++ [r]) ++ rs = q.defsRegs i := by rw [← hps]; simp
      have hmem : r ∈ q.defsRegs i := by rw [← hps]; simp
      obtain ⟨o₀, ho₀, -, hreg⟩ := (A.mem_defs hf).mp hmem
      have hbase : pseudoRegBase r = r := by rw [← hreg]; exact hb o₀ ho₀
      have hnd : r ∉ ps := by
        have h := q.defsRegs_nodup i
        rw [← hps] at h
        exact fun hc => (List.disjoint_of_nodup_append h) hc List.mem_cons_self
      rw [List.foldl_cons] at hlt ⊢
      by_cases hphys : regPhysical r = true
      · have hskip : def0Reg q (i', st') r = (i', st') := if_pos hphys
        rw [hskip] at hlt ⊢
        refine foldl_def0Reg hf hb hps' hr (fun o hoc => ?_) (labelled_physical hl hphys) hlt
        rw [ho o hoc]
        refine if_congr ⟨fun h => ⟨h.1, List.mem_append_left _ h.2.1, h.2.2⟩, fun h => ⟨h.1, ?_,
          h.2.2⟩⟩ rfl rfl
        rcases List.mem_append.mp h.2.1 with hin | hin
        · exact hin
        · rw [List.mem_singleton.mp hin, hphys] at h; exact absurd h.2.2 (by decide)
      · have hphys : regPhysical r = false := Bool.eq_false_iff.mpr hphys
        have hstep : def0Reg q (i', st') r = (q.substitute i' r (pseudoRegSetIdx r
            (st'.idx r + 1)) true false,
            { idx := Function.update st'.idx r (st'.idx r + 1)
              webs := st'.webs ++ [[pseudoRegSetIdx r (st'.idx r + 1)]]
              gen := regsReplaceBase st'.gen (pseudoRegSetIdx r (st'.idx r + 1)) }) := by
          simp [def0Reg, hphys, hbase]
        have hlt' : st'.idx r + 1 < 1024 := by
          have h1 : (rs.foldl (def0Reg q) (def0Reg q (i', st') r)).2.idx r = _ :=
            idx_foldl_def0Reg r rs _
          have h2 := hlt r
          have h3 : (def0Reg q (i', st') r).2.idx r = st'.idx r + 1 := by
            rw [hstep]; exact Function.update_self ..
          omega
        rw [hstep] at hlt ⊢
        have hp' : regPhysical (pseudoRegSetIdx r (st'.idx r + 1)) = false := by
          rw [physical_eq (base_setIdx r hlt'), hphys]
        refine foldl_def0Reg hf hb hps' (hr.step r _ true false hphys hp') (fun o hoc => ?_)
          (labelled_snoc hl hnd hbase hphys hlt') hlt
        rw [substitute_reg, ho o hoc]
        simp only [Bool.true_and, Bool.false_and, Bool.or_false, List.mem_append,
          List.mem_singleton]
        by_cases hd : o.defs = true ∧ o.reg ∈ ps ∧ regPhysical o.reg = false
        · -- a label that is there has another base
          have hne : o.reg ≠ r := fun he => hnd (he ▸ hd.2.1)
          have hl' : ℓ o.reg ≠ r := by
            intro he
            have := hl.base o.reg hd.2.1 hd.2.2
            rw [he, hbase] at this
            exact hne this.symm
          rw [if_pos hd, if_neg (fun h => hl' h.1), if_pos ⟨hd.1, Or.inl hd.2.1, hd.2.2⟩,
            Function.update_of_ne hne]
        · rw [if_neg hd]
          by_cases hor : o.reg = r ∧ o.defs = true
          · rw [if_pos hor, if_pos ⟨hor.2, Or.inr hor.1, hor.1 ▸ hphys⟩, hor.1,
              Function.update_self]
          · rw [if_neg hor, if_neg]
            rintro ⟨h₁, h₂ | h₂, h₃⟩
            · exact hd ⟨h₁, h₂, h₃⟩
            · exact hor ⟨h₂, h₁⟩

/-- An insn gets a label for every register it DEFs. -/
theorem def0Insn_labelled {i : α} (hf : A.formed i)
    (hb : ∀ o, A.occurs i o → pseudoRegBase o.reg = o.reg) {st : Labels} (hinv : LabelInv st)
    (hlt : ∀ r, (def0Insn q i st).2.idx r < 1024) :
    ∃ ν ℓ, Renaming q i (def0Insn q i st).1 ν ∧
      (∀ o, A.occurs i o → ν o =
        if o.defs = true ∧ regPhysical o.reg = false then ℓ o.reg else o.reg) ∧
      Labelled (q.defsRegs i) ℓ st (def0Insn q i st).2 :=
  @foldl_def0Reg α q A i hf hb st (q.defsRegs i) [] i st Occ.reg id rfl .refl (fun o _ => by simp)
    (labelled_nil hinv id) hlt

theorem idx_def0Insn {i : α} (hf : A.formed i)
    (hb : ∀ o, A.occurs i o → pseudoRegBase o.reg = o.reg) (st : Labels) (y : PseudoReg) :
    st.idx y ≤ (def0Insn q i st).2.idx y ∧
      (def0Insn q i st).2.idx y ≤
        st.idx y + if y ∈ q.defsRegs i ∧ regPhysical y = false then 1 else 0 := by
  rw [def0Insn, idx_foldl_def0Reg y]
  refine ⟨Nat.le_add_right _ _, Nat.add_le_add_left ?_ _⟩
  have hreg : ∀ r ∈ q.defsRegs i, pseudoRegBase r = r := by
    intro r hr
    obtain ⟨o, ho, -, rfl⟩ := (A.mem_defs hf).mp hr
    exact hb o ho
  split
  · have hle : (q.defsRegs i).countP (fun r => decide (regPhysical r = false ∧
        pseudoRegBase r = y)) ≤ (q.defsRegs i).count y := by
      rw [List.count]
      refine List.countP_mono_left fun r hr h => ?_
      obtain ⟨-, h⟩ := of_decide_eq_true h
      rw [hreg r hr] at h
      exact beq_iff_eq.mpr h
    exact hle.trans (List.nodup_iff_count_le_one.mp (q.defsRegs_nodup i) y)
  · rename_i hy
    refine (List.countP_eq_zero.mpr fun r hr h => hy ?_).le
    obtain ⟨hp, h⟩ := of_decide_eq_true h
    rw [hreg r hr] at h
    exact h ▸ ⟨hr, hp⟩

theorem idx_def0Insns (y : PseudoReg) : ∀ {l : List α} {st : Labels}, (∀ i ∈ l, A.formed i) →
    (∀ i ∈ l, ∀ o, A.occurs i o → pseudoRegBase o.reg = o.reg) →
    st.idx y ≤ (def0Insns q l st).2.idx y ∧
      (def0Insns q l st).2.idx y ≤
        st.idx y + l.countP fun i => decide (y ∈ q.defsRegs i ∧ regPhysical y = false)
  | [], _, _, _ => ⟨le_rfl, le_rfl⟩
  | i :: l, st, hf, hb => by
      obtain ⟨h₁, h₂⟩ := idx_def0Insn A (hf i List.mem_cons_self) (hb i List.mem_cons_self) st y
      obtain ⟨h₃, h₄⟩ := @idx_def0Insns y l (def0Insn q i st).2
        (fun j hj => hf j (List.mem_cons_of_mem _ hj)) fun j hj => hb j (List.mem_cons_of_mem _ hj)
      rw [def0Insns, List.countP_cons]
      refine ⟨h₁.trans h₃, h₄.trans ?_⟩
      by_cases hy : y ∈ q.defsRegs i ∧ regPhysical y = false <;> simp only [hy, if_true, if_false,
        decide_true, decide_false, Bool.false_eq_true, and_self] at h₂ ⊢ <;> omega

/-- What labelling a list of insns does; `ν` and `ℓ` are indexed by position. -/
structure LabelledInsns (l l' : List α) (st st' : Labels) (ν : ℕ → Occ → PseudoReg)
    (ℓ : ℕ → PseudoReg → PseudoReg) : Prop where
  length : l'.length = l.length
  insn : ∀ n i, l[n]? = some i → ∃ i', l'[n]? = some i' ∧ Renaming q i i' (ν n)
  name : ∀ n i, l[n]? = some i → ∀ o, A.occurs i o → ν n o =
    if o.defs = true ∧ regPhysical o.reg = false then ℓ n o.reg else o.reg
  label : ∀ n i, l[n]? = some i → ∀ r ∈ q.defsRegs i, regPhysical r = false →
    pseudoRegBase (ℓ n r) = r ∧ ℓ n r ≠ r ∧ Same st'.webs (ℓ n r) (ℓ n r)
  last : ∀ n i, l[n]? = some i → ∀ r ∈ q.defsRegs i, regPhysical r = false →
    (∀ m j, n < m → l[m]? = some j → r ∉ q.defsRegs j) → ℓ n r ∈ st'.gen
  keep : ∀ x ∈ st.gen, (∀ j ∈ l, pseudoRegBase x ∉ q.defsRegs j) → x ∈ st'.gen
  gen : ∀ x ∈ st'.gen, x ∈ st.gen ∨
    (x ≠ pseudoRegBase x ∧ regPhysical x = false ∧ Same st'.webs x x)
  grow : ∀ x y, Same st.webs x y → Same st'.webs x y
  inv : LabelInv st'

/-- Functions on positions of a list that starts with one more element. -/
def consPos {β : Type*} (x : β) (f : ℕ → β) : ℕ → β
  | 0 => x
  | n + 1 => f n

theorem def0Insns_labelled : ∀ {l : List α} {st : Labels}, (∀ i ∈ l, A.formed i) →
    (∀ i ∈ l, ∀ o, A.occurs i o → pseudoRegBase o.reg = o.reg) → LabelInv st →
    (∀ r, (def0Insns q l st).2.idx r < 1024) →
    ∃ ν ℓ, LabelledInsns A l (def0Insns q l st).1 st (def0Insns q l st).2 ν ℓ
  | [], st, _, _, hinv, _ => by
      refine ⟨fun _ => Occ.reg, fun _ => id, rfl, ?_, ?_, ?_, ?_, fun x hx _ => hx,
        fun x hx => Or.inl hx, fun x y h => h, hinv⟩ <;> intro n i h <;> exact absurd h (by simp)
  | i :: l, st, hf, hb, hinv, hlt => by
      have hfi := hf i List.mem_cons_self
      have hbi := hb i List.mem_cons_self
      have hfl : ∀ j ∈ l, A.formed j := fun j hj => hf j (List.mem_cons_of_mem _ hj)
      have hbl : ∀ j ∈ l, ∀ o, A.occurs j o → pseudoRegBase o.reg = o.reg :=
        fun j hj => hb j (List.mem_cons_of_mem _ hj)
      have hlt' : ∀ r, (def0Insn q i st).2.idx r < 1024 := by
        intro r
        exact (idx_def0Insns A r hfl hbl).1.trans_lt (hlt r)
      obtain ⟨ν₀, ℓ₀, hr, hn, h₀⟩ := def0Insn_labelled A hfi hbi hinv hlt'
      obtain ⟨ν, ℓ, h⟩ := def0Insns_labelled hfl hbl h₀.inv hlt
      refine ⟨consPos ν₀ ν, consPos ℓ₀ ℓ, by simp [def0Insns, h.length], fun n j hj => ?_,
        fun n j hj => ?_, fun n j hj r hrj hp => ?_, fun n j hj r hrj hp hlast => ?_,
        fun x hx hxl => ?_, fun x hx => ?_, fun x y hxy => h.grow x y (h₀.grow x y hxy), h.inv⟩
      · cases n with
        | zero =>
          obtain rfl := Option.some.inj hj
          exact ⟨_, rfl, hr⟩
        | succ n => exact h.insn n j hj
      · cases n with
        | zero =>
          obtain rfl := Option.some.inj hj
          exact hn
        | succ n => exact h.name n j hj
      · cases n with
        | zero =>
          obtain rfl := Option.some.inj hj
          exact ⟨h₀.base r hrj hp, (h₀.label r hrj hp).1, h.grow _ _ (h₀.label r hrj hp).2⟩
        | succ n => exact h.label n j hj r hrj hp
      · cases n with
        | zero =>
          obtain rfl := Option.some.inj hj
          refine h.keep _ ((h₀.gen _).mpr (Or.inr ⟨r, hrj, hp, rfl⟩)) fun k hk => ?_
          show pseudoRegBase (ℓ₀ r) ∉ _
          rw [h₀.base r hrj hp]
          obtain ⟨m, hm⟩ := List.mem_iff_getElem?.mp hk
          exact hlast (m + 1) k (Nat.succ_pos m) hm
        | succ n =>
          exact h.last n j hj r hrj hp fun m k hm hk => hlast (m + 1) k (Nat.succ_lt_succ hm) hk
      · refine h.keep x ((h₀.gen x).mpr (Or.inl ⟨hx, fun r hr _ he => ?_⟩)) fun j hj =>
          hxl j (List.mem_cons_of_mem _ hj)
        exact hxl i List.mem_cons_self (he ▸ hr)
      · rcases h.gen x hx with hx | hx
        · rcases (h₀.gen x).mp hx with ⟨hx, _⟩ | ⟨r, hr, hp, rfl⟩
          · exact Or.inl hx
          · refine Or.inr ⟨?_, ?_, h.grow _ _ (h₀.label r hr hp).2⟩
            · rw [h₀.base r hr hp]; exact (h₀.label r hr hp).1
            · rw [← physical_base, h₀.base r hr hp]; exact hp
        · exact Or.inr hx
theorem mem_liveRegs {s : LiveRegs} {r : PseudoReg} : r ∈ liveRegs s ↔ LiveReg.reg r ∈ s := by
  rw [liveRegs, List.mem_filterMap]
  constructor
  · rintro ⟨k, hk, he⟩
    cases k with
    | reg r' =>
      obtain rfl := Option.some.inj he
      exact (Finset.mem_sort _).mp hk
    | cc => exact absurd he (by simp)
  · intro h
    exact ⟨.reg r, (Finset.mem_sort _).mpr h, rfl⟩

/-- What the first phase has done when the blocks `bs` are labelled. -/
structure LabelledBlocks (g : BlockGraph α) (live : BlockId → LiveData) (bs : List BlockId)
    (st : WebState α) (ν : BlockId → ℕ → Occ → PseudoReg) (ℓ : BlockId → ℕ → PseudoReg → PseudoReg) :
    Prop where
  length : ∀ b ∈ bs, (st.insns b).length = (g.insns b).length
  insn : ∀ b ∈ bs, ∀ n i, (g.insns b)[n]? = some i →
    ∃ i', (st.insns b)[n]? = some i' ∧ Renaming q i i' (ν b n)
  name : ∀ b ∈ bs, ∀ n i, (g.insns b)[n]? = some i → ∀ o, A.occurs i o → ν b n o =
    if o.defs = true ∧ regPhysical o.reg = false then ℓ b n o.reg else o.reg
  label : ∀ b ∈ bs, ∀ n i, (g.insns b)[n]? = some i → ∀ r ∈ q.defsRegs i, regPhysical r = false →
    pseudoRegBase (ℓ b n r) = r ∧ ℓ b n r ≠ r ∧ Same st.webs (ℓ b n r) (ℓ b n r)
  last : ∀ b ∈ bs, ∀ n i, (g.insns b)[n]? = some i → ∀ r ∈ q.defsRegs i, regPhysical r = false →
    (∀ m j, n < m → (g.insns b)[m]? = some j → r ∉ q.defsRegs j) →
    .reg r ∈ (live b).out → ℓ b n r ∈ st.gen b
  gen : ∀ b ∈ bs, ∀ x ∈ st.gen b, x ≠ pseudoRegBase x ∧ regPhysical x = false ∧ Same st.webs x x
  rest : ∀ b, b ∉ bs → st.insns b = g.insns b
  inv : LabelInv ⟨st.idx, st.webs, []⟩

section
variable {g : BlockGraph α} {live : BlockId → LiveData} {bs : List BlockId} {b : BlockId}
  {st : WebState α} {ν : BlockId → ℕ → Occ → PseudoReg} {ℓ : BlockId → ℕ → PseudoReg → PseudoReg}

theorem labelledBlocks_snoc (h : LabelledBlocks A g live bs st ν ℓ) (hb : b ∉ bs)
    (hf : ∀ i ∈ g.insns b, A.formed i)
    (hbase : ∀ i ∈ g.insns b, ∀ o, A.occurs i o → pseudoRegBase o.reg = o.reg)
    (hlt : ∀ r, (def0 q live st b).idx r < 1024) :
    ∃ ν ℓ, LabelledBlocks A g live (bs ++ [b]) (def0 q live st b) ν ℓ := by
  have hst : st.insns b = g.insns b := h.rest b hb
  obtain ⟨ν₁, ℓ₁, h₁⟩ := @def0Insns_labelled α q A (g.insns b) ⟨st.idx, st.webs, []⟩ hf hbase
    ⟨h.inv.part, h.inv.label, h.inv.base⟩ (by simpa only [def0, hst] using hlt)
  have hself : (def0 q live st b).insns b =
      (def0Insns q (g.insns b) ⟨st.idx, st.webs, []⟩).1 := by simp [def0, hst]
  have hwebs : (def0 q live st b).webs =
      (def0Insns q (g.insns b) ⟨st.idx, st.webs, []⟩).2.webs := by simp [def0, hst]
  have hgen : (def0 q live st b).gen b = regsIntersectBases
      (def0Insns q (g.insns b) ⟨st.idx, st.webs, []⟩).2.gen (liveRegs (live b).out) := by
    simp [def0, hst]
  have hother : ∀ c, c ≠ b → (def0 q live st b).insns c = st.insns c ∧
      (def0 q live st b).gen c = st.gen c := fun c hc =>
    ⟨Function.update_of_ne hc .., Function.update_of_ne hc ..⟩
  have hgrow : ∀ x y, Same st.webs x y → Same (def0 q live st b).webs x y := by
    rw [hwebs]; exact h₁.grow
  have hne : ∀ c ∈ bs, c ≠ b := by rintro c hc rfl; exact hb hc
  refine ⟨Function.update ν b ν₁, Function.update ℓ b ℓ₁, fun c hc => ?_, fun c hc => ?_,
    fun c hc => ?_, fun c hc => ?_, fun c hc => ?_, fun c hc => ?_, fun c hc => ?_, ?_⟩
  · rcases List.mem_append.mp hc with hc | hc
    · rw [(hother c (hne c hc)).1]; exact h.length c hc
    · obtain rfl := List.mem_singleton.mp hc
      rw [hself]; exact h₁.length
  · rcases List.mem_append.mp hc with hc | hc
    · rw [(hother c (hne c hc)).1, Function.update_of_ne (hne c hc)]; exact h.insn c hc
    · obtain rfl := List.mem_singleton.mp hc
      rw [hself, Function.update_self]; exact h₁.insn
  · rcases List.mem_append.mp hc with hc | hc
    · rw [Function.update_of_ne (hne c hc), Function.update_of_ne (hne c hc)]; exact h.name c hc
    · obtain rfl := List.mem_singleton.mp hc
      rw [Function.update_self, Function.update_self]; exact h₁.name
  · rcases List.mem_append.mp hc with hc | hc
    · rw [Function.update_of_ne (hne c hc)]
      intro n i hi r hr hp
      obtain ⟨hb', hl, hs⟩ := h.label c hc n i hi r hr hp
      exact ⟨hb', hl, hgrow _ _ hs⟩
    · obtain rfl := List.mem_singleton.mp hc
      rw [Function.update_self, hwebs]; exact h₁.label
  · rcases List.mem_append.mp hc with hc | hc
    · rw [Function.update_of_ne (hne c hc), (hother c (hne c hc)).2]; exact h.last c hc
    · obtain rfl := List.mem_singleton.mp hc
      rw [Function.update_self, hgen]
      intro n i hi r hr hp hl hlive
      refine mem_regsIntersectBases.mpr ⟨h₁.last n i hi r hr hp hl, r, mem_liveRegs.mpr hlive, ?_⟩
      obtain ⟨hbr, -, -⟩ := h₁.label n i hi r hr hp
      rw [hbr, ← hbr, base_base]
  · rcases List.mem_append.mp hc with hc | hc
    · rw [(hother c (hne c hc)).2]
      intro x hx
      obtain ⟨h₁, h₂, h₃⟩ := h.gen c hc x hx
      exact ⟨h₁, h₂, hgrow _ _ h₃⟩
    · obtain rfl := List.mem_singleton.mp hc
      rw [hgen, hwebs]
      intro x hx
      exact (h₁.gen x (mem_regsIntersectBases.mp hx).1).resolve_left List.not_mem_nil
  · have hcb : c ≠ b := by rintro rfl; exact hc (by simp)
    rw [(hother c hcb).1]
    exact h.rest c fun hin => hc (List.mem_append_left _ hin)
  · have hi := h₁.inv
    refine ⟨by rw [hwebs]; exact hi.part, ?_, by rw [hwebs]; exact hi.base⟩
    have hidx : (def0 q live st b).idx = (def0Insns q (g.insns b) ⟨st.idx, st.webs, []⟩).2.idx := by
      simp [def0, hst]
    rw [hwebs, hidx]
    exact hi.label

/-- How many insns DEF the register; physical registers do not count. -/
def defCount (q : WebQueries α) (g : BlockGraph α) (r : PseudoReg) (bs : List BlockId) : ℕ :=
  (bs.map fun b => (g.insns b).countP fun i =>
    decide (r ∈ q.defsRegs i ∧ regPhysical r = false)).sum

theorem foldl_def0 : ∀ {bs ps : List BlockId} {st : WebState α} {ν : BlockId → ℕ → Occ → PseudoReg}
    {ℓ : BlockId → ℕ → PseudoReg → PseudoReg}, (ps ++ bs).Nodup →
    (∀ b ∈ bs, ∀ i ∈ g.insns b, A.formed i) →
    (∀ b ∈ bs, ∀ i ∈ g.insns b, ∀ o, A.occurs i o → pseudoRegBase o.reg = o.reg) →
    LabelledBlocks A g live ps st ν ℓ → (∀ r, st.idx r + defCount q g r bs < 1024) →
    ∃ ν ℓ, LabelledBlocks A g live (ps ++ bs) (bs.foldl (def0 q live) st) ν ℓ
  | [], ps, st, ν, ℓ, _, _, _, h, _ => by rw [List.append_nil]; exact ⟨ν, ℓ, h⟩
  | b :: bs, ps, st, ν, ℓ, hnd, hf, hb, h, hlt => by
      have hbp : b ∉ ps := fun hc => (List.disjoint_of_nodup_append hnd) hc List.mem_cons_self
      have hfb := hf b List.mem_cons_self
      have hbb := hb b List.mem_cons_self
      have hidx : ∀ r, (def0 q live st b).idx r ≤
          st.idx r + (g.insns b).countP fun i =>
            decide (r ∈ q.defsRegs i ∧ regPhysical r = false) := by
        intro r
        have hi := (@idx_def0Insns α q A r (g.insns b) ⟨st.idx, st.webs, []⟩ hfb hbb).2
        simpa only [def0, h.rest b hbp] using hi
      have hsum : ∀ r, (def0 q live st b).idx r + defCount q g r bs < 1024 := by
        intro r
        have h₁ := hidx r
        have h₂ := hlt r
        rw [defCount, List.map_cons, List.sum_cons] at h₂
        rw [defCount]
        omega
      obtain ⟨ν', ℓ', h'⟩ := labelledBlocks_snoc A h hbp hfb hbb fun r =>
        (Nat.le_add_right _ _).trans_lt (hsum r)
      have happ : ps ++ b :: bs = (ps ++ [b]) ++ bs := by simp
      rw [happ] at hnd ⊢
      exact foldl_def0 hnd (fun c hc => hf c (List.mem_cons_of_mem _ hc))
        (fun c hc => hb c (List.mem_cons_of_mem _ hc)) h' hsum

end

end

section
variable {α : Type*} {q : WebQueries α} {g : BlockGraph α} {live : BlockId → LiveData}
  {gen outs outs' : BlockId → Regs} {b : BlockId}

/-! ### Reaching labels: the least solution -/

theorem mem_killSet {r : PseudoReg} : r ∈ killSet q g b ↔ ∃ i ∈ g.insns b, r ∈ q.defsRegs i := by
  simp [killSet, mem_foldl_union]

theorem mem_websIn {x : PseudoReg} : x ∈ websIn g live outs b ↔
    (∃ p ∈ g.blocks, b ∈ g.succs p ∧ x ∈ outs p) ∧
      ∃ r, LiveReg.reg r ∈ (live b).inn ∧ pseudoRegBase x = pseudoRegBase r := by
  simp only [websIn, mem_regsSelectBases, mem_foldl_union, List.not_mem_nil, false_or,
    List.mem_filter, decide_eq_true_eq, mem_liveRegs, and_assoc]

theorem mem_websOut {x : PseudoReg} : x ∈ websOut q g live gen outs b ↔
    (x ∈ websIn g live outs b ∧ ∀ k ∈ killSet q g b, pseudoRegBase x ≠ pseudoRegBase k) ∨
      x ∈ gen b := by
  simp [websOut, mem_regsEliminateBases]

theorem websOut_mono (h : ∀ c, outs c ⊆ outs' c) (b : BlockId) :
    websOut q g live gen outs b ⊆ websOut q g live gen outs' b := by
  intro x hx
  rcases mem_websOut.mp hx with ⟨hin, hk⟩ | hg
  · obtain ⟨⟨p, hp, hs, hxp⟩, hl⟩ := mem_websIn.mp hin
    exact mem_websOut.mpr (Or.inl ⟨mem_websIn.mpr ⟨⟨p, hp, hs, h p hxp⟩, hl⟩, hk⟩)
  · exact mem_websOut.mpr (Or.inr hg)

theorem nodup_websOut (b : BlockId) : (websOut q g live gen outs b).Nodup := by
  have h : (websOut q g live gen outs b).Pairwise (· < ·) :=
    sorted_regsUnion _ (sorted_regsEliminateBases (sorted_regsUnion _ List.Pairwise.nil))
  exact h.imp fun hlt => BitVec.ne_of_lt hlt

/-- The labels of all GEN sets. -/
def allGen (g : BlockGraph α) (gen : BlockId → Regs) : Finset PseudoReg :=
  (g.blocks.flatMap gen).toFinset

/-- The invariant of the iteration: the OUT sets grow, and hold labels of GEN sets. -/
structure Growing (q : WebQueries α) (g : BlockGraph α) (live : BlockId → LiveData)
    (gen outs : BlockId → Regs) : Prop where
  nodup : ∀ c, (outs c).Nodup
  grows : ∀ c, outs c ⊆ websOut q g live gen outs c
  labels : ∀ c, ∀ x ∈ outs c, x ∈ allGen g gen

theorem compute0_grows (h : Growing q g live gen outs) :
    ∀ c, outs c ⊆ (compute0 q g live gen b outs).1 c := by
  intro c x hx
  rw [compute0]
  split
  · by_cases hc : c = b
    · subst hc; simp only [Function.update_self]; exact h.grows c hx
    · simp only [Function.update_of_ne hc]; exact hx
  · exact hx

theorem Growing.step (h : Growing q g live gen outs) (hb : b ∈ g.blocks) :
    Growing q g live gen (compute0 q g live gen b outs).1 := by
  have hle := compute0_grows (b := b) h
  refine ⟨fun c => ?_, fun c x hx => ?_, fun c x hx => ?_⟩
  · rw [compute0]
    split
    · by_cases hc : c = b
      · subst hc; simp only [Function.update_self]; exact nodup_websOut c
      · simp only [Function.update_of_ne hc]; exact h.nodup c
    · exact h.nodup c
  · refine websOut_mono hle c ?_
    rw [compute0] at hx
    split at hx
    · by_cases hc : c = b
      · subst hc; simpa only [Function.update_self] using hx
      · simp only [Function.update_of_ne hc] at hx; exact h.grows c hx
    · exact h.grows c hx
  · rw [compute0] at hx
    split at hx
    · by_cases hc : c = b
      · subst hc
        simp only [Function.update_self] at hx
        rcases mem_websOut.mp hx with ⟨hin, _⟩ | hg
        · obtain ⟨⟨p, _, _, hxp⟩, _⟩ := mem_websIn.mp hin
          exact h.labels p x hxp
        · exact List.mem_toFinset.mpr (List.mem_flatMap.mpr ⟨c, hb, hg⟩)
      · simp only [Function.update_of_ne hc] at hx; exact h.labels c x hx
    · exact h.labels c x hx

/-- The total size of the OUT sets. -/
def outsSize (g : BlockGraph α) (outs : BlockId → Regs) : ℕ :=
  ∑ c ∈ g.blocks.toFinset, (outs c).length

theorem length_le_compute0 (h : Growing q g live gen outs) (c : BlockId) :
    (outs c).length ≤ ((compute0 q g live gen b outs).1 c).length :=
  (List.Subperm.length_le ((h.nodup c).subperm (compute0_grows h c)))

theorem outsSize_step (h : Growing q g live gen outs) (hb : b ∈ g.blocks) :
    outsSize g outs ≤ outsSize g (compute0 q g live gen b outs).1 ∧
      ((compute0 q g live gen b outs).2 = true →
        outsSize g outs < outsSize g (compute0 q g live gen b outs).1) := by
  refine ⟨Finset.sum_le_sum fun c _ => length_le_compute0 h c, fun hc => ?_⟩
  refine Finset.sum_lt_sum (fun c _ => length_le_compute0 h c)
    ⟨b, List.mem_toFinset.mpr hb, lt_of_le_of_ne (length_le_compute0 h b) ?_⟩
  rw [compute0] at hc ⊢
  split at hc
  · rename_i hne
    rw [if_pos hne]
    simp only [Function.update_self]
    exact fun he => hne he.symm
  · exact absurd hc (by simp)

theorem growing_nil : Growing q g live gen fun _ => [] :=
  ⟨fun _ => List.nodup_nil, fun _ => List.nil_subset _, fun _ _ hx => absurd hx List.not_mem_nil⟩

/-- The iteration ends. -/
theorem compute_ends (q : WebQueries α) (g : BlockGraph α) (live : BlockId → LiveData)
    (gen : BlockId → Regs) :
    ∃ n outs, iterate (compute0 q g live gen) g.blocks n (fun _ => []) = some outs := by
  have hN : ∀ outs, Growing q g live gen outs →
      outsSize g outs ≤ g.blocks.toFinset.card * (allGen g gen).card := by
    intro outs h
    rw [← smul_eq_mul, ← Finset.sum_const]
    refine Finset.sum_le_sum fun c _ => ?_
    rw [← List.toFinset_card_of_nodup (h.nodup c)]
    exact Finset.card_le_card fun x hx => h.labels c x (List.mem_toFinset.mp hx)
  obtain ⟨outs, h⟩ := iterate_ends (P := Growing q g live gen) (μ := outsSize g)
    (fun b hb _ h => h.step hb) (fun b hb _ h => (outsSize_step h hb).1)
    (fun b hb _ h => (outsSize_step h hb).2) hN
    (n := g.blocks.toFinset.card * (allGen g gen).card + 1) growing_nil (by omega)
  exact ⟨_, outs, h⟩

/-- When it has ended, the OUT sets are a solution, made of labels. -/
theorem compute_stable {n : ℕ}
    (h : iterate (compute0 q g live gen) g.blocks n (fun _ => []) = some outs) :
    (∀ c ∈ g.blocks, websOut q g live gen outs c ⊆ outs c) ∧
      ∀ c, ∀ x ∈ outs c, ∃ p ∈ g.blocks, x ∈ gen p := by
  have hg : Growing q g live gen outs := iterate_inv (fun b hb _ h => h.step hb) h growing_nil
  have hidle : ∀ b st, (compute0 q g live gen b st).2 = false →
      (compute0 q g live gen b st).1 = st := by
    intro b st hf
    rw [compute0] at hf ⊢
    split at hf
    · exact absurd hf (by simp)
    · rename_i hne; rw [if_neg hne]
  have hst := iterate_stable hidle h
  refine ⟨fun c hc => ?_, fun c x hx => ?_⟩
  · have hf := hst c hc
    rw [compute0] at hf
    split at hf
    · exact absurd hf (by simp)
    · rename_i hlen
      have hperm := (((hg.nodup c).subperm (hg.grows c)).perm_of_length_le
        (le_of_eq (not_not.mp hlen)))
      exact fun x hx => hperm.symm.subset hx
  · exact List.mem_flatMap.mp (List.mem_toFinset.mp (hg.labels c x hx))

/-! ### What the labels tell -/

/-- The DEF of `r` by the insn at `d` reaches the insn at position `n` of the block `b`. -/
inductive DefReaches (q : WebQueries α) (g : BlockGraph α) (r : PseudoReg) (d : BlockId × ℕ) :
    BlockId → ℕ → Prop
  | defn {i : α} : d.1 ∈ g.blocks → (g.insns d.1)[d.2]? = some i → r ∈ q.defsRegs i →
      DefReaches q g r d d.1 (d.2 + 1)
  | insn {b : BlockId} {n : ℕ} {i : α} : DefReaches q g r d b n → (g.insns b)[n]? = some i →
      r ∉ q.defsRegs i → DefReaches q g r d b (n + 1)
  | edge {b c : BlockId} : DefReaches q g r d b (g.insns b).length → c ∈ g.succs b →
      DefReaches q g r d c 0

/-- No insn in front of position `n`, from position `m` on, DEFs the register. -/
def NoDef (q : WebQueries α) (r : PseudoReg) (l : List α) (m n : ℕ) : Prop :=
  ∀ k j, m ≤ k → k < n → l[k]? = some j → r ∉ q.defsRegs j

theorem DefReaches.mem {r : PseudoReg} {d : BlockId × ℕ} {n : ℕ} (h : DefReaches q g r d b n) :
    b ∈ g.blocks := by
  induction h with
  | defn hd => exact hd
  | insn _ _ _ ih => exact ih
  | edge _ hs ih => exact g.closed _ ih _ hs

theorem DefReaches.defs {r : PseudoReg} {d : BlockId × ℕ} {n : ℕ} (h : DefReaches q g r d b n) :
    d.1 ∈ g.blocks ∧ ∃ i, (g.insns d.1)[d.2]? = some i ∧ r ∈ q.defsRegs i := by
  induction h with
  | defn hd hi hr => exact ⟨hd, _, hi, hr⟩
  | insn _ _ _ ih => exact ih
  | edge _ _ ih => exact ih

/-- A label that reaches a position was handed out in the block, or is in the IN set, if the register
    is live there. -/
theorem label_reaches {st : WebState α} {A : Appearances q}
    {ν : BlockId → ℕ → Occ → PseudoReg} {ℓ : BlockId → ℕ → PseudoReg → PseudoReg}
    (hst : LabelledBlocks A g live g.blocks st ν ℓ)
    (hlive : ∀ b ∈ g.blocks, ∀ r, (.reg r ∈ (live b).inn ↔ LiveAt q.toQueries g (.reg r) b) ∧
      (.reg r ∈ (live b).out ↔ ∃ c ∈ g.succs b, .reg r ∈ (live c).inn))
    (hsol : ∀ c ∈ g.blocks, websOut q g live st.gen outs c ⊆ outs c)
    (hbase : ∀ b ∈ g.blocks, ∀ i ∈ g.insns b, ∀ r ∈ q.defsRegs i, pseudoRegBase r = r)
    {r : PseudoReg} (hp : regPhysical r = false) {d : BlockId × ℕ} {n : ℕ}
    (h : DefReaches q g r d b n) :
    (d.1 = b ∧ d.2 < n ∧ NoDef q r (g.insns b) (d.2 + 1) n) ∨
      (NoDef q r (g.insns b) 0 n ∧
        (.reg r ∈ (live b).inn → ℓ d.1 d.2 r ∈ websIn g live outs b)) := by
  obtain ⟨hd, i₀, hi₀, hr₀⟩ := h.defs
  obtain ⟨hlab, -, -⟩ := hst.label d.1 hd d.2 i₀ hi₀ r hr₀ hp
  have hrr : pseudoRegBase r = r := hbase d.1 hd i₀ (List.mem_of_getElem? hi₀) r hr₀
  induction h with
  | defn hdb hi hr =>
    refine Or.inl ⟨rfl, Nat.lt_succ_self _, fun k j hk hkn => ?_⟩
    omega
  | @insn b n i hprev hi hr ih =>
    have hext : ∀ m, NoDef q r (g.insns b) m n → NoDef q r (g.insns b) m (n + 1) := by
      intro m hno k j hk hkn hj
      rcases Nat.lt_succ_iff_lt_or_eq.mp hkn with hkn | rfl
      · exact hno k j hk hkn hj
      · obtain rfl := Option.some.inj (hi.symm.trans hj)
        exact hr
    rcases ih with ⟨hdb, hlt, hno⟩ | ⟨hno, hin⟩
    · exact Or.inl ⟨hdb, hlt.trans (Nat.lt_succ_self n), hext _ hno⟩
    · exact Or.inr ⟨hext _ hno, hin⟩
  | @edge b c hprev hc ih =>
    have hb := hprev.mem
    refine Or.inr ⟨fun k j _ hk => absurd hk (Nat.not_lt_zero k), fun hlc => ?_⟩
    have hout : ℓ d.1 d.2 r ∈ outs b := by
      refine hsol b hb (mem_websOut.mpr ?_)
      rcases ih with ⟨rfl, hlt, hno⟩ | ⟨hno, hin⟩
      · -- the DEF is the last one of its block
        refine Or.inr (hst.last d.1 hd d.2 i₀ hi₀ r hr₀ hp (fun m j hm hj => ?_) ?_)
        · have hml : m < (g.insns d.1).length := (List.getElem?_eq_some_iff.mp hj).1
          exact hno m j hm hml hj
        · exact ((hlive d.1 hd r).2).mpr ⟨c, hc, hlc⟩
      · have hno' : ∀ j ∈ g.insns b, r ∉ q.defsRegs j := by
          intro j hj
          obtain ⟨k, hk⟩ := List.mem_iff_getElem?.mp hj
          exact hno k j (Nat.zero_le k) (List.getElem?_eq_some_iff.mp hk).1 hk
        refine Or.inl ⟨hin ?_, fun k hk he => ?_⟩
        · refine ((hlive b hb r).1).mpr (LiveAt.succ (fun j hj => ?_) hc
            (((hlive c (g.closed b hb c hc) r).1).mp hlc))
          exact decide_eq_false (hno' j hj)
        · obtain ⟨j, hj, hkj⟩ := mem_killSet.mp hk
          rw [hlab, hbase b hb j hj k hkj] at he
          exact hno' j hj (he ▸ hkj)
    refine mem_websIn.mpr ⟨⟨b, hb, hc, hout⟩, r, hlc, ?_⟩
    rw [hlab, hrr]

end

end Ncc.Webs
