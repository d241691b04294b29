import Ncc.Live
import Ncc.Lib.Since

/-! Tests against zero (testz.c): the replacement of AND and CMP by TEST in target-independent code,
    and the removal of redundant tests in target code.

    `middle0` asks the local live ranges only, so it does not see that the result of the AND is live
    out of the block; and of a single SETcc that uses the codes it does not see which it is.
    `late0` remembers the register the Z flag was set from, also when the register is redefined by
    an insn that leaves the condition codes alone. -/

namespace Ncc.Testz

/-- The codes that a test against zero is good for. -/
def zs : CcSet := {.z, .nz}

/-- The live data of a block (`live_analyze_ccs`). -/
def blockLive (x : Block) : Live :=
  liveAnalyzeLocal insnQueries x.insns (blockConditional x) x.control

/-- Does `middle0` replace the insn at index `n` and the next? -/
def replaces (x : Block) (live : Live) (n : Nat) (insn next : Insn) : Bool :=
  match insn.op, insn.dst, insnTestZ next with
  | .and, some ⟨_, .reg dst, _⟩, some reg =>
    let ccs := liveCcs insnQueries live (blockCcs x) next (.insn (n + 1))
    reg == dst &&
      (match rangeByDef live (.reg dst) (.insn n) with
        | some r => decide (r.last = .insn (n + 1))
        | none => true) &&
      decide (ccs = ccs ∩ zs)
  | _, _, _ => false

/-- The loop in `middle0`, from index `n` on. -/
def middleInsns (x : Block) (live : Live) : Nat → List Insn → List Insn
  | n, insn :: next :: insns =>
    if replaces x live n insn next then
      insnNew .test none insn.src1 insn.src2 :: insnNew .nop :: middleInsns x live (n + 2) insns
    else insn :: middleInsns x live (n + 1) (next :: insns)
  | _, insns => insns

/-- The insns of a block after `middle0`. -/
def middle0 (x : Block) : List Insn := middleInsns x (blockLive x) 0 x.insns

/-- `middle0` replaces `insn` and `next` in the block; `pre` and `rest` are around them. -/
structure Replaced (x : Block) (pre : List Insn) (insn next : Insn) (rest : List Insn) : Prop where
  insns : x.insns = pre ++ insn :: next :: rest
  replaces : replaces x (blockLive x) pre.length insn next = true

/-! ### What a replacement must not break -/

/-- After `seen`, which does not redefine `r`, the insns `rest` read `r` before they redefine it. -/
def ReadFirst (r : PseudoReg) (seen rest : List Insn) : Prop :=
  ∃ l₁ i l₂, rest = l₁ ++ i :: l₂ ∧ r ∈ insnUsesRegs i ∧ ∀ j ∈ seen ++ l₁, r ∉ insnDefsRegs j

/-- The insns leave `r` alone. -/
def Keeps (r : PseudoReg) (insns : List Insn) : Prop := ∀ i ∈ insns, r ∉ insnDefsRegs i

/-- On some path from the start of `b` the register is read before it is redefined. -/
inductive LiveIn (f : Func) (r : PseudoReg) : BlockId → Prop
  | read {b : BlockId} : ReadFirst r [] (f.block b).insns → LiveIn f r b
  | control {b : BlockId} : Keeps r (f.block b).insns → r ∈ operandRegs (f.block b).control →
      LiveIn f r b
  | succ {b c : BlockId} : Keeps r (f.block b).insns → c ∈ f.succs b → LiveIn f r c → LiveIn f r b

/-- The value `r` had before `seen` is read after it: by `rest`, by the control of the block or in a
    block that is reached from there. -/
def ReadAfter (f : Func) (b : BlockId) (r : PseudoReg) (seen rest : List Insn) : Prop :=
  ReadFirst r seen rest ∨ (Keeps r (seen ++ rest) ∧
    (r ∈ operandRegs (f.block b).control ∨ ∃ c ∈ f.succs b, LiveIn f r c))

/-- The SETccs among `rest` that see the codes from before it are SETZ or SETNZ. -/
def SetccsZ (rest : List Insn) : Prop :=
  ∀ l₁ i l₂, rest = l₁ ++ i :: l₂ → (∀ j ∈ l₁, insnDefsCc j = false) → insnUsesCc i ⊆ zs

/-- The branch at the end of the block is a Z or NZ branch, if it sees the codes from before
    `rest`. -/
def BranchZ (x : Block) (rest : List Insn) : Prop :=
  (∀ j ∈ rest, insnDefsCc j = false) → blockConditional x = true → blockCcs x ⊆ zs

/-- What `middle0` claims of a replacement: the result of the AND is not read after the comparison,
    and the codes of the comparison are used as Z or NZ only. -/
def Harmless (f : Func) (b : BlockId) (insn next : Insn) (rest : List Insn) : Prop :=
  (∀ r ∈ operandRegs insn.dst, ¬ ReadAfter f b r [next] rest) ∧
    SetccsZ rest ∧ BranchZ (f.block b) rest

/-! ### What the checks of `middle0` imply -/

section
variable {x : Block} {pre rest : List Insn} {insn next : Insn}

theorem Replaced.spec (h : Replaced x pre insn next rest) : ∃ ts n dst,
    insn.op = .and ∧ insn.dst = some ⟨ts, .reg dst, n⟩ ∧ insnTestZ next = some dst ∧
      (∀ r, rangeByDef (blockLive x) (.reg dst) (.insn pre.length) = some r →
        r.last = .insn (pre.length + 1)) ∧
      liveCcs insnQueries (blockLive x) (blockCcs x) next (.insn (pre.length + 1)) ⊆ zs := by
  have hr := h.replaces
  unfold Testz.replaces at hr
  split at hr
  · rename_i ts dst n reg hop hdst htest
    simp only [Bool.and_eq_true, beq_iff_eq, decide_eq_true_eq] at hr
    obtain ⟨⟨rfl, hlast⟩, hccs⟩ := hr
    refine ⟨ts, n, reg, hop, hdst, htest, fun r hr' => ?_, ?_⟩
    · rw [hr'] at hlast
      exact of_decide_eq_true hlast
    · rw [hccs]
      exact Finset.inter_subset_right
  · exact absurd hr (by simp)

end

theorem replaces_of_and {x : Block} {live : Live} {n : Nat} {i insn : Insn} (h : insn.op = .and) :
    replaces x live n i insn = false := by
  have hz : insnTestZ insn = none := by simp [insnTestZ, insnTestCon, h]
  unfold replaces
  rw [hz]
  split
  · rename_i heq; exact absurd heq (by simp)
  · rfl

theorem middleInsns_replaced {x : Block} {live : Live} {insn next : Insn} {rest : List Insn}
    (hop : insn.op = .and) : ∀ (p : List Insn) (n : Nat),
      replaces x live (n + p.length) insn next = true →
      (middleInsns x live n (p ++ insn :: next :: rest))[p.length]? =
          some (insnNew .test none insn.src1 insn.src2) ∧
        (middleInsns x live n (p ++ insn :: next :: rest))[p.length + 1]? = some (insnNew .nop)
  | [], n, hr => by
      rw [List.length_nil, Nat.add_zero] at hr
      rw [List.nil_append, middleInsns, if_pos hr]
      exact ⟨rfl, rfl⟩
  | [i], n, hr => by
      rw [List.length_singleton] at hr
      rw [List.singleton_append, middleInsns, replaces_of_and hop, if_neg (by decide), middleInsns,
        if_pos hr]
      exact ⟨rfl, rfl⟩
  | i :: i' :: p, n, hr => by
      simp only [List.length_cons] at hr
      rw [List.cons_append, List.cons_append, middleInsns]
      split
      · exact middleInsns_replaced hop p (n + 2) (by rwa [Nat.add_assoc, Nat.add_comm 2])
      · exact middleInsns_replaced hop (i' :: p) (n + 1)
          (by rw [List.length_cons]; rwa [Nat.add_assoc, Nat.add_comm 1])

/-- What `middle0` leaves of the two insns. -/
theorem Replaced.middle0 {x : Block} {pre rest : List Insn} {insn next : Insn}
    (h : Replaced x pre insn next rest) :
    (middle0 x)[pre.length]? = some (insnNew .test none insn.src1 insn.src2) ∧
      (middle0 x)[pre.length + 1]? = some (insnNew .nop) := by
  obtain ⟨_, _, _, hop, _, _, _, _⟩ := h.spec
  have hr : Testz.replaces x (blockLive x) (0 + pre.length) insn next = true := by
    rw [Nat.zero_add]; exact h.replaces
  rw [Testz.middle0, h.insns]
  exact middleInsns_replaced hop pre 0 hr

/-- What the target tells about an insn. A test has no effect except to set the condition codes, and
    I_NOP has none. -/
structure TargetQueries (α : Type*) extends Queries α where
  defsZ : α → Option PseudoReg
  testZ : α → Option PseudoReg
  nop : α
  testZ_defsRegs : ∀ i r, testZ i = some r → defsRegs i = []
  nop_defsRegs : defsRegs nop = []
  nop_defsCc : defsCc nop = false
  nop_defsZ : defsZ nop = none
  nop_testZ : testZ nop = none

section
variable {α : Type*} (q : TargetQueries α)

/-- `z_reg` after an insn; `none` is PSEUDO_REG_NONE. -/
def lateReg (z : Option PseudoReg) (insn : α) : Option PseudoReg :=
  match q.defsZ insn with
  | some reg => some reg
  | none =>
    if (q.testZ insn).isSome ∧ q.testZ insn = z then z
    else if q.defsCc insn then none else z

/-- Does `late0` replace the insn when `z_reg` is `z`? `ok` is the check of the codes that are used,
    on an insn and its index. -/
def lateReplaces (ok : α × Nat → Bool) (z : Option PseudoReg) (insn : α × Nat) : Bool :=
  (q.defsZ insn.1).isNone && (q.testZ insn.1).isSome && decide (q.testZ insn.1 = z) && ok insn

/-- The loop in `late0`; every insn comes with its index. -/
def lateInsns (ok : α × Nat → Bool) (z : Option PseudoReg) : List (α × Nat) → List α
  | [] => []
  | insn :: insns =>
    (if lateReplaces q ok z insn then q.nop else insn.1) ::
      lateInsns ok (lateReg q z insn.1) insns

/-- The codes of an insn are used as Z or NZ only, as far as `live_ccs` can tell. -/
def usedAsZ (live : Live) (ccs : CcSet) (insn : α × Nat) : Bool :=
  decide (liveCcs q.toQueries live ccs insn.1 (.insn insn.2) =
    liveCcs q.toQueries live ccs insn.1 (.insn insn.2) ∩ zs)

/-- The insns of a block after `late0`. -/
def late0 (insns : List α) (conditional : Bool) (ccs : CcSet) (control : Option Operand) : List α :=
  lateInsns q (usedAsZ q (liveAnalyzeLocal q.toQueries insns conditional control) ccs) none
    insns.zipIdx

/-- The insn sets the Z flag from the register. -/
def SetsZ (r : PseudoReg) (insn : α) : Prop :=
  q.defsZ insn = some r ∨ (q.defsZ insn = none ∧ q.testZ insn = some r)

/-- After `insns`, the last insn that changed the condition codes set Z from `r`, and `r` was not
    redefined since. -/
def Redundant (r : PseudoReg) (insns : List α) : Prop :=
  Since (SetsZ q r) (fun j => q.defsCc j = false ∧ r ∉ q.defsRegs j) insns

/-- The insn leaves the codes alone, or is a test of `r`; in both cases `z_reg` stays `r`. -/
def Carries (r : PseudoReg) (insn : α) : Prop :=
  q.defsZ insn = none ∧ (q.testZ insn = some r ∨ q.defsCc insn = false)

/-- Among `insns`, an insn sets Z from `r` as a side effect, and after it `r` is redefined while all
    insns carry on; no test of `r` that has to stay sets Z again after that. -/
def Stale (ok : α × Nat → Bool) (r : PseudoReg) (insns : List (α × Nat)) : Prop :=
  ∃ l₁ i l₂ j l₃, insns = l₁ ++ i :: l₂ ++ j :: l₃ ∧ q.defsZ i.1 = some r ∧
    (∀ x ∈ l₂ ++ j :: l₃, Carries q r x.1) ∧ r ∈ q.defsRegs j.1 ∧
      ∀ x ∈ l₃, q.testZ x.1 = some r → ok x = true

variable {q} {ok : α × Nat → Bool} {r : PseudoReg}

theorem lateInsns_append (l : List (α × Nat)) : ∀ (pre : List (α × Nat)) (z : Option PseudoReg),
    lateInsns q ok z (pre ++ l) = lateInsns q ok z pre ++
      lateInsns q ok ((pre.map Prod.fst).foldl (lateReg q) z) l
  | [], _ => rfl
  | i :: pre, z => by
      rw [List.cons_append, lateInsns, lateInsns_append l pre, lateInsns, List.cons_append,
        List.map_cons, List.foldl_cons]

theorem lateReg_eq_some {z : Option PseudoReg} {x : α} : lateReg q z x = some r ↔
    q.defsZ x = some r ∨ (z = some r ∧ Carries q r x) := by
  unfold lateReg Carries
  cases hd : q.defsZ x with
  | some r' => simp
  | none =>
    cases ht : q.testZ x with
    | none => cases hc : q.defsCc x <;> simp
    | some t =>
      by_cases hz : some t = z
      · subst hz
        simp only [Option.isSome_some, true_and, if_true, Option.some.injEq, reduceCtorEq, false_or]
        exact ⟨fun h => ⟨h, Or.inl h⟩, fun h => h.1⟩
      · cases hc : q.defsCc x
        · simp [hz]
        · simp only [Option.isSome_some, hz, and_false, if_false, if_true, reduceCtorEq, false_or,
            true_and, Bool.true_eq_false, or_false, false_iff, not_and]
          rintro rfl ht'
          exact hz ht'

/-- What the remembered register says about the insns before. -/
theorem lateReg_foldl {l : List (α × Nat)} : (l.map Prod.fst).foldl (lateReg q) none = some r ↔
    Since (fun i => q.defsZ i.1 = some r) (fun x => Carries q r x.1) l := by
  induction l using List.reverseRecOn with
  | nil => simp
  | append_singleton l x ih =>
    rw [List.map_append, List.foldl_append, List.map_singleton, List.foldl_cons, List.foldl_nil,
      lateReg_eq_some, ih, since_snoc]

theorem stale_snoc {l : List (α × Nat)} {x : α × Nat} : Stale q ok r (l ++ [x]) ↔
    Carries q r x.1 ∧ ((Stale q ok r l ∧ (q.testZ x.1 = some r → ok x = true)) ∨
      (r ∈ q.defsRegs x.1 ∧
        Since (fun i => q.defsZ i.1 = some r) (fun x => Carries q r x.1) l)) := by
  constructor
  · rintro ⟨l₁, i, l₂, j, l₃, hl, hz, hall, hj, hok⟩
    rcases List.eq_nil_or_concat' l₃ with rfl | ⟨l₃', y, rfl⟩
    · obtain ⟨rfl, hx⟩ := List.append_inj' hl rfl
      obtain rfl := (List.cons.inj hx).1
      exact ⟨hall x (by simp), Or.inr ⟨hj, l₁, i, l₂, rfl, hz, fun y hy => hall y (by simp [hy])⟩⟩
    · have hl' : l ++ [x] = (l₁ ++ i :: l₂ ++ j :: l₃') ++ [y] := by rw [hl]; simp
      obtain ⟨rfl, hx⟩ := List.append_inj' hl' rfl
      obtain rfl := (List.cons.inj hx).1
      refine ⟨hall x (by simp), Or.inl ⟨⟨l₁, i, l₂, j, l₃', rfl, hz, fun y hy => hall y ?_, hj,
        fun y hy => hok y (by simp [hy])⟩, hok x (by simp)⟩⟩
      simp only [List.mem_append, List.mem_cons] at hy ⊢
      tauto
  · rintro ⟨hx, ⟨⟨l₁, i, l₂, j, l₃, rfl, hz, hall, hj, hok⟩, hok'⟩ | ⟨hj, l₁, i, l₂, rfl, hz, hall⟩⟩
    · refine ⟨l₁, i, l₂, j, l₃ ++ [x], by simp, hz, fun y hy => ?_, hj, fun y hy => ?_⟩
      · rw [← List.cons_append, ← List.append_assoc] at hy
        rcases List.mem_append.mp hy with hy | hy
        · exact hall y hy
        · rw [List.mem_singleton.mp hy]; exact hx
      · rcases List.mem_append.mp hy with hy | hy
        · exact hok y hy
        · rw [List.mem_singleton.mp hy]; exact hok'
    · refine ⟨l₁, i, l₂, x, [], by simp, hz, fun y hy => ?_, hj, by simp⟩
      rcases List.mem_append.mp hy with hy | hy
      · exact hall y hy
      · rw [List.mem_singleton.mp hy]; exact hx

/-- While `z_reg` is `r`, a test of `r` is redundant unless `r` is stale. -/
theorem redundant_iff (l : List (α × Nat))
    (hz : (l.map Prod.fst).foldl (lateReg q) none = some r) :
    Redundant q r (lateInsns q ok none l) ↔ ¬ Stale q ok r l := by
  induction l using List.reverseRecOn with
  | nil => simp at hz
  | append_singleton l x ih =>
    have hsince := lateReg_foldl.mp hz
    rw [since_snoc] at hsince
    rw [lateInsns_append, stale_snoc]
    simp only [lateInsns]
    unfold Redundant at ih ⊢
    rw [since_snoc]
    rcases hsince with hdz | ⟨hsince, hcarry⟩
    · -- the insn sets Z from `r` as a side effect
      have hrep : lateReplaces q ok ((l.map Prod.fst).foldl (lateReg q) none) x = false := by
        simp [lateReplaces, hdz]
      rw [hrep, if_neg (by decide)]
      refine iff_of_true (Or.inl (Or.inl hdz)) ?_
      rintro ⟨⟨hnone, _⟩, _⟩
      rw [hdz] at hnone
      exact absurd hnone (by simp)
    · have hz' := lateReg_foldl.mpr hsince
      rw [hz']
      obtain ⟨hdz, htest⟩ := hcarry
      by_cases ht : q.testZ x.1 = some r
      · -- a test of `r`, which stays unless it is good for nothing but Z
        have hregs := q.testZ_defsRegs _ _ ht
        cases hok : ok x with
        | true =>
          have hrep : lateReplaces q ok (some r) x = true := by
            simp [lateReplaces, hdz, ht, hok]
          have hnop : ¬ SetsZ q r q.nop := by simp [SetsZ, q.nop_defsZ, q.nop_testZ]
          have hquiet : q.defsCc q.nop = false ∧ r ∉ q.defsRegs q.nop :=
            ⟨q.nop_defsCc, by rw [q.nop_defsRegs]; exact List.not_mem_nil⟩
          rw [hrep, if_pos rfl, or_iff_right hnop, and_iff_left hquiet, ih hz']
          refine not_congr ⟨fun h => ⟨⟨hdz, Or.inl ht⟩, Or.inl ⟨h, fun _ => rfl⟩⟩, ?_⟩
          rintro ⟨_, ⟨h, _⟩ | ⟨h, _⟩⟩
          · exact h
          · rw [hregs] at h; exact absurd h List.not_mem_nil
        | false =>
          have hrep : lateReplaces q ok (some r) x = false := by
            rw [lateReplaces, hok, Bool.and_false]
          rw [hrep, if_neg (by decide)]
          refine iff_of_true (Or.inl (Or.inr ⟨hdz, ht⟩)) ?_
          rintro ⟨_, ⟨_, h⟩ | ⟨h, _⟩⟩
          · exact absurd (h ht) (by simp)
          · rw [hregs] at h; exact absurd h List.not_mem_nil
      · -- an insn that leaves the codes alone
        have hcc := htest.resolve_left ht
        have hrep : lateReplaces q ok (some r) x = false := by
          simp [lateReplaces, ht]
        have hnot : ¬ SetsZ q r x.1 := by
          rintro (h | ⟨_, h⟩)
          · rw [hdz] at h; exact absurd h (by simp)
          · exact ht h
        rw [hrep, if_neg (by decide), or_iff_right hnot, ih hz']
        constructor
        · rintro ⟨hs, _, hr⟩ ⟨_, ⟨h, _⟩ | ⟨h, _⟩⟩
          · exact hs h
          · exact hr h
        · intro h
          have hc : Carries q r x.1 := ⟨hdz, Or.inr hcc⟩
          exact ⟨fun hs => h ⟨hc, Or.inl ⟨hs, fun h' => absurd h' ht⟩⟩, hcc,
            fun hr => h ⟨hc, Or.inr ⟨hr, hsince⟩⟩⟩

end

/-- A machine that executes the insns, as far as the queries describe it. -/
structure Machine {α : Type*} (q : TargetQueries α) (S : Type) where
  step : α → S → S
  reg : S → PseudoReg → Word
  zf : S → Bool
  setsZ : ∀ i s r, SetsZ q r i → zf (step i s) = (reg (step i s) r == 0)
  keeps_zf : ∀ i s, q.defsCc i = false → zf (step i s) = zf s
  keeps_reg : ∀ i s r, r ∉ q.defsRegs i → reg (step i s) r = reg s r

/-- Execute a sequence of insns. -/
def Machine.run {α : Type*} {q : TargetQueries α} {S : Type} (m : Machine q S) (insns : List α)
    (s : S) : S := insns.foldl (fun s i => m.step i s) s

section
variable {α : Type*} (q : TargetQueries α)

/-- After `insns`, the last insn that changed the condition codes set Z from `r` and `r` was not
    redefined since; so the Z flag says whether `r` is zero. -/
def AlreadySet (r : PseudoReg) (insns : List α) : Prop :=
  Redundant q r insns ∧ ∀ (S : Type) (m : Machine q S) (s : S),
    m.zf (m.run insns s) = (m.reg (m.run insns s) r == 0)

variable {q}

theorem Redundant.zf {r : PseudoReg} {insns : List α} (h : Redundant q r insns) {S : Type}
    (m : Machine q S) (s : S) : m.zf (m.run insns s) = (m.reg (m.run insns s) r == 0) := by
  induction insns using List.reverseRecOn with
  | nil => exact absurd h since_nil
  | append_singleton l x ih =>
    have hrun : m.run (l ++ [x]) s = m.step x (m.run l s) := by
      rw [Machine.run, List.foldl_append]; rfl
    rw [hrun]
    rcases since_snoc.mp h with hx | ⟨hl, hcc, hr⟩
    · exact m.setsZ x _ r hx
    · rw [m.keeps_zf x _ hcc, m.keeps_reg x _ r hr]
      exact ih hl

theorem Stale.since {ok : α × Nat → Bool} {r : PseudoReg} {l : List (α × Nat)}
    (h : Stale q ok r l) :
    Since (fun i => q.defsZ i.1 = some r) (fun x => Carries q r x.1) l := by
  obtain ⟨l₁, i, l₂, j, l₃, rfl, hz, hall, _⟩ := h
  exact ⟨l₁, i, l₂ ++ j :: l₃, by simp, hz, hall⟩

end

/-- In a block of target insns, the tests that `late0` replaces are redundant exactly when none of
    the tests that are used as Z or NZ only is a test of a stale register. -/
theorem late0_redundant_iff {α : Type*} (q : TargetQueries α) (insns : List α)
    (conditional : Bool) (ccs : CcSet) (control : Option Operand) :
    let ok := usedAsZ q (liveAnalyzeLocal q.toQueries insns conditional control) ccs
    (∀ pre t rest r, insns.zipIdx = pre ++ t :: rest → q.testZ t.1 = some r →
        lateReplaces q ok ((pre.map Prod.fst).foldl (lateReg q) none) t = true →
        AlreadySet q r ((late0 q insns conditional ccs control).take pre.length)) ↔
      ∀ pre t rest r, insns.zipIdx = pre ++ t :: rest → q.testZ t.1 = some r →
        q.defsZ t.1 = none → ok t = true → ¬ Stale q ok r pre := by
  intro ok
  have hlength : ∀ (l : List (α × Nat)) z, (lateInsns q ok z l).length = l.length := by
    intro l
    induction l with
    | nil => exact fun _ => rfl
    | cons i l ih => exact fun z => congrArg (· + 1) (ih _)
  have htake : ∀ pre t rest, insns.zipIdx = pre ++ t :: rest →
      (late0 q insns conditional ccs control).take pre.length = lateInsns q ok none pre := by
    intro pre t rest hl
    rw [late0, hl, lateInsns_append]
    exact List.take_left' (hlength pre none)
  constructor
  · intro h pre t rest r hl ht hd hok hstale
    have hz := lateReg_foldl.mpr hstale.since
    have hrep : lateReplaces q ok (some r) t = true := by simp [lateReplaces, hd, ht, hok]
    have hset := (h pre t rest r hl ht (by rw [hz]; exact hrep)).1
    rw [htake pre t rest hl] at hset
    exact (redundant_iff pre hz).mp hset hstale
  · intro h pre t rest r hl ht hrep
    simp only [lateReplaces, ht, Option.isNone_iff_eq_none, Option.isSome_some, Bool.and_true,
      Bool.and_eq_true, decide_eq_true_eq] at hrep
    obtain ⟨⟨hd, hz⟩, hok⟩ := hrep
    rw [htake pre t rest hl]
    have hred := (redundant_iff pre hz.symm).mpr (h pre t rest r hl ht hd hok)
    exact ⟨hred, fun _ m s => hred.zf m s⟩

/-- Some AMD64 insns: `shlq $1,%r`, `movq %x,%r` and `cmpq $0,%r`. -/
inductive Amd64 where
  | shl (r : PseudoReg) | mov (r : PseudoReg) | cmp (r : PseudoReg) | nop
  deriving DecidableEq

/-- What the target tells about them. -/
def amd64Queries : TargetQueries Amd64 where
  defsRegs := fun | .shl r | .mov r => [r] | _ => []
  usesRegs := fun | .shl r | .cmp r => [r] | _ => []
  defsCc := fun | .shl _ | .cmp _ => true | _ => false
  usesCc := fun _ => ∅
  defsRegs_nodup i := by cases i <;> simp
  usesRegs_nodup i := by cases i <;> simp
  defsZ := fun | .shl r => some r | _ => none
  testZ := fun | .cmp r => some r | _ => none
  nop := .nop
  testZ_defsRegs i r h := by cases i <;> simp_all
  nop_defsRegs := rfl
  nop_defsCc := rfl
  nop_defsZ := rfl
  nop_testZ := rfl

/-- `shlq $1,%r12; movq %r13,%r12; cmpq $0,%r12; jnz`: the test is removed, and the branch depends on
    the value that was shifted. -/
theorem late0_stale : ¬ ∀ (α : Type) (q : TargetQueries α) (insns : List α) (conditional : Bool)
    (ccs : CcSet) (control : Option Operand) (pre : List (α × Nat)) (t : α × Nat)
    (rest : List (α × Nat)) (r : PseudoReg), insns.zipIdx = pre ++ t :: rest →
      q.testZ t.1 = some r → lateReplaces q
        (usedAsZ q (liveAnalyzeLocal q.toQueries insns conditional control) ccs)
        ((pre.map Prod.fst).foldl (lateReg q) none) t = true →
      AlreadySet q r ((late0 q insns conditional ccs control).take pre.length) := by
  intro h
  obtain ⟨l₁, i, l₂, hl, hz, hall⟩ := (h Amd64 amd64Queries [.shl 12, .mov 12, .cmp 12] true zs none
    [(.shl 12, 0), (.mov 12, 1)] (.cmp 12, 2) [] 12 rfl rfl (by decide)).1
  have hlist : [Amd64.shl 12, .mov 12] = l₁ ++ i :: l₂ := by rw [← hl]; decide
  rcases List.cons_eq_append_iff.mp hlist with ⟨rfl, hi⟩ | ⟨l, rfl, hi⟩
  · obtain ⟨rfl, rfl⟩ := List.cons.inj hi
    exact (hall (.mov 12) (List.mem_singleton_self _)).2 (by decide)
  · rcases List.cons_eq_append_iff.mp hi with ⟨rfl, hi'⟩ | ⟨l', rfl, hi'⟩
    · obtain ⟨rfl, rfl⟩ := List.cons.inj hi'
      rcases hz with hz | ⟨_, hz⟩ <;> exact absurd hz (by decide)
    · simp at hi'

end Ncc.Testz
