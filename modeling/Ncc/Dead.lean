import Ncc.Liveness
import Ncc.Trace

/-! Dead-store elimination (dead.c), and the incremental update of live ranges (live.c).

    `dead0` replaces insns that only write dead registers by I_NOP and patches the ranges of the
    block as it goes. The patched ranges are pessimistic: every definition that is left has a range
    that counts at least the uses it still reaches (`Pessimistic`), so an insn is replaced only if
    nothing that it writes is read afterwards. -/

namespace Ncc

/-- Replace the insns of a block. -/
def BlockGraph.setInsns {α : Type*} (g : BlockGraph α) (b : BlockId) (l : List α) : BlockGraph α :=
  { g with insns := Function.update g.insns b l }

namespace Dead

/-- What `dead0` asks about an insn, and I_NOP. -/
structure DeadQueries (α : Type*) extends Queries α where
  nop : α
  isNop : α → Bool
  defsMem : α → Bool
  sideEffects : α → Bool
  isNop_nop : isNop nop = true
  nop_uses : ∀ k, uses toQueries k nop = false
  nop_defines : ∀ k, defines toQueries k nop = false

/-- The queries on target-independent insns. -/
def insnDeadQueries : DeadQueries Insn where
  toQueries := insnQueries
  nop := insnNew .nop
  isNop i := decide (i.op = .nop)
  defsMem := insnDefsMem
  sideEffects := insnSideEffects
  isNop_nop := rfl
  nop_uses k := by cases k <;> rfl
  nop_defines k := by cases k <;> rfl

/-- `live_kill_insn`: the insn at the index is killed. When the ranges cannot be updated exactly, the
    rest of the list stays as it is and the answer is FALSE. -/
def liveKillInsn (index : InsnIndex) : Live → Live × Bool
  | [] => ([], true)
  | r :: live =>
    if r.defn = index then
      if r.uses ≠ 0 then (r :: live, false) else liveKillInsn index live
    else if r.last = index then
      if r.uses ≠ 1 ∨ r.defn = .before then (r :: live, false)
      else
        let rest := liveKillInsn index live
        ({ r with uses := 0, last := r.defn } :: rest.1, rest.2)
    else
      let rest := liveKillInsn index live
      (r :: rest.1, rest.2)

section
variable {α : Type*} (q : DeadQueries α)

/-- The registers an insn DEFs, and PSEUDO_REG_CC. -/
def defsLive (insn : α) : List LiveReg :=
  (q.defsRegs insn).map LiveReg.reg ++ if q.defsCc insn then [.cc] else []

/-- Does `dead0` replace the insn at index `n`? Every DEF has a range. -/
def killable (live : Live) (n : Nat) (insn : α) : Bool :=
  !q.isNop insn && !q.defsMem insn && !q.sideEffects insn &&
    (defsLive q insn).all fun k =>
      match rangeByDef live k (.insn n) with
      | some r => r.uses == 0
      | none => false

/-- What `dead0` keeps while it goes through a block. -/
structure DeadState where
  live : Live
  changes : Nat
  invalidated : Bool

/-- INSNS_FOREACH in `dead0`. -/
def deadInsns : Nat → List α → DeadState → List α × DeadState
  | _, [], st => ([], st)
  | n, insn :: insns, st =>
    if killable q st.live n insn then
      let x := liveKillInsn (.insn n) st.live
      let rest := deadInsns (n + 1) insns ⟨x.1, st.changes + 1, st.invalidated || !x.2⟩
      (q.nop :: rest.1, rest.2)
    else
      let rest := deadInsns (n + 1) insns st
      (insn :: rest.1, rest.2)

/-- The block being worked on, the live data of all blocks, and the flags. -/
structure DeadGraph (α : Type*) where
  graph : BlockGraph α
  live : BlockId → Live
  changed : Bool
  invalidated : Bool

/-- `dead0`, with fuel for the number of passes over the block. -/
def dead0 : Nat → BlockId → DeadGraph α → Option (DeadGraph α)
  | 0, _, _ => none
  | n + 1, b, x =>
    let y := deadInsns q 0 (x.graph.insns b) ⟨x.live b, 0, x.invalidated⟩
    let x' : DeadGraph α :=
      { graph := x.graph.setInsns b y.1
        live := Function.update x.live b y.2.live
        changed := x.changed || decide (y.2.changes ≠ 0)
        invalidated := y.2.invalidated }
    if y.2.changes ≠ 0 then dead0 n b x' else some x'

/-- `dead0` on every block. -/
def deadBlocks (n : Nat) : List BlockId → DeadGraph α → Option (DeadGraph α)
  | [], x => some x
  | b :: blocks, x => (dead0 q n b x).bind (deadBlocks n blocks)

/-- `live_analyze`, unless the ranges are still valid. -/
def analyzeIf (n : Nat) (invalidated : Bool) (g : BlockGraph α) (live : BlockId → Live) :
    Option (BlockId → Live) :=
  if invalidated then (liveAnalyze q.toQueries g n).map fun d b => (d b).ranges else some live

/-- The loop in `dead`. -/
def deadLoop (n : Nat) : Nat → Bool → BlockGraph α → (BlockId → Live) → Option (BlockGraph α)
  | 0, _, _, _ => none
  | m + 1, invalidated, g, live =>
    (analyzeIf q n invalidated g live).bind fun live =>
      (deadBlocks q n g.blocks ⟨g, live, false, false⟩).bind fun x =>
        if x.changed && x.invalidated then deadLoop n m x.invalidated x.graph x.live
        else some x.graph

/-- `dead`, up to the final `nop`; `n` is fuel for all of the loops. -/
def dead (n : Nat) (g : BlockGraph α) : Option (BlockGraph α) :=
  deadLoop q n n true g fun _ => []

end

/-! ### What a definition reaches, insn by insn -/

section
variable {α : Type*} (q : Queries α)

/-- From index `n` on, past a definition of `k`: the use at `u` is reached. `branch` says that the
    branch uses `k`, `out` that it is live out. -/
def ReachesFrom (k : LiveReg) (branch : Bool) (out : Prop) (n : Nat) (rest : List α)
    (u : InsnIndex) : Prop :=
  (∃ l₁ i l₂, rest = l₁ ++ i :: l₂ ∧ u = .insn (n + l₁.length) ∧ uses q k i = true ∧
      ∀ j ∈ l₁, defines q k j = false) ∨
    ((∀ j ∈ rest, defines q k j = false) ∧ ((u = .branch ∧ branch = true) ∨ (u = .after ∧ out)))

/-- The value of `k` is used, from the insns `rest` at the end of a block on. -/
def LiveFrom (g : BlockGraph α) (k : LiveReg) (b : BlockId) (rest : List α) : Prop :=
  (∃ l₁ i l₂, rest = l₁ ++ i :: l₂ ∧ uses q k i = true ∧ ∀ j ∈ l₁, defines q k j = false) ∨
    ((∀ j ∈ rest, defines q k j = false) ∧ (branchUses (g.conditional b) (g.control b) k = true ∨
      ∃ c ∈ g.succs b, LiveAt q g k c))

variable {q} {k : LiveReg} {branch : Bool} {out : Prop} {n : Nat} {u : InsnIndex}

theorem reachesFrom_cons {i : α} {rest : List α} :
    ReachesFrom q k branch out n (i :: rest) u ↔ (u = .insn n ∧ uses q k i = true) ∨
      (defines q k i = false ∧ ReachesFrom q k branch out (n + 1) rest u) := by
  constructor
  · rintro (⟨l₁, j, l₂, hl, rfl, hj, hall⟩ | ⟨hall, hu⟩)
    · rcases List.cons_eq_append_iff.mp hl with ⟨rfl, hj'⟩ | ⟨l, rfl, rfl⟩
      · obtain ⟨rfl, rfl⟩ := List.cons.inj hj'
        exact .inl ⟨rfl, hj⟩
      · refine .inr ⟨hall _ (List.mem_cons_self ..), .inl ⟨l, j, l₂, rfl, ?_, hj, fun x hx =>
          hall x (List.mem_cons_of_mem _ hx)⟩⟩
        rw [List.length_cons, Nat.add_comm l.length, Nat.add_assoc]
    · exact .inr ⟨hall _ (List.mem_cons_self ..),
        .inr ⟨fun j hj => hall j (List.mem_cons_of_mem _ hj), hu⟩⟩
  · rintro (⟨rfl, hi⟩ | ⟨hi, ⟨l₁, j, l₂, rfl, rfl, hj, hall⟩ | ⟨hall, hu⟩⟩)
    · exact .inl ⟨[], i, rest, rfl, rfl, hi, fun j hj => absurd hj List.not_mem_nil⟩
    · refine .inl ⟨i :: l₁, j, l₂, rfl, ?_, hj, List.forall_mem_cons.mpr ⟨hi, hall⟩⟩
      rw [List.length_cons, Nat.add_comm l₁.length, Nat.add_assoc]
    · exact .inr ⟨List.forall_mem_cons.mpr ⟨hi, hall⟩, hu⟩

/-- A use that is reached is not before the insns. -/
theorem ReachesFrom.ne {rest : List α} {m : Nat} (h : ReachesFrom q k branch out n rest u)
    (hm : m < n) : u ≠ .insn m := by
  rcases h with ⟨l₁, _, _, _, rfl, _⟩ | ⟨_, ⟨rfl, _⟩ | ⟨rfl, _⟩⟩
  · intro he
    have := InsnIndex.insn.inj he
    omega
  · simp
  · simp

theorem ReachesFrom.mono {out' : Prop} {rest : List α} (ho : out → out')
    (h : ReachesFrom q k branch out n rest u) : ReachesFrom q k branch out' n rest u :=
  h.imp_right fun h => ⟨h.1, h.2.imp_right fun h => ⟨h.1, ho h.2⟩⟩

variable {g : BlockGraph α} {b : BlockId}

theorem liveFrom_iff {rest : List α} (n : Nat) : LiveFrom q g k b rest ↔
    ∃ u, ReachesFrom q k (branchUses (g.conditional b) (g.control b) k)
      (∃ c ∈ g.succs b, LiveAt q g k c) n rest u := by
  constructor
  · rintro (⟨l₁, i, l₂, hl, hi, hall⟩ | ⟨hall, hbr | hout⟩)
    · exact ⟨_, .inl ⟨l₁, i, l₂, hl, rfl, hi, hall⟩⟩
    · exact ⟨_, .inr ⟨hall, .inl ⟨rfl, hbr⟩⟩⟩
    · exact ⟨_, .inr ⟨hall, .inr ⟨rfl, hout⟩⟩⟩
  · rintro ⟨u, ⟨l₁, i, l₂, hl, _, hi, hall⟩ | ⟨hall, ⟨_, hbr⟩ | ⟨_, hout⟩⟩⟩
    · exact .inl ⟨l₁, i, l₂, hl, hi, hall⟩
    · exact .inr ⟨hall, .inl hbr⟩
    · exact .inr ⟨hall, .inr hout⟩

theorem liveFrom_cons {i : α} {rest : List α} : LiveFrom q g k b (i :: rest) ↔
    uses q k i = true ∨ (defines q k i = false ∧ LiveFrom q g k b rest) := by
  rw [liveFrom_iff 0, liveFrom_iff 1]
  simp only [reachesFrom_cons, exists_or, exists_and_left, Nat.zero_add, exists_eq_left]

theorem liveAt_eq_liveFrom : LiveAt q g k b ↔ LiveFrom q g k b (g.insns b) := by
  constructor
  · intro h
    cases h with
    | use hl hi hall => exact .inl ⟨_, _, _, hl, hi, hall⟩
    | branch hall hbr => exact .inr ⟨hall, .inl hbr⟩
    | succ hall hc h => exact .inr ⟨hall, .inr ⟨_, hc, h⟩⟩
  · rintro (⟨l₁, i, l₂, hl, hi, hall⟩ | ⟨hall, hbr | ⟨c, hc, h⟩⟩)
    · exact .use hl hi hall
    · exact .branch hall hbr
    · exact .succ hall hc h

end

/-! ### Killing one insn -/

section
variable {α : Type*} {q : DeadQueries α} {g : BlockGraph α} {k : LiveReg} {b : BlockId}

/-- Nothing that the insn between `pre` and `post` writes is read afterwards. -/
def NotRead (q : Queries α) (g : BlockGraph α) (b : BlockId) (i : α) (post : List α) : Prop :=
  ∀ k, defines q k i = true → ¬ LiveFrom q g k b post

/-- `dead0` replaces an insn. -/
structure Kill (q : DeadQueries α) (g g' : BlockGraph α) (b : BlockId) (pre : List α) (i : α)
    (post : List α) : Prop where
  insns : g.insns b = pre ++ i :: post
  graph : g' = g.setInsns b (pre ++ q.nop :: post)
  defsMem : q.defsMem i = false
  sideEffects : q.sideEffects i = false
  notRead : NotRead q.toQueries g b i post

/-- Without the insn a use is reached only if it was reached before. -/
theorem reachesFrom_nop {branch : Bool} {out : Prop} {i : α} {post : List α} {u : InsnIndex}
    {m : Nat} (hdead : defines q.toQueries k i = true →
      ∀ u, ¬ ReachesFrom q.toQueries k branch out (m + 1) post u) :
    ∀ {pre : List α} {n : Nat}, n + pre.length = m →
      ReachesFrom q.toQueries k branch out n (pre ++ q.nop :: post) u →
      ReachesFrom q.toQueries k branch out n (pre ++ i :: post) u ∧ u ≠ .insn m
  | [], n, hm, h => by
      obtain rfl : n = m := hm
      rw [List.nil_append, reachesFrom_cons, q.nop_uses] at h
      obtain ⟨_, h⟩ := h.resolve_left (by simp)
      cases hd : defines q.toQueries k i with
      | true => exact absurd h (hdead hd u)
      | false =>
        exact ⟨reachesFrom_cons.mpr (.inr ⟨hd, h⟩), h.ne (Nat.lt_succ_self n)⟩
  | j :: pre, n, hm, h => by
      rw [List.length_cons] at hm
      rw [List.cons_append, reachesFrom_cons] at h ⊢
      rcases h with ⟨rfl, hj⟩ | ⟨hj, h⟩
      · refine ⟨.inl ⟨rfl, hj⟩, fun he => ?_⟩
        have := InsnIndex.insn.inj he
        omega
      · obtain ⟨h, hne⟩ := reachesFrom_nop hdead (by omega) h
        exact ⟨.inr ⟨hj, h⟩, hne⟩

variable {g' : BlockGraph α} {pre post : List α} {i : α}

theorem Kill.insns_eq (h : Kill q g g' b pre i post) (c : BlockId) :
    g'.insns c = if c = b then pre ++ q.nop :: post else g.insns c := by
  rw [h.graph]
  exact Function.update_apply ..

theorem Kill.dead (h : Kill q g g' b pre i post) {n : Nat}
    (hd : defines q.toQueries k i = true) (u : InsnIndex) :
    ¬ ReachesFrom q.toQueries k (branchUses (g.conditional b) (g.control b) k)
      (∃ c ∈ g.succs b, LiveAt q.toQueries g k c) n post u := fun hu =>
  h.notRead k hd ((liveFrom_iff n).mpr ⟨u, hu⟩)

/-- Killing an insn makes nothing live that was not. -/
theorem Kill.liveAt (h : Kill q g g' b pre i post) {c : BlockId}
    (hl : LiveAt q.toQueries g' k c) : LiveAt q.toQueries g k c := by
  have hmain : ∀ c, (LiveFrom q.toQueries g' k c (g'.insns c) →
      (∃ u, ReachesFrom q.toQueries k (branchUses (g.conditional c) (g.control c) k)
        (∃ d ∈ g.succs c, LiveAt q.toQueries g k d) 0 (g'.insns c) u) →
      LiveAt q.toQueries g k c) := by
    rintro c _ ⟨u, hu⟩
    rw [liveAt_eq_liveFrom, liveFrom_iff 0]
    rw [h.insns_eq] at hu
    by_cases hc : c = b
    · subst hc
      rw [if_pos rfl] at hu
      rw [h.insns]
      exact ⟨u, (reachesFrom_nop (fun hd u => h.dead hd u) (Nat.zero_add _) hu).1⟩
    · rw [if_neg hc] at hu
      exact ⟨u, hu⟩
  have hgraph : ∀ c, g'.conditional c = g.conditional c ∧ g'.control c = g.control c ∧
      g'.succs c = g.succs c := by
    intro c; rw [h.graph]; exact ⟨rfl, rfl, rfl⟩
  induction hl with
  | @use c l₁ l₂ j hl hj hall =>
    exact hmain c (.inl ⟨l₁, j, l₂, hl, hj, hall⟩) ⟨_, .inl ⟨l₁, j, l₂, hl, rfl, hj, hall⟩⟩
  | @branch c hall hbr =>
    obtain ⟨h₁, h₂, _⟩ := hgraph c
    rw [h₁, h₂] at hbr
    refine hmain c (.inr ⟨hall, .inl ?_⟩) ⟨_, .inr ⟨hall, .inl ⟨rfl, hbr⟩⟩⟩
    rw [h₁, h₂]; exact hbr
  | @succ c d hall hd hl ih =>
    obtain ⟨_, _, h₃⟩ := hgraph c
    rw [h₃] at hd
    refine hmain c (.inr ⟨hall, .inr ⟨d, ?_, hl⟩⟩) ⟨_, .inr ⟨hall, .inr ⟨rfl, d, hd, ih⟩⟩⟩
    rw [h₃]; exact hd

/-- Killing an insn makes no definition reach a use that it did not reach, and removes the uses of
    the insn. -/
theorem Kill.reaches (h : Kill q g g' b pre i post) {c : BlockId} {d u : InsnIndex}
    (hr : Reaches q.toQueries g' c k d u) :
    Reaches q.toQueries g c k d u ∧ (c = b → u ≠ .insn pre.length) := by
  obtain ⟨p, rest, hins, hd, hu⟩ := hr
  have hgraph : g'.conditional c = g.conditional c ∧ g'.control c = g.control c ∧
      g'.succs c = g.succs c := by
    rw [h.graph]; exact ⟨rfl, rfl, rfl⟩
  rw [hgraph.1, hgraph.2.1, hgraph.2.2] at hu
  have hu : ReachesFrom q.toQueries k (branchUses (g.conditional c) (g.control c) k)
      (∃ d ∈ g.succs c, LiveAt q.toQueries g k d) p.length rest u :=
    ReachesFrom.mono (fun ⟨d, hd, hl⟩ => ⟨d, hd, h.liveAt hl⟩) hu
  rw [h.insns_eq] at hins
  by_cases hc : c = b
  · subst hc
    rw [if_pos rfl] at hins
    -- where the definition is: before the insn, or after it
    rcases List.append_eq_append_iff.mp hins with ⟨t, rfl, ht⟩ | ⟨t, rfl, rfl⟩
    · rcases t with _ | ⟨x, t⟩
      · rw [List.append_nil] at hd hu
        rw [List.nil_append] at ht
        rw [← ht] at hu
        rw [← List.append_nil pre] at hd
        have hu₀ : ReachesFrom q.toQueries k (branchUses (g.conditional c) (g.control c) k)
            (∃ d ∈ g.succs c, LiveAt q.toQueries g k d) pre.length ([] ++ q.nop :: post) u := hu
        obtain ⟨hu', hne⟩ := reachesFrom_nop (fun hd u => h.dead hd u) rfl hu₀
        exact ⟨⟨pre, i :: post, h.insns, by rwa [List.append_nil] at hd, hu'⟩, fun _ => hne⟩
      · obtain ⟨rfl, rfl⟩ := List.cons.inj ht
        -- the definition is not the insn that was killed
        rcases hd with ⟨hnil, _⟩ | ⟨p, j, hp, rfl, hj⟩
        · exact absurd hnil (by simp)
        · rcases List.eq_nil_or_concat' t with rfl | ⟨t', y, rfl⟩
          · obtain ⟨_, he⟩ := List.append_inj' hp rfl
            rw [← (List.cons.inj he).1, q.nop_defines] at hj
            exact absurd hj (by simp)
          · have hp' : (pre ++ q.nop :: t') ++ [y] = p ++ [j] := by rw [← hp]; simp
            obtain ⟨rfl, he⟩ := List.append_inj' hp' rfl
            obtain ⟨rfl, _⟩ := List.cons.inj he
            refine ⟨⟨pre ++ i :: t' ++ [y], rest, by rw [h.insns]; simp,
              .inr ⟨pre ++ i :: t', y, rfl, by simp, hj⟩, ?_⟩, fun _ => hu.ne (by simp)⟩
            have hlen : (pre ++ i :: t' ++ [y]).length = (pre ++ q.nop :: (t' ++ [y])).length := by
              simp
            rw [hlen]
            exact hu
    · obtain ⟨hu', hne⟩ :=
        reachesFrom_nop (fun hd u => h.dead hd u) List.length_append.symm hu
      exact ⟨⟨p, t ++ i :: post, by rw [h.insns]; simp, hd, hu'⟩, fun _ => hne⟩
  · rw [if_neg hc] at hins
    exact ⟨⟨p, rest, hins, hd, hu⟩, fun hcb => absurd hcb hc⟩

end

/-! ### Patched ranges -/

section
variable {α : Type*} {q : DeadQueries α} {g g' : BlockGraph α} {k : LiveReg} {b : BlockId}

/-- The range counts at least the uses its definition reaches. -/
def Covers (q : Queries α) (g : BlockGraph α) (b : BlockId) (r : Range) : Prop :=
  ∃ us : List InsnIndex, (∀ u, Reaches q g b r.reg r.defn u → u ∈ us) ∧ r.uses = us.length ∧
    r.last = us.getLastD r.defn

/-- Every definition has a range that covers it. -/
def Pessimistic (q : Queries α) (g : BlockGraph α) (live : BlockId → Live) : Prop :=
  ∀ b ∈ g.blocks, ∀ p i rest k, g.insns b = p ++ i :: rest → defines q k i = true →
    ∃ r, rangeByDef (live b) k (.insn p.length) = some r ∧ Covers q g b r

theorem rangeByDef_spec {live : Live} {d : InsnIndex} {r : Range}
    (h : rangeByDef live k d = some r) : r.reg = k ∧ r.defn = d := by
  simpa using List.find?_some h

theorem mem_defIndices {q : Queries α} {i : α} (rest : List α) (hi : defines q k i = true) :
    ∀ (p : List α) (n : Nat), .insn (n + p.length) ∈ defIndices q k n (p ++ i :: rest)
  | [], n => by rw [List.nil_append, defIndices, if_pos hi]; exact List.mem_cons_self ..
  | j :: p, n => by
      have h := mem_defIndices rest hi p (n + 1)
      rw [Nat.add_assoc, Nat.add_comm 1] at h
      rw [List.cons_append, defIndices]
      split
      · exact List.mem_cons_of_mem _ h
      · exact h

/-- After the analysis the ranges are exact, so they cover. -/
theorem pessimistic_liveAnalyze {q : Queries α} {n : Nat} {d : BlockId → LiveData}
    (h : liveAnalyze q g n = some d) : Pessimistic q g fun b => (d b).ranges := by
  obtain ⟨st, hst, rfl⟩ := Option.map_eq_some_iff.mp h
  intro b hb p i rest k hins hi
  have hexact : RangesExact q g b k (liveAnalyzeFinal q g st b).ranges :=
    rangesExact (liveSets_exact hst hb).2
  have hmem : .insn p.length ∈ defIndices q k 0 (g.insns b) := by
    have hidx := mem_defIndices rest hi p 0
    rwa [Nat.zero_add, ← hins] at hidx
  have hhead : .insn p.length ∈ (chain k (liveAnalyzeFinal q g st b).ranges).map Range.defn := by
    by_cases hr : ∃ u, Reaches q g b k .before u
    · rw [hexact.reached hr]; exact List.mem_cons_of_mem _ hmem
    · rw [hexact.unreached hr]; exact hmem
  obtain ⟨r₀, hr₀, hd₀⟩ := List.mem_map.mp hhead
  rw [rangeByDef_eq]
  cases hfind : (chain k (liveAnalyzeFinal q g st b).ranges).find?
      fun r => decide (r.defn = .insn p.length) with
  | none => exact absurd hd₀ (by simpa using List.find?_eq_none.mp hfind r₀ hr₀)
  | some r =>
    obtain ⟨us, _, hus, huses, hlast⟩ := hexact.ranges r (List.mem_of_find?_eq_some hfind)
    have hreg : r.reg = k := (mem_chain.mp (List.mem_of_find?_eq_some hfind)).2
    exact ⟨r, rfl, us, fun u hu => (hus u).mpr hu, huses, hlast⟩

/-- What `live_kill_insn` does to the range of another definition. -/
theorem rangeByDef_liveKillInsn {d index : InsnIndex} (hne : d ≠ index) : ∀ {live : Live} {r : Range},
    rangeByDef live k d = some r → ∃ r', rangeByDef (liveKillInsn index live).1 k d = some r' ∧
      (r' = r ∨ (r.last = index ∧ r.uses = 1 ∧ r' = { r with uses := 0, last := r.defn }))
  | [], _, h => nomatch h
  | x :: live, r, h => by
      have hcons : ∀ (y : Range) (l : Live), rangeByDef (y :: l) k d =
          if y.reg = k ∧ y.defn = d then some y else rangeByDef l k d := by
        intro y l
        simp only [rangeByDef, List.find?_cons, ← Bool.decide_and]
        by_cases hy : y.reg = k ∧ y.defn = d <;> simp [hy]
      rw [hcons] at h
      rw [liveKillInsn]
      by_cases hd : x.defn = index
      · rw [if_neg fun hx => hne (hx.2.symm.trans hd)] at h
        rw [if_pos hd]
        by_cases hu : x.uses ≠ 0
        · rw [if_pos hu, hcons, if_neg fun hx => hne (hx.2.symm.trans hd)]
          exact ⟨r, h, .inl rfl⟩
        · rw [if_neg hu]
          exact rangeByDef_liveKillInsn hne h
      · rw [if_neg hd]
        by_cases hl : x.last = index
        · rw [if_pos hl]
          by_cases hu : x.uses ≠ 1 ∨ x.defn = .before
          · rw [if_pos hu]
            exact ⟨r, by rw [hcons]; exact h, .inl rfl⟩
          · rw [if_neg hu]
            simp only [hcons]
            by_cases hx : x.reg = k ∧ x.defn = d
            · rw [if_pos hx] at h ⊢
              obtain rfl := Option.some.inj h
              exact ⟨_, rfl, .inr ⟨hl, not_not.mp (not_or.mp hu).1, rfl⟩⟩
            · rw [if_neg hx] at h ⊢
              exact rangeByDef_liveKillInsn hne h
        · rw [if_neg hl]
          simp only [hcons]
          by_cases hx : x.reg = k ∧ x.defn = d
          · rw [if_pos hx] at h ⊢
            exact ⟨r, h, .inl rfl⟩
          · rw [if_neg hx] at h ⊢
            exact rangeByDef_liveKillInsn hne h

theorem Covers.kill {r : Range} {pre post : List α} {i : α} {c : BlockId}
    (h : Kill q g g' b pre i post) (hc : Covers q.toQueries g c r) :
    Covers q.toQueries g' c r := by
  obtain ⟨us, hus, huses, hlast⟩ := hc
  exact ⟨us, fun u hu => hus u (h.reaches hu).1, huses, hlast⟩

/-- A definition whose only use is killed is dead. -/
theorem Covers.kill_last {r : Range} {pre post : List α} {i : α} (h : Kill q g g' b pre i post)
    (hc : Covers q.toQueries g b r) (huses : r.uses = 1) (hlast : r.last = .insn pre.length) :
    Covers q.toQueries g' b { r with uses := 0, last := r.defn } := by
  obtain ⟨us, hus, hlen, hl⟩ := hc
  obtain ⟨u₁, rfl⟩ := List.length_eq_one_iff.mp (hlen.symm.trans huses)
  have hu₁ : u₁ = .insn pre.length := hl.symm.trans hlast
  refine ⟨[], fun u hu => ?_, rfl, rfl⟩
  obtain ⟨hold, hne⟩ := h.reaches hu
  exact absurd ((List.mem_singleton.mp (hus u hold)).trans hu₁) (hne rfl)

/-- The patched ranges still cover every definition that is left. -/
theorem Pessimistic.kill {live : BlockId → Live} {pre post : List α} {i : α}
    (h : Kill q g g' b pre i post) (hp : Pessimistic q.toQueries g live) :
    Pessimistic q.toQueries g'
      (Function.update live b (liveKillInsn (.insn pre.length) (live b)).1) := by
  intro c hc p j rest k hins hj
  have hblocks : g'.blocks = g.blocks := by rw [h.graph]; rfl
  rw [hblocks] at hc
  rw [h.insns_eq] at hins
  by_cases hcb : c = b
  · subst hcb
    rw [if_pos rfl] at hins
    rw [Function.update_self]
    -- the insn is at the same place in the old block
    obtain ⟨p', rest', hold, hlen, hpre⟩ : ∃ p' rest', g.insns c = p' ++ j :: rest' ∧
        p'.length = p.length ∧ p.length ≠ pre.length := by
      rw [h.insns]
      rcases List.append_eq_append_iff.mp hins with ⟨t, rfl, ht⟩ | ⟨t, rfl, ht⟩
      · rcases t with _ | ⟨x, t⟩
        · obtain ⟨rfl, _⟩ := List.cons.inj ht
          rw [q.nop_defines] at hj
          exact absurd hj (by simp)
        · obtain ⟨rfl, rfl⟩ := List.cons.inj ht
          exact ⟨pre ++ i :: t, rest, by simp, by simp, by simp⟩
      · rcases t with _ | ⟨x, t⟩
        · obtain ⟨rfl, _⟩ := List.cons.inj ht
          rw [q.nop_defines] at hj
          exact absurd hj (by simp)
        · obtain ⟨rfl, rfl⟩ := List.cons.inj ht
          exact ⟨p, t ++ i :: post, by simp, rfl, by simp⟩
    obtain ⟨r, hr, hcov⟩ := hp c hc p' j rest' k hold hj
    rw [hlen] at hr
    have hne : InsnIndex.insn p.length ≠ .insn pre.length := fun he => hpre (InsnIndex.insn.inj he)
    obtain ⟨r', hr', rfl | ⟨hlast, huses, rfl⟩⟩ := rangeByDef_liveKillInsn hne hr
    · exact ⟨r', hr', hcov.kill h⟩
    · exact ⟨_, hr', hcov.kill_last h huses hlast⟩
  · rw [if_neg hcb] at hins
    rw [Function.update_of_ne hcb]
    obtain ⟨r, hr, hcov⟩ := hp c hc p j rest k hins hj
    exact ⟨r, hr, hcov.kill h⟩

theorem mem_defsLive {i : α} : k ∈ defsLive q i ↔ defines q.toQueries k i = true := by
  cases k with
  | reg r => simp [defsLive, defines]
  | cc => simp [defsLive, defines]

/-- An insn that `dead0` replaces writes nothing that is read afterwards. -/
theorem killable_spec {live : BlockId → Live} {pre post : List α} {i : α}
    (hp : Pessimistic q.toQueries g live) (hb : b ∈ g.blocks) (hins : g.insns b = pre ++ i :: post)
    (h : killable q (live b) pre.length i = true) :
    Kill q g (g.setInsns b (pre ++ q.nop :: post)) b pre i post := by
  simp only [killable, Bool.and_eq_true, Bool.not_eq_true', List.all_eq_true] at h
  obtain ⟨⟨⟨_, hmem⟩, hside⟩, hdefs⟩ := h
  refine ⟨hins, rfl, hmem, hside, fun k hk hlive => ?_⟩
  obtain ⟨r, hr, us, hus, huses, _⟩ := hp b hb pre i post k hins hk
  have hzero := hdefs k (mem_defsLive.mpr hk)
  simp only [hr, beq_iff_eq] at hzero
  obtain rfl : us = [] := List.length_eq_zero_iff.mp (huses.symm.trans hzero)
  obtain ⟨hreg, hdef⟩ := rangeByDef_spec hr
  obtain ⟨u, hu⟩ := (liveFrom_iff (pre ++ [i]).length).mp hlive
  refine List.not_mem_nil (hus u ?_)
  rw [hreg, hdef]
  exact ⟨pre ++ [i], post, by rw [hins]; simp, .inr ⟨pre, i, rfl, rfl, hk⟩, hu⟩

end

/-! ### The loops -/

section
variable {α : Type*} {q : DeadQueries α} {g g' : BlockGraph α} {b : BlockId}

/-- Insns are replaced one after the other. -/
def Kills (q : DeadQueries α) : BlockGraph α → BlockGraph α → Prop :=
  Relation.ReflTransGen fun g g' => ∃ b ∈ g.blocks, ∃ pre i post, Kill q g g' b pre i post

theorem Kills.blocks (h : Kills q g g') : g'.blocks = g.blocks := by
  induction h with
  | refl => rfl
  | tail _ hk ih =>
    obtain ⟨b, _, pre, i, post, hk⟩ := hk
    rw [hk.graph, ← ih]
    rfl

/-- The number of insns that are not I_NOP. -/
def nonNops (q : DeadQueries α) (l : List α) : Nat := l.countP fun i => !q.isNop i

theorem setInsns_self (g : BlockGraph α) (b : BlockId) : g.setInsns b (g.insns b) = g := by
  rw [BlockGraph.setInsns, Function.update_eq_self]

theorem setInsns_setInsns (g : BlockGraph α) (b : BlockId) (l l' : List α) :
    (g.setInsns b l).setInsns b l' = g.setInsns b l' := by
  simp only [BlockGraph.setInsns, Function.update_idem]

theorem setInsns_insns (g : BlockGraph α) (b : BlockId) (l : List α) :
    (g.setInsns b l).insns b = l := Function.update_self ..

/-- One pass over a block replaces only dead insns, and keeps the ranges pessimistic. -/
theorem deadInsns_kills {live : BlockId → Live} : ∀ {l done : List α} {g : BlockGraph α}
    {st : DeadState}, b ∈ g.blocks → g.insns b = done ++ l →
      Pessimistic q.toQueries g (Function.update live b st.live) →
        Kills q g (g.setInsns b (done ++ (deadInsns q done.length l st).1)) ∧
          Pessimistic q.toQueries (g.setInsns b (done ++ (deadInsns q done.length l st).1))
            (Function.update live b (deadInsns q done.length l st).2.live)
  | [], done, g, st, _, hins, hp => by
      rw [deadInsns, ← hins, setInsns_self]
      exact ⟨.refl, hp⟩
  | i :: l, done, g, st, hb, hins, hp => by
      rw [deadInsns]
      by_cases hk : killable q st.live done.length i = true
      · rw [if_pos hk]
        have hkill : Kill q g (g.setInsns b (done ++ q.nop :: l)) b done i l := by
          refine killable_spec hp hb hins ?_
          rw [Function.update_self]
          exact hk
        have hp' := hp.kill hkill
        rw [Function.update_self, Function.update_idem] at hp'
        have ih := @deadInsns_kills live l (done ++ [q.nop]) (g.setInsns b (done ++ q.nop :: l))
          ⟨(liveKillInsn (.insn done.length) st.live).1, st.changes + 1,
            st.invalidated || !(liveKillInsn (.insn done.length) st.live).2⟩ hb
          (by rw [setInsns_insns]; simp) hp'
        rw [List.length_append, List.length_singleton, setInsns_setInsns, List.append_assoc,
          List.singleton_append] at ih
        exact ⟨.head ⟨b, hb, done, i, l, hkill⟩ ih.1, ih.2⟩
      · rw [if_neg hk]
        have ih := @deadInsns_kills live l (done ++ [i]) g st hb (by rw [hins]; simp) hp
        rw [List.length_append, List.length_singleton, List.append_assoc,
          List.singleton_append] at ih
        exact ih

/-- Every change leaves an insn less. -/
theorem deadInsns_count : ∀ (l : List α) (n : Nat) (st : DeadState),
    nonNops q (deadInsns q n l st).1 + (deadInsns q n l st).2.changes = nonNops q l + st.changes
  | [], _, _ => rfl
  | i :: l, n, st => by
      rw [deadInsns]
      by_cases hk : killable q st.live n i = true
      · rw [if_pos hk]
        have hnop : q.isNop i = false := by
          simp only [killable, Bool.and_eq_true, Bool.not_eq_true'] at hk
          exact hk.1.1.1
        have ih := deadInsns_count l (n + 1)
          ⟨(liveKillInsn (.insn n) st.live).1, st.changes + 1,
            st.invalidated || !(liveKillInsn (.insn n) st.live).2⟩
        have h₁ : ∀ l', nonNops q (q.nop :: l') = nonNops q l' := by
          intro l'; simp [nonNops, q.isNop_nop]
        have h₂ : nonNops q (i :: l) = nonNops q l + 1 := by simp [nonNops, hnop]
        simp only at ih ⊢
        rw [h₁, h₂, ih]
        omega
      · rw [if_neg hk]
        have ih := deadInsns_count l (n + 1) st
        simp only [nonNops, List.countP_cons] at ih ⊢
        omega

/-- What a call of `dead0` may do: it replaces dead insns, and if it reports a change there are less
    insns than before. -/
structure Deadened (q : DeadQueries α) (x x' : DeadGraph α) : Prop where
  blocks : x'.graph.blocks = x.graph.blocks
  count_le : ∀ c, nonNops q (x'.graph.insns c) ≤ nonNops q (x.graph.insns c)
  changed : x'.changed = true → x.changed = true ∨ ∃ c ∈ x.graph.blocks,
    nonNops q (x'.graph.insns c) < nonNops q (x.graph.insns c)
  kills : Pessimistic q.toQueries x.graph x.live →
    Kills q x.graph x'.graph ∧ Pessimistic q.toQueries x'.graph x'.live

theorem Deadened.refl (x : DeadGraph α) : Deadened q x x :=
  ⟨rfl, fun _ => le_rfl, .inl, fun h => ⟨.refl, h⟩⟩

theorem Deadened.trans {x y z : DeadGraph α} (h : Deadened q x y) (h' : Deadened q y z) :
    Deadened q x z := by
  refine ⟨h'.blocks.trans h.blocks, fun c => (h'.count_le c).trans (h.count_le c), fun hc => ?_,
    fun hp => ?_⟩
  · rcases h'.changed hc with hc | ⟨c, hb, hlt⟩
    · rcases h.changed hc with hc | ⟨c, hb, hlt⟩
      · exact .inl hc
      · exact .inr ⟨c, hb, (h'.count_le c).trans_lt hlt⟩
    · exact .inr ⟨c, h.blocks ▸ hb, hlt.trans_le (h.count_le c)⟩
  · obtain ⟨hk, hp⟩ := h.kills hp
    obtain ⟨hk', hp'⟩ := h'.kills hp
    exact ⟨hk.trans hk', hp'⟩

/-- One pass of `dead0`. -/
def deadPass (q : DeadQueries α) (b : BlockId) (x : DeadGraph α) : DeadGraph α :=
  let y := deadInsns q 0 (x.graph.insns b) ⟨x.live b, 0, x.invalidated⟩
  { graph := x.graph.setInsns b y.1
    live := Function.update x.live b y.2.live
    changed := x.changed || decide (y.2.changes ≠ 0)
    invalidated := y.2.invalidated }

theorem deadened_pass {x : DeadGraph α} (hb : b ∈ x.graph.blocks) :
    Deadened q x (deadPass q b x) ∧
      ((deadInsns q 0 (x.graph.insns b) ⟨x.live b, 0, x.invalidated⟩).2.changes ≠ 0 →
        nonNops q ((deadPass q b x).graph.insns b) < nonNops q (x.graph.insns b)) := by
  have hcount := deadInsns_count (q := q) (x.graph.insns b) 0 ⟨x.live b, 0, x.invalidated⟩
  have hlt : (deadInsns q 0 (x.graph.insns b) ⟨x.live b, 0, x.invalidated⟩).2.changes ≠ 0 →
      nonNops q ((deadPass q b x).graph.insns b) < nonNops q (x.graph.insns b) := by
    intro hne
    rw [deadPass, setInsns_insns]
    simp only at hcount
    omega
  refine ⟨⟨rfl, fun c => ?_, fun hc => ?_, fun hp => ?_⟩, hlt⟩
  · by_cases hcb : c = b
    · subst hcb
      rw [deadPass, setInsns_insns]
      simp only at hcount
      omega
    · simp only [deadPass, BlockGraph.setInsns, Function.update_of_ne hcb]
      exact le_rfl
  · rcases (Bool.or_eq_true ..).mp hc with hc | hc
    · exact .inl hc
    · exact .inr ⟨b, hb, hlt (of_decide_eq_true hc)⟩
  · have h := @deadInsns_kills α q b x.live (x.graph.insns b) [] x.graph
      ⟨x.live b, 0, x.invalidated⟩ hb rfl (by rw [Function.update_eq_self]; exact hp)
    exact h

theorem dead0_succ (n : Nat) (b : BlockId) (x : DeadGraph α) : dead0 q (n + 1) b x =
    if (deadInsns q 0 (x.graph.insns b) ⟨x.live b, 0, x.invalidated⟩).2.changes ≠ 0 then
      dead0 q n b (deadPass q b x)
    else some (deadPass q b x) := rfl

theorem deadened_dead0 : ∀ {n : Nat} {x x' : DeadGraph α}, b ∈ x.graph.blocks →
    dead0 q n b x = some x' → Deadened q x x'
  | 0, _, _, _, h => nomatch h
  | n + 1, x, x', hb, h => by
      have hpass := (deadened_pass (q := q) hb).1
      rw [dead0_succ] at h
      split at h
      · exact hpass.trans (deadened_dead0 hb h)
      · rw [← Option.some.inj h]; exact hpass

theorem deadened_deadBlocks {n : Nat} : ∀ {l : List BlockId} {x x' : DeadGraph α},
    l ⊆ x.graph.blocks → deadBlocks q n l x = some x' → Deadened q x x'
  | [], x, x', _, h => by rw [← Option.some.inj h]; exact .refl x
  | b :: l, x, x', hl, h => by
      obtain ⟨y, hy, h⟩ := Option.bind_eq_some_iff.mp h
      have hxy := deadened_dead0 (hl (List.mem_cons_self ..)) hy
      refine hxy.trans (deadened_deadBlocks (fun c hc => ?_) h)
      rw [hxy.blocks]
      exact hl (List.mem_cons_of_mem _ hc)

theorem kills_deadLoop {n : Nat} : ∀ {m : Nat} {invalidated : Bool} {g g' : BlockGraph α}
    {live : BlockId → Live}, invalidated = true → deadLoop q n m invalidated g live = some g' →
      Kills q g g'
  | 0, _, _, _, _, _, h => nomatch h
  | m + 1, _, g, g', live, rfl, h => by
      obtain ⟨live', hlive, h⟩ := Option.bind_eq_some_iff.mp h
      obtain ⟨d, hd, rfl⟩ := Option.map_eq_some_iff.mp hlive
      obtain ⟨x, hx, h⟩ := Option.bind_eq_some_iff.mp h
      have hdead : Deadened q ⟨g, fun b => (d b).ranges, false, false⟩ x :=
        deadened_deadBlocks (List.Subset.refl _) hx
      obtain ⟨hk, _⟩ := hdead.kills (pessimistic_liveAnalyze hd)
      split at h
      · rename_i hc
        exact hk.trans (kills_deadLoop ((Bool.and_eq_true ..).mp hc).2 h)
      · rw [← Option.some.inj h]; exact hk

/-! ### The loops end -/

theorem dead0_ends : ∀ {n : Nat} {x : DeadGraph α}, b ∈ x.graph.blocks →
    nonNops q (x.graph.insns b) < n → ∃ x', dead0 q n b x = some x'
  | 0, _, _, h => absurd h (Nat.not_lt_zero _)
  | n + 1, x, hb, h => by
      rw [dead0_succ]
      split
      · rename_i hc
        have hlt := (deadened_pass (q := q) hb).2 hc
        exact dead0_ends hb (by omega)
      · exact ⟨_, rfl⟩

theorem dead0_mono : ∀ {m n : Nat} {x x' : DeadGraph α}, m ≤ n → dead0 q m b x = some x' →
    dead0 q n b x = some x'
  | 0, _, _, _, _, h => nomatch h
  | m + 1, 0, _, _, hle, _ => absurd hle (by omega)
  | m + 1, n + 1, x, x', hle, h => by
      rw [dead0_succ] at h ⊢
      split at h
      · rename_i hc
        rw [if_pos hc]
        exact dead0_mono (by omega) h
      · rename_i hc
        rw [if_neg hc]
        exact h

theorem deadBlocks_ends : ∀ {l : List BlockId} {x : DeadGraph α}, l ⊆ x.graph.blocks →
    ∃ N x', ∀ n ≥ N, deadBlocks q n l x = some x'
  | [], x, _ => ⟨0, x, fun _ _ => rfl⟩
  | b :: l, x, hl => by
      have hb : b ∈ x.graph.blocks := hl (List.mem_cons_self ..)
      obtain ⟨y, hy⟩ := dead0_ends (q := q) hb (Nat.lt_succ_self _)
      have hblocks := (deadened_dead0 hb hy).blocks
      have hl' : l ⊆ y.graph.blocks := fun c hc => by
        rw [hblocks]; exact hl (List.mem_cons_of_mem _ hc)
      obtain ⟨N, x', hx'⟩ := deadBlocks_ends hl'
      refine ⟨max N (nonNops q (x.graph.insns b) + 1), x', fun n hn => ?_⟩
      rw [deadBlocks, dead0_mono (le_trans (le_max_right ..) hn) hy]
      exact hx' n (le_trans (le_max_left ..) hn)

/-- The number of insns of the function that are not I_NOP. -/
def size (q : DeadQueries α) (g : BlockGraph α) : Nat :=
  ∑ b ∈ g.blocks.toFinset, nonNops q (g.insns b)

theorem Deadened.size_lt {x x' : DeadGraph α} (h : Deadened q x x')
    (hc : x.changed = false) (hc' : x'.changed = true) : size q x'.graph < size q x.graph := by
  rcases h.changed hc' with hc' | ⟨c, hb, hlt⟩
  · exact absurd (hc.symm.trans hc') (by simp)
  · rw [size, size, h.blocks]
    exact Finset.sum_lt_sum (fun c _ => h.count_le c) ⟨c, List.mem_toFinset.mpr hb, hlt⟩

theorem analyzeIf_ends (invalidated : Bool) (g : BlockGraph α) (live : BlockId → Live) :
    ∃ N live', ∀ n ≥ N, analyzeIf q n invalidated g live = some live' := by
  cases invalidated with
  | false => exact ⟨0, live, fun _ _ => rfl⟩
  | true =>
    obtain ⟨n, d, hd⟩ := liveAnalyze_ends q.toQueries g
    obtain ⟨st, hst, rfl⟩ := Option.map_eq_some_iff.mp hd
    refine ⟨n, fun b => (liveAnalyzeFinal q.toQueries g st b).ranges, fun m hm => ?_⟩
    rw [analyzeIf, if_pos rfl, liveAnalyze, iterate_mono hm hst]
    rfl

theorem deadLoop_ends (invalidated : Bool) (g : BlockGraph α) (live : BlockId → Live) :
    ∃ N g', ∀ n ≥ N, ∀ m ≥ N, deadLoop q n m invalidated g live = some g' := by
  obtain ⟨N₁, live', hlive⟩ := analyzeIf_ends (q := q) invalidated g live
  have hl : g.blocks ⊆ (⟨g, live', false, false⟩ : DeadGraph α).graph.blocks :=
    List.Subset.refl g.blocks
  obtain ⟨N₂, x, hx⟩ := deadBlocks_ends (q := q) hl
  have hdead := deadened_deadBlocks hl (hx N₂ le_rfl)
  have hstep : ∀ n ≥ max N₁ N₂, ∀ m, deadLoop q n (m + 1) invalidated g live =
      if x.changed && x.invalidated then deadLoop q n m x.invalidated x.graph x.live
      else some x.graph := by
    intro n hn m
    rw [deadLoop, hlive n (le_trans (le_max_left ..) hn), Option.bind_some,
      hx n (le_trans (le_max_right ..) hn), Option.bind_some]
  by_cases hc : (x.changed && x.invalidated) = true
  · have hlt : size q x.graph < size q g :=
      hdead.size_lt rfl ((Bool.and_eq_true ..).mp hc).1
    obtain ⟨N, g', hg'⟩ := deadLoop_ends x.invalidated x.graph x.live
    refine ⟨max (max N₁ N₂) (N + 1), g', fun n hn m hm => ?_⟩
    obtain ⟨m, rfl⟩ : ∃ m', m = m' + 1 := Nat.exists_eq_succ_of_ne_zero (by omega)
    rw [hstep n (le_trans (le_max_left ..) hn), if_pos hc]
    exact hg' n (by omega) m (by omega)
  · refine ⟨max (max N₁ N₂) 1, x.graph, fun n hn m hm => ?_⟩
    obtain ⟨m, rfl⟩ : ∃ m', m = m' + 1 := Nat.exists_eq_succ_of_ne_zero (by omega)
    rw [hstep n (le_trans (le_max_left ..) hn), if_neg hc]
termination_by size q g
decreasing_by exact hlt

/-- `dead` ends, and it only replaces dead insns, one after the other. -/
theorem dead_kills (q : DeadQueries α) (g : BlockGraph α) :
    ∃ N g', (∀ n ≥ N, dead q n g = some g') ∧ Kills q g g' := by
  obtain ⟨N, g', h⟩ := deadLoop_ends (q := q) true g fun _ => []
  exact ⟨N, g', fun n hn => h n hn n hn, kills_deadLoop rfl (h N le_rfl N le_rfl)⟩

end

/-! ### Runs -/

/-- The insns whose execution can be seen: they write memory or have side effects. -/
def observable (i : Insn) : Bool := insnDefsMem i || insnSideEffects i

section
variable {env : Env} {s s' : State} {i : Insn}

theorem mem_insnUsesRegs {r : PseudoReg} : r ∈ insnUsesRegs i ↔
    (i.op.useDst = true ∧ r ∈ operandRegs i.dst) ∨ r ∈ operandRegs i.src1 ∨
      r ∈ operandRegs i.src2 ∨ (i.op = .asm ∧ r ∈ i.iasm.uses) := by
  simp only [insnUsesRegs]
  split <;> split <;> simp_all [or_assoc]

/-- The states agree on what the insn uses, and on what can be seen. -/
structure SameUses (env : Env) (i : Insn) (s s' : State) : Prop where
  dst : i.op.useDst = true → readOpt env s'.regs i.dst = readOpt env s.regs i.dst
  src1 : readOpt env s'.regs i.src1 = readOpt env s.regs i.src1
  src2 : readOpt env s'.regs i.src2 = readOpt env s.regs i.src2
  iasm : i.op = .asm → i.iasm.read s'.regs = i.iasm.read s.regs
  ccs : insnUsesCc i ≠ ∅ → s'.ccs = s.ccs
  mem : s'.mem = s.mem
  args : s'.args = s.args
  ret : s'.ret = s.ret

theorem sameUses (hregs : ∀ r ∈ insnUsesRegs i, s'.regs r = s.regs r)
    (hccs : insnUsesCc i ≠ ∅ → s'.ccs = s.ccs) (hvis : s'.visible = s.visible) :
    SameUses env i s s' := by
  obtain ⟨hmem, hargs, hret⟩ : s'.mem = s.mem ∧ s'.args = s.args ∧ s'.ret = s.ret := by
    simpa [State.visible] using hvis
  refine ⟨fun hu => readOpt_congr env fun r hr => hregs r (mem_insnUsesRegs.mpr (.inl ⟨hu, hr⟩)),
    readOpt_congr env fun r hr => hregs r (mem_insnUsesRegs.mpr (.inr (.inl hr))),
    readOpt_congr env fun r hr => hregs r (mem_insnUsesRegs.mpr (.inr (.inr (.inl hr)))),
    fun hop => ?_, hccs, hmem, hargs, hret⟩
  refine List.map_congr_left fun e he => ?_
  rw [hregs e.2 (mem_insnUsesRegs.mpr (.inr (.inr (.inr ⟨hop, i.iasm.inputs_uses e he⟩))))]

theorem SameUses.access (h : SameUses env i s s') : access env s' i = access env s i := by
  rw [Ncc.access, Ncc.access, usedWords, usedWords, h.src1, h.src2]
  congr 1
  · split
    · rename_i hu; rw [h.dst hu]
    · rfl
  · split
    · rename_i hop; exact h.iasm hop
    · rfl

/-- The states agree on what the insn has written, and on what can be seen. -/
structure SameDefs (i : Insn) (s s' : State) : Prop where
  regs : ∀ r ∈ insnDefsRegs i, s'.regs r = s.regs r
  ccs : insnDefsCc i = true → s'.ccs = s.ccs
  visible : s'.visible = s.visible

theorem write_regs_congr {dst : Option Operand} {v : Word} {r : PseudoReg}
    (hr : r ∈ operandRegs dst) : (s'.write dst v).regs r = (s.write dst v).regs r := by
  rcases dst with _ | ⟨ts, _ | q, n⟩
  · exact absurd hr List.not_mem_nil
  · exact absurd hr List.not_mem_nil
  · obtain rfl := List.mem_singleton.mp hr
    simp only [State.write, Function.update_self]

/-- An insn that writes its dst, from states that look the same. -/
theorem sameDefs_write {t t' : State} {v : Word} (hi : insnDefsRegs i = operandRegs i.dst)
    (hc : insnDefsCc i = true → t'.ccs = t.ccs) (hvis : t'.visible = t.visible) :
    SameDefs i (t.write i.dst v) (t'.write i.dst v) := by
  refine ⟨fun r hr => write_regs_congr (hi ▸ hr), fun h => ?_, ?_⟩
  · rw [write_ccs, write_ccs, hc h]
  · simp only [State.visible, write_mem, write_args, write_ret]
    exact hvis

/-- What an insn leaves behind depends on what it uses. -/
theorem SameUses.exec (hform : i.Formed) (h : SameUses env i s s') :
    SameDefs i (exec env i s) (exec env i s') := by
  obtain ⟨hd, h₁, h₂, hasm, hccs, hmem, hargs, hret⟩ := h
  obtain ⟨op, dst, src1, src2, vol, iasm⟩ := i
  obtain ⟨hreal, hdst, _⟩ := hform
  have hvis : s'.visible = s.visible := by simp only [State.visible, hmem, hargs, hret]
  cases op with
  | number => exact absurd rfl hreal
  | nop =>
    obtain rfl := hdst rfl
    exact ⟨fun r hr => absurd hr List.not_mem_nil, fun h => by simp [insnDefsCc, InsnOp.defCc] at h,
      hvis⟩
  | store | blkcopy | blkzero =>
    refine ⟨fun r hr => absurd hr List.not_mem_nil, fun h => ?_, ?_⟩
    · simp [insnDefsCc, InsnOp.defCc] at h
    · simp only [Ncc.exec, State.visible, hd rfl, h₁, h₂, hmem, hargs, hret]
  | arg | varg | blkarg | ret =>
    obtain rfl := hdst rfl
    refine ⟨fun r hr => absurd hr List.not_mem_nil, fun h => ?_, ?_⟩
    · simp [insnDefsCc, InsnOp.defCc] at h
    · simp only [Ncc.exec, State.visible, h₁, h₂, hmem, hargs, hret]
  | cmp | test =>
    obtain rfl := hdst rfl
    refine ⟨fun r hr => absurd hr List.not_mem_nil, fun _ => ?_, hvis⟩
    simp only [Ncc.exec, h₁, h₂]
  | call =>
    simp only [Ncc.exec, h₁, hargs, hmem]
    exact sameDefs_write rfl (fun _ => rfl) (by simp only [State.visible, hret])
  | set cc =>
    simp only [Ncc.exec, hccs (by simp [insnUsesCc])]
    exact sameDefs_write rfl (fun h => by simp [insnDefsCc, InsnOp.defCc] at h) hvis
  | asm =>
    obtain rfl := hdst rfl
    have hread := hasm rfl
    refine ⟨fun r hr => ?_, fun hc => ?_, ?_⟩
    · have hr : r ∈ iasm.defs := by simpa [insnDefsRegs, operandRegs, InsnOp.useDst] using hr
      simp only [Ncc.exec, execAsm, hread, hmem, if_pos hr]
    · have hc : iasm.defsCc = true := hc
      simp only [Ncc.exec, execAsm, hread, hmem, if_pos hc]
    · simp only [Ncc.exec, execAsm, State.visible, hread, hmem, hargs, hret]
  | _ =>
    simp only [Ncc.exec, h₁, h₂, hmem]
    exact sameDefs_write rfl (fun h => by simp [insnDefsCc, InsnOp.defCc] at h) hvis

/-- An insn that cannot be seen changes nothing that can be seen. -/
theorem exec_visible (h : observable i = false) : (exec env i s).visible = s.visible := by
  obtain ⟨op, dst, src1, src2, vol, iasm⟩ := i
  cases op <;> simp_all [observable, insnDefsMem, insnSideEffects, InsnOp.side, InsnOp.defMem, exec,
    State.visible]

/-! #### What is live -/

/-- The states agree on what is live, and on what can be seen. -/
structure Agree (live : LiveReg → Prop) (s s' : State) : Prop where
  regs : ∀ r, live (.reg r) → s'.regs r = s.regs r
  ccs : live .cc → s'.ccs = s.ccs
  visible : s'.visible = s.visible

theorem Agree.mono {live live' : LiveReg → Prop} (h : Agree live s s')
    (hl : ∀ k, live' k → live k) : Agree live' s s' :=
  ⟨fun r hr => h.regs r (hl _ hr), fun hc => h.ccs (hl _ hc), h.visible⟩

variable {g : BlockGraph Insn} {b : BlockId} {rest : List Insn}

theorem Agree.sameUses (h : Agree (LiveFrom insnQueries g · b (i :: rest)) s s') :
    SameUses env i s s' :=
  Dead.sameUses (fun r hr => h.regs r (liveFrom_cons.mpr (.inl (decide_eq_true hr))))
    (fun hc => h.ccs (liveFrom_cons.mpr (.inl (decide_eq_true hc)))) h.visible

/-- Executing an insn in states that agree on what is live before it. -/
theorem Agree.exec (env : Env) (hform : i.Formed) (h : Agree (LiveFrom insnQueries g · b (i :: rest)) s s') :
    Agree (LiveFrom insnQueries g · b rest) (exec env i s) (exec env i s') := by
  have huses : SameUses env i s s' := h.sameUses
  have hdefs := huses.exec hform
  refine ⟨fun r hr => ?_, fun hc => ?_, hdefs.visible⟩
  · by_cases hd : r ∈ insnDefsRegs i
    · exact hdefs.regs r hd
    · rw [exec_regs_of_notMem env hd, exec_regs_of_notMem env hd]
      exact h.regs r (liveFrom_cons.mpr (.inr ⟨decide_eq_false hd, hr⟩))
  · cases hd : insnDefsCc i with
    | true => exact hdefs.ccs hd
    | false =>
      rw [exec_ccs_of_not_defsCc env hd, exec_ccs_of_not_defsCc env hd]
      exact h.ccs (liveFrom_cons.mpr (.inr ⟨hd, hc⟩))

end

section
variable {env : Env} {p : Insn → Bool} {f : Func} {g : BlockGraph Insn} {b : BlockId}

/-- Executing insns in states that agree on what is live before them. -/
theorem Agree.execs (env : Env) (p : Insn → Bool) : ∀ {l rest : List Insn} {s s' : State}, (∀ i ∈ l, i.Formed) →
    Agree (LiveFrom insnQueries g · b (l ++ rest)) s s' →
      accesses env p l s' = accesses env p l s ∧
        Agree (LiveFrom insnQueries g · b rest) (execs env l s) (execs env l s')
  | [], _, _, _, _, h => ⟨rfl, h⟩
  | i :: l, _, s, s', hform, h => by
      have ih := Agree.execs env p (fun j hj => hform j (List.mem_cons_of_mem _ hj))
        (h.exec env (hform i (List.mem_cons_self ..)))
      rw [accesses, accesses, h.sameUses.access, ih.1]
      exact ⟨rfl, ih.2⟩

/-- Without an insn that cannot be seen and writes nothing that is read. -/
theorem Agree.killed (env : Env) {i : Insn} {post : List Insn} {s s' : State} (hobs : observable i = false)
    (hread : NotRead insnQueries g b i post)
    (h : Agree (LiveFrom insnQueries g · b (i :: post)) s s') :
    Agree (LiveFrom insnQueries g · b post) (Ncc.exec env i s) s' := by
  refine ⟨fun r hr => ?_, fun hc => ?_, ?_⟩
  · have hd : r ∉ insnDefsRegs i := fun hd => hread (.reg r) (decide_eq_true hd) hr
    rw [exec_regs_of_notMem env hd]
    exact h.regs r (liveFrom_cons.mpr (.inr ⟨decide_eq_false hd, hr⟩))
  · cases hd : insnDefsCc i with
    | true => exact absurd hc (hread _ hd)
    | false =>
      rw [exec_ccs_of_not_defsCc env hd]
      exact h.ccs (liveFrom_cons.mpr (.inr ⟨hd, hc⟩))
  · rw [exec_visible hobs]; exact h.visible

/-- The branch that ends a block uses its control operand, or the condition codes unless its first
    successor is taken always. -/
def Block.Branches (x : Block) : Prop :=
  x.control = none → blockConditional x = true ∨ x.successors.head?.all (·.cc = .always)

/-- A block branches the same way when the states agree on what the branch uses. -/
theorem Agree.branch {x : Block} {s s' : State} (hx : Block.Branches x)
    (hcond : g.conditional b = blockConditional x) (hctl : g.control b = x.control)
    (h : Agree (LiveFrom insnQueries g · b []) s s') : branch env x s' = branch env x s := by
  have hlive : ∀ k, branchUses (g.conditional b) (g.control b) k = true →
      LiveFrom insnQueries g k b [] := fun k hk =>
    .inr ⟨fun j hj => absurd hj List.not_mem_nil, .inl hk⟩
  rw [Ncc.branch, Ncc.branch]
  cases hc : x.control with
  | some o =>
    have hread : readOpt env s'.regs (some o) = readOpt env s.regs (some o) := by
      refine readOpt_congr env fun r hr => h.regs r (hlive _ (decide_eq_true ?_))
      rw [hctl, hc]; exact hr
    simp only [readOpt] at hread
    simp only [hread]
  | none =>
    rcases hx hc with hb | halways
    · have hccs : s'.ccs = s.ccs := h.ccs (hlive .cc (hcond.trans hb))
      simp only [hccs]
    · cases hs : x.successors with
      | nil => rfl
      | cons c cs =>
        rw [hs] at halways
        have hcc : c.cc = .always := of_decide_eq_true halways
        simp only [List.find?_cons, hcc, decide_true, Bool.true_or]

/-- The function with other insns in its blocks. -/
def withInsns (f : Func) (insns : BlockId → List Insn) : Func :=
  { f with
    block := fun b => { f.block b with insns := insns b }
    linked := f.linked }

theorem branch_withInsns (insns : BlockId → List Insn) (s : State) :
    branch env ((withInsns f insns).block b) s = branch env (f.block b) s := rfl

theorem closed_withInsns (hf : f.Closed) (insns : BlockId → List Insn) :
    (withInsns f insns).Closed := hf

variable {g' : BlockGraph Insn} {pre post : List Insn} {i : Insn} {s₀ : State}

/-- Killing one insn changes nothing that can be seen. -/
theorem Kill.sameRuns (hf : f.Closed) (hbr : ∀ b, Block.Branches (f.block b))
    (hform : ∀ b, ∀ i ∈ (f.block b).insns, i.Formed)
    (hp : ∀ i, observable i = false → p i = false)
    (h : Kill insnDeadQueries (f.graph hf) g' b pre i post) :
    SameRuns env p f (withInsns f g'.insns) s₀ := by
  have hobs : observable i = false := by
    rw [observable, show insnDefsMem i = false from h.defsMem,
      show insnSideEffects i = false from h.sideEffects]
    rfl
  have hinsns : (f.block b).insns = pre ++ i :: post := h.insns
  refine sameRuns_of_sim (fun c s s' => Agree (LiveAt insnQueries (f.graph hf) · c) s s') rfl
    ⟨fun _ _ => rfl, fun _ => rfl, rfl⟩ (fun _ _ _ h => h.visible) fun c s s' hsim => ?_
  have hstart : Agree (LiveFrom insnQueries (f.graph hf) · c (f.block c).insns) s s' :=
    hsim.mono fun k hk => liveAt_eq_liveFrom.mpr hk
  obtain ⟨hacc, hend⟩ : accesses env p (g'.insns c) s' = accesses env p (f.block c).insns s ∧
      Agree (LiveFrom insnQueries (f.graph hf) · c []) (Ncc.execs env (f.block c).insns s)
        (Ncc.execs env (g'.insns c) s') := by
    rw [h.insns_eq]
    by_cases hc : c = b
    · subst hc
      rw [if_pos rfl, hinsns]
      rw [hinsns] at hstart
      have hform' := hform c
      rw [hinsns] at hform'
      have hpre := hstart.execs env p fun j hj =>
        hform' j (List.mem_append_left _ hj)
      have hpost := (hpre.2.killed env hobs h.notRead)
      rw [← List.append_nil post] at hpost
      have hpost := hpost.execs env p fun j hj =>
        hform' j (List.mem_append_right _ (List.mem_cons_of_mem _ hj))
      simp only [accesses_append, execs_append, accesses, execs_cons, hpre.1, hp i hobs]
      refine ⟨?_, hpost.2⟩
      have hnop : p insnDeadQueries.nop = false := hp _ rfl
      simp only [hnop]
      exact congrArg _ hpost.1
    · rw [if_neg hc]
      rw [← List.append_nil (f.block c).insns] at hstart
      exact hstart.execs env p (hform c)
  refine ⟨hacc, hend.branch (hbr c) rfl rfl, fun d hd => hend.mono fun k hk => ?_⟩
  exact .inr ⟨fun j hj => absurd hj List.not_mem_nil, .inr ⟨d, branch_mem hd, hk⟩⟩

/-- So does killing one after the other. -/
theorem Kills.sameRuns (hf : f.Closed) (hbr : ∀ b, Block.Branches (f.block b))
    (hform : ∀ b, ∀ i ∈ (f.block b).insns, i.Formed)
    (hp : ∀ i, observable i = false → p i = false)
    (h : Kills insnDeadQueries (f.graph hf) g') : SameRuns env p f (withInsns f g'.insns) s₀ := by
  have hmain : SameRuns env p f (withInsns f g'.insns) s₀ ∧
      g' = (withInsns f g'.insns).graph (closed_withInsns hf _) ∧
      ∀ b, ∀ i ∈ g'.insns b, i.Formed := by
    induction h with
    | refl => exact ⟨SameRuns.refl env p f s₀, rfl, hform⟩
    | @tail g g' _ hk ih =>
      obtain ⟨hruns, hg, hform⟩ := ih
      obtain ⟨b, _, pre, i, post, hk⟩ := hk
      have hk' := hk
      rw [hg] at hk'
      refine ⟨hruns.trans (hk'.sameRuns (closed_withInsns hf _) hbr hform hp), ?_, ?_⟩
      · rw [hk.graph, hg]; rfl
      · intro c j hj
        rw [hk.insns_eq] at hj
        split at hj
        · rcases List.mem_append.mp hj with hj | hj
          · exact hform b j (by rw [hk.insns]; exact List.mem_append_left _ hj)
          · rcases List.mem_cons.mp hj with rfl | hj
            · exact ⟨by simp [insnDeadQueries, insnNew], fun _ => rfl, fun _ h => InsnOp.noConfusion h⟩
            · exact hform b j (by
                rw [hk.insns]; exact List.mem_append_right _ (List.mem_cons_of_mem _ hj))
        · exact hform c j hj
  exact hmain.1

end

/-- `dead` ends; it replaces only insns that write no memory, have no side effects and DEF nothing
    that is read afterwards, so stores, calls, volatile accesses, returns and branches stay. -/
theorem dead_sound (env : Env) (f : Func) (hf : f.Closed) (hbr : ∀ b, Block.Branches (f.block b))
    (hform : ∀ b, ∀ i ∈ (f.block b).insns, i.Formed) (s₀ : State) :
    ∃ N g', (∀ n ≥ N, dead insnDeadQueries n (f.graph hf) = some g') ∧
      Kills insnDeadQueries (f.graph hf) g' ∧
      SameRuns env observable f (withInsns f g'.insns) s₀ := by
  obtain ⟨N, g', hn, hk⟩ := dead_kills insnDeadQueries (f.graph hf)
  exact ⟨N, g', hn, hk, hk.sameRuns hf hbr hform fun _ h => h⟩

/-- `x = 5; return 5`: the assignment is dead. -/
def deadBlock : List Insn :=
  [insnNew .move (operandReg .int 1) (operandI .int 5 none),
    insnNew .ret none (operandI .int 5 none)]

theorem dead_sound_const : ∃ N g',
    (∀ n ≥ N, dead insnDeadQueries n ((straight deadBlock).graph (closed_straight _)) = some g') ∧
      Kills insnDeadQueries ((straight deadBlock).graph (closed_straight _)) g' ∧
      SameRuns default observable (straight deadBlock) (withInsns (straight deadBlock) g'.insns)
        default := by
  refine dead_sound default (straight deadBlock) (closed_straight _) (fun b _ => .inr ?_)
    (fun b i hi => ?_) default
  · have hs : ((straight deadBlock).block b).successors = [] :=
      List.map_eq_nil_iff.mp (succs_straight deadBlock b)
    rw [hs]; rfl
  · by_cases hb : b = 0
    · subst hb
      rcases List.mem_cons.mp hi with rfl | hi
      · exact ⟨by decide, fun h => absurd h (by decide), fun _ h => InsnOp.noConfusion h⟩
      · obtain rfl := List.mem_singleton.mp hi
        exact ⟨by decide, fun _ => rfl, fun _ h => InsnOp.noConfusion h⟩
    · simp [straight, hb] at hi

end Dead

end Ncc
