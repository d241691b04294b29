import Ncc.Ebb
import Ncc.Lib.Iterate
import Ncc.Lib.Dominance

/-! Dominators (dom.c) and the removal of unreachable blocks that comes first (opt.c).

    The sets start too large and only shrink: a block's set is always a superset of what the
    equations make of the predecessors' sets (`Shrinking`), so that a step which leaves the size of
    a set alone leaves the set alone. What the iteration ends with satisfies the equations, and the
    dominators are the greatest sets that do. -/

namespace Ncc

/-- `dominators` of every block. -/
abbrev Doms := BlockId → Finset BlockId

/-- `unreach0`: free a block that the walk did not visit, unless it is the exit block. -/
def unreach0 (vis : List BlockId) (f : Func) (b : BlockId) : Func :=
  if b ≠ f.exit ∧ b ∉ vis then blockFree f b else f

/-- `unreach`: remove unreachable code. -/
def unreach (f : Func) : Func :=
  f.blocks.foldl (unreach0 (walk f.succs (fun _ st => st) (fun _ st => st) f.blocks f.entry ()).1) f

/-- `blks_all`: the set of all blocks. -/
def blksAll (f : Func) : Finset BlockId := f.blocks.toFinset

/-- `dom_analyze0`: initialize the dominators of a block. -/
def domAnalyze0 (f : Func) (b : BlockId) (dom : Doms) : Doms :=
  Function.update dom b (if b = f.entry then {f.entry} else blksAll f)

/-- The loops of `dom_analyze1` over the predecessors: take the dominators of the first, and
    intersect them with those of the others. -/
def predsDoms (dom : Doms) : List BlockId → Finset BlockId
  | [] => ∅
  | pred :: preds => preds.foldl (fun tmp p => tmp ∩ dom p) (dom pred)

/-- The `tmp` of `dom_analyze1`. -/
def domTmp (f : Func) (b : BlockId) (dom : Doms) : Finset BlockId :=
  insert b (predsDoms dom (f.block b).predecessors)

/-- `dom_analyze1`: replace the set of a block if the size of the new set differs. -/
def domAnalyze1 (f : Func) (b : BlockId) (dom : Doms) : Doms × Bool :=
  if (domTmp f b dom).card ≠ (dom b).card then
    (Function.update dom b (domTmp f b dom), true)
  else (dom, false)

/-- What `blocks_iter(dom_analyze0)` leaves behind. -/
def domInit (f : Func) (dom : Doms) : Doms := f.blocks.foldl (fun dom b => domAnalyze0 f b dom) dom

/-- `dom_analyze`, with fuel for the passes over the blocks. -/
def domAnalyze (f : Func) (dom : Doms) (n : Nat) : Option Doms :=
  let f := unreach f
  iterate (domAnalyze1 f) f.blocks n (domInit f dom)

/-- Every edge of the graph runs between blocks of the all-blocks list. -/
def Func.Listed (f : Func) : Prop :=
  f.entry ∈ f.blocks ∧ ∀ b c, c ∈ f.succs b → b ∈ f.blocks ∧ c ∈ f.blocks

/-- An edge of the graph. -/
def Func.Edge (f : Func) (b c : BlockId) : Prop := c ∈ f.succs b

theorem edge_setInsns {f : Func} {x : BlockId} {l : List Insn} {b c : BlockId} :
    (f.setInsns x l).Edge b c ↔ f.Edge b c := by
  rw [Func.Edge, Func.Edge, Func.succs, Func.succs, Block.succs, Block.succs, Func.succs_setInsns]

theorem listed_setInsns {f : Func} {x : BlockId} {l : List Insn} (h : f.Listed) :
    (f.setInsns x l).Listed :=
  ⟨h.1, fun b c hbc => h.2 b c (edge_setInsns.mp hbc)⟩

/-- Every block can be reached from the entry block. -/
def Func.Reachable (f : Func) : Prop := ∀ b ∈ f.blocks, Relation.ReflTransGen f.Edge f.entry b

/-! ### Nothing is removed from a graph that can be reached as a whole -/

theorem foldl_unreach0 {vis : List BlockId} {f : Func} :
    ∀ {l : List BlockId}, (∀ b ∈ l, b ∈ vis) → l.foldl (unreach0 vis) f = f
  | [], _ => rfl
  | b :: l, h => by
      have hb : unreach0 vis f b = f := if_neg fun hno => hno.2 (h b (List.mem_cons_self ..))
      rw [List.foldl_cons, hb]
      exact foldl_unreach0 fun c hc => h c (List.mem_cons_of_mem _ hc)

theorem unreach_eq {f : Func} (hf : f.Listed) (hreach : f.Reachable) : unreach f = f :=
  foldl_unreach0 fun b hb => walk_visits hf.1 (fun c _ d hd => (hf.2 c d hd).2) (hreach b hb)

/-! ### What is left of a graph -/

/-- The function after the blocks of a list have been gone through: those that were not visited have
    no successors, and are not listed any more. -/
structure Swept (vis l : List BlockId) (f f' : Func) : Prop where
  entry : f'.entry = f.entry
  exit : f'.exit = f.exit
  lastLabel : f'.lastLabel = f.lastLabel
  successors : ∀ b, (f'.block b).successors =
    if b ∈ l ∧ b ≠ f.exit ∧ b ∉ vis then [] else (f.block b).successors
  count : ∀ b, f'.blocks.count b =
    f.blocks.count b - if b ≠ f.exit ∧ b ∉ vis then l.count b else 0

theorem swept_unreach0 (vis : List BlockId) (f : Func) (b : BlockId) :
    Swept vis [b] f (unreach0 vis f b) := by
  unfold unreach0
  split
  · rename_i hb
    have hsame := sameBlocks_blockRemoveSuccessors f b
    refine ⟨hsame.entry, hsame.exit, hsame.lastLabel, fun x => ?_, fun x => ?_⟩
    · have hx := succs_blockRemoveSuccessors f b x
      rw [blockFree]
      simp only [Func.succs_setInsns, hx, List.mem_singleton]
      by_cases hxb : x = b
      · subst hxb
        rw [if_pos rfl, if_pos ⟨rfl, hb⟩]
      · rw [if_neg hxb, if_neg fun h => hxb h.1]
    · show ((blockRemoveSuccessors f b).blocks.erase b).count x = _
      rw [hsame.blocks, List.count_erase]
      by_cases hxb : x = b
      · subst hxb
        rw [if_pos hb]
        simp
      · simp [Ne.symm hxb]
  · rename_i hb
    refine ⟨rfl, rfl, rfl, fun x => ?_, fun x => ?_⟩
    · rw [if_neg]
      rintro ⟨hx, hno⟩
      exact hb (List.mem_singleton.mp hx ▸ hno)
    · by_cases hxb : x = b
      · subst hxb
        rw [if_neg hb, Nat.sub_zero]
      · simp [Ne.symm hxb]

theorem swept_foldl (vis : List BlockId) : ∀ (l : List BlockId) (f : Func),
    Swept vis l f (l.foldl (unreach0 vis) f)
  | [], f => ⟨rfl, rfl, rfl, fun b => by simp, fun b => by simp⟩
  | b :: l, f => by
      have hb := swept_unreach0 vis f b
      have hl := swept_foldl vis l (unreach0 vis f b)
      refine ⟨hl.entry.trans hb.entry, hl.exit.trans hb.exit, hl.lastLabel.trans hb.lastLabel,
        fun x => ?_, fun x => ?_⟩
      · rw [List.foldl_cons, hl.successors, hb.successors, hb.exit]
        simp only [List.mem_cons, List.not_mem_nil, or_false]
        split_ifs <;> first | rfl | tauto
      · rw [List.foldl_cons, hl.count, hb.count, hb.exit]
        split_ifs
        · rw [List.count_cons, List.count_cons, List.count_nil]
          omega
        · rfl

section
variable {f : Func}

/-- A block can be reached from the entry block. -/
def Func.Reaches (f : Func) (b : BlockId) : Prop := Relation.ReflTransGen f.Edge f.entry b

/-- The walk visits what can be reached. -/
theorem mem_vis (hf : f.Listed) {b : BlockId} :
    b ∈ (walk f.succs (fun _ st => st) (fun _ st => st) f.blocks f.entry ()).1 ↔ f.Reaches b := by
  refine ⟨fun hb => ?_, walk_visits hf.1 fun c _ d hd => (hf.2 c d hd).2⟩
  refine @walk_induct _ _ _ f.succs (fun _ st => st) (fun _ st => st) f.blocks f.entry ()
    (fun vis _ => ∀ c ∈ vis, f.Reaches c) (fun c hc => absurd hc List.not_mem_nil)
    (fun vis _ c hvis _ hcall d hd => ?_) (fun vis _ c _ hvis => hvis) b hb
  rcases List.mem_cons.mp hd with rfl | hd
  · rcases hcall with rfl | ⟨p, hp, hpd⟩
    · exact .refl
    · exact (hvis p hp).tail hpd
  · exact hvis d hd

/-- What the parser and the passes keep of the graph: its edges run between blocks that are listed,
    under labels that were given; nothing follows the exit block, and only the entry block itself may
    lead to the entry block. -/
structure Func.Cfg (f : Func) : Prop where
  listed : f.Listed
  exit : ∀ b, ¬ f.Edge f.exit b
  entry : ∀ b, f.Edge b f.entry → b = f.entry
  labels : ∀ b ∈ f.blocks, b ≤ f.lastLabel

theorem swept_unreach (f : Func) :
    Swept (walk f.succs (fun _ st => st) (fun _ st => st) f.blocks f.entry ()).1 f.blocks f
      (unreach f) :=
  swept_foldl _ _ _

/-- The blocks that are left are those that can be reached, and the exit block. -/
theorem mem_unreach (hf : f.Listed) {b : BlockId} :
    b ∈ (unreach f).blocks ↔ b ∈ f.blocks ∧ (f.Reaches b ∨ b = f.exit) := by
  rw [← List.count_pos_iff, (swept_unreach f).count, ← mem_vis hf]
  split
  · rw [Nat.sub_self]
    tauto
  · rw [Nat.sub_zero, List.count_pos_iff]
    tauto

theorem length_unreach_le (f : Func) : (unreach f).blocks.length ≤ f.blocks.length := by
  refine (List.subperm_ext_iff.mpr fun b _ => ?_).length_le
  rw [(swept_unreach f).count]
  exact Nat.sub_le _ _

/-- The edges that are left are those between blocks that can be reached. -/
theorem edge_unreach_of (hf : f.Listed) (hexit : ∀ b, ¬ f.Edge f.exit b) {b c : BlockId} :
    (unreach f).Edge b c ↔ f.Edge b c ∧ f.Reaches b := by
  rw [Func.Edge, Func.succs, Block.succs, (swept_unreach f).successors, ← mem_vis hf]
  split
  · rename_i hb
    simp [hb.2.2]
  · rename_i hb
    refine ⟨fun h => ⟨h, ?_⟩, And.left⟩
    have hlist : b ∈ f.blocks := (hf.2 b c h).1
    have hne : b ≠ f.exit := by
      rintro rfl
      exact hexit c h
    tauto

theorem edge_unreach (hf : f.Cfg) {b c : BlockId} :
    (unreach f).Edge b c ↔ f.Edge b c ∧ f.Reaches b :=
  edge_unreach_of hf.listed hf.exit

theorem listed_unreach (hf : f.Listed) (hexit : ∀ b, ¬ f.Edge f.exit b) : (unreach f).Listed := by
  refine ⟨?_, fun b c hbc => ?_⟩
  · rw [(swept_unreach f).entry, mem_unreach hf]
    exact ⟨hf.1, Or.inl .refl⟩
  · obtain ⟨hedge, hreach⟩ := (edge_unreach_of hf hexit).mp hbc
    rw [mem_unreach hf, mem_unreach hf]
    obtain ⟨hb, hc⟩ := hf.2 b c hedge
    exact ⟨⟨hb, Or.inl hreach⟩, hc, Or.inl (hreach.tail hedge)⟩

/-- What could be reached still can. -/
theorem reaches_unreach (hf : f.Cfg) {b : BlockId} : (unreach f).Reaches b ↔ f.Reaches b := by
  rw [Func.Reaches, (swept_unreach f).entry]
  have hmono : ∀ c d, (unreach f).Edge c d → f.Edge c d :=
    fun c d hcd => ((edge_unreach hf).mp hcd).1
  refine ⟨Relation.ReflTransGen.mono hmono f.entry b, fun h => ?_⟩
  induction h with
  | refl => exact .refl
  | tail hab hbc ih => exact ih.tail ((edge_unreach hf).mpr ⟨hbc, hab⟩)

/-- Control comes to a block along edges from blocks that can be reached themselves. A block that
    cannot be reached, as the exit block of a function that never ends, is not entered at all. -/
def Func.Entered (f : Func) : Prop := ∀ p b, f.Edge p b → f.Reaches p

theorem Func.Reachable.entered (hf : f.Listed) (h : f.Reachable) : f.Entered :=
  fun p b hpb => h p (hf.2 p b hpb).1

theorem entered_unreach (hf : f.Cfg) : (unreach f).Entered :=
  fun _ _ hpb => (reaches_unreach hf).mpr ((edge_unreach hf).mp hpb).2

theorem Func.Cfg.unreach (hf : f.Cfg) : (unreach f).Cfg := by
  have hsw := swept_unreach f
  refine ⟨listed_unreach hf.listed hf.exit, fun b hb => ?_, fun b hb => ?_, fun b hb => ?_⟩
  · rw [hsw.exit] at hb
    exact hf.exit b ((edge_unreach hf).mp hb).1
  · rw [hsw.entry] at hb ⊢
    exact hf.entry b ((edge_unreach hf).mp hb).1
  · rw [hsw.lastLabel]
    exact hf.labels b ((mem_unreach hf.listed).mp hb).1

end

/-! ### The initial sets -/

theorem domInit_apply (f : Func) (dom : Doms) {b : BlockId} (hb : b ∈ f.blocks) :
    domInit f dom b = if b = f.entry then {f.entry} else blksAll f := by
  have hfold : ∀ (l : List BlockId) (dom : Doms),
      l.foldl (fun dom b => domAnalyze0 f b dom) dom b =
        if b ∈ l then (if b = f.entry then {f.entry} else blksAll f) else dom b := by
    intro l
    induction l with
    | nil => intro dom; simp
    | cons c l ih =>
      intro dom
      rw [List.foldl_cons, ih]
      by_cases hc : b = c
      · subst hc; simp [domAnalyze0]
      · simp [domAnalyze0, hc]
  rw [domInit, hfold, if_pos hb]

/-! ### One step -/

/-- What a block with predecessors gets from them: what they have in common. -/
theorem mem_predsDoms {dom : Doms} {d : BlockId} : ∀ {preds : List BlockId}, preds ≠ [] →
    (d ∈ predsDoms dom preds ↔ ∀ p ∈ preds, d ∈ dom p)
  | [], h => absurd rfl h
  | pred :: preds, _ => by
      have hfold : ∀ (l : List BlockId) (tmp : Finset BlockId),
          d ∈ l.foldl (fun tmp p => tmp ∩ dom p) tmp ↔ d ∈ tmp ∧ ∀ p ∈ l, d ∈ dom p := by
        intro l
        induction l with
        | nil => simp
        | cons p l ih =>
          intro tmp
          rw [List.foldl_cons, ih, Finset.mem_inter, List.forall_mem_cons, and_assoc]
      rw [predsDoms, hfold, List.forall_mem_cons]

/-- What a block gets from its predecessors is in the set of one of them. -/
theorem exists_of_mem_predsDoms {dom : Doms} {d : BlockId} {preds : List BlockId}
    (hd : d ∈ predsDoms dom preds) : ∃ p ∈ preds, d ∈ dom p := by
  cases preds with
  | nil => exact absurd hd (Finset.notMem_empty d)
  | cons p preds =>
    have hp : p ∈ p :: preds := List.mem_cons_self ..
    exact ⟨p, hp, (mem_predsDoms (List.cons_ne_nil p preds)).mp hd p hp⟩

/-- Smaller sets of the predecessors give a smaller set. -/
theorem domTmp_mono {f : Func} {b : BlockId} {dom dom' : Doms} (h : ∀ p, dom' p ⊆ dom p) :
    domTmp f b dom' ⊆ domTmp f b dom := by
  refine Finset.insert_subset_insert b fun d hd => ?_
  by_cases hp : (f.block b).predecessors = []
  · rw [hp] at hd ⊢; exact hd
  · rw [mem_predsDoms hp] at hd ⊢
    exact fun p hmem => h p (hd p hmem)

/-- The set of the entry block stays as it is, if no other block leads there. -/
theorem domTmp_entry {f : Func} {dom : Doms} (hentry : ∀ b, f.Edge b f.entry → b = f.entry)
    (h : dom f.entry = {f.entry}) : domTmp f f.entry dom = {f.entry} := by
  refine Finset.Subset.antisymm (Finset.insert_subset (by simp) fun d hd => ?_) (by simp [domTmp])
  obtain ⟨p, hp, hd⟩ := exists_of_mem_predsDoms hd
  rwa [hentry p (Func.mem_preds.mp hp), h] at hd

/-! ### The iteration -/

/-- The sets of the blocks can only shrink, and hold at least the dominators. -/
structure Shrinking (f : Func) (dom : Doms) : Prop where
  entry : dom f.entry = {f.entry}
  listed : ∀ b ∈ f.blocks, dom b ⊆ blksAll f
  shrink : ∀ b ∈ f.blocks, domTmp f b dom ⊆ dom b
  exact : ∀ b ∈ f.blocks, f.Reaches b → ∀ d, Dominates f.Edge f.entry d b → d ∈ dom b

section
variable {f : Func} {dom : Doms}

/-- A block other than the entry is entered from some block. -/
theorem exists_pred {b : BlockId} (hreach : f.Reaches b)
    (hne : b ≠ f.entry) : (f.block b).predecessors ≠ [] := by
  rcases Relation.ReflTransGen.cases_tail hreach with h | ⟨p, _, hp⟩
  · exact absurd h hne
  · exact List.ne_nil_of_mem (Func.mem_preds.mpr hp)

/-- The nodes of a path are blocks of the list. -/
theorem Path.mem_blocks (hf : f.Listed) {l : List BlockId} {b : BlockId}
    (h : Path f.Edge f.entry l b) : ∀ d ∈ l, d ∈ f.blocks := by
  induction h with
  | root =>
    intro d hd
    rw [List.mem_singleton.mp hd]
    exact hf.1
  | step _ hedge ih =>
    intro d hd
    rcases List.mem_append.mp hd with hd | hd
    · exact ih d hd
    · rw [List.mem_singleton.mp hd]
      exact (hf.2 _ _ hedge).2

theorem shrinking_domInit (hf : f.Listed) (hentry : ∀ b, f.Edge b f.entry → b = f.entry) :
    Shrinking f (domInit f dom) := by
  have hinit : domInit f dom f.entry = {f.entry} := by rw [domInit_apply f dom hf.1, if_pos rfl]
  have hsub : ∀ b ∈ f.blocks, domInit f dom b ⊆ blksAll f := by
    intro b hb
    rw [domInit_apply f dom hb]
    split
    · exact Finset.singleton_subset_iff.mpr (List.mem_toFinset.mpr hf.1)
    · exact Finset.Subset.refl _
  refine ⟨hinit, hsub, fun b hb => ?_, fun b hb hreach d hd => ?_⟩
  · by_cases hbe : b = f.entry
    · subst hbe
      rw [domTmp_entry hentry hinit, hinit]
    · rw [domInit_apply f dom hb, if_neg hbe]
      refine Finset.insert_subset (List.mem_toFinset.mpr hb) fun d hd => ?_
      -- one predecessor is enough to bound what they have in common
      obtain ⟨p, hp, hd⟩ := exists_of_mem_predsDoms hd
      exact hsub p (hf.2 _ _ (Func.mem_preds.mp hp)).1 hd
  · rw [domInit_apply f dom hb]
    split
    · rename_i hbe
      rw [hbe] at hd
      exact Finset.mem_singleton.mpr (dominates_root.mp hd)
    · obtain ⟨l, hl⟩ := exists_path hreach
      exact List.mem_toFinset.mpr (hl.mem_blocks hf d (hd l hl))

/-- A set changes only by becoming smaller. -/
theorem Shrinking.card_lt (h : Shrinking f dom) {b : BlockId} (hb : b ∈ f.blocks)
    (hne : (domTmp f b dom).card ≠ (dom b).card) : (domTmp f b dom).card < (dom b).card :=
  lt_of_le_of_ne (Finset.card_le_card (h.shrink b hb)) hne

theorem Shrinking.step (hf : f.Listed) (hent : f.Entered)
    (hentry : ∀ b, f.Edge b f.entry → b = f.entry) (h : Shrinking f dom) {b : BlockId}
    (hb : b ∈ f.blocks) : Shrinking f (domAnalyze1 f b dom).1 := by
  unfold domAnalyze1
  split
  case isFalse => exact h
  case isTrue hne =>
    have hbe : b ≠ f.entry := by
      rintro rfl
      exact hne (by rw [domTmp_entry hentry h.entry, h.entry])
    have hle : ∀ p, Function.update dom b (domTmp f b dom) p ⊆ dom p := by
      intro p
      by_cases hp : p = b
      · subst hp; rw [Function.update_self]; exact h.shrink p hb
      · rw [Function.update_of_ne hp]
    change Shrinking f (Function.update dom b (domTmp f b dom))
    refine ⟨by rw [Function.update_of_ne hbe.symm, h.entry],
      fun c hc => (hle c).trans (h.listed c hc), fun c hc => ?_, fun c hc hreach d hd => ?_⟩
    · refine (domTmp_mono hle).trans ?_
      by_cases hcb : c = b
      · subst hcb; rw [Function.update_self]
      · rw [Function.update_of_ne hcb]; exact h.shrink c hc
    · by_cases hcb : c = b
      · subst hcb
        rw [Function.update_self, domTmp, Finset.mem_insert,
          mem_predsDoms (exists_pred hreach hbe)]
        refine ((dominates_iff hbe).mp hd).imp_right fun hall p hp => ?_
        have hedge : f.Edge p c := Func.mem_preds.mp hp
        exact h.exact p (hf.2 _ _ hedge).1 (hent p c hedge) d (hall p hedge)
      · rw [Function.update_of_ne hcb]; exact h.exact c hc hreach d hd

/-- When no step changes a set, the sets are the dominators. -/
theorem Shrinking.dominates (hf : f.Listed) (hent : f.Entered) (h : Shrinking f dom)
    (hstable : ∀ b ∈ f.blocks, (domAnalyze1 f b dom).2 = false) {b d : BlockId} (hb : b ∈ f.blocks)
    (hreach : f.Reaches b) : d ∈ dom b ↔ Dominates f.Edge f.entry d b := by
  -- equal sizes are equal sets, as one is a subset of the other
  have heq : ∀ b ∈ f.blocks, domTmp f b dom = dom b := by
    intro b hb
    refine Finset.eq_of_subset_of_card_le (h.shrink b hb) ?_
    have hcard := hstable b hb
    unfold domAnalyze1 at hcard
    split at hcard
    · exact absurd hcard (by simp)
    · rename_i hc; exact (not_ne_iff.mp hc).ge
  refine ⟨fun hd => ?_, h.exact b hb hreach d⟩
  refine @dominates_of_solution _ _ _
    (fun b d => (b ∈ f.blocks ∧ f.Reaches b) ∧ d ∈ dom b) ?_ ?_ _ _ ⟨⟨hb, hreach⟩, hd⟩
  · rintro d ⟨_, hd⟩
    rw [h.entry] at hd
    exact Finset.mem_singleton.mp hd
  · rintro p c d hedge ⟨⟨hc, hcreach⟩, hd⟩
    by_cases hce : c = f.entry
    · rw [hce, h.entry] at hd
      exact Or.inl ((Finset.mem_singleton.mp hd).trans hce.symm)
    · rw [← heq c hc, domTmp, Finset.mem_insert,
        mem_predsDoms (exists_pred hcreach hce)] at hd
      exact hd.imp_right fun hall =>
        ⟨⟨(hf.2 _ _ hedge).1, hent p c hedge⟩, hall p (Func.mem_preds.mpr hedge)⟩

/-- A step that reports no change makes none. -/
theorem domAnalyze1_stable {b : BlockId} (h : (domAnalyze1 f b dom).2 = false) :
    (domAnalyze1 f b dom).1 = dom := by
  unfold domAnalyze1 at h ⊢
  split
  case isTrue hne => rw [if_pos hne] at h; exact absurd h (by simp)
  case isFalse => rfl

/-- How many elements the sets of all blocks have. -/
def domSize (f : Func) (dom : Doms) : Nat := ∑ b ∈ blksAll f, (dom b).card

theorem Shrinking.domSize_le (h : Shrinking f dom) :
    domSize f dom ≤ f.blocks.length * f.blocks.length := by
  have hall : (blksAll f).card ≤ f.blocks.length := List.toFinset_card_le _
  calc domSize f dom ≤ (blksAll f).card • f.blocks.length :=
        Finset.sum_le_card_nsmul _ _ _ fun b hb =>
          (Finset.card_le_card (h.listed b (List.mem_toFinset.mp hb))).trans hall
    _ ≤ f.blocks.length * f.blocks.length := Nat.mul_le_mul_right _ hall

/-- A change makes the sets smaller as a whole. -/
theorem Shrinking.domSize_lt (h : Shrinking f dom) {b : BlockId} (hb : b ∈ f.blocks)
    (hc : (domAnalyze1 f b dom).2 = true) :
    domSize f (domAnalyze1 f b dom).1 < domSize f dom := by
  unfold domAnalyze1 at hc ⊢
  split
  case isFalse hno => rw [if_neg hno] at hc; exact absurd hc (by simp)
  case isTrue hne =>
    change domSize f (Function.update dom b (domTmp f b dom)) < domSize f dom
    refine Finset.sum_lt_sum (fun c _ => ?_) ⟨b, List.mem_toFinset.mpr hb, ?_⟩
    · by_cases hcb : c = b
      · subst hcb; rw [Function.update_self]; exact (h.card_lt hb hne).le
      · rw [Function.update_of_ne hcb]
    · rw [Function.update_self]; exact h.card_lt hb hne

/-- The iteration ends. -/
theorem iterate_domAnalyze1_ends (hf : f.Listed) (hent : f.Entered)
    (hentry : ∀ b, f.Edge b f.entry → b = f.entry) {n : Nat}
    (hn : f.blocks.length * f.blocks.length < n) :
    ∃ dom', iterate (domAnalyze1 f) f.blocks n (domInit f dom) = some dom' := by
  -- the measure that grows is the room below the largest size
  refine iterate_ends (P := Shrinking f)
    (μ := fun dom => f.blocks.length * f.blocks.length - domSize f dom)
    (N := f.blocks.length * f.blocks.length) (fun b hb st h => h.step hf hent hentry hb)
    (fun b hb st h => ?_) (fun b hb st h hc => ?_) (fun st _ => Nat.sub_le _ _)
    (shrinking_domInit hf hentry) (Nat.lt_add_left _ hn)
  · cases hc : (domAnalyze1 f b st).2 with
    | true => have := h.domSize_lt hb hc; omega
    | false => rw [domAnalyze1_stable hc]
  · have := h.domSize_lt hb hc
    have := h.domSize_le
    omega

end

/-- The analysis ends, and finds the dominators of the blocks that are left and can be reached. -/
theorem domAnalyze_dominates {f : Func} {dom : Doms} (hf : (unreach f).Listed)
    (hent : (unreach f).Entered)
    (hentry : ∀ b, (unreach f).Edge b (unreach f).entry → b = (unreach f).entry) {n : Nat}
    (hn : (unreach f).blocks.length * (unreach f).blocks.length < n) :
    ∃ dom', domAnalyze f dom n = some dom' ∧
      ∀ b ∈ (unreach f).blocks, (unreach f).Reaches b →
        ∀ d, d ∈ dom' b ↔ Dominates (unreach f).Edge (unreach f).entry d b := by
  obtain ⟨dom', hdom'⟩ := @iterate_domAnalyze1_ends _ dom hf hent hentry n hn
  refine ⟨dom', hdom', fun b hb hreach d => ?_⟩
  have hend : Shrinking (unreach f) dom' :=
    iterate_inv (fun b hb st h => h.step hf hent hentry hb) hdom' (shrinking_domInit hf hentry)
  exact hend.dominates hf hent (iterate_stable (fun b st => domAnalyze1_stable) hdom') hb hreach

/-- The dominators are exact: if every block can be reached, and no other block leads to the entry
    block, `dom_analyze` ends, and a block is in the set of another exactly if every path from the
    entry block to the latter passes through the former. -/
theorem domAnalyze_exact (f : Func) (dom : Doms) (hf : f.Listed) (hreach : f.Reachable)
    (hentry : ∀ b, f.Edge b f.entry → b = f.entry) (n : Nat)
    (hn : f.blocks.length * f.blocks.length < n) :
    ∃ dom', domAnalyze f dom n = some dom' ∧
      ∀ b ∈ f.blocks, ∀ d, d ∈ dom' b ↔ Dominates f.Edge f.entry d b := by
  have hend := @domAnalyze_dominates f dom
  rw [unreach_eq hf hreach] at hend
  obtain ⟨dom', hdom', hexact⟩ := hend hf (hreach.entered hf) hentry hn
  exact ⟨dom', hdom', fun b hb => hexact b hb (hreach b hb)⟩

/-- More passes do not change the result. -/
theorem domAnalyze_mono {f : Func} {dom dom' : Doms} {m n : Nat} (h : m ≤ n)
    (hm : domAnalyze f dom m = some dom') : domAnalyze f dom n = some dom' :=
  iterate_mono h hm

/-- The function of the given number of blocks and the given edges. The first block is the entry,
    the last one the exit. -/
def edgesFunc (n : Nat) (edges : List (BlockId × ConditionCode × BlockId)) : Func :=
  edges.foldl (fun f e => blockAddSuccessor f e.1 e.2.1 e.2.2)
    ⟨0, n - 1, List.range n, fun _ => {}, n, Blocks.linked_empty⟩

theorem edgesFunc_entry (n : Nat) (edges : List (BlockId × ConditionCode × BlockId)) :
    (edgesFunc n edges).entry = 0 ∧ (edgesFunc n edges).blocks = List.range n := by
  induction edges using List.reverseRecOn with
  | nil => exact ⟨rfl, rfl⟩
  | append_singleton edges e ih => rw [edgesFunc, List.foldl_concat]; exact ih

theorem edge_edgesFunc (n : Nat) (edges : List (BlockId × ConditionCode × BlockId))
    (b c : BlockId) : (edgesFunc n edges).Edge b c ↔ ∃ e ∈ edges, e.1 = b ∧ e.2.2 = c := by
  induction edges using List.reverseRecOn with
  | nil => simp [edgesFunc, Func.Edge, Func.succs, Block.succs]
  | append_singleton edges e ih =>
    rw [edgesFunc, List.foldl_concat, ← edgesFunc]
    simp only [Func.Edge, Func.succs, Block.succs, blockAddSuccessor, Blocks.succs_addSuccessor,
      List.map_append, List.mem_append] at ih ⊢
    rw [ih]
    by_cases hb : b = e.1 <;> grind

theorem listed_edgesFunc {n : Nat} {edges : List (BlockId × ConditionCode × BlockId)}
    (hn : 0 < n) (h : ∀ e ∈ edges, e.1 < n ∧ e.2.2 < n) : (edgesFunc n edges).Listed := by
  obtain ⟨hentry, hblocks⟩ := edgesFunc_entry n edges
  rw [Func.Listed, hentry, hblocks]
  refine ⟨List.mem_range.mpr hn, fun b c hbc => ?_⟩
  obtain ⟨e, he, rfl, rfl⟩ := (edge_edgesFunc n edges b c).mp hbc
  exact ⟨List.mem_range.mpr (h e he).1, List.mem_range.mpr (h e he).2⟩

theorem not_edge_entry {n : Nat} {edges : List (BlockId × ConditionCode × BlockId)}
    (h : ∀ e ∈ edges, e.2.2 ≠ 0) (b : BlockId) :
    ¬ (edgesFunc n edges).Edge b (edgesFunc n edges).entry := by
  intro hb
  rw [(edgesFunc_entry n edges).1] at hb
  obtain ⟨e, he, _, h0⟩ := (edge_edgesFunc n edges b 0).mp hb
  exact h e he h0

/-- A loop of two blocks: the test is in block 1, the body in block 2. -/
def whileFunc : Func :=
  edgesFunc 4 [(0, .always, 1), (1, .nz, 2), (1, .z, 3), (2, .always, 1)]

theorem domAnalyze_while : ∃ dom', domAnalyze whileFunc (fun _ => ∅) 17 = some dom' ∧
    ∀ b ∈ whileFunc.blocks, ∀ d, d ∈ dom' b ↔ Dominates whileFunc.Edge whileFunc.entry d b := by
  have hedge := edge_edgesFunc 4 [(0, .always, 1), (1, .nz, 2), (1, .z, 3), (2, .always, 1)]
  have h₁ : whileFunc.Edge 0 1 := (hedge 0 1).mpr (by simp)
  have h₂ : whileFunc.Edge 1 2 := (hedge 1 2).mpr (by simp)
  have h₃ : whileFunc.Edge 1 3 := (hedge 1 3).mpr (by simp)
  refine domAnalyze_exact whileFunc (fun _ => ∅) (listed_edgesFunc (by decide) (by decide))
    (fun b hb => ?_) (fun b h => absurd h (not_edge_entry (by decide) b)) 17 (by decide)
  · have hb' : b ∈ [0, 1, 2, 3] := hb
    fin_cases hb'
    · exact .refl
    · exact .single h₁
    · exact (Relation.ReflTransGen.single h₁).tail h₂
    · exact (Relation.ReflTransGen.single h₁).tail h₃

/-- Two blocks that lead to each other, the first being the entry. -/
def backFunc : Func := edgesFunc 3 [(0, .always, 1), (1, .nz, 0), (1, .z, 2)]

theorem edge_backFunc {b c : BlockId} :
    backFunc.Edge b c ↔ b = 0 ∧ c = 1 ∨ b = 1 ∧ c = 0 ∨ b = 1 ∧ c = 2 := by
  rw [backFunc, edge_edgesFunc]
  simp [eq_comm]

theorem reachable_backFunc : backFunc.Reachable := by
  have h₁ : backFunc.Edge 0 1 := edge_backFunc.mpr (by simp)
  have h₂ : backFunc.Edge 1 2 := edge_backFunc.mpr (by simp)
  intro b hb
  have hb' : b ∈ [0, 1, 2] := hb
  fin_cases hb'
  · exact .refl
  · exact .single h₁
  · exact (Relation.ReflTransGen.single h₁).tail h₂

/-- Where another block leads to the entry block, the set of the entry block grows. -/
theorem domAnalyze_backFunc :
    ∃ d, domAnalyze backFunc (fun _ => ∅) 4 = some d ∧ 1 ∈ d 0 := by
  have hsome : (domAnalyze backFunc (fun _ => ∅) 4).any (fun d => decide (1 ∈ d 0)) = true := by
    decide
  simpa [Option.any_eq_true] using hsome

/-- Block 1 is taken to dominate the entry block, which leads to it. -/
theorem not_domAnalyze_exact : ¬ ∀ (f : Func) (dom : Doms), f.Listed → f.Reachable →
    ∃ n dom', domAnalyze f dom n = some dom' ∧
      ∀ b ∈ f.blocks, ∀ d, d ∈ dom' b ↔ Dominates f.Edge f.entry d b := by
  intro hall
  obtain ⟨n, dom', hdom', hexact⟩ := hall backFunc (fun _ => ∅)
    (listed_edgesFunc (by decide) (by decide)) reachable_backFunc
  obtain ⟨d, hd, hmem⟩ := domAnalyze_backFunc
  have hsame : dom' = d := by
    have hn := domAnalyze_mono (Nat.le_max_left n 4) hdom'
    have h4 := domAnalyze_mono (Nat.le_max_right n 4) hd
    exact Option.some.inj (hn.symm.trans h4)
  subst hsame
  exact absurd (dominates_root.mp ((hexact 0 (by decide) 1).mp hmem)) (by decide)

end Ncc
