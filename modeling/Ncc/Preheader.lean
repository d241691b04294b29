import Ncc.SwitchCases
import Ncc.Dom

/-! Redirecting successors, and the preheader of a loop (block.c).

    A preheader is put before the head of a loop: all blocks outside of the loop that led to the head
    lead to the new block now, and the new block leads to the head. `blockRedirectSuccessors` edits
    the two ends of an edge in place and then coalesces what is left, so a block keeps which blocks it
    leads to, but for the one that was redirected (`mem_succs_redirect`). -/

namespace Ncc

/-- The `n`th successor of a block leads to another block, and the predecessor moves with it. -/
def Blocks.retarget (B : Blocks) (b src dst : BlockId) (n : Nat) : Blocks :=
  ((B.modify src fun x => { x with predecessors := x.predecessors.erase b }).modify dst
    fun x => { x with predecessors := x.predecessors ++ [b] }).modify b
    fun x => { x with successors := x.successors.modify n fun c => { c with b := dst } }

section
variable {B : Blocks} {b src dst : BlockId} {n : Nat} {succ : Cessor}

theorem Blocks.succs_retarget (x : BlockId) : (B.retarget b src dst n x).successors =
    if x = b then (B x).successors.modify n fun c => { c with b := dst }
    else (B x).successors := by
  unfold retarget modify
  split_ifs <;> rfl

theorem Blocks.preds_retarget (x : BlockId) : (B.retarget b src dst n x).predecessors =
    (if x = src then (B x).predecessors.erase b else (B x).predecessors) ++
      if x = dst then [b] else [] := by
  unfold retarget modify
  split_ifs <;> simp

/-- One cessor fewer for the old target, one more for the new one. -/
theorem count_retarget {l : List Cessor} (hn : l[n]? = some succ) (d : BlockId) :
    ((l.modify n fun c => { c with b := dst }).map Cessor.b).count d +
        (if d = succ.b then 1 else 0) =
      (l.map Cessor.b).count d + if d = dst then 1 else 0 := by
  induction l generalizing n with
  | nil => exact absurd hn (by simp)
  | cons c l ih =>
    cases n with
    | zero =>
      obtain rfl : c = succ := Option.some.inj hn
      simp only [List.modify_zero_cons, List.map_cons, List.count_cons, beq_iff_eq]
      grind
    | succ n =>
      have hl := ih (n := n) hn
      simp only [List.modify_succ_cons, List.map_cons, List.count_cons] at hl ⊢
      omega

theorem Blocks.linked_retarget (h : B.Linked) (hn : (B b).successors[n]? = some succ)
    (hb : succ.b = src) : (B.retarget b src dst n).Linked := by
  intro c d
  have hmem : d = src → b ∈ (B d).predecessors := by
    rintro rfl
    rw [← List.count_pos_iff, h, List.count_pos_iff, ← hb]
    exact List.mem_map_of_mem (List.mem_of_getElem? hn)
  have hcd := h c d
  rw [Block.succs] at hcd
  rw [Block.succs, succs_retarget, preds_retarget, List.count_append]
  by_cases hc : c = b
  · subst hc
    have hcount := @count_retarget dst n succ (B c).successors hn d
    rw [if_pos rfl]
    rw [hb] at hcount
    have hend : (if d = dst then [c] else []).count c = if d = dst then 1 else 0 := by
      split <;> simp
    rw [hend]
    by_cases hs : d = src
    · have hpos : 0 < (B d).predecessors.count c := List.count_pos_iff.mpr (hmem hs)
      rw [if_pos hs] at hcount ⊢
      rw [List.count_erase_self]
      omega
    · rw [if_neg hs] at hcount ⊢
      omega
  · rw [if_neg hc, ← hcd]
    split_ifs <;> simp [List.count_erase_of_ne hc, Ne.symm hc]

end

/-- One turn of the loop of `block_redirect_successors`, at the `n`th successor. -/
def redirectAt (b src dst : BlockId) (f : Func) (n : Nat) : Func :=
  match hn : (f.block b).successors[n]? with
  | none => f
  | some succ =>
    if hb : succ.b = src then
      { f with
        block := f.block.retarget b src dst n
        linked := Blocks.linked_retarget f.linked hn hb }
    else f

/-- `block_redirect_successors`: for each successor of the block that targets `src`, rewrite it to
    target `dst`. -/
def blockRedirectSuccessors (f : Func) (b src dst : BlockId) : Func :=
  Switch.blockCoalesceSuccessors
    ((List.range (f.block b).successors.length).foldl (redirectAt b src dst) f) b

/-- `block_preheader`: insert a preheader in before the loop head. -/
def blockPreheader (f : Func) (head : BlockId) (loopBlks : Finset BlockId) : BlockId × Func :=
  let (new, f) := blockNew f
  let f := blockAddSuccessor f new .always head
  (new, f.blocks.foldl (fun f b =>
    if b = new ∨ b ∈ loopBlks then f else blockRedirectSuccessors f b head new) f)

/-! ### The successors that are left -/

section
variable {f f' : Func} {b src dst : BlockId}

/-- What becomes of a successor. -/
def redirected (src dst : BlockId) (c : Cessor) : Cessor :=
  if c.b = src then { c with b := dst } else c

theorem modify_append (pre l : List Cessor) (c : Cessor) (g : Cessor → Cessor) :
    (pre ++ c :: l).modify pre.length g = pre ++ g c :: l := by
  induction pre with
  | nil => rfl
  | cons d pre ih => exact congrArg (d :: ·) ih

theorem redirectAt_rewritten {pre l : List Cessor} {c : Cessor}
    (hs : (f.block b).successors = pre ++ c :: l) :
    Switch.Rewritten f (redirectAt b src dst f pre.length) b
      (pre ++ redirected src dst c :: l) ∧ SameBlocks f (redirectAt b src dst f pre.length) := by
  have hc : (f.block b).successors[pre.length]? = some c := by simp [hs]
  unfold redirectAt redirected
  split
  · rename_i hn
    rw [hn] at hc
    exact absurd hc (by simp)
  · rename_i succ hn
    obtain rfl : succ = c := Option.some.inj (hn.symm.trans hc)
    split
    · refine ⟨⟨?_, fun x => ?_, fun x => ?_, fun x hx => ?_⟩, ⟨rfl, rfl, rfl, rfl⟩⟩
      · simp only [Blocks.succs_retarget, if_pos, hs]
        exact modify_append pre l succ _
      · show (Blocks.retarget _ _ _ _ _ x).control = _
        unfold Blocks.retarget Blocks.modify
        split_ifs <;> rfl
      · show (Blocks.retarget _ _ _ _ _ x).insns = _
        unfold Blocks.retarget Blocks.modify
        split_ifs <;> rfl
      · simp only [Blocks.succs_retarget, if_neg hx]
    · rw [← hs]
      exact ⟨Switch.Rewritten.refl f b, ⟨rfl, rfl, rfl, rfl⟩⟩

theorem redirect_loop : ∀ (l : List Cessor) (f : Func) (pre : List Cessor),
    (f.block b).successors = pre ++ l →
      let f' := (List.range' pre.length l.length).foldl (redirectAt b src dst) f
      Switch.Rewritten f f' b (pre ++ l.map (redirected src dst)) ∧ SameBlocks f f'
  | [], f, pre, hs => by
    rw [List.map_nil, ← hs]
    exact ⟨Switch.Rewritten.refl f b, ⟨rfl, rfl, rfl, rfl⟩⟩
  | c :: l, f, pre, hs => by
    obtain ⟨hat, hsame⟩ := @redirectAt_rewritten f b src dst pre l c hs
    have hrest := redirect_loop l (redirectAt b src dst f pre.length)
      (pre ++ [redirected src dst c]) (hat.successors.trans (List.append_cons ..))
    rw [List.length_append, List.length_singleton, List.append_assoc] at hrest
    exact ⟨hat.trans hrest.1, hsame.trans hrest.2⟩

theorem mem_succs_of_rewritten {l : List Cessor} (h : Switch.Rewritten f f' b l) {x c : BlockId} :
    c ∈ f'.succs x ↔ if x = b then c ∈ l.map Cessor.b else c ∈ f.succs x := by
  rw [Func.succs, Func.succs, Block.succs, Block.succs]
  split
  · rename_i hx
    rw [hx, h.successors]
  · rename_i hx
    rw [h.others x hx]

/-- Cases that are joined go to the same block. -/
theorem mem_coalesceCases {l : List Cessor} {c : BlockId} :
    c ∈ (Switch.coalesceCases l).map Cessor.b ↔ c ∈ l.map Cessor.b := by
  induction l using Switch.coalesceCases.induct with
  | case1 d e l hadj ih =>
    have hb : e.b = d.b := by
      simp only [Switch.adjacent, Bool.and_eq_true, beq_iff_eq] at hadj
      exact hadj.1.2
    rw [Switch.coalesceCases, if_pos hadj]
    simp only [List.map_cons, List.mem_cons, ih, hb, ← or_assoc, or_self]
  | case2 d e l hadj ih =>
    rw [Switch.coalesceCases, if_neg hadj, List.map_cons, List.mem_cons, ih]
    simp only [List.map_cons, List.mem_cons]
  | case3 l hl =>
    cases l with
    | nil => rfl
    | cons d l =>
      cases l with
      | nil => rfl
      | cons e l => exact absurd rfl (hl d e l)

theorem sameBlocks_coalesceAt (n : Nat) : SameBlocks f (Switch.coalesceAt f b n) := by
  unfold Switch.coalesceAt
  split
  · split <;> exact ⟨rfl, rfl, rfl, rfl⟩
  · exact ⟨rfl, rfl, rfl, rfl⟩

theorem sameBlocks_blockSwitchCoalesce (f : Func) (b : BlockId) :
    SameBlocks f (Switch.blockSwitchCoalesce f b) := by
  have hfold : ∀ (l : List Nat) (f : Func),
      SameBlocks f (l.foldl (fun f n => Switch.coalesceAt f b n) f) := by
    intro l
    induction l with
    | nil => exact fun f => ⟨rfl, rfl, rfl, rfl⟩
    | cons n l ih => exact fun f => (sameBlocks_coalesceAt n).trans (ih _)
  have hsort : SameBlocks f (Switch.blockSwitchSort f b) := ⟨rfl, rfl, rfl, rfl⟩
  exact hsort.trans (hfold _ _)

/-- The function after the graph was rewritten at one block: the others keep their successors. -/
structure RewrittenAt (f f' : Func) (b : BlockId) : Prop extends SameBlocks f f' where
  others : ∀ x, x ≠ b → (f'.block x).successors = (f.block x).successors

theorem RewrittenAt.trans {f'' : Func} (h : RewrittenAt f f' b) (h' : RewrittenAt f' f'' b) :
    RewrittenAt f f'' b :=
  ⟨h.toSameBlocks.trans h'.toSameBlocks, fun x hx => (h'.others x hx).trans (h.others x hx)⟩

/-- The end of `block_coalesce_successors`: a branch whose ways are all one becomes a jump. -/
def jumpIfSame (g : Func) (b : BlockId) : Func :=
  match (g.block b).successors with
  | [] => g
  | cessor :: cessors =>
    if cessor.cc = .always then g
    else if cessors.any fun c => c.b != cessor.b then g
    else (blockAddSuccessor (blockRemoveSuccessors g b) b .always cessor.b).setControl b none

/-- Coalescing the successors of a block does not change which blocks it leads to. -/
theorem blockCoalesceSuccessors_spec (f : Func) (b : BlockId) :
    RewrittenAt f (Switch.blockCoalesceSuccessors f b) b ∧
      ∀ c, c ∈ (Switch.blockCoalesceSuccessors f b).succs b ↔ c ∈ f.succs b := by
  obtain ⟨g, hg, hsuccs, hspec⟩ : ∃ g : Func, RewrittenAt f g b ∧
      (∀ c, c ∈ g.succs b ↔ c ∈ f.succs b) ∧
      Switch.blockCoalesceSuccessors f b = jumpIfSame g b := by
    refine ⟨_, ?_, fun c => ?_, rfl⟩
    · split
      · exact ⟨sameBlocks_blockSwitchCoalesce f b, (Switch.blockSwitchCoalesce_rewritten f b).others⟩
      · exact ⟨⟨rfl, rfl, rfl, rfl⟩, fun x _ => rfl⟩
    · split
      · rw [mem_succs_of_rewritten (Switch.blockSwitchCoalesce_rewritten f b), if_pos rfl,
          mem_coalesceCases, ((Exchange.sort_perm Switch.misplaced_asymm _).map Cessor.b).mem_iff]
        rfl
      · rfl
  rw [hspec, jumpIfSame]
  split
  · exact ⟨hg, hsuccs⟩
  · rename_i cessor cessors hlist
    split_ifs with hcc hany
    · exact ⟨hg, hsuccs⟩
    · exact ⟨hg, hsuccs⟩
    · have hall : ∀ c ∈ cessors, c.b = cessor.b := by simpa using hany
      have hremove := sameBlocks_blockRemoveSuccessors g b
      refine ⟨hg.trans ⟨⟨hremove.1, hremove.2, hremove.3, hremove.4⟩, fun x hx => ?_⟩, fun c => ?_⟩
      · rw [Func.setControl_block, if_neg hx]
        simp only [blockAddSuccessor, Blocks.succs_addSuccessor, if_neg hx,
          succs_blockRemoveSuccessors, List.append_nil]
      · rw [← hsuccs, Func.succs, Func.succs, Block.succs, Block.succs, hlist,
          Func.setControl_block, if_pos rfl]
        simp only [blockAddSuccessor, Blocks.succs_addSuccessor, succs_blockRemoveSuccessors,
          if_pos, List.nil_append, List.map_cons, List.map_nil, List.mem_cons, List.not_mem_nil,
          or_false]
        refine ⟨Or.inl, ?_⟩
        rintro (hc | hc)
        · exact hc
        · obtain ⟨d, hd, rfl⟩ := List.mem_map.mp hc
          exact hall d hd

/-- Redirecting the successors of a block replaces one of the blocks it leads to by another. -/
theorem blockRedirectSuccessors_spec (f : Func) (b src dst : BlockId) :
    RewrittenAt f (blockRedirectSuccessors f b src dst) b ∧
      ∀ c, c ∈ (blockRedirectSuccessors f b src dst).succs b ↔
        c ∈ f.succs b ∧ c ≠ src ∨ c = dst ∧ src ∈ f.succs b := by
  obtain ⟨hloop, hsame⟩ := @redirect_loop b src dst (f.block b).successors f [] rfl
  rw [List.length_nil, ← List.range_eq_range', List.nil_append] at hloop
  rw [List.length_nil, ← List.range_eq_range'] at hsame
  obtain ⟨hat, hmem⟩ := blockCoalesceSuccessors_spec
    ((List.range (f.block b).successors.length).foldl (redirectAt b src dst) f) b
  refine ⟨RewrittenAt.trans ⟨hsame, hloop.others⟩ hat, fun c => (hmem c).trans ?_⟩
  rw [mem_succs_of_rewritten hloop, if_pos rfl, Func.succs, Block.succs]
  simp only [List.mem_map, exists_exists_and_eq_and, redirected]
  grind

/-! ### The preheader -/

theorem edge_of_successors {x : BlockId} (h : (f'.block x).successors = (f.block x).successors)
    (c : BlockId) : f'.Edge x c ↔ f.Edge x c := by
  rw [Func.Edge, Func.Edge, Func.succs, Func.succs, Block.succs, Block.succs, h]

/-- The loop of `block_preheader` redirects the blocks of a list that are not of the loop. -/
theorem preheader_loop {head new : BlockId} {loopBlks : Finset BlockId} (hne : head ≠ new) :
    ∀ (l : List BlockId) (f : Func), let f' := l.foldl (fun f b =>
        if b = new ∨ b ∈ loopBlks then f else blockRedirectSuccessors f b head new) f
      SameBlocks f f' ∧
      (∀ x, (x ∈ l → x = new ∨ x ∈ loopBlks) →
        (f'.block x).successors = (f.block x).successors) ∧
      ∀ x ∈ l, x ≠ new → x ∉ loopBlks →
        ∀ c, f'.Edge x c ↔ f.Edge x c ∧ c ≠ head ∨ c = new ∧ f.Edge x head
  | [], f => ⟨⟨rfl, rfl, rfl, rfl⟩, fun x _ => rfl, fun x hx => absurd hx List.not_mem_nil⟩
  | b :: l, f => by
    by_cases hb : b = new ∨ b ∈ loopBlks
    · obtain ⟨hsame, hkept, hout⟩ := preheader_loop hne l f
      rw [List.foldl_cons, if_pos hb]
      refine ⟨hsame, fun x hx => hkept x fun hl => hx (List.mem_cons_of_mem _ hl),
        fun x hx hnew hloop => hout x ?_ hnew hloop⟩
      rcases List.mem_cons.mp hx with rfl | hx
      · exact absurd hb (not_or.mpr ⟨hnew, hloop⟩)
      · exact hx
    · obtain ⟨hat, hmem⟩ := blockRedirectSuccessors_spec f b head new
      obtain ⟨hsame, hkept, hout⟩ := preheader_loop hne l (blockRedirectSuccessors f b head new)
      have hother : ∀ x, x ≠ b → ∀ c,
          (blockRedirectSuccessors f b head new).Edge x c ↔ f.Edge x c :=
        fun x hx => edge_of_successors (hat.others x hx)
      rw [List.foldl_cons, if_neg hb]
      refine ⟨hat.toSameBlocks.trans hsame, fun x hx => ?_, fun x hx hnew hloop c => ?_⟩
      · have hxb : x ≠ b := by
          rintro rfl
          exact hb (hx (List.mem_cons_self ..))
        exact (hkept x fun hl => hx (List.mem_cons_of_mem _ hl)).trans (hat.others x hxb)
      · by_cases hxl : x ∈ l
        · rw [hout x hxl hnew hloop]
          by_cases hxb : x = b
          · -- a block that is listed twice does not lead to the head any more
            subst hxb
            rw [Func.Edge, Func.Edge, hmem, hmem]
            simp only [ne_eq, not_true_eq_false, and_false, hne, false_and, or_false]
            constructor
            · exact And.left
            · intro h
              refine ⟨h, ?_⟩
              rintro rfl
              simp [hne] at h
          · rw [hother x hxb, hother x hxb]
        · obtain rfl : x = b := (List.mem_cons.mp hx).resolve_right hxl
          rw [edge_of_successors (hkept x fun hl => absurd hl hxl)]
          exact hmem c

/-- What `block_preheader` makes of a graph. -/
structure Preheader (f f' : Func) (head new : BlockId) (loopBlks : Finset BlockId) : Prop where
  entry : f'.entry = f.entry
  blocks : f'.blocks = f.blocks ++ [new]
  fresh : new ∉ f.blocks
  leads : ∀ c, f'.Edge new c ↔ c = head
  inside : ∀ b ∈ loopBlks, (f'.block b).successors = (f.block b).successors
  outside : ∀ b, b ≠ new → b ∉ loopBlks →
    ∀ c, f'.Edge b c ↔ f.Edge b c ∧ c ≠ head ∨ c = new ∧ f.Edge b head

theorem blockPreheader_spec (hf : f.Cfg) {head : BlockId} {loopBlks : Finset BlockId}
    (hhead : head ∈ f.blocks) (hloop : ∀ b ∈ loopBlks, b ∈ f.blocks) :
    Preheader f (blockPreheader f head loopBlks).2 head (blockPreheader f head loopBlks).1
      loopBlks := by
  have hfresh : f.lastLabel + 1 ∉ f.blocks :=
    fun h => absurd (hf.labels _ h) (Nat.not_succ_le_self _)
  have hnone : (f.block (f.lastLabel + 1)).successors = [] := by
    refine List.eq_nil_iff_forall_not_mem.mpr fun c hc => ?_
    exact hfresh (hf.listed.2 _ c.b (List.mem_map_of_mem hc)).1
  have hne : head ≠ f.lastLabel + 1 := fun h => hfresh (h ▸ hhead)
  obtain ⟨hsame, hkept, hout⟩ := @preheader_loop head (f.lastLabel + 1) loopBlks hne
    (f.blocks ++ [f.lastLabel + 1]) (blockAddSuccessor (blockNew f).2 (f.lastLabel + 1) .always head)
  have hstart : ∀ x, ((blockAddSuccessor (blockNew f).2 (f.lastLabel + 1) .always head).block
      x).successors = (f.block x).successors ++
        if x = f.lastLabel + 1 then [⟨.always, head, 0, 0⟩] else [] :=
    fun x => Blocks.succs_addSuccessor ..
  refine ⟨hsame.entry, hsame.blocks, hfresh, fun c => ?_, fun b hb => ?_, fun b hbn hbl c => ?_⟩
  · have hnew := hkept (f.lastLabel + 1) fun _ => Or.inl rfl
    rw [hstart, hnone, if_pos rfl] at hnew
    show c ∈ Block.succs _ ↔ _
    rw [Block.succs]
    exact (congrArg (fun l : List Cessor => c ∈ l.map Cessor.b) hnew).to_iff.trans (by simp)
  · have hold := hkept b fun _ => Or.inr hb
    have hbn : b ≠ f.lastLabel + 1 := fun h => hfresh (h ▸ hloop b hb)
    rw [hstart, if_neg hbn, List.append_nil] at hold
    exact hold
  · have hbn' : b ≠ f.lastLabel + 1 := hbn
    have hedge : ∀ c, (blockAddSuccessor (blockNew f).2 (f.lastLabel + 1) .always head).Edge b c ↔
        f.Edge b c :=
      edge_of_successors (by rw [hstart, if_neg hbn', List.append_nil])
    by_cases hb : b ∈ f.blocks
    · have hb' := hout b (List.mem_append_left _ hb) hbn' hbl c
      rw [hedge, hedge] at hb'
      exact hb'
    · -- a block that is not listed has no successors
      have hnot : ∀ d, ¬ f.Edge b d := fun d h => hb (hf.listed.2 b d h).1
      have hold := hkept b fun h => by
        rcases List.mem_append.mp h with h | h
        · exact absurd h hb
        · exact Or.inl (List.mem_singleton.mp h)
      simp only [hnot, false_and, and_false, or_false, iff_false]
      exact fun h => hnot c ((hedge c).mp ((edge_of_successors hold c).mp h))

/-- An edge into the head comes from the preheader or from the loop. -/
theorem Preheader.edge_head {head new : BlockId} {loopBlks : Finset BlockId}
    (h : Preheader f f' head new loopBlks) (hne : head ≠ new) {p : BlockId} (hp : f'.Edge p head) :
    p = new ∨ p ∈ loopBlks := by
  by_contra hno
  rw [not_or] at hno
  rcases (h.outside p hno.1 hno.2 head).mp hp with hp | hp
  · exact hp.2 rfl
  · exact hne hp.1

end

end Ncc
