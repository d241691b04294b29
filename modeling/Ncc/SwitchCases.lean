import Ncc.Switch
import Ncc.Lib.Exchange

/-! Sorting and coalescing the cases of a switch (block.c).

    When the parser has seen a whole switch statement, its cases are sorted, neighbours that go to
    the same block are joined, and a block all of whose successors are one becomes a jump. The
    control is looked up as before. -/

namespace Ncc.Switch

/-! ### The operations -/

/-- `block_switch`. -/
def blockSwitch (f : Func) (b : BlockId) (control : Operand) (defaultBlock : BlockId) : Func :=
  (blockAddSuccessor f b .default defaultBlock).setControl b (some control)

/-- `block_switch_case`. -/
def blockSwitchCase (f : Func) (b : BlockId) (i : Word) (succ : BlockId) : Except String Func :=
  if (f.block b).successors.tail.any fun cessor => cessor.min == i then
    .error "duplicate case label"
  else .ok (blockAddSuccessor f b .switch succ i i)

/-- The test of `block_switch_sort`: `next` is a case that has to be before the case `cessor`. -/
def misplaced (cessor next : Cessor) : Bool :=
  cessor.cc == .switch && next.cc == .switch && decide (next.min < cessor.min)

theorem misplaced_asymm (c d : Cessor) (h : misplaced c d = true) : misplaced d c = false := by
  simp only [misplaced, Bool.and_eq_true, beq_iff_eq, decide_eq_true_eq] at h
  simp only [misplaced, h.1.1, h.1.2, beq_self_eq_true, Bool.and_self, Bool.true_and,
    decide_eq_false_iff_not]
  exact BitVec.not_lt.mpr (BitVec.le_of_lt h.2)

/-- Rewrite the list of a block's successors, but not which blocks they are. -/
def setSuccessors (f : Func) (b : BlockId) (l : List Cessor)
    (hl : (l.map Cessor.b).Perm (f.succs b)) : Func :=
  { f with
    block := f.block.modify b fun x => { x with successors := l }
    linked := by
      intro c d
      have hpreds : (f.block.modify b (fun x => { x with successors := l }) d).predecessors =
          (f.block d).predecessors := by
        unfold Blocks.modify
        split <;> rfl
      rw [hpreds, f.linked c d, Block.succs, Block.succs, Blocks.modify]
      split
      · next hc =>
        subst hc
        exact (hl.count_eq d).symm
      · rfl }

/-- `block_switch_sort`. -/
def blockSwitchSort (f : Func) (b : BlockId) : Func :=
  setSuccessors f b (Exchange.sort misplaced misplaced_asymm (f.block b).successors)
    ((Exchange.sort_perm misplaced_asymm _).map Cessor.b)

/-- The test of `block_switch_coalesce`: the cases are adjacent and go to the same block. -/
def adjacent (cessor next : Cessor) : Bool :=
  cessor.cc == .switch && next.cc == .switch && next.b == cessor.b && next.min == cessor.max + 1

theorem map_modify_max (l : List Cessor) (n : Nat) (max : Word) :
    (l.modify n fun c => { c with max := max }).map Cessor.b = l.map Cessor.b := by
  induction l generalizing n with
  | nil => cases n <;> rfl
  | cons c l ih =>
    cases n with
    | zero => rfl
    | succ n => exact congrArg (c.b :: ·) (ih n)

/-- Set the upper bound of the `n`th successor of a block. -/
def setMax (f : Func) (b : BlockId) (n : Nat) (max : Word) : Func :=
  setSuccessors f b ((f.block b).successors.modify n fun c => { c with max := max })
    (.of_eq (map_modify_max _ n max))

/-- One turn of the loop of `block_switch_coalesce`, at the `n`th successor. -/
def coalesceAt (f : Func) (b : BlockId) (n : Nat) : Func :=
  match (f.block b).successors[n]?, (f.block b).successors[n + 1]? with
  | some cessor, some next =>
    if adjacent cessor next then blockRemoveSuccessor (setMax f b n next.max) b (n + 1) else f
  | _, _ => f

/-- `block_switch_coalesce`. The list can get shorter on the way; there is nothing to do past its
    end. -/
def blockSwitchCoalesce (f : Func) (b : BlockId) : Func :=
  let f := blockSwitchSort f b
  (List.range (f.block b).successors.length).foldl (fun f n => coalesceAt f b n) f

/-- `block_coalesce_successors`. -/
def blockCoalesceSuccessors (f : Func) (b : BlockId) : Func :=
  let f := if blockSwitchP (f.block b) then blockSwitchCoalesce f b else f
  match (f.block b).successors with
  | [] => f
  | cessor :: cessors =>
    if cessor.cc = .always then f
    else if cessors.any fun c => c.b != cessor.b then f
    else (blockAddSuccessor (blockRemoveSuccessors f b) b .always cessor.b).setControl b none

/-- `block_switch_done`. -/
def blockSwitchDone (f : Func) (b : BlockId) : Func := blockCoalesceSuccessors f b

/-! ### The blocks -/

/-- The function after the successors of block `b` have been rewritten to `l`. -/
structure Rewritten (f f' : Func) (b : BlockId) (l : List Cessor) : Prop where
  successors : (f'.block b).successors = l
  control : ∀ x, (f'.block x).control = (f.block x).control
  insns : ∀ x, (f'.block x).insns = (f.block x).insns
  others : ∀ x, x ≠ b → (f'.block x).successors = (f.block x).successors

section
variable {f f' f'' : Func} {b : BlockId} {l l' pre : List Cessor} {c d : Cessor}

theorem Rewritten.refl (f : Func) (b : BlockId) : Rewritten f f b (f.block b).successors :=
  ⟨rfl, fun _ => rfl, fun _ => rfl, fun _ _ => rfl⟩

theorem Rewritten.trans (h : Rewritten f f' b l) (h' : Rewritten f' f'' b l') :
    Rewritten f f'' b l' :=
  ⟨h'.successors, fun x => (h'.control x).trans (h.control x),
    fun x => (h'.insns x).trans (h.insns x),
    fun x hx => (h'.others x hx).trans (h.others x hx)⟩

theorem rewritten_setSuccessors (hl : (l.map Cessor.b).Perm (f.succs b)) :
    Rewritten f (setSuccessors f b l hl) b l := by
  refine ⟨?_, fun x => ?_, fun x => ?_, fun x hx => ?_⟩
  · exact congrArg Block.successors (if_pos rfl)
  · show (if x = b then _ else _ : Block).control = _
    split <;> rfl
  · show (if x = b then _ else _ : Block).insns = _
    split <;> rfl
  · exact congrArg Block.successors (if_neg hx)

theorem rewritten_blockRemoveSuccessor (n : Nat) :
    Rewritten f (blockRemoveSuccessor f b n) b ((f.block b).successors.eraseIdx n) := by
  refine ⟨?_, fun x => Blocks.control_removeSuccessor b n x,
    fun x => Blocks.insns_removeSuccessor b n x, fun x hx => ?_⟩
  · exact (Blocks.succs_removeSuccessor b n b).trans (if_pos rfl)
  · exact (Blocks.succs_removeSuccessor b n x).trans (if_neg hx)

/-- The cases that are left of a list. -/
def coalesceCases : List Cessor → List Cessor
  | c :: d :: l =>
    if adjacent c d then { c with max := d.max } :: coalesceCases l
    else c :: coalesceCases (d :: l)
  | l => l

theorem joined_append (g : Cessor → Cessor) (pre : List Cessor) :
    ((pre ++ c :: d :: l).modify pre.length g).eraseIdx (pre.length + 1) = pre ++ g c :: l := by
  induction pre with
  | nil => rfl
  | cons e pre ih => exact congrArg (e :: ·) ih

theorem coalesceAt_adjacent (hs : (f.block b).successors = pre ++ c :: d :: l)
    (h : adjacent c d = true) :
    Rewritten f (coalesceAt f b pre.length) b (pre ++ { c with max := d.max } :: l) := by
  have hc : (f.block b).successors[pre.length]? = some c := by simp [hs]
  have hd : (f.block b).successors[pre.length + 1]? = some d := by simp [hs]
  rw [coalesceAt, hc, hd]
  dsimp only
  rw [if_pos h]
  have hset := rewritten_setSuccessors (f := f) (b := b)
    (.of_eq (map_modify_max (f.block b).successors pre.length d.max))
  have hremove := rewritten_blockRemoveSuccessor (f := setMax f b pre.length d.max) (b := b)
    (pre.length + 1)
  have hlist : ((setMax f b pre.length d.max).block b).successors.eraseIdx (pre.length + 1) =
      pre ++ { c with max := d.max } :: l := by
    rw [show ((setMax f b pre.length d.max).block b).successors = _ from hset.successors, hs,
      joined_append]
  rw [hlist] at hremove
  exact hset.trans hremove

theorem coalesceAt_apart (hs : (f.block b).successors = pre ++ c :: d :: l)
    (h : adjacent c d = false) : coalesceAt f b pre.length = f := by
  have hc : (f.block b).successors[pre.length]? = some c := by simp [hs]
  have hd : (f.block b).successors[pre.length + 1]? = some d := by simp [hs]
  rw [coalesceAt, hc, hd]
  dsimp only
  rw [h, if_neg Bool.false_ne_true]

theorem coalesceAt_end {n : Nat} (h : (f.block b).successors.length ≤ n + 1) :
    coalesceAt f b n = f := by
  have hd : (f.block b).successors[n + 1]? = none := List.getElem?_eq_none h
  rw [coalesceAt, hd]
  split
  · next hn =>
    cases hn
  · rfl

theorem coalesce_loop_end (m n : Nat) (h : (f.block b).successors.length ≤ n + 1) :
    (List.range' n m).foldl (fun f n => coalesceAt f b n) f = f := by
  induction m generalizing n with
  | zero => rfl
  | succ m ih =>
    rw [List.range'_succ, List.foldl_cons, coalesceAt_end h]
    exact ih (n + 1) (by omega)

/-- The loop, from some position on: every turn deals with one successor, and drops the next one if
    it joins them. -/
theorem coalesce_loop : ∀ (m : Nat) (f : Func) (pre l : List Cessor),
    (f.block b).successors = pre ++ l → l.length ≤ m →
      Rewritten f ((List.range' pre.length m).foldl (fun f n => coalesceAt f b n) f) b
        (pre ++ coalesceCases l)
  | m, f, pre, [], hs, _ => by
    rw [coalesce_loop_end m pre.length (by rw [hs, List.length_append]; exact Nat.le_succ _),
      coalesceCases, ← hs]
    · exact Rewritten.refl f b
    · exact nofun
  | m, f, pre, [c], hs, _ => by
    rw [coalesce_loop_end m pre.length (by rw [hs, List.length_append]; exact le_rfl),
      coalesceCases, ← hs]
    · exact Rewritten.refl f b
    · exact nofun
  | m + 1, f, pre, c :: d :: l, hs, hm => by
    have hlen : ∀ e : Cessor, pre.length + 1 = (pre ++ [e]).length := fun e => by
      rw [List.length_append, List.length_singleton]
    rw [List.range'_succ, List.foldl_cons, coalesceCases]
    simp only [List.length_cons] at hm
    cases hadj : adjacent c d with
    | true =>
      have hat := coalesceAt_adjacent hs hadj
      have hrest := coalesce_loop m (coalesceAt f b pre.length) (pre ++ [{ c with max := d.max }]) l
        (hat.successors.trans (List.append_cons ..)) (by omega)
      rw [← hlen, List.append_assoc] at hrest
      rw [if_pos rfl]
      exact hat.trans hrest
    | false =>
      have hrest := coalesce_loop m f (pre ++ [c]) (d :: l) (hs.trans (List.append_cons ..))
        (by rw [List.length_cons]; omega)
      rw [← hlen, List.append_assoc] at hrest
      rw [if_neg Bool.false_ne_true, coalesceAt_apart hs hadj]
      exact hrest

theorem blockSwitchSort_rewritten (f : Func) (b : BlockId) : Rewritten f (blockSwitchSort f b) b
    (Exchange.sort misplaced misplaced_asymm (f.block b).successors) :=
  rewritten_setSuccessors _

theorem blockSwitchCoalesce_rewritten (f : Func) (b : BlockId) :
    Rewritten f (blockSwitchCoalesce f b) b
      (coalesceCases (Exchange.sort misplaced misplaced_asymm (f.block b).successors)) := by
  have hsort := blockSwitchSort_rewritten f b
  have hloop := @coalesce_loop b ((blockSwitchSort f b).block b).successors.length
    (blockSwitchSort f b) [] _ rfl le_rfl
  rw [List.length_nil, ← List.range_eq_range', List.nil_append] at hloop
  rw [← hsort.successors]
  exact hsort.trans hloop

end

/-! ### The cases -/

/-- A switch block: its default, and its cases, which do not overlap. -/
structure SwitchBlock (x : Block) (dflt : Cessor) (cases : List Cessor) : Prop where
  control : x.control.isSome
  successors : x.successors = dflt :: cases
  dflt : dflt.cc = .default
  switch : ∀ c ∈ cases, c.cc = .switch
  range : ∀ c ∈ cases, c.min ≤ c.max
  disjoint : cases.Pairwise fun c d => ∀ u, ¬ (c.min ≤ u ∧ u ≤ c.max ∧ d.min ≤ u ∧ u ≤ d.max)

/-- Cases in ascending order. -/
structure Ascending (cases : List Cessor) : Prop where
  switch : ∀ c ∈ cases, c.cc = .switch
  range : ∀ c ∈ cases, c.min ≤ c.max
  ascending : cases.Pairwise fun c d => c.max < d.min

section
variable {l l' : List Cessor} {dflt : BlockId} {c d : Cessor} {u : Word}

theorem lookup_eq_ite (dflt : BlockId) (c : Cessor) (l : List Cessor) (u : Word) :
    lookup dflt (c :: l) u = if c.min ≤ u ∧ u ≤ c.max then c.b else lookup dflt l u := by
  rw [lookup, List.find?_cons, holds]
  by_cases h : c.min ≤ u ∧ u ≤ c.max
  · rw [if_pos h, decide_eq_true h.1, decide_eq_true h.2]
    rfl
  · rw [if_neg h, ← Bool.decide_and, decide_eq_false h]
    rfl

/-- The order of cases that do not overlap is of no account. -/
theorem lookup_perm (hp : l.Perm l') (h : l.Pairwise fun c d =>
    ∀ u, ¬ (c.min ≤ u ∧ u ≤ c.max ∧ d.min ≤ u ∧ u ≤ d.max)) :
    lookup dflt l u = lookup dflt l' u := by
  induction hp with
  | nil => rfl
  | cons c _ ih => rw [lookup_eq_ite, lookup_eq_ite, ih h.of_cons]
  | swap c d l =>
    have hcd := (List.pairwise_cons.mp h).1 c List.mem_cons_self u
    simp only [lookup_eq_ite]
    split_ifs with hd hc
    · exact absurd ⟨hd.1, hd.2, hc.1, hc.2⟩ hcd
    · rfl
    · rfl
    · rfl
  | trans hp _ ih ih' =>
    have hsymm : ∀ {c d : Cessor}, (∀ u, ¬ (c.min ≤ u ∧ u ≤ c.max ∧ d.min ≤ u ∧ u ≤ d.max)) →
        ∀ u, ¬ (d.min ≤ u ∧ u ≤ d.max ∧ c.min ≤ u ∧ u ≤ c.max) :=
      fun h u hu => h u ⟨hu.2.2.1, hu.2.2.2, hu.1, hu.2.1⟩
    exact (ih h).trans (ih' ((hp.pairwise_iff hsymm).mp h))

theorem Ascending.of_cons (h : Ascending (c :: l)) : Ascending l :=
  ⟨fun d hd => h.switch d (List.mem_cons_of_mem _ hd),
    fun d hd => h.range d (List.mem_cons_of_mem _ hd), h.ascending.of_cons⟩

/-- Cases that are joined do not reach lower than before. -/
theorem lt_of_coalesceCases {v : Word} (h : ∀ c ∈ l, v < c.min) :
    ∀ c ∈ coalesceCases l, v < c.min := by
  induction l using coalesceCases.induct with
  | case1 c d l hadj ih =>
    rw [coalesceCases, if_pos hadj]
    rintro e he
    rcases List.mem_cons.mp he with rfl | he
    · exact h c List.mem_cons_self
    · exact ih (fun e he => h e (by simp [he])) e he
  | case2 c d l hadj ih =>
    rw [coalesceCases, if_neg hadj]
    rintro e he
    rcases List.mem_cons.mp he with rfl | he
    · exact h e List.mem_cons_self
    · exact ih (fun e he => h e (List.mem_cons_of_mem _ he)) e he
  | case3 l hl =>
    rw [coalesceCases]
    · exact h
    · exact hl

/-- A word in two ranges that have been joined is in one of the two. -/
theorem mem_joined {lo hi lo' hi' u : Word} (h : lo ≤ hi) (hnext : lo' = hi + 1) (hlt : hi < lo')
    (h' : lo' ≤ hi') : lo ≤ u ∧ u ≤ hi' ↔ lo ≤ u ∧ u ≤ hi ∨ lo' ≤ u ∧ u ≤ hi' := by
  have hnat : lo'.toNat = hi.toNat + 1 := by bv_omega
  simp only [BitVec.le_def] at h h' ⊢
  omega

/-- Joining neighbours keeps the order and the mapping. -/
theorem coalesceCases_spec (h : Ascending l) :
    Ascending (coalesceCases l) ∧ ∀ dflt u, lookup dflt (coalesceCases l) u = lookup dflt l u := by
  induction l using coalesceCases.induct with
  | case1 c d l hadj ih =>
    obtain ⟨hasc, hlookup⟩ := ih h.of_cons.of_cons
    rw [coalesceCases, if_pos hadj]
    simp only [adjacent, Bool.and_eq_true, beq_iff_eq] at hadj
    obtain ⟨⟨-, hb⟩, hnext⟩ := hadj
    have hc := h.range c List.mem_cons_self
    have hd := h.range d (List.mem_cons_of_mem _ List.mem_cons_self)
    have hcd : c.max < d.min := (List.pairwise_cons.mp h.ascending).1 d List.mem_cons_self
    have hdl := (List.pairwise_cons.mp h.ascending.of_cons).1
    refine ⟨⟨?_, ?_, List.pairwise_cons.mpr ⟨lt_of_coalesceCases hdl, hasc.ascending⟩⟩,
      fun dflt u => ?_⟩
    · rintro e he
      rcases List.mem_cons.mp he with rfl | he
      · exact h.switch c List.mem_cons_self
      · exact hasc.switch e he
    · rintro e he
      rcases List.mem_cons.mp he with rfl | he
      · exact BitVec.le_trans hc (BitVec.le_trans (BitVec.le_of_lt hcd) hd)
      · exact hasc.range e he
    · rw [lookup_eq_ite, lookup_eq_ite, lookup_eq_ite, hlookup, hb,
        if_congr (mem_joined hc hnext hcd hd) rfl rfl, ite_or]
  | case2 c d l hadj ih =>
    obtain ⟨hasc, hlookup⟩ := ih h.of_cons
    rw [coalesceCases, if_neg hadj]
    refine ⟨⟨?_, ?_, List.pairwise_cons.mpr
      ⟨lt_of_coalesceCases (List.pairwise_cons.mp h.ascending).1, hasc.ascending⟩⟩,
      fun dflt u => ?_⟩
    · rintro e he
      rcases List.mem_cons.mp he with rfl | he
      · exact h.switch e List.mem_cons_self
      · exact hasc.switch e he
    · rintro e he
      rcases List.mem_cons.mp he with rfl | he
      · exact h.range e List.mem_cons_self
      · exact hasc.range e he
    · rw [lookup_eq_ite, hlookup, ← lookup_eq_ite]
  | case3 l hl =>
    rw [coalesceCases]
    · exact ⟨h, fun _ _ => rfl⟩
    · exact hl

/-- The sort puts cases that do not overlap in ascending order. -/
theorem sort_cases {x : Block} {dflt : Cessor} (h : SwitchBlock x dflt l) :
    Exchange.sort misplaced misplaced_asymm x.successors =
        dflt :: Exchange.sort misplaced misplaced_asymm l ∧
      Ascending (Exchange.sort misplaced misplaced_asymm l) ∧
        ∀ b u, lookup b (Exchange.sort misplaced misplaced_asymm l) u = lookup b l u := by
  have hperm := Exchange.sort_perm misplaced_asymm l
  have hswitch : ∀ c ∈ Exchange.sort misplaced misplaced_asymm l, c.cc = .switch := fun c hc =>
    h.switch c (hperm.subset hc)
  have hrange : ∀ c ∈ Exchange.sort misplaced misplaced_asymm l, c.min ≤ c.max := fun c hc =>
    h.range c (hperm.subset hc)
  have hdisjoint := (hperm.pairwise_iff fun {c d}
    (h : ∀ u, ¬ (c.min ≤ u ∧ u ≤ c.max ∧ d.min ≤ u ∧ u ≤ d.max)) u hu =>
      h u ⟨hu.2.2.1, hu.2.2.2, hu.1, hu.2.1⟩).mpr h.disjoint
  refine ⟨?_, ⟨hswitch, hrange, ?_⟩, fun b u => ?_⟩
  · rw [h.successors]
    refine Exchange.sort_cons misplaced_asymm (fun c => ?_) l
    rw [misplaced, h.dflt]
    rfl
  · have hchain := Exchange.isChain_of_pass (Exchange.pass_sort misplaced_asymm l)
    have hle : (Exchange.sort misplaced misplaced_asymm l).Pairwise fun c d => c.min ≤ d.min := by
      have htrans : IsTrans Cessor fun c d => c.min ≤ d.min :=
        ⟨fun _ _ _ => BitVec.le_trans⟩
      refine List.isChain_iff_pairwise.mp (hchain.imp_of_mem_imp fun c d hc hd hcd => ?_)
      simpa [misplaced, hswitch c hc, hswitch d hd] using hcd
    refine (hle.and hdisjoint).imp_of_mem fun {c d} _ hd ⟨hle, hdis⟩ => ?_
    by_contra hnot
    exact hdis d.min ⟨hle, BitVec.not_lt.mp hnot, BitVec.le_refl _, hrange d hd⟩
  · exact lookup_perm hperm hdisjoint

end

/-! ### block_switch_done -/

/-- What `block_switch_coalesce` leaves of a switch block. -/
theorem blockSwitchCoalesce_spec {f : Func} {b : BlockId} {dflt : Cessor} {cases : List Cessor}
    (h : SwitchBlock (f.block b) dflt cases) : ∃ cases',
      Rewritten f (blockSwitchCoalesce f b) b (dflt :: cases') ∧ Ascending cases' ∧
        ∀ d u, lookup d cases' u = lookup d cases u := by
  obtain ⟨hsort, hasc, hlookup⟩ := sort_cases h
  obtain ⟨hasc', hlookup'⟩ := coalesceCases_spec hasc
  have hrewritten := blockSwitchCoalesce_rewritten f b
  have hdflt : coalesceCases (dflt :: Exchange.sort misplaced misplaced_asymm cases) =
      dflt :: coalesceCases (Exchange.sort misplaced misplaced_asymm cases) := by
    cases Exchange.sort misplaced misplaced_asymm cases with
    | nil => rfl
    | cons c l =>
      have hadj : adjacent dflt c = false := by
        rw [adjacent, h.dflt]
        rfl
      rw [coalesceCases, hadj, if_neg Bool.false_ne_true]
  rw [hsort, hdflt] at hrewritten
  exact ⟨_, hrewritten, hasc', fun d u => (hlookup' d u).trans (hlookup d u)⟩

/-- A switch all of whose cases go where the default goes. -/
theorem lookup_all {d : BlockId} {l : List Cessor} (h : ∀ c ∈ l, c.b = d) (u : Word) :
    lookup d l u = d := by
  rw [lookup]
  rcases hf : l.find? (holds u) with _ | c
  · rfl
  · exact h c (List.mem_of_find?_eq_some hf)

/-- What becomes of a switch block: the control is looked up as before. Either it still is a switch
    block, with its cases in ascending order, or it jumps to the block that all values went to. -/
structure Done (f f' : Func) (b : BlockId) (dflt : Cessor) : Prop where
  lookup : ∀ u, blockSwitchLookup (f'.block b) u = blockSwitchLookup (f.block b) u
  cases : (∃ cases', (f'.block b).control = (f.block b).control ∧
      (f'.block b).successors = dflt :: cases' ∧ Ascending cases') ∨
    ∃ t, (f'.block b).control = none ∧ (f'.block b).successors = [⟨.always, t, 0, 0⟩] ∧
      ∀ u, blockSwitchLookup (f.block b) u = some t
  insns : (f'.block b).insns = (f.block b).insns
  others : ∀ x, x ≠ b → (f'.block x).successors = (f.block x).successors ∧
    (f'.block x).control = (f.block x).control ∧ (f'.block x).insns = (f.block x).insns

/-- A block becomes a jump. -/
theorem jump_block (f : Func) (b t x : BlockId) :
    let f' := (blockAddSuccessor (blockRemoveSuccessors f b) b .always t).setControl b none
    (f'.block x).insns = (f.block x).insns ∧
      (f'.block x).control = (if x = b then none else (f.block x).control) ∧
      (f'.block x).successors = if x = b then [⟨.always, t, 0, 0⟩] else (f.block x).successors := by
  have hinsns : ((blockAddSuccessor (blockRemoveSuccessors f b) b .always t).block x).insns =
      (f.block x).insns := by
    rw [blockAddSuccessor, Blocks.insns_addSuccessor, insns_blockRemoveSuccessors]
  have hcontrol : ((blockAddSuccessor (blockRemoveSuccessors f b) b .always t).block x).control =
      if x = b then none else (f.block x).control := by
    rw [blockAddSuccessor, Blocks.control_addSuccessor, control_blockRemoveSuccessors]
  have hsuccs : ((blockAddSuccessor (blockRemoveSuccessors f b) b .always t).block x).successors =
      if x = b then [⟨.always, t, 0, 0⟩] else (f.block x).successors := by
    rw [blockAddSuccessor, Blocks.succs_addSuccessor, succs_blockRemoveSuccessors]
    split_ifs <;> simp
  dsimp only
  rw [Func.setControl_block]
  split_ifs with hx
  · exact ⟨hinsns, rfl, by rw [hsuccs, if_pos hx]⟩
  · exact ⟨hinsns, by rw [hcontrol, if_neg hx], by rw [hsuccs, if_neg hx]⟩

/-- Sorting and joining the cases keeps where every value goes, and so does the jump that is left. -/
theorem done_blockCoalesceSuccessors {f : Func} {b : BlockId} {dflt : Cessor} {cases : List Cessor}
    (h : SwitchBlock (f.block b) dflt cases) : Done f (blockCoalesceSuccessors f b) b dflt := by
  obtain ⟨cases', hrewritten, hasc, hlookup⟩ := blockSwitchCoalesce_spec h
  have hbefore : ∀ u, blockSwitchLookup (f.block b) u = some (lookup dflt.b cases' u) := fun u => by
    rw [switchLookup_eq h.successors, hlookup]
  rw [blockCoalesceSuccessors, blockSwitchP, if_pos h.control]
  set f₁ := blockSwitchCoalesce f b with hf₁
  rw [hrewritten.successors]
  dsimp only
  rw [if_neg (by rw [h.dflt]; decide)]
  cases hany : cases'.any fun c => c.b != dflt.b with
  | true =>
    rw [if_pos rfl]
    refine ⟨fun u => ?_, .inl ⟨cases', hrewritten.control b, hrewritten.successors, hasc⟩,
      hrewritten.insns b,
      fun x hx => ⟨hrewritten.others x hx, hrewritten.control x, hrewritten.insns x⟩⟩
    rw [switchLookup_eq hrewritten.successors, hbefore]
  | false =>
    have hall : ∀ c ∈ cases', c.b = dflt.b := fun c hc => by
      simpa using List.any_eq_false.mp hany c hc
    rw [if_neg Bool.false_ne_true]
    have hblock : ∀ x, _ ∧ _ ∧ _ := fun x => jump_block f₁ b dflt.b x
    simp only [hrewritten.insns, hrewritten.control] at hblock
    obtain ⟨hinsns, hcontrol, hsuccs⟩ := hblock b
    rw [if_pos rfl] at hcontrol hsuccs
    have hto : ∀ u, blockSwitchLookup (f.block b) u = some dflt.b := fun u => by
      rw [hbefore, lookup_all hall]
    refine ⟨fun u => ?_, .inr ⟨dflt.b, hcontrol, hsuccs, hto⟩, hinsns, fun x hx => ?_⟩
    · rw [switchLookup_eq hsuccs, hto]
      rfl
    · obtain ⟨hi, hc, hs⟩ := hblock x
      rw [if_neg hx] at hc hs
      exact ⟨hs.trans (hrewritten.others x hx), hc, hi⟩

/-- Sorting and coalescing the cases of a switch block keeps where every value goes. -/
theorem blockSwitchDone_spec (f : Func) (b : BlockId) (dflt : Cessor) (cases : List Cessor)
    (h : SwitchBlock (f.block b) dflt cases) : Done f (blockSwitchDone f b) b dflt :=
  done_blockCoalesceSuccessors h

/-- `case 3` and `case 5`. -/
theorem blockSwitchDone_caseFunc :
    Done caseFunc (blockSwitchDone caseFunc 0) 0 ⟨.default, 1, 0, 0⟩ :=
  blockSwitchDone_spec caseFunc 0 ⟨.default, 1, 0, 0⟩ [⟨.switch, 2, 3, 3⟩, ⟨.switch, 3, 5, 5⟩]
    ⟨by decide, by decide, rfl, by decide, by decide, by simp; bv_omega⟩

/-! ### What the parser makes -/

/-- The first successor of a switch block is the default. -/
theorem blockSwitch_spec {f : Func} {b : BlockId} (control : Operand) (defaultBlock : BlockId)
    (h : (f.block b).successors = []) :
    SwitchBlock ((blockSwitch f b control defaultBlock).block b) ⟨.default, defaultBlock, 0, 0⟩
      [] := by
  refine ⟨?_, ?_, rfl, nofun, nofun, List.Pairwise.nil⟩
  · rw [blockSwitch, Func.setControl_block, if_pos rfl]
    rfl
  · rw [blockSwitch, Func.setControl_block, if_pos rfl]
    show ((f.block.addSuccessor b .default defaultBlock) b).successors = _
    rw [Blocks.succs_addSuccessor, if_pos rfl, h]
    rfl

/-- A case label that is not a duplicate does not overlap the others. -/
theorem blockSwitchCase_spec {f f' : Func} {b succ : BlockId} {i : Word} {dflt : Cessor}
    {cases : List Cessor} (h : SwitchBlock (f.block b) dflt cases)
    (hpoint : ∀ c ∈ cases, c.min = c.max) (hf : blockSwitchCase f b i succ = .ok f') :
    SwitchBlock (f'.block b) dflt (cases ++ [⟨.switch, succ, i, i⟩]) ∧
      ∀ c ∈ cases ++ [⟨.switch, succ, i, i⟩], c.min = c.max := by
  rw [blockSwitchCase, h.successors, List.tail_cons] at hf
  split at hf
  · cases hf
  · next hany =>
    obtain rfl := Except.ok.inj hf
    have hne : ∀ c ∈ cases, c.min ≠ i := fun c hc he =>
      hany (List.any_eq_true.mpr ⟨c, hc, beq_iff_eq.mpr he⟩)
    have hmem : ∀ {p : Cessor → Prop}, (∀ c ∈ cases, p c) → p ⟨.switch, succ, i, i⟩ →
        ∀ c ∈ cases ++ [⟨.switch, succ, i, i⟩], p c := by
      intro p hp hnew c hc
      rcases List.mem_append.mp hc with hc | hc
      · exact hp c hc
      · rw [List.mem_singleton.mp hc]
        exact hnew
    refine ⟨⟨?_, ?_, h.dflt, hmem h.switch rfl, hmem h.range (BitVec.le_refl i), ?_⟩,
      hmem hpoint rfl⟩
    · show (((f.block.addSuccessor b .switch succ i i) b).control).isSome = true
      rw [Blocks.control_addSuccessor]
      exact h.control
    · show ((f.block.addSuccessor b .switch succ i i) b).successors = _
      rw [Blocks.succs_addSuccessor, if_pos rfl, h.successors]
      rfl
    · refine List.pairwise_append.mpr ⟨h.disjoint, List.pairwise_singleton _ _, fun c hc d hd => ?_⟩
      rw [List.mem_singleton.mp hd]
      rintro u ⟨hlo, hhi, hlo', hhi'⟩
      have hu : u = i := BitVec.le_antisymm hhi' hlo'
      rw [← hpoint c hc] at hhi
      exact hne c hc (BitVec.le_antisymm hlo hhi |>.trans hu)

end Ncc.Switch
