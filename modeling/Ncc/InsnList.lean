import Mathlib

/-! Lists of insns and their indices (cc1/insn.h, cc1/insn.c: `insn_append`, `insns_*`).

    An insn knows its index, and a list the index that comes next. Some operations number a whole list
    anew, the others change the indices they have to. `insns_sound` says that the numbers are always
    right, and that every insn is in exactly one place. -/

namespace Ncc

/-- INSN_INDEX_FIRST. -/
def insnIndexFirst : BitVec 32 := 2

/-- A `struct insn` on a list, known by its address, and its `index`. -/
structure Indexed (α : Type*) where
  insn : α
  index : BitVec 32
  deriving DecidableEq

/-- `struct insns`, set by INSNS_INIT. -/
structure Insns (α : Type*) where
  entries : List (Indexed α) := []
  nextIndex : BitVec 32 := insnIndexFirst
  deriving DecidableEq

namespace Insns

variable {α : Type*}

/-! ### The operations -/

/-- The loop of `renumber0`. -/
def renumberFrom : BitVec 32 → List (Indexed α) → Insns α
  | index, [] => ⟨[], index⟩
  | index, e :: l => { renumberFrom (index + 1) l with
      entries := { e with index := index } :: (renumberFrom (index + 1) l).entries }

/-- `renumber0`. -/
def renumber0 (insns : Insns α) : Insns α := renumberFrom insnIndexFirst insns.entries

/-- `insn_append`. The insn is on no list. -/
def insnAppend (insns : Insns α) (insn : α) : Insns α :=
  ⟨insns.entries ++ [⟨insn, insns.nextIndex⟩], insns.nextIndex + 1⟩

/-- `insn_prepend`. Nothing looks at the index that the insn had. -/
def insnPrepend (insns : Insns α) (insn : α) (index : BitVec 32) : Insns α :=
  renumber0 { insns with entries := ⟨insn, index⟩ :: insns.entries }

/-- `insns_append`: what becomes of dst, and of src. -/
def insnsAppend (dst src : Insns α) : Insns α × Insns α :=
  (renumber0 { dst with entries := dst.entries ++ src.entries }, {})

variable [DecidableEq α]

/-- INSNS_INSERT_BEFORE. -/
def insertBefore (before : α) (e : Indexed α) : List (Indexed α) → List (Indexed α)
  | [] => []
  | x :: l => if x.insn = before then e :: x :: l else x :: insertBefore before e l

/-- INSNS_INSERT_AFTER. -/
def insertAfter (after : α) (e : Indexed α) : List (Indexed α) → List (Indexed α)
  | [] => []
  | x :: l => if x.insn = after then x :: e :: l else x :: insertAfter after e l

/-- `insns_insert_before`: one insn of src after the other. -/
def insnsInsertBefore (dst : Insns α) (before : α) (src : Insns α) : Insns α × Insns α :=
  (renumber0 { dst with
    entries := src.entries.foldl (fun l e => insertBefore before e l) dst.entries }, {})

/-- The loop of `insns_insert_after`. -/
def insertAllAfter (l : List (Indexed α)) (after : α) : List (Indexed α) → List (Indexed α)
  | [] => l
  | e :: src => insertAllAfter (insertAfter after e l) e.insn src

/-- `insns_insert_after`. -/
def insnsInsertAfter (dst : Insns α) (after : α) (src : Insns α) : Insns α × Insns α :=
  (renumber0 { dst with entries := insertAllAfter dst.entries after src.entries }, {})

omit [DecidableEq α] in
/-- The loop of `insns_push`, which needs as many insns in src. -/
def pushLoop : Nat → List (Indexed α) → List (Indexed α) → Option (List (Indexed α) × List (Indexed α))
  | 0, dst, src => some (dst, src)
  | n + 1, dst, src =>
    match src.getLast? with
    | none => none
    | some insn => pushLoop n (insn :: dst) src.dropLast

omit [DecidableEq α] in
/-- `insns_push`. -/
def insnsPush (dst src : Insns α) (n : Nat) : Option (Insns α × Insns α) :=
  (pushLoop n dst.entries src.entries).map fun (d, s) =>
    (renumber0 { dst with entries := d }, renumber0 { src with entries := s })

/-- What `insns_swap` does with the list. An insn has to follow. -/
def swapNext (insn : α) : List (Indexed α) → Option (List (Indexed α))
  | x :: y :: l =>
    if x.insn = insn then
      some ({ y with index := y.index - 1 } :: { x with index := x.index + 1 } :: l)
    else (swapNext insn (y :: l)).map (x :: ·)
  | _ => none

/-- `insns_swap`. -/
def insnsSwap (insns : Insns α) (insn : α) : Option (Insns α) :=
  (swapNext insn insns.entries).map fun entries => { insns with entries := entries }

/-- `insns_remove` takes the insn out, and counts down the indices of those that follow. -/
def removeInsn (insn : α) : List (Indexed α) → List (Indexed α)
  | [] => []
  | x :: l =>
    if x.insn = insn then l.map fun y => { y with index := y.index - 1 } else x :: removeInsn insn l

/-- `insns_remove`. -/
def insnsRemove (insns : Insns α) (insn : α) : Insns α :=
  ⟨removeInsn insn insns.entries, insns.nextIndex - 1⟩

omit [DecidableEq α] in
/-- `insns_clear`. -/
def insnsClear (insns : Insns α) : Insns α :=
  { insns with entries := [], nextIndex := insnIndexFirst }

/-! ### Numbered lists -/

omit [DecidableEq α] in
/-- Insns with consecutive indices. -/
def number : BitVec 32 → List α → List (Indexed α)
  | _, [] => []
  | index, x :: l => ⟨x, index⟩ :: number (index + 1) l

omit [DecidableEq α] in
/-- The list of the insns, as it should be numbered. -/
def ofList (l : List α) : Insns α :=
  ⟨number insnIndexFirst l, insnIndexFirst + BitVec.ofNat 32 l.length⟩

omit [DecidableEq α] in
/-- The insns of a list. -/
def insns (t : Insns α) : List α := t.entries.map Indexed.insn

section
omit [DecidableEq α]
variable {l l₁ l₂ : List α} {x : α} {index : BitVec 32} {es : List (Indexed α)} {n k : ℕ}

@[simp] theorem map_number (index : BitVec 32) (l : List α) :
    (number index l).map Indexed.insn = l := by
  induction l generalizing index with
  | nil => rfl
  | cons x l ih => rw [number, List.map_cons, ih]

@[simp] theorem insns_ofList (l : List α) : (ofList l).insns = l := map_number _ l

@[simp] theorem length_number (index : BitVec 32) (l : List α) : (number index l).length = l.length := by
  rw [← List.length_map (f := Indexed.insn), map_number]

theorem number_append (index : BitVec 32) (l₁ l₂ : List α) :
    number index (l₁ ++ l₂) = number index l₁ ++ number (index + BitVec.ofNat 32 l₁.length) l₂ := by
  induction l₁ generalizing index with
  | nil => simp [number]
  | cons x l₁ ih =>
    have hsum : index + 1 + BitVec.ofNat 32 l₁.length = index + BitVec.ofNat 32 (x :: l₁).length := by
      rw [List.length_cons, Nat.add_comm, BitVec.ofNat_add, BitVec.add_assoc]
      rfl
    rw [List.cons_append, number, number, ih, hsum, List.cons_append]

theorem getElem_number (index : BitVec 32) (l : List α) (hk : k < (number index l).length) :
    (number index l)[k].index = index + BitVec.ofNat 32 k := by
  induction l generalizing index k with
  | nil => exact absurd hk (Nat.not_lt_zero k)
  | cons x l ih =>
    cases k with
    | zero => simp [number]
    | succ k =>
      have hrec := ih (index + 1) (by simpa [number] using hk)
      simp only [number, List.getElem_cons_succ]
      rw [hrec, Nat.add_comm, BitVec.ofNat_add, BitVec.add_assoc]
      rfl

/-- `renumber0` numbers a list as it should be. -/
theorem renumber0_eq (t : Insns α) : renumber0 t = ofList t.insns := by
  have hloop : ∀ (l : List (Indexed α)) (index : BitVec 32), renumberFrom index l =
      ⟨number index (l.map Indexed.insn), index + BitVec.ofNat 32 l.length⟩ := by
    intro l
    induction l with
    | nil => intro index; simp [renumberFrom, number]
    | cons e l ih =>
      intro index
      rw [renumberFrom, ih, List.map_cons, number, List.length_cons, Nat.add_comm l.length,
        BitVec.ofNat_add, BitVec.add_assoc]
      rfl
  rw [renumber0, hloop, ofList, insns, List.length_map]

theorem insnAppend_ofList (l : List α) (x : α) : insnAppend (ofList l) x = ofList (l ++ [x]) := by
  rw [ofList, ofList, number_append, List.length_append, BitVec.ofNat_add, ← BitVec.add_assoc]
  rfl

theorem insnPrepend_eq (t : Insns α) (x : α) (index : BitVec 32) :
    insnPrepend t x index = ofList (x :: t.insns) :=
  renumber0_eq _

theorem insnsAppend_eq (dst src : Insns α) :
    insnsAppend dst src = (ofList (dst.insns ++ src.insns), ofList []) := by
  rw [insnsAppend, renumber0_eq, insns, List.map_append]
  rfl

theorem pushLoop_eq (h : n ≤ es.length) (dst : List (Indexed α)) :
    pushLoop n dst es = some (es.drop (es.length - n) ++ dst, es.take (es.length - n)) := by
  induction n generalizing dst es with
  | zero => simp [pushLoop]
  | succ n ih =>
    rcases List.eq_nil_or_concat es with rfl | ⟨init, last, rfl⟩
    · exact absurd h (by simp)
    · simp only [List.concat_eq_append, List.length_append, List.length_singleton] at h ⊢
      rw [pushLoop, List.getLast?_append_of_ne_nil _ (by simp), List.getLast?_singleton]
      dsimp only
      rw [List.dropLast_concat, ih (by omega)]
      have hlen : init.length + 1 - (n + 1) = init.length - n := by omega
      rw [hlen, List.drop_append_of_le_length (by omega), List.take_append_of_le_length (by omega),
        List.append_assoc, List.singleton_append]

/-- The `n` last insns go to the front of the other list. -/
theorem insnsPush_ofList (h : n ≤ l₂.length) : insnsPush (ofList l₁) (ofList l₂) n =
    some (ofList (l₂.drop (l₂.length - n) ++ l₁), ofList (l₂.take (l₂.length - n))) := by
  have hlen : (ofList l₂).entries.length = l₂.length := length_number _ l₂
  have hmap : ∀ l : List α, (ofList l).entries.map Indexed.insn = l := insns_ofList
  rw [insnsPush, pushLoop_eq (by rwa [hlen]), Option.map_some]
  dsimp only
  rw [renumber0_eq, renumber0_eq]
  simp only [insns, List.map_append, List.map_drop, List.map_take, hmap, hlen]

end

variable {l l₁ l₂ r : List α} {x y : α} {index : BitVec 32} {es : List (Indexed α)}

theorem insertBefore_split {before : α} {el er : List (Indexed α)} {b : Indexed α}
    (hb : b.insn = before) (hel : ∀ x ∈ el, x.insn ≠ before) (e : Indexed α) :
    insertBefore before e (el ++ b :: er) = el ++ e :: b :: er := by
  induction el with
  | nil => exact if_pos hb
  | cons x el ih =>
    rw [List.cons_append, insertBefore, if_neg (hel x List.mem_cons_self),
      ih fun y hy => hel y (List.mem_cons_of_mem _ hy)]
    rfl

theorem foldl_insertBefore {before : α} {el er : List (Indexed α)} {b : Indexed α}
    (hb : b.insn = before) (hel : ∀ x ∈ el, x.insn ≠ before) (hes : ∀ x ∈ es, x.insn ≠ before) :
    es.foldl (fun l e => insertBefore before e l) (el ++ b :: er) = el ++ es ++ b :: er := by
  induction es generalizing el with
  | nil => simp
  | cons e es ih =>
    have hel' : ∀ x ∈ el ++ [e], x.insn ≠ before := by
      intro x hx
      rcases List.mem_append.mp hx with hx | hx
      · exact hel x hx
      · exact List.mem_singleton.mp hx ▸ hes e List.mem_cons_self
    have hrec := ih hel' fun x hx => hes x (List.mem_cons_of_mem _ hx)
    rw [List.foldl_cons, insertBefore_split hb hel]
    simpa using hrec

theorem insertAfter_split {after : α} {el er : List (Indexed α)} {a : Indexed α}
    (ha : a.insn = after) (hel : ∀ x ∈ el, x.insn ≠ after) (e : Indexed α) :
    insertAfter after e (el ++ a :: er) = el ++ a :: e :: er := by
  induction el with
  | nil => exact if_pos ha
  | cons x el ih =>
    rw [List.cons_append, insertAfter, if_neg (hel x List.mem_cons_self),
      ih fun y hy => hel y (List.mem_cons_of_mem _ hy)]
    rfl

/-- Each insn is put after the one before it. -/
theorem insertAllAfter_eq {after : α} {el er : List (Indexed α)} {a : Indexed α} (ha : a.insn = after)
    (hnd : ((el ++ a :: es).map Indexed.insn).Nodup) :
    insertAllAfter (el ++ a :: er) after es = el ++ a :: (es ++ er) := by
  induction es generalizing after el a with
  | nil => rfl
  | cons e es ih =>
    have hel : ∀ x ∈ el, x.insn ≠ after := by
      intro x hx heq
      rw [List.map_append, List.nodup_append] at hnd
      exact hnd.2.2 x.insn (List.mem_map_of_mem hx) a.insn (by simp) (heq.trans ha.symm)
    have hsplit : el ++ a :: e :: er = (el ++ [a]) ++ e :: er := by simp
    rw [insertAllAfter, insertAfter_split ha hel, hsplit, ih rfl (by simpa using hnd)]
    simp

/-- The insns of src go before one of dst. -/
theorem insnsInsertBefore_eq {dst src : Insns α} (hdst : dst.insns = l ++ x :: r) (hl : x ∉ l)
    (hsrc : x ∉ src.insns) :
    insnsInsertBefore dst x src = (ofList (l ++ src.insns ++ x :: r), ofList []) := by
  obtain ⟨el, tail, hentries, hel, htail⟩ := List.map_eq_append_iff.mp hdst
  obtain ⟨b, er, rfl, hb, her⟩ := List.map_eq_cons_iff.mp htail
  rw [insnsInsertBefore, renumber0_eq, hentries, foldl_insertBefore hb
    (fun y hy heq => hl (hel ▸ heq ▸ List.mem_map_of_mem hy))
    (fun y hy heq => hsrc (heq ▸ List.mem_map_of_mem hy))]
  simp only [insns, List.map_append, List.map_cons, hel, hb, her]
  rfl

/-- The insns of src go after one of dst. -/
theorem insnsInsertAfter_eq {dst src : Insns α} (hdst : dst.insns = l ++ x :: r)
    (hnd : (l ++ x :: src.insns).Nodup) :
    insnsInsertAfter dst x src = (ofList (l ++ x :: (src.insns ++ r)), ofList []) := by
  obtain ⟨el, tail, hentries, hel, htail⟩ := List.map_eq_append_iff.mp hdst
  obtain ⟨a, er, rfl, ha, her⟩ := List.map_eq_cons_iff.mp htail
  rw [insnsInsertAfter, renumber0_eq, hentries, insertAllAfter_eq ha (by
    rw [List.map_append, List.map_cons, hel, ha]
    exact hnd)]
  simp only [insns, List.map_append, List.map_cons, hel, ha, her]
  rfl

/-- Two insns change places, and indices. -/
theorem swapNext_number (hl : x ∉ l) (index : BitVec 32) :
    swapNext x (number index (l ++ x :: y :: r)) = some (number index (l ++ y :: x :: r)) := by
  induction l generalizing index with
  | nil =>
    simp only [List.nil_append, number, swapNext, if_true]
    simp
  | cons z l ih =>
    have hz : z ≠ x := fun h => hl (h ▸ List.mem_cons_self)
    have hrec := ih (fun h => hl (List.mem_cons_of_mem _ h)) (index + 1)
    cases l with
    | nil =>
      simp only [List.nil_append, List.cons_append, number] at hrec ⊢
      rw [swapNext, if_neg hz, hrec, Option.map_some]
    | cons w l =>
      simp only [List.cons_append, number] at hrec ⊢
      rw [swapNext, if_neg hz, hrec, Option.map_some]

theorem insnsSwap_ofList (hl : x ∉ l) :
    insnsSwap (ofList (l ++ x :: y :: r)) x = some (ofList (l ++ y :: x :: r)) := by
  rw [insnsSwap, ofList, swapNext_number hl, Option.map_some, ofList]
  simp

/-- The insns that follow move up. -/
theorem removeInsn_number (hl : x ∉ l) (index : BitVec 32) :
    removeInsn x (number index (l ++ x :: r)) = number index (l ++ r) := by
  induction l generalizing index with
  | nil =>
    have hdec : ∀ (r : List α) (i : BitVec 32),
        (number (i + 1) r).map (fun e => { e with index := e.index - 1 }) = number i r := by
      intro r
      induction r with
      | nil => exact fun _ => rfl
      | cons z r ih =>
        intro i
        rw [number, List.map_cons, ih, number, BitVec.add_sub_cancel]
    simp only [List.nil_append, number, removeInsn, if_true]
    exact hdec r index
  | cons z l ih =>
    have hz : z ≠ x := fun h => hl (h ▸ List.mem_cons_self)
    simp only [List.cons_append, number, removeInsn]
    rw [if_neg hz, ih fun h => hl (List.mem_cons_of_mem _ h)]

theorem insnsRemove_ofList (hl : x ∉ l) : insnsRemove (ofList (l ++ x :: r)) x = ofList (l ++ r) := by
  have hnext : insnIndexFirst + BitVec.ofNat 32 (l ++ x :: r).length - 1 =
      insnIndexFirst + BitVec.ofNat 32 (l ++ r).length := by
    have hlen : (l ++ x :: r).length = (l ++ r).length + 1 := by simp [Nat.add_assoc]
    rw [hlen, BitVec.ofNat_add, ← BitVec.add_assoc]
    exact BitVec.add_sub_cancel _ _
  rw [insnsRemove, ofList, removeInsn_number hl, ofList]
  exact congrArg _ hnext

end Insns

/-! ### What the operations are for -/

variable {ι α : Type*} [DecidableEq ι] [DecidableEq α]

/-- An operation on some lists of insns. -/
inductive InsnsOp (ι α : Type*)
  | insnAppend (i : ι) (insn : α)
  | insnPrepend (i : ι) (insn : α) (index : BitVec 32)
  | insnsAppend (dst src : ι)
  | insnsInsertBefore (dst : ι) (before : α) (src : ι)
  | insnsInsertAfter (dst : ι) (after : α) (src : ι)
  | insnsPush (dst src : ι) (n : ℕ)
  | insnsSwap (i : ι) (insn : α)
  | insnsRemove (i : ι) (insn : α)
  | insnsClear (i : ι)

/-- Two lists are given new values. -/
def assignTwo {β : Type*} (t : ι → β) (dst src : ι) (v : β × β) : ι → β :=
  Function.update (Function.update t dst v.1) src v.2

/-- The insns before one of a list. -/
def preceding (x : α) (l : List α) : List α := l.takeWhile fun y => y ≠ x

/-- The insns after one of a list. -/
def following (x : α) (l : List α) : List α := (l.dropWhile fun y => y ≠ x).tail

namespace InsnsOp

/-- What an operation makes of the lists. -/
def perform (t : ι → Insns α) : InsnsOp ι α → Option (ι → Insns α)
  | insnAppend i insn => some (Function.update t i ((t i).insnAppend insn))
  | insnPrepend i insn index => some (Function.update t i ((t i).insnPrepend insn index))
  | insnsAppend dst src => some (assignTwo t dst src ((t dst).insnsAppend (t src)))
  | insnsInsertBefore dst before src =>
    some (assignTwo t dst src ((t dst).insnsInsertBefore before (t src)))
  | insnsInsertAfter dst after src =>
    some (assignTwo t dst src ((t dst).insnsInsertAfter after (t src)))
  | insnsPush dst src n => ((t dst).insnsPush (t src) n).map (assignTwo t dst src)
  | insnsSwap i insn => ((t i).insnsSwap insn).map (Function.update t i)
  | insnsRemove i insn => some (Function.update t i ((t i).insnsRemove insn))
  | insnsClear i => some (Function.update t i (t i).insnsClear)

/-- What an operation is for, on lists without numbers. -/
def denote (B : ι → List α) : InsnsOp ι α → ι → List α
  | insnAppend i insn => Function.update B i (B i ++ [insn])
  | insnPrepend i insn _ => Function.update B i (insn :: B i)
  | insnsAppend dst src => assignTwo B dst src (B dst ++ B src, [])
  | insnsInsertBefore dst before src => assignTwo B dst src
      (preceding before (B dst) ++ B src ++ before :: following before (B dst), [])
  | insnsInsertAfter dst after src => assignTwo B dst src
      (preceding after (B dst) ++ after :: (B src ++ following after (B dst)), [])
  | insnsPush dst src n => assignTwo B dst src
      ((B src).drop ((B src).length - n) ++ B dst, (B src).take ((B src).length - n))
  | insnsSwap i insn =>
    match following insn (B i) with
    | [] => B
    | next :: r => Function.update B i (preceding insn (B i) ++ next :: insn :: r)
  | insnsRemove i insn => Function.update B i (preceding insn (B i) ++ following insn (B i))
  | insnsClear i => Function.update B i []

/-- The insns that were put on the lists, and not taken off again. -/
def ledger (B : ι → List α) (held : Set α) : InsnsOp ι α → Set α
  | insnAppend _ insn => insert insn held
  | insnPrepend _ insn _ => insert insn held
  | insnsRemove _ insn => held \ {insn}
  | insnsClear i => held \ {insn | insn ∈ B i}
  | _ => held

/-- What an operation expects: an insn that is on no list, or one that is on this list (which
    another has to follow to be swapped with it), another sequence as src, and enough insns in it. -/
def Allowed (B : ι → List α) : InsnsOp ι α → Prop
  | insnAppend _ insn => ∀ i, insn ∉ B i
  | insnPrepend _ insn _ => ∀ i, insn ∉ B i
  | insnsAppend dst src => dst ≠ src
  | insnsInsertBefore dst before src => dst ≠ src ∧ before ∈ B dst
  | insnsInsertAfter dst after src => dst ≠ src ∧ after ∈ B dst
  | insnsPush dst src n => dst ≠ src ∧ n ≤ (B src).length
  | insnsSwap i insn => insn ∈ B i ∧ following insn (B i) ≠ []
  | insnsRemove i insn => insn ∈ B i
  | insnsClear _ => True

/-- The lists, what should be on them, and all the insns, after some operations. -/
inductive Reaches : (ι → Insns α) → (ι → List α) → Set α → Prop
  | start : Reaches (fun _ => {}) (fun _ => []) ∅
  | step {t t' : ι → Insns α} {B : ι → List α} {held : Set α} (op : InsnsOp ι α)
      (h : Reaches t B held) (hop : op.Allowed B) (ht : op.perform t = some t') :
      Reaches t' (op.denote B) (op.ledger B held)

end InsnsOp

/-! ### An insn is in one place -/

/-- The lists hold each insn of a set once, and no others. -/
structure OnePlace {ι α : Type*} (B : ι → List α) (held : Set α) : Prop where
  nodup (i : ι) : (B i).Nodup
  unique {i j : ι} {x : α} (hi : x ∈ B i) (hj : x ∈ B j) : i = j
  mem_iff (x : α) : x ∈ held ↔ ∃ i, x ∈ B i

section
variable {B : ι → List α} {held : Set α} {l r s : List α} {x y : α} {i dst src : ι}

theorem preceding_append_following (h : x ∈ l) : l = preceding x l ++ x :: following x l := by
  have hne : l.dropWhile (fun y => y ≠ x) ≠ [] := by
    intro hnil
    rw [List.dropWhile_eq_nil_iff] at hnil
    simpa using hnil x h
  have hhead : (l.dropWhile fun y => y ≠ x).head hne = x := by
    simpa using List.head_dropWhile_not (fun y => y ≠ x) hne
  rw [preceding, following]
  nth_rewrite 1 [← List.takeWhile_append_dropWhile (p := fun y => y ≠ x) (l := l)]
  rw [← List.cons_head_tail hne, hhead, List.tail_cons]

theorem notMem_preceding (x : α) (l : List α) : x ∉ preceding x l := by
  intro h
  simpa using List.mem_takeWhile_imp h

end

section
omit [DecidableEq α]
variable {B : ι → List α} {held held' : Set α} {l s : List α} {i dst src : ι}

/-- One list changes: its insns were on it, or on no list. -/
theorem OnePlace.update (hB : OnePlace B held) (hl : l.Nodup) (hnew : ∀ x ∈ l, x ∈ B i ∨ ∀ j, x ∉ B j)
    (hheld : ∀ x, x ∈ held' ↔ x ∈ l ∨ x ∈ held ∧ x ∉ B i) : OnePlace (Function.update B i l) held' := by
  have hmem : ∀ {j x}, x ∈ Function.update B i l j ↔ j = i ∧ x ∈ l ∨ j ≠ i ∧ x ∈ B j := by
    intro j x
    by_cases hj : j = i
    · simp [hj]
    · simp [hj]
  have hapart : ∀ {j x}, j ≠ i → x ∈ B j → x ∉ l := by
    intro j x hj hxj hx
    rcases hnew x hx with hxi | hno
    · exact hj (hB.unique hxj hxi)
    · exact hno j hxj
  refine ⟨fun j => ?_, fun {j k x} hxj hxk => ?_, fun x => ?_⟩
  · by_cases hj : j = i
    · rw [hj, Function.update_self]
      exact hl
    · rw [Function.update_of_ne hj]
      exact hB.nodup j
  · rcases hmem.mp hxj with ⟨rfl, hx⟩ | ⟨hj, hx⟩ <;> rcases hmem.mp hxk with ⟨rfl, hx'⟩ | ⟨hk, hx'⟩
    · rfl
    · exact absurd hx (hapart hk hx')
    · exact absurd hx' (hapart hj hx)
    · exact hB.unique hx hx'
  · rw [hheld, hB.mem_iff]
    constructor
    · rintro (hx | ⟨⟨j, hj⟩, hx⟩)
      · exact ⟨i, hmem.mpr (Or.inl ⟨rfl, hx⟩)⟩
      · exact ⟨j, hmem.mpr (Or.inr ⟨fun h => hx (h ▸ hj), hj⟩)⟩
    · rintro ⟨j, hj⟩
      rcases hmem.mp hj with ⟨-, hx⟩ | ⟨hji, hx⟩
      · exact Or.inl hx
      · exact Or.inr ⟨⟨j, hx⟩, fun hxi => hji (hB.unique hx hxi)⟩

/-- Insns go from one list to another. -/
theorem OnePlace.move (hB : OnePlace B held) (hne : dst ≠ src)
    (hperm : (l ++ s).Perm (B dst ++ B src)) : OnePlace (assignTwo B dst src (l, s)) held := by
  have hapart : (B dst).Disjoint (B src) := fun x hx hx' => hne (hB.unique hx hx')
  have hnd : (l ++ s).Nodup := hperm.nodup_iff.mpr ((hB.nodup dst).append (hB.nodup src) hapart)
  have hmoved : ∀ {x}, x ∈ l ∨ x ∈ s ↔ x ∈ B dst ∨ x ∈ B src := by
    intro x
    simpa using hperm.mem_iff (a := x)
  have hmem : ∀ {j x}, x ∈ assignTwo B dst src (l, s) j ↔
      j = dst ∧ x ∈ l ∨ j = src ∧ x ∈ s ∨ (j ≠ dst ∧ j ≠ src) ∧ x ∈ B j := by
    intro j x
    by_cases hj : j = src
    · simp [hj, assignTwo, hne.symm]
    · by_cases hj' : j = dst
      · simp [hj', assignTwo, hne]
      · simp [hj, hj', assignTwo, Function.update_of_ne]
  have hfar : ∀ {j x}, j ≠ dst ∧ j ≠ src → x ∈ B j → ¬ (x ∈ l ∨ x ∈ s) := by
    intro j x hj hx hls
    rcases hmoved.mp hls with h | h
    · exact hj.1 (hB.unique hx h)
    · exact hj.2 (hB.unique hx h)
  obtain ⟨hl, hs, hls⟩ := List.nodup_append.mp hnd
  refine ⟨fun j => ?_, fun {j k x} hxj hxk => ?_, fun x => ?_⟩
  · by_cases hj : j = src
    · simpa [hj, assignTwo] using hs
    · by_cases hj' : j = dst
      · simpa [hj', assignTwo, hne] using hl
      · simpa [hj, hj', assignTwo, Function.update_of_ne] using hB.nodup j
  · rcases hmem.mp hxj with ⟨rfl, hx⟩ | ⟨rfl, hx⟩ | ⟨hj, hx⟩ <;>
      rcases hmem.mp hxk with ⟨rfl, hx'⟩ | ⟨rfl, hx'⟩ | ⟨hk, hx'⟩
    · rfl
    · exact absurd rfl (hls x hx x hx')
    · exact absurd (Or.inl hx) (hfar hk hx')
    · exact absurd rfl (hls x hx' x hx)
    · rfl
    · exact absurd (Or.inr hx) (hfar hk hx')
    · exact absurd (Or.inl hx') (hfar hj hx)
    · exact absurd (Or.inr hx') (hfar hj hx)
    · exact hB.unique hx hx'
  · rw [hB.mem_iff x]
    constructor
    · rintro ⟨j, hj⟩
      by_cases hjd : j ≠ dst ∧ j ≠ src
      · exact ⟨j, hmem.mpr (Or.inr (Or.inr ⟨hjd, hj⟩))⟩
      · have hx : x ∈ B dst ∨ x ∈ B src := by
          by_cases h : j = dst
          · exact Or.inl (h ▸ hj)
          · exact Or.inr (not_not.mp (fun h' => hjd ⟨h, h'⟩) ▸ hj)
        rcases hmoved.mpr hx with hx | hx
        · exact ⟨dst, hmem.mpr (Or.inl ⟨rfl, hx⟩)⟩
        · exact ⟨src, hmem.mpr (Or.inr (Or.inl ⟨rfl, hx⟩))⟩
    · rintro ⟨j, hj⟩
      have hback : x ∈ l ∨ x ∈ s → ∃ i, x ∈ B i := fun h =>
        (hmoved.mp h).elim (fun h => ⟨_, h⟩) fun h => ⟨_, h⟩
      rcases hmem.mp hj with ⟨-, hx⟩ | ⟨-, hx⟩ | ⟨-, hx⟩
      · exact hback (Or.inl hx)
      · exact hback (Or.inr hx)
      · exact ⟨j, hx⟩

end

/-! ### Every run -/

section
variable {B : ι → List α} {held : Set α} {l s : List α} {op : InsnsOp ι α}

omit [DecidableEq α] in
theorem update_ofList (B : ι → List α) (i : ι) (l : List α) :
    Function.update (fun i => Insns.ofList (B i)) i (Insns.ofList l) =
      fun j => Insns.ofList (Function.update B i l j) :=
  (Function.comp_update Insns.ofList B i l).symm

omit [DecidableEq α] in
theorem assignTwo_ofList (B : ι → List α) (dst src : ι) (v : List α × List α) :
    assignTwo (fun i => Insns.ofList (B i)) dst src (Insns.ofList v.1, Insns.ofList v.2) =
      fun j => Insns.ofList (assignTwo B dst src v j) := by
  rw [assignTwo, update_ofList, update_ofList]
  rfl

/-- An operation does what it is for, and the numbers are right after it. -/
theorem InsnsOp.perform_ofList (hB : OnePlace B held) (hop : op.Allowed B) :
    op.perform (fun i => Insns.ofList (B i)) = some fun i => Insns.ofList (op.denote B i) := by
  cases op with
  | insnAppend i insn =>
    rw [perform, Insns.insnAppend_ofList, update_ofList]
    rfl
  | insnPrepend i insn index =>
    rw [perform, Insns.insnPrepend_eq, Insns.insns_ofList, update_ofList]
    rfl
  | insnsAppend dst src =>
    rw [perform, Insns.insnsAppend_eq, Insns.insns_ofList, Insns.insns_ofList]
    exact congrArg some (assignTwo_ofList B dst src (_, []))
  | insnsInsertBefore dst before src =>
    obtain ⟨hne, hmem⟩ := hop
    have hdst : (Insns.ofList (B dst)).insns =
        preceding before (B dst) ++ before :: following before (B dst) :=
      (Insns.insns_ofList _).trans (preceding_append_following hmem)
    have hsrc : before ∉ (Insns.ofList (B src)).insns := by
      rw [Insns.insns_ofList]
      exact fun h => hne (hB.unique hmem h)
    rw [perform, Insns.insnsInsertBefore_eq hdst (notMem_preceding _ _) hsrc, Insns.insns_ofList]
    exact congrArg some (assignTwo_ofList B dst src (_, []))
  | insnsInsertAfter dst after src =>
    obtain ⟨hne, hmem⟩ := hop
    have hdst : (Insns.ofList (B dst)).insns =
        preceding after (B dst) ++ after :: following after (B dst) :=
      (Insns.insns_ofList _).trans (preceding_append_following hmem)
    have happ : (B dst ++ B src).Nodup :=
      (hB.nodup dst).append (hB.nodup src) fun x hx hx' => hne (hB.unique hx hx')
    have hnd : (preceding after (B dst) ++ after :: (Insns.ofList (B src)).insns).Nodup := by
      rw [Insns.insns_ofList]
      refine happ.sublist ?_
      nth_rewrite 2 [preceding_append_following hmem]
      rw [List.append_assoc, List.cons_append]
      exact (List.Sublist.refl _).append ((List.sublist_append_right _ _).cons_cons _)
    rw [perform, Insns.insnsInsertAfter_eq hdst hnd, Insns.insns_ofList]
    exact congrArg some (assignTwo_ofList B dst src (_, []))
  | insnsPush dst src n =>
    rw [perform, Insns.insnsPush_ofList hop.2, Option.map_some]
    exact congrArg some (assignTwo_ofList B dst src (_, _))
  | insnsSwap i insn =>
    obtain ⟨hmem, hnext⟩ := hop
    obtain ⟨next, r, hr⟩ := List.exists_cons_of_ne_nil hnext
    have hi : B i = preceding insn (B i) ++ insn :: next :: r := hr ▸ preceding_append_following hmem
    have hswap : (Insns.ofList (B i)).insnsSwap insn =
        some (Insns.ofList (preceding insn (B i) ++ next :: insn :: r)) := by
      nth_rewrite 1 [hi]
      exact Insns.insnsSwap_ofList (notMem_preceding _ _)
    rw [perform, hswap, Option.map_some, update_ofList, denote, hr]
  | insnsRemove i insn =>
    have hremove : (Insns.ofList (B i)).insnsRemove insn =
        Insns.ofList (preceding insn (B i) ++ following insn (B i)) := by
      nth_rewrite 1 [preceding_append_following hop]
      exact Insns.insnsRemove_ofList (notMem_preceding _ _)
    rw [perform, hremove, update_ofList]
    rfl
  | insnsClear i =>
    have hclear : (Insns.ofList (B i)).insnsClear = Insns.ofList [] := rfl
    rw [perform, hclear, update_ofList]
    rfl

omit [DecidableEq α] in
/-- An insn that is on no list is put on one. -/
theorem OnePlace.put {i : ι} {x : α} (hB : OnePlace B held) (hx : ∀ j, x ∉ B j)
    (hl : l.Perm (x :: B i)) : OnePlace (Function.update B i l) (insert x held) := by
  have hmem : ∀ y, y ∈ l ↔ y = x ∨ y ∈ B i := fun y => hl.mem_iff.trans List.mem_cons
  refine hB.update (hl.nodup_iff.mpr (List.nodup_cons.mpr ⟨hx i, hB.nodup i⟩)) ?_ ?_
  · intro y hy
    rcases (hmem y).mp hy with rfl | hy
    · exact Or.inr hx
    · exact Or.inl hy
  · intro y
    have hheld : y ∈ B i → y ∈ held := fun h => (hB.mem_iff y).mpr ⟨i, h⟩
    rw [Set.mem_insert_iff, hmem]
    tauto

/-- No operation loses an insn, or puts one in two places. -/
theorem OnePlace.denote (hB : OnePlace B held) (hop : op.Allowed B) :
    OnePlace (op.denote B) (op.ledger B held) := by
  cases op with
  | insnAppend i insn => exact hB.put hop (List.perm_append_singleton _ _)
  | insnPrepend i insn index => exact hB.put hop (List.Perm.refl _)
  | insnsAppend dst src => exact hB.move hop (by simp)
  | insnsInsertBefore dst before src =>
    obtain ⟨hne, hmem⟩ := hop
    refine hB.move hne ?_
    nth_rewrite 3 [preceding_append_following hmem]
    simp only [List.append_nil, List.append_assoc]
    exact (List.perm_append_left_iff _).mpr List.perm_append_comm
  | insnsInsertAfter dst after src =>
    obtain ⟨hne, hmem⟩ := hop
    refine hB.move hne ?_
    nth_rewrite 3 [preceding_append_following hmem]
    simp only [List.append_nil, List.append_assoc, List.cons_append]
    exact (List.perm_append_left_iff _).mpr (List.perm_append_comm.cons _)
  | insnsPush dst src n =>
    refine hB.move hop.1 ?_
    rw [List.append_assoc]
    refine List.perm_append_comm.trans ?_
    rw [List.append_assoc, List.take_append_drop]
  | insnsSwap i insn =>
    obtain ⟨hmem, hnext⟩ := hop
    obtain ⟨next, r, hr⟩ := List.exists_cons_of_ne_nil hnext
    have hi : B i = preceding insn (B i) ++ insn :: next :: r := hr ▸ preceding_append_following hmem
    have hperm : (preceding insn (B i) ++ next :: insn :: r).Perm (B i) := by
      nth_rewrite 2 [hi]
      exact (List.perm_append_left_iff _).mpr (List.Perm.swap ..)
    rw [InsnsOp.denote, hr]
    refine hB.update (hperm.nodup_iff.mpr (hB.nodup i)) (fun y hy => Or.inl (hperm.mem_iff.mp hy))
      fun y => ?_
    have hheld : y ∈ B i → y ∈ held := fun h => (hB.mem_iff y).mpr ⟨i, h⟩
    rw [hperm.mem_iff]
    exact ⟨fun h => or_iff_not_imp_left.mpr fun hn => ⟨h, hn⟩, fun h => h.elim hheld And.left⟩
  | insnsRemove i insn =>
    have hperm : (B i).Perm (insn :: (preceding insn (B i) ++ following insn (B i))) := by
      nth_rewrite 1 [preceding_append_following hop]
      exact List.perm_middle
    have hnd := List.nodup_cons.mp (hperm.nodup_iff.mp (hB.nodup i))
    refine hB.update hnd.2 (fun y hy => Or.inl (hperm.mem_iff.mpr (List.mem_cons_of_mem _ hy)))
      fun y => ?_
    have hheld : y ∈ B i → y ∈ held := fun h => (hB.mem_iff y).mpr ⟨i, h⟩
    have hmem := hperm.mem_iff (a := y)
    rw [List.mem_cons] at hmem
    constructor
    · rintro ⟨hy, hne : y ≠ insn⟩
      tauto
    · rintro (hy | ⟨hy, hi⟩)
      · exact ⟨hheld (hmem.mpr (Or.inr hy)), fun h : y = insn => hnd.1 (h ▸ hy)⟩
      · exact ⟨hy, fun h : y = insn => hi (hmem.mpr (Or.inl h))⟩
  | insnsClear i => exact hB.update List.nodup_nil (by simp) (by simp [InsnsOp.ledger])

end

/-! ### Soundness -/

/-- The indices are consecutive, from INSN_INDEX_FIRST. -/
structure Insns.Numbered {α : Type*} (t : Insns α) : Prop where
  index (k : ℕ) (hk : k < t.entries.length) :
    (t.entries.get ⟨k, hk⟩).index = insnIndexFirst + BitVec.ofNat 32 k
  nextIndex : t.nextIndex = insnIndexFirst + BitVec.ofNat 32 t.entries.length

omit [DecidableEq α] in
theorem Insns.numbered_ofList (l : List α) : (Insns.ofList l).Numbered := by
  refine ⟨fun k hk => getElem_number _ _ hk, ?_⟩
  rw [ofList, length_number]

theorem InsnsOp.Reaches.eq_ofList {t : ι → Insns α} {B : ι → List α} {held : Set α}
    (h : InsnsOp.Reaches t B held) : (t = fun i => Insns.ofList (B i)) ∧ OnePlace B held := by
  induction h with
  | start => exact ⟨rfl, fun _ => List.nodup_nil, fun hi => by simp at hi, by simp⟩
  | step op _ hop ht ih =>
    obtain ⟨rfl, hB⟩ := ih
    rw [op.perform_ofList hB hop] at ht
    exact ⟨(Option.some.inj ht).symm, hB.denote hop⟩

/-- Whatever is done with lists of insns, the indices in each are consecutive from INSN_INDEX_FIRST,
    and `next_index` is the next. The lists are what they should be, and no insn is lost, twice on a
    list or on two lists. No operation fails. -/
theorem insns_sound {t : ι → Insns α} {B : ι → List α} {held : Set α} (h : InsnsOp.Reaches t B held) :
    (∀ i, (t i).Numbered) ∧ (∀ i, (t i).insns = B i) ∧ OnePlace (fun i => (t i).insns) held ∧
      ∀ op : InsnsOp ι α, op.Allowed B → ∃ t', op.perform t = some t' := by
  obtain ⟨rfl, hB⟩ := h.eq_ofList
  refine ⟨fun i => Insns.numbered_ofList (B i), fun i => Insns.insns_ofList (B i), ?_,
    fun op hop => ⟨_, op.perform_ofList hB hop⟩⟩
  simpa only [Insns.insns_ofList] using hB

theorem insns_sound_run :
    ∃ t : Bool → Insns ℕ, (∀ i, (t i).Numbered) ∧ (t false).insns = [9, 8] ∧ (t true).insns = [] := by
  have h₁ : InsnsOp.Reaches _ _ _ :=
    .step (.insnAppend false 7) (.start : InsnsOp.Reaches (fun _ : Bool => ({} : Insns ℕ)) _ _)
      (by intro i; simp) rfl
  have h₂ : InsnsOp.Reaches _ _ _ :=
    .step (.insnAppend false 8) h₁ (by intro i; cases i <;> decide) rfl
  have h₃ : InsnsOp.Reaches _ _ _ :=
    .step (.insnPrepend true 9 0) h₂ (by intro i; cases i <;> decide) rfl
  have h₄ : InsnsOp.Reaches _ _ _ :=
    .step (.insnsInsertBefore false 8 true) h₃ (by constructor <;> decide) rfl
  have h₅ : InsnsOp.Reaches _ _ _ :=
    .step (.insnsSwap false 7) h₄ (by constructor <;> decide) rfl
  have h₆ : InsnsOp.Reaches _ _ _ := .step (.insnsRemove false 7) h₅ (by show 7 ∈ _; decide) rfl
  obtain ⟨hnum, hlists, -⟩ := insns_sound h₆
  exact ⟨_, hnum, (hlists false).trans (by decide), (hlists true).trans (by decide)⟩

end Ncc
