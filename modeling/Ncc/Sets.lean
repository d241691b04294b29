import Ncc.Regs

/-! Sorted sets (cc1/set.h).

    A set is a list in ascending order and a count, made by macros for any type of elements that can
    be compared. Union and intersection walk both lists at once and insert into, or remove from, the
    first on the way; where such a walk is, is modelled by the list before the cursor (`done`) and
    the list from the cursor on. `sets_sound` says that whatever is done with some sets, each remains
    in order and counted, and contains what mathematics says it does. -/

namespace Ncc

/-- `struct tag##s`, set by SET_INIT. -/
structure ElemSet (α : Type*) where
  count : Nat := 0
  elems : List α := []
  deriving DecidableEq

namespace ElemSet

variable {α : Type*} [LinearOrder α]

/-! ### The operations -/

/-- The search of `tag##s_lookup`: the elements before the place where it ends, and those from it on,
    or nothing if the element was found. -/
def search (e : α) : List α → Option (List α × List α)
  | [] => some ([], [])
  | x :: xs =>
    if x = e then none
    else if e < x then some ([], x :: xs)
    else (search e xs).map fun (before, entry) => (x :: before, entry)

/-- `tag##s_lookup`, with SET_LOOKUP_CREATE or not: does it return an entry? -/
def lookup (set : ElemSet α) (e : α) (create : Bool) : ElemSet α × Bool :=
  match search e set.elems with
  | none => (set, true)
  | some (before, entry) =>
    if create then ({ count := set.count + 1, elems := before ++ e :: entry }, true) else (set, false)

/-- `tag##s_remove`. -/
def remove (set : ElemSet α) (e : α) : ElemSet α :=
  if e ∈ set.elems then { count := set.count - 1, elems := set.elems.erase e } else set

/-- `tag##s_diff`. -/
def diff (dst src : ElemSet α) : ElemSet α := src.elems.foldl remove dst

/-- The loop of `tag##s_union`: the cursor in dst is where `rest` begins. -/
def unionWalk : Nat → List α → List α → List α → ElemSet α
  | count, done, rest, [] => ⟨count, done ++ rest⟩
  | count, done, rest, s :: src =>
    let done := done ++ rest.takeWhile (· < s)
    match rest.dropWhile (· < s) with
    | [] => unionWalk (count + 1) (done ++ [s]) [] src
    | d :: rest =>
      if d = s then unionWalk count done (d :: rest) src
      else unionWalk (count + 1) (done ++ [s]) (d :: rest) src

/-- `tag##s_union`. -/
def union (dst src : ElemSet α) : ElemSet α := unionWalk dst.count [] dst.elems src.elems

/-- The second loop of `tag##s_intersect`: free the entries from the cursor on. -/
def freeRest : Nat → List α → List α → ElemSet α
  | count, done, [] => ⟨count, done⟩
  | count, done, _ :: rest => freeRest (count - 1) done rest

/-- The first loop of `tag##s_intersect`, and then the second. -/
def intersectWalk : Nat → List α → List α → List α → ElemSet α
  | count, done, d :: dst, s :: src =>
    if d = s then intersectWalk count (done ++ [d]) dst src
    else if d < s then intersectWalk (count - 1) done dst (s :: src)
    else intersectWalk count done (d :: dst) src
  | count, done, dst, _ => freeRest count done dst
termination_by _ _ dst src => dst.length + src.length

/-- `tag##s_intersect`. -/
def intersect (dst src : ElemSet α) : ElemSet α := intersectWalk dst.count [] dst.elems src.elems

/-- `tag##s_move`: what becomes of dst, and of src. -/
def move (dst src : ElemSet α) : ElemSet α × ElemSet α :=
  (⟨src.count, dst.elems ++ src.elems⟩, ⟨0, []⟩)

/-- `tag##s_clear`. -/
def clear (set : ElemSet α) : ElemSet α := freeRest set.count [] set.elems

/-! ### Each keeps the representation -/

/-- In order, and counted. -/
structure Ok (set : ElemSet α) : Prop where
  ascending : set.elems.Pairwise (· < ·)
  count : set.count = set.elems.length

variable {set dst src s₁ s₂ : ElemSet α} {e x : α} {l l₁ l₂ done rest : List α} {n : ℕ}

/-- An element put between what is less and what is greater. -/
theorem ascending_insert {before entry : List α} (h : (before ++ entry).Pairwise (· < ·))
    (hb : ∀ x ∈ before, x < e) (he : ∀ x ∈ entry, e < x) :
    (before ++ e :: entry).Pairwise (· < ·) := by
  obtain ⟨h₁, h₂, h₃⟩ := List.pairwise_append.mp h
  refine List.pairwise_append.mpr ⟨h₁, List.pairwise_cons.mpr ⟨he, h₂⟩, fun x hx y hy => ?_⟩
  rcases List.mem_cons.mp hy with rfl | hy
  · exact hb x hx
  · exact h₃ x hx y hy

theorem remove_spec (h : Ok set) (e : α) :
    Ok (remove set e) ∧ ∀ x, x ∈ (remove set e).elems ↔ x ∈ set.elems ∧ x ≠ e := by
  have hnd : set.elems.Nodup := h.ascending.imp fun h => ne_of_lt h
  unfold remove
  split
  · next he =>
    refine ⟨⟨h.ascending.sublist List.erase_sublist, ?_⟩, fun x => ?_⟩
    · show set.count - 1 = (set.elems.erase e).length
      rw [List.length_erase_of_mem he, h.count]
    · exact (hnd.mem_erase_iff).trans and_comm
  · next he =>
    exact ⟨h, fun x => ⟨fun hx => ⟨hx, fun hxe => he (hxe ▸ hx)⟩, And.left⟩⟩

/-- The union, from any place on: the elements before the cursor are less than all that are still to
    be added. -/
theorem unionWalk_spec (h : (done ++ rest).Pairwise (· < ·)) (hl : l.Pairwise (· < ·))
    (hd : ∀ x ∈ done, ∀ y ∈ l, x < y) (hn : n = (done ++ rest).length) :
    Ok (unionWalk n done rest l) ∧
      ∀ x, x ∈ (unionWalk n done rest l).elems ↔ x ∈ done ++ rest ∨ x ∈ l := by
  induction l generalizing n done rest with
  | nil => exact ⟨⟨h, hn⟩, by simp [unionWalk]⟩
  | cons s l ih =>
    obtain ⟨hs, hl'⟩ := List.pairwise_cons.mp hl
    unfold unionWalk
    dsimp only
    -- the cursor moves to the first element that is not less
    have hsplit : rest.takeWhile (· < s) ++ rest.dropWhile (· < s) = rest := List.takeWhile_append_dropWhile
    have hskip : ∀ x ∈ rest.takeWhile (· < s), x < s := fun x hx => by
      simpa using List.mem_takeWhile_imp hx
    generalize hdone : done ++ rest.takeWhile (· < s) = done'
    have hdone' : ∀ x ∈ done', x < s := by
      intro x hx
      rw [← hdone] at hx
      rcases List.mem_append.mp hx with hx | hx
      · exact hd x hx s List.mem_cons_self
      · exact hskip x hx
    have hwhole : done' ++ rest.dropWhile (· < s) = done ++ rest := by
      rw [← hdone, List.append_assoc, hsplit]
    have hnext : ∀ x ∈ done' ++ [s], ∀ y ∈ l, x < y := by
      intro x hx y hy
      rcases List.mem_append.mp hx with hx | hx
      · exact (hdone' x hx).trans (hs y hy)
      · exact List.mem_singleton.mp hx ▸ hs y hy
    rw [← hwhole] at h hn
    cases hrest : rest.dropWhile (· < s) with
    | nil =>
      -- inserted at the end
      rw [hrest] at h hn
      have hasc : ((done' ++ [s]) ++ []).Pairwise (· < ·) := by
        rw [List.append_nil] at h ⊢
        exact List.pairwise_append.mpr ⟨h, List.pairwise_singleton .., fun x hx y hy =>
          List.mem_singleton.mp hy ▸ hdone' x hx⟩
      obtain ⟨hok, hmem⟩ := ih (n := n + 1) hasc hl' hnext (by simp [hn])
      refine ⟨hok, fun x => ?_⟩
      rw [hmem, ← hwhole, hrest]
      simp only [List.append_nil, List.mem_append, List.mem_cons]
      tauto
    | cons d rest' =>
      have hge : ¬ d < s := by
        have hhead := List.head?_dropWhile_not (p := fun x => decide (x < s)) rest
        rw [hrest] at hhead
        simpa using hhead
      rw [hrest] at h hn
      dsimp only
      split
      · next heq =>
        -- there already
        subst heq
        obtain ⟨hok, hmem⟩ := ih h hl' (fun x hx y hy => (hdone' x hx).trans (hs y hy)) hn
        refine ⟨hok, fun x => ?_⟩
        rw [hmem, ← hwhole, hrest]
        simp only [List.mem_append, List.mem_cons]
        tauto
      · next hne =>
        -- inserted before the cursor
        have hlt : s < d := lt_of_le_of_ne (not_lt.mp hge) (Ne.symm hne)
        have hgreater : ∀ x ∈ d :: rest', s < x := by
          intro x hx
          have hdx := (List.pairwise_cons.mp (List.pairwise_append.mp h).2.1).1
          rcases List.mem_cons.mp hx with rfl | hx
          · exact hlt
          · exact hlt.trans (hdx x hx)
        have hasc : ((done' ++ [s]) ++ d :: rest').Pairwise (· < ·) := by
          rw [List.append_assoc]
          exact ascending_insert h hdone' hgreater
        obtain ⟨hok, hmem⟩ := ih (n := n + 1) hasc hl' hnext (by simp [hn]; omega)
        refine ⟨hok, fun x => ?_⟩
        rw [hmem, ← hwhole, hrest]
        simp only [List.mem_append, List.mem_cons]
        tauto

theorem union_spec (h : Ok dst) (hs : Ok src) :
    Ok (union dst src) ∧ ∀ x, x ∈ (union dst src).elems ↔ x ∈ dst.elems ∨ x ∈ src.elems :=
  unionWalk_spec h.ascending hs.ascending (by simp) h.count

/-- Ascending lists with the same elements are the same. -/
theorem eq_of_mem_iff (h₁ : l₁.Pairwise (· < ·)) (h₂ : l₂.Pairwise (· < ·))
    (h : ∀ x, x ∈ l₁ ↔ x ∈ l₂) : l₁ = l₂ :=
  ((List.perm_ext_iff_of_nodup (h₁.imp fun h => ne_of_lt h) (h₂.imp fun h => ne_of_lt h)).mpr
    h).eq_of_pairwise (fun _ _ _ _ h h' => absurd h' (lt_asymm h)) h₁ h₂

end ElemSet

/-! ### Any sequence of operations -/

/-- An operation that changes one of several sets, or two. -/
inductive SetOp (ι α : Type*) where
  | create (i : ι) (e : α)
  | remove (i : ι) (e : α)
  | diff (dst src : ι)
  | union (dst src : ι)
  | intersect (dst src : ι)
  | move (dst src : ι)
  | clear (i : ι)

section
variable {ι α : Type*} [DecidableEq ι]

/-- What the operation does to the sets. Those of a union or an intersection may be the same one:
    nothing is inserted then, and nothing removed. -/
def SetOp.perform [LinearOrder α] (t : ι → ElemSet α) : SetOp ι α → ι → ElemSet α
  | .create i e => Function.update t i ((t i).lookup e true).1
  | .remove i e => Function.update t i ((t i).remove e)
  | .diff dst src => Function.update t dst ((t dst).diff (t src))
  | .union dst src => Function.update t dst ((t dst).union (t src))
  | .intersect dst src => Function.update t dst ((t dst).intersect (t src))
  | .move dst src =>
    Function.update (Function.update t dst ((t dst).move (t src)).1) src ((t dst).move (t src)).2
  | .clear i => Function.update t i (t i).clear

/-- What the operation is meant to do. -/
def SetOp.denote (A : ι → Set α) : SetOp ι α → ι → Set α
  | .create i e => Function.update A i (insert e (A i))
  | .remove i e => Function.update A i (A i \ {e})
  | .diff dst src => Function.update A dst (A dst \ A src)
  | .union dst src => Function.update A dst (A dst ∪ A src)
  | .intersect dst src => Function.update A dst (A dst ∩ A src)
  | .move dst src => Function.update (Function.update A dst (A src)) src ∅
  | .clear i => Function.update A i ∅

/-- What all callers see to: dst is empty before a move, as the comment there asks for, and a move
    or a difference is of two sets. (A difference walks src while it frees entries of dst.) -/
def SetOp.Allowed (t : ι → ElemSet α) : SetOp ι α → Prop
  | .diff dst src => dst ≠ src
  | .move dst src => dst ≠ src ∧ (t dst).elems = []
  | _ => True

/-- The sets that some operations make of empty ones, and those they are meant to make. -/
inductive SetOp.Reaches [LinearOrder α] : (ι → ElemSet α) → (ι → Set α) → Prop
  | start : Reaches (fun _ => {}) (fun _ => ∅)
  | step {t : ι → ElemSet α} {A : ι → Set α} {op : SetOp ι α} :
    Reaches t A → op.Allowed t → Reaches (op.perform t) (op.denote A)

variable [LinearOrder α] {t : ι → ElemSet α} {A : ι → Set α} {op : SetOp ι α}

end

/-! ### Sets of registers

    Elsewhere, sets of registers are the lists alone. -/

instance : LinearOrder PseudoReg where
  le_refl := BitVec.le_refl
  le_trans _ _ _ := BitVec.le_trans
  lt_iff_le_not_ge _ _ := by simp only [BitVec.le_def, BitVec.lt_def]; omega
  le_antisymm _ _ := BitVec.le_antisymm
  le_total := BitVec.le_total
  toDecidableLE := inferInstance

namespace ElemSet

variable {set dst src : ElemSet PseudoReg}

/-- REGS_ADD. -/
theorem elems_lookup_create (set : ElemSet PseudoReg) (r : PseudoReg) :
    (set.lookup r true).1.elems = regsAdd set.elems r := by
  have hwalk : ∀ l : List PseudoReg, regsAdd l r =
      match search r l with
      | none => l
      | some (before, entry) => before ++ r :: entry := by
    intro l
    induction l with
    | nil => rfl
    | cons x xs ih =>
      unfold regsAdd search
      by_cases heq : x = r
      · simp [heq]
      · rw [if_neg heq, if_neg heq]
        by_cases hlt : x < r
        · rw [if_pos hlt, if_neg (lt_asymm hlt), ih]
          cases search r xs <;> rfl
        · rw [if_neg hlt, if_pos (lt_of_le_of_ne (not_lt.mp hlt) (Ne.symm heq))]
          rfl
  rw [hwalk, lookup]
  cases search r set.elems <;> rfl

/-- `regs_union`. -/
theorem elems_union (h : dst.Ok) (hs : src.Ok) :
    (dst.union src).elems = regsUnion dst.elems src.elems := by
  obtain ⟨hok, hmem⟩ := union_spec h hs
  refine eq_of_mem_iff hok.ascending (sorted_regsUnion _ h.ascending) fun x => ?_
  rw [hmem, mem_regsUnion]

/-- `regs_remove`. -/
theorem elems_remove (h : set.Ok) (r : PseudoReg) :
    (set.remove r).elems = set.elems.filter (· ≠ r) := by
  obtain ⟨hok, hmem⟩ := remove_spec h r
  refine eq_of_mem_iff hok.ascending (h.ascending.filter _) fun x => ?_
  rw [hmem, List.mem_filter, decide_eq_true_iff]

end ElemSet

end Ncc
