import Ncc.Lib.Layered
import Ncc.Symbol

/-! Looking up symbols (symbol.c: symbol_insert, symbol_lookup and the scope operations).

    The symbol table is a hash table of chains, each with the highest scope first. Whatever the
    parser does to the scopes, a chain has the symbol last inserted at the head of its scope, so the
    first symbol of the kind that `symbol_lookup` meets is the innermost and latest one. -/

namespace Ncc.Lookup

open Ncc.Layered
open Ncc.Scope (scopeKeep scopeLurker scopeGlobal scopeLocal scopeMax scopeLabel scopeRetired
  scopeCondemned)

/-- `storage_class`: a set of S_*. -/
abbrev StorageClass := BitVec 32

/-- S_TAG. -/
def sTag : StorageClass := 0x00000007

/-- S_REGISTER. -/
def sRegister : StorageClass := 0x00000080

/-- S_LOCAL. -/
def sLocal : StorageClass := 0x00000100

/-- S_REDIRECT. -/
def sRedirect : StorageClass := 0x10000000

/-- `ss & mask`. -/
def has (ss mask : StorageClass) : Bool := ss &&& mask != 0

/-- `struct symbol`, as far as lookups go. The redirect is given by its number. The stamp is no field
    of the source: it counts the insertions before this symbol's last one. -/
structure Symbol (Ident : Type) where
  num : Nat
  id : Option Ident
  ss : StorageClass
  scope : Nat
  redirect : Nat := 0
  stamp : Nat := 0
  deriving DecidableEq, Repr

/-- SYMBOL_NR_BUCKETS. -/
def symbolNrBuckets : Nat := 32

/-- UNNAMED_BUCKET. -/
def unnamedBucket : Nat := symbolNrBuckets

/-- The symbol table: the buckets, `current_scope`, the last number given out, and the number of
    insertions so far. -/
structure Table (Ident : Type) where
  buckets : Nat → List (Symbol Ident) := fun _ => []
  current : Nat := scopeGlobal
  lastNum : Nat := 0
  clock : Nat := 0

section
variable {Ident : Type} (hash : Ident → Nat)

/-- BUCKET. -/
def bucket : Option Ident → Nat
  | some id => hash id % symbolNrBuckets
  | none => unnamedBucket

/-- `symbol_new`. -/
def symbolNew (t : Table Ident) (id : Option Ident) (ss : StorageClass) :
    Symbol Ident × Table Ident :=
  ({ num := t.lastNum + 1, id := id, ss := ss, scope := t.current },
    { t with lastNum := t.lastNum + 1 })

/-- `symbol_insert`. -/
def symbolInsert (t : Table Ident) (sym : Symbol Ident) (scope : Nat) : Table Ident :=
  let b := bucket hash sym.id
  { t with
    buckets := Function.update t.buckets b
      (insertLayer Symbol.scope { sym with scope := scope, stamp := t.clock } (t.buckets b))
    clock := t.clock + 1 }

/-- `symbol_remove`. -/
def symbolRemove (t : Table Ident) (sym : Symbol Ident) : Table Ident :=
  let b := bucket hash sym.id
  { t with buckets := Function.update t.buckets b ((t.buckets b).filter (·.num != sym.num)) }

/-- `symbol_move`. -/
def symbolMove (t : Table Ident) (sym : Symbol Ident) (scope : Nat) : Table Ident :=
  symbolInsert hash (symbolRemove hash t sym) sym scope

/-- `symbol_redirect`. -/
def symbolRedirect (t : Table Ident) (sym : Symbol Ident) : Table Ident :=
  let (new, t) := symbolNew t sym.id sRedirect
  symbolInsert hash t { new with redirect := sym.num } t.current

/-- One bucket of SCOPE_WALK_ALL. A symbol that the action inserts again goes to the bucket it was
    in, which is that of its name. -/
def walkBucket (lvl : Nat) (action : Nat → Symbol Ident → Option (Symbol Ident))
    (t : Table Ident) (i : Nat) : Table Ident :=
  let (l, clock) := walkLayer Symbol.scope lvl action (t.buckets i).length t.clock [] (t.buckets i)
  { t with buckets := Function.update t.buckets i l, clock := clock }

/-- SCOPE_WALK_ALL over one level, with an action that removes the symbol and may insert it again. -/
def scopeWalkAll (lvl : Nat) (action : Nat → Symbol Ident → Option (Symbol Ident))
    (t : Table Ident) : Table Ident :=
  (List.range (unnamedBucket + 1)).foldl (walkBucket lvl action) t

/-- The action of `scope_clear`: a tag is retained at SCOPE_KEEP, another symbol is freed. -/
def clearSymbol (clock : Nat) (sym : Symbol Ident) : Option (Symbol Ident) :=
  if has sym.ss sTag then some { sym with scope := scopeKeep, stamp := clock } else none

/-- `scope_clear`. -/
def scopeClear (t : Table Ident) (scope : Nat) : Table Ident := scopeWalkAll scope clearSymbol t

/-- `symbol_move` in a walk. -/
def moveSymbol (dest clock : Nat) (sym : Symbol Ident) : Option (Symbol Ident) :=
  some { sym with scope := dest, stamp := clock }

/-- `scope_move`. -/
def scopeMove (t : Table Ident) (source dest : Nat) : Table Ident :=
  scopeWalkAll source (moveSymbol dest) t

/-- `scope_enter`; at SCOPE_MAX it is a fatal error. -/
def scopeEnter (t : Table Ident) : Option (Table Ident) :=
  if t.current = scopeMax then none else some { t with current := t.current + 1 }

/-- The action of `scope_exit`: S_LOCAL is promoted to S_REGISTER. -/
def retireSymbol (clock : Nat) (sym : Symbol Ident) : Option (Symbol Ident) :=
  some { sym with
    ss := if has sym.ss sLocal then sym.ss &&& ~~~sLocal ||| sRegister else sym.ss
    scope := scopeRetired
    stamp := clock }

/-- `scope_exit`. -/
def scopeExit (t : Table Ident) : Table Ident :=
  let t := scopeWalkAll t.current retireSymbol t
  { t with current := t.current - 1 }

/-- `scope_end_func`. -/
def scopeEndFunc (t : Table Ident) : Table Ident :=
  scopeClear (scopeClear t scopeRetired) scopeLabel

/-- `scope_exit_proto`. -/
def scopeExitProto (t : Table Ident) : Table Ident :=
  let t := scopeMove (scopeClear t scopeCondemned) t.current scopeCondemned
  { t with current := t.current - 1 }

/-- `scope_resurrect`. -/
def scopeResurrect (t : Table Ident) : Table Ident := scopeMove t scopeCondemned t.current

/-- The symbols of the table. -/
def Table.symbols (t : Table Ident) : List (Symbol Ident) :=
  (List.range (unnamedBucket + 1)).flatMap t.buckets

/-- The symbol that a pointer refers to, unless it was freed. -/
def deref (t : Table Ident) (num : Nat) : Option (Symbol Ident) :=
  t.symbols.find? (·.num == num)

/-- `if (sym->ss & S_REDIRECT) sym = sym->redirect;` -/
def follow (t : Table Ident) (sym : Symbol Ident) : Option (Symbol Ident) :=
  if has sym.ss sRedirect then deref t sym.redirect else some sym

/-- The loop of `symbol_lookup`. It fails if it follows a redirect to a freed symbol. -/
def lookupFrom [DecidableEq Ident] (t : Table Ident) (start stop : Nat) (id : Option Ident) (ss : StorageClass) :
    List (Symbol Ident) → Option (Option (Symbol Ident))
  | [] => some none
  | sym :: next =>
    if sym.scope < stop then some none
    else if start < sym.scope then lookupFrom t start stop id ss next
    else
      match follow t sym with
      | none => none
      | some sym =>
        if sym.id = id ∧ has sym.ss ss then some (some sym)
        else lookupFrom t start stop id ss next

/-- `symbol_lookup`. -/
def symbolLookup [DecidableEq Ident] (t : Table Ident) (start stop : Nat) (id : Option Ident) (ss : StorageClass) :
    Option (Option (Symbol Ident)) :=
  lookupFrom t start stop id ss (t.buckets (bucket hash id))

/-! ### Runs of the parser -/

/-- What the parser does to the symbol table. -/
inductive Op (Ident : Type) where
  | enter
  /-- `symbol_new` and `symbol_insert`. -/
  | insert (id : Option Ident) (ss : StorageClass) (scope : Nat)
  /-- `symbol_redirect` to the symbol of the number. -/
  | redirect (num : Nat)
  /-- `symbol_move` in `symbol_global`: a lurker becomes visible. -/
  | expose (num : Nat)
  | exit
  | exitProto
  | resurrect
  | endFunc
  deriving DecidableEq, Repr

/-- The operation on the table. -/
def Op.perform (t : Table Ident) : Op Ident → Table Ident
  | .enter => (scopeEnter t).getD t
  | .insert id ss scope =>
    let (sym, t) := symbolNew t id ss
    symbolInsert hash t sym scope
  | .redirect num =>
    match deref t num with
    | none => t
    | some sym => symbolRedirect hash t sym
  | .expose num =>
    match deref t num with
    | none => t
    | some sym => symbolMove hash t sym scopeGlobal
  | .exit => scopeExit t
  | .exitProto => scopeExitProto t
  | .resurrect => scopeResurrect t
  | .endFunc => scopeEndFunc t

/-- What the parser keeps to: it does not nest scopes too deeply, leaves only scopes it has entered,
    and `symbol_redirect` gets what `symbol_global` returns, a symbol of the file's level. -/
def Op.Allowed (t : Table Ident) : Op Ident → Prop
  | .enter => t.current ≠ scopeMax
  | .insert _ ss _ => has ss sRedirect = false
  | .redirect num => ∃ sym, deref t num = some sym ∧ has sym.ss sRedirect = false ∧
      (sym.scope = scopeLurker ∨ sym.scope = scopeGlobal)
  | .expose num => ∃ sym, deref t num = some sym ∧ sym.scope = scopeLurker
  | .exit | .exitProto => scopeLocal ≤ t.current
  | .resurrect | .endFunc => True

/-- The tables that the parser makes from the empty one. -/
inductive Reachable : Table Ident → Prop
  | start : Reachable {}
  | step {t : Table Ident} {op : Op Ident} : Reachable t → op.Allowed t →
      Reachable (op.perform hash t)

/-- The symbol is in a scope from `start` down to `stop`, and is, or redirects to, one of the name
    and kind: `found`. -/
def Visible (t : Table Ident) (start stop : Nat) (id : Option Ident) (ss : StorageClass)
    (sym found : Symbol Ident) : Prop :=
  sym ∈ t.symbols ∧ stop ≤ sym.scope ∧ sym.scope ≤ start ∧ follow t sym = some found ∧
    found.id = id ∧ has found.ss ss = true

/-- The result of a lookup: of the visible symbols the innermost and, in its scope, the one that was
    inserted last; none if there is none. -/
def Innermost (t : Table Ident) (start stop : Nat) (id : Option Ident) (ss : StorageClass) :
    Option (Symbol Ident) → Prop
  | none => ∀ sym found, ¬ Visible t start stop id ss sym found
  | some found => ∃ sym, Visible t start stop id ss sym found ∧
      ∀ sym' found', Visible t start stop id ss sym' found' → sym' ≠ sym →
        Below Symbol.scope Symbol.stamp sym sym'

/-- The chains of the table are in order, and every symbol is in that of its name. -/
structure Table.Shape (t : Table Ident) : Prop where
  layered : ∀ i, Layered Symbol.scope Symbol.stamp (t.buckets i)
  older : ∀ i, ∀ s ∈ t.buckets i, s.stamp < t.clock
  named : ∀ i, ∀ s ∈ t.buckets i, bucket hash s.id = i
  numbered : ∀ i, ∀ s ∈ t.buckets i, s.num ≤ t.lastNum
  nodup : ∀ i, ((t.buckets i).map Symbol.num).Nodup
  apart : ∀ i j, ∀ a ∈ t.buckets i, ∀ b ∈ t.buckets j, a.num = b.num → i = j

/-- The symbol redirects, if it does, to a symbol of its name at the file's level. -/
def Redirects (l : List (Symbol Ident)) (s : Symbol Ident) : Prop :=
  has s.ss sRedirect = true →
    ∃ g ∈ l, g.num = s.redirect ∧ g.id = s.id ∧ has g.ss sRedirect = false ∧
      (g.scope = scopeLurker ∨ g.scope = scopeGlobal)

/-- The invariant of the symbol table. -/
structure Table.Ok (t : Table Ident) : Prop extends t.Shape hash where
  redirects : ∀ i, ∀ s ∈ t.buckets i, Redirects (t.buckets i) s
  global : scopeGlobal ≤ t.current
  bounded : t.current ≤ scopeMax

end

section
variable {Ident : Type} {hash : Ident → Nat} {t : Table Ident}

/-! ### The symbols of a table -/

theorem bucket_le (id : Option Ident) : bucket hash id ≤ unnamedBucket := by
  cases id with
  | none => exact Nat.le_refl _
  | some id => exact (Nat.mod_lt _ (by decide)).le

theorem Table.Shape.mem_symbols (h : t.Shape hash) {s : Symbol Ident} :
    s ∈ t.symbols ↔ s ∈ t.buckets (bucket hash s.id) := by
  rw [Table.symbols, List.mem_flatMap]
  constructor
  · rintro ⟨i, -, hs⟩
    rwa [h.named i s hs]
  · exact fun hs => ⟨_, List.mem_range.mpr (Nat.lt_succ_of_le (bucket_le s.id)), hs⟩

/-- A pointer to a symbol of the table refers to it. -/
theorem Table.Shape.deref_eq (h : t.Shape hash) {i : Nat} {s : Symbol Ident}
    (hs : s ∈ t.buckets i) : deref t s.num = some s := by
  have hmem : s ∈ t.symbols := by rwa [h.mem_symbols, h.named i s hs]
  cases hd : deref t s.num with
  | none => exact absurd (List.find?_eq_none.mp hd s hmem) (by simp)
  | some s' =>
    have hnum : s'.num = s.num := by simpa using List.find?_some hd
    have hs' := h.mem_symbols.mp (List.mem_of_find?_eq_some hd)
    have hi := h.apart _ _ s' hs' s hs hnum
    rw [hi] at hs'
    rw [List.inj_on_of_nodup_map (h.nodup i) hs' hs hnum]

theorem Table.Shape.mem_of_deref (h : t.Shape hash) {n : Nat} {s : Symbol Ident}
    (hd : deref t n = some s) : s.num = n ∧ s ∈ t.buckets (bucket hash s.id) :=
  ⟨by simpa using List.find?_some hd, h.mem_symbols.mp (List.mem_of_find?_eq_some hd)⟩

/-! ### Insertion and removal -/

theorem shape_symbolNew (h : t.Shape hash) (id : Option Ident) (ss : StorageClass) :
    (symbolNew t id ss).2.Shape hash :=
  ⟨h.layered, h.older, h.named, fun i s hs => Nat.le_succ_of_le (h.numbered i s hs), h.nodup,
    h.apart⟩

theorem symbolInsert_self (sym : Symbol Ident) (scope : Nat) :
    (symbolInsert hash t sym scope).buckets (bucket hash sym.id) =
      insertLayer Symbol.scope { sym with scope := scope, stamp := t.clock }
        (t.buckets (bucket hash sym.id)) := Function.update_self ..

theorem symbolInsert_of_ne {sym : Symbol Ident} {i : Nat} (hi : i ≠ bucket hash sym.id)
    (scope : Nat) : (symbolInsert hash t sym scope).buckets i = t.buckets i :=
  Function.update_of_ne hi ..

theorem mem_symbolInsert {sym s : Symbol Ident} {scope i : Nat} :
    s ∈ (symbolInsert hash t sym scope).buckets i ↔
      s ∈ t.buckets i ∨
        i = bucket hash sym.id ∧ s = { sym with scope := scope, stamp := t.clock } := by
  by_cases hi : i = bucket hash sym.id
  · subst hi
    rw [symbolInsert_self, mem_insertLayer, or_comm]
    simp
  · simp [symbolInsert_of_ne hi, hi]

/-- Inserting a symbol that is not in the table. -/
theorem shape_symbolInsert (h : t.Shape hash) {sym : Symbol Ident} (scope : Nat)
    (hnew : ∀ i, ∀ s ∈ t.buckets i, s.num ≠ sym.num) (hle : sym.num ≤ t.lastNum) :
    (symbolInsert hash t sym scope).Shape hash where
  layered := fun i => by
    by_cases hi : i = bucket hash sym.id
    · subst hi
      rw [symbolInsert_self]
      exact layered_insertLayer (h.layered _) fun p hp => h.older _ p hp
    · rw [symbolInsert_of_ne hi]
      exact h.layered i
  older := fun i s hs => by
    show s.stamp < t.clock + 1
    rcases mem_symbolInsert.mp hs with hs | ⟨-, rfl⟩
    · have := h.older i s hs
      omega
    · exact Nat.lt_succ_self _
  named := fun i s hs => by
    rcases mem_symbolInsert.mp hs with hs | ⟨rfl, rfl⟩
    · exact h.named i s hs
    · rfl
  numbered := fun i s hs => by
    rcases mem_symbolInsert.mp hs with hs | ⟨-, rfl⟩
    · exact h.numbered i s hs
    · exact hle
  nodup := fun i => by
    by_cases hi : i = bucket hash sym.id
    · subst hi
      rw [symbolInsert_self]
      refine (((insertLayer_perm _ _).map Symbol.num).nodup_iff).mpr ?_
      rw [List.map_cons, List.nodup_cons]
      refine ⟨fun hmem => ?_, h.nodup _⟩
      obtain ⟨s, hs, hnum⟩ := List.mem_map.mp hmem
      exact hnew _ s hs hnum
    · rw [symbolInsert_of_ne hi]
      exact h.nodup i
  apart := fun i j a ha b hb hab => by
    rcases mem_symbolInsert.mp ha with ha | ⟨rfl, rfl⟩ <;>
      rcases mem_symbolInsert.mp hb with hb | ⟨rfl, rfl⟩
    · exact h.apart i j a ha b hb hab
    · exact absurd hab (hnew i a ha)
    · exact absurd hab.symm (hnew j b hb)
    · rfl

theorem mem_symbolRemove (h : t.Shape hash) {sym s : Symbol Ident}
    (hsym : sym ∈ t.buckets (bucket hash sym.id)) {i : Nat} :
    s ∈ (symbolRemove hash t sym).buckets i ↔ s ∈ t.buckets i ∧ s.num ≠ sym.num := by
  by_cases hi : i = bucket hash sym.id
  · subst hi
    simp [symbolRemove]
  · rw [symbolRemove]
    simp only [Function.update_of_ne hi]
    exact ⟨fun hs => ⟨hs, fun hnum => hi (h.apart _ _ s hs sym hsym hnum)⟩, And.left⟩

theorem shape_symbolRemove (h : t.Shape hash) {sym : Symbol Ident}
    (hsym : sym ∈ t.buckets (bucket hash sym.id)) : (symbolRemove hash t sym).Shape hash := by
  have hsub : ∀ i, ((symbolRemove hash t sym).buckets i).Sublist (t.buckets i) := fun i => by
    by_cases hi : i = bucket hash sym.id
    · subst hi
      simp [symbolRemove]
    · simp [symbolRemove, hi]
  exact ⟨fun i => (h.layered i).sublist (hsub i), fun i s hs => h.older i s ((hsub i).subset hs),
    fun i s hs => h.named i s ((hsub i).subset hs),
    fun i s hs => h.numbered i s ((hsub i).subset hs),
    fun i => (h.nodup i).sublist ((hsub i).map _),
    fun i j a ha b hb => h.apart i j a ((hsub i).subset ha) b ((hsub j).subset hb)⟩

theorem Redirects.mono {l l' : List (Symbol Ident)} {s : Symbol Ident} (h : Redirects l s)
    (hsub : ∀ g ∈ l, g ∈ l') : Redirects l' s := fun hs => by
  obtain ⟨g, hg, hrest⟩ := h hs
  exact ⟨g, hsub g hg, hrest⟩

/-- Inserting a new symbol, which may redirect. -/
theorem ok_insertNew (h : t.Ok hash) (id : Option Ident) (ss : StorageClass) (scope r : Nat)
    (hr : Redirects (t.buckets (bucket hash id)) { (symbolNew t id ss).1 with redirect := r }) :
    (symbolInsert hash (symbolNew t id ss).2 { (symbolNew t id ss).1 with redirect := r }
      scope).Ok hash where
  toShape := shape_symbolInsert (shape_symbolNew h.toShape id ss) scope
    (fun i s hs hnum => by
      have hle := h.numbered i s hs
      rw [hnum] at hle
      exact absurd hle (by simp [symbolNew]))
    (Nat.le_refl _)
  redirects := fun i s hs => by
    rcases mem_symbolInsert.mp hs with hs | ⟨rfl, rfl⟩
    · exact (h.redirects i s hs).mono fun g hg => mem_symbolInsert.mpr (.inl hg)
    · intro hss
      obtain ⟨g, hg, hrest⟩ := hr hss
      exact ⟨g, mem_symbolInsert.mpr (.inl hg), hrest⟩
  global := h.global
  bounded := h.bounded

/-- A lurker that becomes visible keeps the redirects to it. -/
theorem ok_expose (h : t.Ok hash) {n : Nat} {sym : Symbol Ident} (hd : deref t n = some sym) :
    (symbolMove hash t sym scopeGlobal).Ok hash := by
  have hsym := (h.mem_of_deref hd).2
  have hshape := shape_symbolRemove h.toShape hsym
  refine ⟨shape_symbolInsert hshape _ (fun i s hs => ((mem_symbolRemove h.toShape hsym).mp hs).2)
    (h.numbered _ sym hsym), fun i s hs hss => ?_, h.global, h.bounded⟩
  -- what `s` redirected to before, it redirects to now
  have hold : ∃ s₀ ∈ t.buckets i, s₀.redirect = s.redirect ∧ s₀.id = s.id ∧ s₀.ss = s.ss := by
    rcases mem_symbolInsert.mp hs with hs | ⟨rfl, rfl⟩
    · exact ⟨s, ((mem_symbolRemove h.toShape hsym).mp hs).1, rfl, rfl, rfl⟩
    · exact ⟨sym, hsym, rfl, rfl, rfl⟩
  obtain ⟨s₀, hs₀, hr, hid, hss₀⟩ := hold
  obtain ⟨g, hg, hnum, hgid, hgss, hgscope⟩ := h.redirects i s₀ hs₀ (hss₀ ▸ hss)
  rw [hr] at hnum
  rw [hid] at hgid
  by_cases hgs : g.num = sym.num
  · have hi := h.apart _ _ g hg sym hsym hgs
    subst hi
    obtain rfl := List.inj_on_of_nodup_map (h.nodup _) hg hsym hgs
    exact ⟨_, mem_symbolInsert.mpr (.inr ⟨rfl, rfl⟩), hnum, hgid, hgss, .inr rfl⟩
  · exact ⟨g, mem_symbolInsert.mpr (.inl ((mem_symbolRemove h.toShape hsym).mpr ⟨hg, hgs⟩)), hnum,
      hgid, hgss, hgscope⟩

/-! ### Walks -/

/-- What the actions of walks have in common: a symbol that is put in again is on another level, and
    is the same symbol as before. -/
structure Retains (lvl : Nat) (action : Nat → Symbol Ident → Option (Symbol Ident)) : Prop where
  level : ∀ {c x y}, action c x = some y → y.scope ≠ lvl
  stamp : ∀ {c x y}, action c x = some y → y.stamp = c
  num : ∀ {c x y}, action c x = some y → y.num = x.num
  id : ∀ {c x y}, action c x = some y → y.id = x.id
  redirect : ∀ {c x y}, action c x = some y → y.redirect = x.redirect
  redirects : ∀ {c x y}, action c x = some y → has y.ss sRedirect = has x.ss sRedirect

theorem retains_clearSymbol {lvl : Nat} (h : lvl ≠ scopeKeep) :
    Retains lvl (@clearSymbol Ident) := by
  have hsome : ∀ {c} {x y : Symbol Ident}, clearSymbol c x = some y →
      y = { x with scope := scopeKeep, stamp := c } := fun hy => by
    unfold clearSymbol at hy
    split at hy
    · exact (Option.some.inj hy).symm
    · cases hy
  constructor <;> intro c x y hy <;> rw [hsome hy]
  exact h.symm

theorem retains_moveSymbol {lvl dest : Nat} (h : lvl ≠ dest) :
    Retains lvl (@moveSymbol Ident dest) := by
  constructor <;> intro c x y hy <;> rw [← Option.some.inj hy]
  exact h.symm

/-- Promoting S_LOCAL to S_REGISTER leaves S_REDIRECT alone. -/
theorem has_promoted (ss : StorageClass) :
    has (ss &&& ~~~sLocal ||| sRegister) sRedirect = has ss sRedirect := by
  have hreg : sRegister &&& sRedirect = 0 := by decide
  have hlocal : ~~~sLocal &&& sRedirect = sRedirect := by decide
  have hand : (ss &&& ~~~sLocal ||| sRegister) &&& sRedirect = ss &&& sRedirect := by
    rw [BitVec.and_comm, BitVec.and_or_distrib_left, BitVec.and_comm sRedirect sRegister, hreg,
      BitVec.and_comm, BitVec.and_assoc, hlocal]
    simp
  rw [has, has, hand]

theorem retains_retireSymbol {lvl : Nat} (h : lvl ≠ scopeRetired) :
    Retains lvl (@retireSymbol Ident) := by
  constructor <;> intro c x y hy <;> rw [← Option.some.inj hy]
  · exact h.symm
  · dsimp only
    split
    · exact has_promoted x.ss
    · rfl

/-- What a walk makes of its bucket. -/
theorem walked_walkBucket {lvl : Nat} {action : Nat → Symbol Ident → Option (Symbol Ident)}
    (hact : Retains lvl action) (h : t.Shape hash) (i : Nat) :
    Walked Symbol.scope Symbol.stamp lvl action t.clock (t.buckets i)
      ((walkBucket lvl action t i).buckets i, (walkBucket lvl action t i).clock) := by
  have hself : (walkBucket lvl action t i).buckets i =
      (walkLayer Symbol.scope lvl action (t.buckets i).length t.clock [] (t.buckets i)).1 :=
    Function.update_self ..
  rw [hself]
  exact walkLayer_spec (fun c x y hy => ⟨hact.level hy, hact.stamp hy⟩) _ _ [] _ (h.layered i)
    (h.older i) (fun y hy => absurd hy List.not_mem_nil) List.countP_le_length

theorem walkBucket_of_ne {lvl : Nat} {action : Nat → Symbol Ident → Option (Symbol Ident)}
    {i j : Nat} (hj : j ≠ i) : (walkBucket lvl action t i).buckets j = t.buckets j :=
  Function.update_of_ne hj ..

/-- The walk of one bucket keeps the invariant, unless it is over a level of the file. -/
theorem ok_walkBucket {lvl : Nat} {action : Nat → Symbol Ident → Option (Symbol Ident)}
    (hact : Retains lvl action) (hl : lvl ≠ scopeLurker) (hg : lvl ≠ scopeGlobal) (h : t.Ok hash)
    (i : Nat) : (walkBucket lvl action t i).Ok hash := by
  have hw := walked_walkBucket hact h.toShape i
  -- a symbol that the walk leaves is one from before
  have horigin : ∀ {j} {y}, y ∈ (walkBucket lvl action t i).buckets j → ∃ x ∈ t.buckets j,
      y.num = x.num ∧ y.id = x.id ∧ y.redirect = x.redirect ∧
        has y.ss sRedirect = has x.ss sRedirect := fun {j y} hy => by
    by_cases hj : j = i
    · subst hj
      rcases hw.source y hy with hy | ⟨c, x, hx, -, hxy⟩
      · exact ⟨y, hy, rfl, rfl, rfl, rfl⟩
      · exact ⟨x, hx, hact.num hxy, hact.id hxy, hact.redirect hxy, hact.redirects hxy⟩
    · rw [walkBucket_of_ne hj] at hy
      exact ⟨y, hy, rfl, rfl, rfl, rfl⟩
  refine ⟨⟨fun j => ?_, fun j y hy => ?_, fun j y hy => ?_, fun j y hy => ?_, fun j => ?_,
    fun j k a ha b hb hab => ?_⟩, fun j y hy hss => ?_, h.global, h.bounded⟩
  · by_cases hj : j = i
    · subst hj
      exact hw.layered
    · rw [walkBucket_of_ne hj]
      exact h.layered j
  · by_cases hj : j = i
    · subst hj
      exact hw.older y hy
    · rw [walkBucket_of_ne hj] at hy
      exact lt_of_lt_of_le (h.older j y hy) hw.clock_le
  · obtain ⟨x, hx, -, hid, -⟩ := horigin hy
    rw [hid]
    exact h.named j x hx
  · obtain ⟨x, hx, hnum, -⟩ := horigin hy
    rw [hnum]
    exact h.numbered j x hx
  · by_cases hj : j = i
    · subst hj
      obtain ⟨l, hperm, hsub⟩ := hw.keys Nat Symbol.num fun c x y => hact.num
      exact hperm.nodup ((h.nodup j).sublist hsub)
    · rw [walkBucket_of_ne hj]
      exact h.nodup j
  · obtain ⟨x, hx, hxnum, -⟩ := horigin ha
    obtain ⟨z, hz, hznum, -⟩ := horigin hb
    exact h.apart j k x hx z hz (hxnum.symm.trans (hab.trans hznum))
  · obtain ⟨x, hx, -, hid, hred, hcls⟩ := horigin hy
    obtain ⟨g, hgmem, hgnum, hgid, hgss, hgscope⟩ := h.redirects j x hx (hcls ▸ hss)
    refine ⟨g, ?_, hgnum.trans hred.symm, hgid.trans hid.symm, hgss, hgscope⟩
    by_cases hj : j = i
    · subst hj
      refine hw.kept g hgmem ?_
      rcases hgscope with hs | hs <;> rw [hs]
      · exact hl.symm
      · exact hg.symm
    · rw [walkBucket_of_ne hj]
      exact hgmem

theorem ok_scopeWalkAll {lvl : Nat} {action : Nat → Symbol Ident → Option (Symbol Ident)}
    (hact : Retains lvl action) (hl : lvl ≠ scopeLurker) (hg : lvl ≠ scopeGlobal)
    (h : t.Ok hash) : (scopeWalkAll lvl action t).Ok hash := by
  unfold scopeWalkAll
  induction List.range (unnamedBucket + 1) generalizing t with
  | nil => exact h
  | cons i l ih => exact ih (ok_walkBucket hact hl hg h i)

/-- A walk leaves no symbol on its level. -/
theorem scopeWalkAll_gone {lvl : Nat} {action : Nat → Symbol Ident → Option (Symbol Ident)}
    (hact : Retains lvl action) (hl : lvl ≠ scopeLurker) (hg : lvl ≠ scopeGlobal)
    (h : t.Ok hash) : ∀ s ∈ (scopeWalkAll lvl action t).symbols, s.scope ≠ lvl := by
  have hfold : ∀ (l : List Nat) {t : Table Ident}, t.Ok hash → ∀ i,
      (i ∈ l ∨ ∀ s ∈ t.buckets i, s.scope ≠ lvl) →
        ∀ s ∈ (l.foldl (walkBucket lvl action) t).buckets i, s.scope ≠ lvl := by
    intro l
    induction l with
    | nil => exact fun _ i hi => hi.resolve_left List.not_mem_nil
    | cons j l ih =>
      intro t h i hi
      refine ih (ok_walkBucket hact hl hg h j) i ?_
      by_cases hij : i = j
      · subst hij
        exact .inr (walked_walkBucket hact h.toShape i).gone
      · rw [walkBucket_of_ne hij]
        exact hi.imp (fun hi => (List.mem_cons.mp hi).resolve_left hij) fun hi => hi
  intro s hs
  rw [Table.symbols, List.mem_flatMap] at hs
  obtain ⟨i, hi, hs⟩ := hs
  rw [scopeWalkAll] at hs
  exact hfold (List.range (unnamedBucket + 1)) h i (.inl hi) s hs

theorem scopeWalkAll_current {lvl : Nat} {action : Nat → Symbol Ident → Option (Symbol Ident)} :
    (scopeWalkAll lvl action t).current = t.current := by
  unfold scopeWalkAll
  induction List.range (unnamedBucket + 1) generalizing t with
  | nil => rfl
  | cons i l ih => exact ih

/-! ### The operations of the parser -/

theorem ok_start : ({} : Table Ident).Ok hash where
  layered := fun _ => List.Pairwise.nil
  older := fun _ _ hs => absurd hs List.not_mem_nil
  named := fun _ _ hs => absurd hs List.not_mem_nil
  numbered := fun _ _ hs => absurd hs List.not_mem_nil
  nodup := fun _ => List.nodup_nil
  apart := fun _ _ _ ha => absurd ha List.not_mem_nil
  redirects := fun _ _ hs => absurd hs List.not_mem_nil
  global := Nat.le_refl _
  bounded := show scopeGlobal ≤ scopeMax by decide

/-- Changing `current_scope`. -/
theorem ok_current (h : t.Ok hash) {c : Nat} (hg : scopeGlobal ≤ c) (hb : c ≤ scopeMax) :
    ({ t with current := c } : Table Ident).Ok hash :=
  ⟨⟨h.layered, h.older, h.named, h.numbered, h.nodup, h.apart⟩, h.redirects, hg, hb⟩

/-- The levels of a file lie below those of a function, and these below the special ones. -/
theorem levels : scopeKeep < scopeLurker ∧ scopeLurker < scopeGlobal ∧ scopeGlobal < scopeLocal ∧
    scopeLocal < scopeMax ∧ scopeMax < scopeLabel ∧ scopeMax < scopeRetired ∧
    scopeMax < scopeCondemned := by
  decide

theorem ok_scopeClear (h : t.Ok hash) {lvl : Nat} (hl : scopeMax < lvl) :
    (scopeClear t lvl).Ok hash := by
  have hlevels := levels
  exact ok_scopeWalkAll (retains_clearSymbol (by omega)) (by omega) (by omega) h

theorem ok_scopeExit (h : t.Ok hash) (hc : scopeLocal ≤ t.current) : (scopeExit t).Ok hash := by
  have hlevels := levels
  have hb := h.bounded
  have hwalk := ok_scopeWalkAll (retains_retireSymbol (show t.current ≠ scopeRetired by omega))
    (by omega) (by omega) h
  have hcur : (scopeWalkAll t.current retireSymbol t).current = t.current := scopeWalkAll_current
  unfold scopeExit
  exact ok_current hwalk (by omega) (by omega)

theorem ok_scopeMove (h : t.Ok hash) {source dest : Nat} (hl : source ≠ scopeLurker)
    (hg : source ≠ scopeGlobal) (hne : source ≠ dest) : (scopeMove t source dest).Ok hash :=
  ok_scopeWalkAll (retains_moveSymbol hne) hl hg h

theorem ok_scopeExitProto (h : t.Ok hash) (hc : scopeLocal ≤ t.current) :
    (scopeExitProto t).Ok hash := by
  have hlevels := levels
  have hb := h.bounded
  have hclear := ok_scopeClear h (show scopeMax < scopeCondemned by omega)
  have hcur : (scopeClear t scopeCondemned).current = t.current := scopeWalkAll_current
  have hmove : (scopeMove (scopeClear t scopeCondemned) t.current scopeCondemned).Ok hash :=
    ok_scopeMove hclear (by omega) (by omega) (by omega)
  have hcur' : (scopeMove (scopeClear t scopeCondemned) t.current scopeCondemned).current =
      t.current := scopeWalkAll_current.trans hcur
  unfold scopeExitProto
  exact ok_current hmove (by omega) (by omega)

/-- Every operation keeps the invariant. -/
theorem ok_perform (h : t.Ok hash) {op : Op Ident} (ha : op.Allowed t) :
    (op.perform hash t).Ok hash := by
  have hlevels := levels
  have hg := h.global
  have hb := h.bounded
  cases op with
  | enter =>
    have hne : t.current ≠ scopeMax := ha
    have heq : scopeEnter t = some { t with current := t.current + 1 } := if_neg hne
    show ((scopeEnter t).getD t).Ok hash
    rw [heq]
    exact ok_current h (by omega) (by omega)
  | insert id ss scope =>
    have hss : has ss sRedirect = false := ha
    exact ok_insertNew h id ss scope 0 fun hr => absurd (hss.symm.trans hr) (by decide)
  | redirect num =>
    obtain ⟨sym, hd, hss, hscope⟩ := ha
    show (match deref t num with
      | none => t
      | some sym => symbolRedirect hash t sym).Ok hash
    rw [hd]
    have hsym := (h.mem_of_deref hd).2
    exact ok_insertNew h sym.id sRedirect t.current sym.num fun _ =>
      ⟨sym, hsym, rfl, rfl, hss, hscope⟩
  | expose num =>
    obtain ⟨sym, hd, -⟩ := ha
    show (match deref t num with
      | none => t
      | some sym => symbolMove hash t sym scopeGlobal).Ok hash
    rw [hd]
    exact ok_expose h hd
  | exit => exact ok_scopeExit h ha
  | exitProto => exact ok_scopeExitProto h ha
  | resurrect =>
    show (scopeMove t scopeCondemned t.current).Ok hash
    exact ok_scopeMove h (by omega) (by omega) (by omega)
  | endFunc =>
    show (scopeClear (scopeClear t scopeRetired) scopeLabel).Ok hash
    exact ok_scopeClear (ok_scopeClear h (by omega)) (by omega)

theorem Reachable.ok (h : Reachable hash t) : t.Ok hash := by
  induction h with
  | start => exact ok_start
  | step _ ha ih => exact ok_perform ih ha

/-! ### Lookups -/

variable {start stop : Nat} {id : Option Ident} {ss : StorageClass}

/-- Does the lookup stop at the symbol, with `found`? -/
def Matches (t : Table Ident) (start stop : Nat) (id : Option Ident) (ss : StorageClass)
    (sym found : Symbol Ident) : Prop :=
  stop ≤ sym.scope ∧ sym.scope ≤ start ∧ follow t sym = some found ∧ found.id = id ∧
    has found.ss ss = true

variable (t start stop id ss) in
/-- The search of a chain that is in order finds its greatest match. -/
theorem lookupFrom_spec [DecidableEq Ident] : ∀ {l : List (Symbol Ident)}, Layered Symbol.scope Symbol.stamp l →
    (∀ s ∈ l, ∃ found, follow t s = some found) →
    (lookupFrom t start stop id ss l = some none ∧
      ∀ s ∈ l, ∀ found, ¬ Matches t start stop id ss s found) ∨
    ∃ found, lookupFrom t start stop id ss l = some (some found) ∧
      ∃ s ∈ l, Matches t start stop id ss s found ∧
        ∀ s' ∈ l, ∀ found', Matches t start stop id ss s' found' → s' ≠ s →
          Below Symbol.scope Symbol.stamp s s'
  | [], _, _ => .inl ⟨rfl, fun _ hs => absurd hs List.not_mem_nil⟩
  | sym :: next, hl, hf => by
    obtain ⟨hbelow, hnext⟩ := List.pairwise_cons.mp hl
    have ih := lookupFrom_spec hnext fun s hs => hf s (List.mem_cons_of_mem _ hs)
    -- when `sym` does not match, the search of the rest is that of the chain
    have hskip : (∀ found, ¬ Matches t start stop id ss sym found) →
        lookupFrom t start stop id ss (sym :: next) = lookupFrom t start stop id ss next →
        (lookupFrom t start stop id ss (sym :: next) = some none ∧
          ∀ s ∈ sym :: next, ∀ found, ¬ Matches t start stop id ss s found) ∨
        ∃ found, lookupFrom t start stop id ss (sym :: next) = some (some found) ∧
          ∃ s ∈ sym :: next, Matches t start stop id ss s found ∧
            ∀ s' ∈ sym :: next, ∀ found', Matches t start stop id ss s' found' → s' ≠ s →
              Below Symbol.scope Symbol.stamp s s' := fun hno heq => by
      rw [heq]
      rcases ih with ⟨hr, hnone⟩ | ⟨found, hr, s, hs, hm, hgreat⟩
      · refine .inl ⟨hr, fun s hs found => ?_⟩
        rcases List.mem_cons.mp hs with rfl | hs
        · exact hno found
        · exact hnone s hs found
      · refine .inr ⟨found, hr, s, List.mem_cons_of_mem _ hs, hm, fun s' hs' found' hm' hne => ?_⟩
        rcases List.mem_cons.mp hs' with rfl | hs'
        · exact absurd hm' (hno found')
        · exact hgreat s' hs' found' hm' hne
    by_cases hlow : sym.scope < stop
    · refine .inl ⟨by rw [lookupFrom, if_pos hlow], fun s hs found hm => ?_⟩
      rcases List.mem_cons.mp hs with rfl | hs
      · exact absurd hm.1 (by omega)
      · have hb := hbelow s hs
        have := hm.1
        unfold Below at hb
        omega
    · by_cases hhigh : start < sym.scope
      · exact hskip (fun found hm => absurd hm.2.1 (by omega))
          (by rw [lookupFrom, if_neg hlow, if_pos hhigh])
      · obtain ⟨found, hfound⟩ := hf sym (List.mem_cons_self ..)
        have hrec : lookupFrom t start stop id ss (sym :: next) =
            if found.id = id ∧ has found.ss ss = true then some (some found)
            else lookupFrom t start stop id ss next := by
          rw [lookupFrom, if_neg hlow, if_neg hhigh, hfound]
        by_cases hm : found.id = id ∧ has found.ss ss = true
        · refine .inr ⟨found, by rw [hrec, if_pos hm], sym, List.mem_cons_self ..,
            ⟨by omega, by omega, hfound, hm⟩, fun s' hs' _ _ hne => ?_⟩
          exact hbelow s' ((List.mem_cons.mp hs').resolve_left hne)
        · refine hskip (fun found' hm' => ?_) (by rw [hrec, if_neg hm])
          obtain rfl := Option.some.inj (hfound.symm.trans hm'.2.2.1)
          exact hm hm'.2.2.2

/-- Every symbol of the table leads to one of its name. -/
theorem Table.Ok.follow_eq (h : t.Ok hash) {i : Nat} {s : Symbol Ident} (hs : s ∈ t.buckets i) :
    ∃ found, follow t s = some found ∧ found.id = s.id := by
  unfold follow
  split
  · next hr =>
    obtain ⟨g, hg, hnum, hid, -⟩ := h.redirects i s hs hr
    exact ⟨g, by rw [← hnum, h.deref_eq hg], hid⟩
  · exact ⟨s, rfl, rfl⟩

/-- What is visible is in the bucket of the name. -/
theorem Table.Ok.visible_iff (h : t.Ok hash) {sym found : Symbol Ident} :
    Visible t start stop id ss sym found ↔
      sym ∈ t.buckets (bucket hash id) ∧ Matches t start stop id ss sym found := by
  constructor
  · rintro ⟨hs, hstop, hstart, hfollow, hid, hss⟩
    have hmem := h.mem_symbols.mp hs
    obtain ⟨found', hf, hfid⟩ := h.follow_eq hmem
    obtain rfl := Option.some.inj (hfollow.symm.trans hf)
    refine ⟨?_, hstop, hstart, hfollow, hid, hss⟩
    rwa [← hid, hfid]
  · rintro ⟨hs, hm⟩
    refine ⟨?_, hm⟩
    rw [h.mem_symbols, h.named _ sym hs]
    exact hs

/-- In every table the parser makes, each bucket is sorted, the highest scope first, and a lookup
    finds the innermost symbol and, in its scope, the one that was inserted last. -/
theorem symbolLookup_innermost [DecidableEq Ident] (h : Reachable hash t) (start stop : Nat) (id : Option Ident)
    (ss : StorageClass) :
    (∀ i, (t.buckets i).Pairwise fun a b => b.scope ≤ a.scope) ∧
      ∃ r, symbolLookup hash t start stop id ss = some r ∧ Innermost t start stop id ss r := by
  have hok := h.ok
  refine ⟨fun i => (hok.layered i).imp fun hb => ?_, ?_⟩
  · unfold Below at hb
    omega
  · have hf : ∀ s ∈ t.buckets (bucket hash id), ∃ found, follow t s = some found := fun s hs => by
      obtain ⟨found, hf, -⟩ := hok.follow_eq hs
      exact ⟨found, hf⟩
    rcases lookupFrom_spec t start stop id ss
      (hok.layered (bucket hash id)) hf with ⟨hr, hnone⟩ | ⟨found, hr, s, hs, hm, hgreat⟩
    · refine ⟨none, hr, fun sym found hv => ?_⟩
      obtain ⟨hs, hm⟩ := hok.visible_iff.mp hv
      exact hnone sym hs found hm
    · refine ⟨some found, hr, s, hok.visible_iff.mpr ⟨hs, hm⟩, fun s' found' hv hne => ?_⟩
      obtain ⟨hs', hm'⟩ := hok.visible_iff.mp hv
      exact hgreat s' hs' found' hm' hne

end

/-- `int x; { extern int x; ... x }`: a local, and inside it a redirect to a lurker. -/
def localExtern : Table Nat :=
  [Op.enter, .insert (some 7) sLocal scopeLocal, .enter, .insert (some 7) 0x20 scopeLurker,
    .redirect 2].foldl (fun t op => op.perform id t) {}

theorem reachable_localExtern : Reachable id localExtern :=
  @Reachable.step _ _ _ (.redirect 2) (@Reachable.step _ _ _ (.insert (some 7) 0x20 scopeLurker)
    (@Reachable.step _ _ _ .enter (@Reachable.step _ _ _ (.insert (some 7) sLocal scopeLocal)
      (@Reachable.step _ _ _ .enter .start nofun) rfl) nofun) rfl)
    ⟨{ num := 2, id := some 7, ss := 0x20, scope := scopeLurker, stamp := 1 }, by decide, by decide,
      .inl rfl⟩

/-- The lookup of `x` finds the lurker. -/
theorem symbolLookup_localExtern :
    (symbolLookup id localExtern localExtern.current scopeGlobal (some 7) 0x3F8).map
        (·.map Symbol.num) = some (some 2) ∧
      ∃ r, symbolLookup id localExtern localExtern.current scopeGlobal (some 7) 0x3F8 = some r ∧
        Innermost localExtern localExtern.current scopeGlobal (some 7) 0x3F8 r :=
  ⟨by decide, (symbolLookup_innermost reachable_localExtern _ _ _ _).2⟩

end Ncc.Lookup
