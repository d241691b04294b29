import Mathlib

/-! The symbol table and its scopes (symbol.c, symbol.h).

    Every symbol has a scope level, and the chain of symbols is kept sorted, the highest level
    first, so that a walk over one level can stop at the first lower one. The hash buckets, which
    only speed up the search, are left out: inserting and walking do the same to each bucket's part
    of the chain. Beside the block levels there are levels for the symbols of closed scopes. -/

namespace Ncc.Scope

/-- SCOPE_KEEP. -/
def scopeKeep : Nat := 0

/-- SCOPE_LURKER. -/
def scopeLurker : Nat := scopeKeep + 1

/-- SCOPE_GLOBAL. -/
def scopeGlobal : Nat := scopeLurker + 1

/-- SCOPE_LOCAL. -/
def scopeLocal : Nat := scopeGlobal + 1

/-- SCOPE_MAX. -/
def scopeMax : Nat := 1000

/-- SCOPE_LABEL. -/
def scopeLabel : Nat := scopeMax + 1

/-- SCOPE_RETIRED. -/
def scopeRetired : Nat := scopeLabel + 1

/-- SCOPE_CONDEMNED. -/
def scopeCondemned : Nat := scopeLabel + 1

/-- The base storage classes (S_BASE_MASK) and S_REDIRECT. -/
inductive StorageClass where
  | struct | union | enum | typedef | static | external | auto | register | local_ | const | member
  | label | redirect
  deriving DecidableEq, Repr

/-- S_TAG. -/
def StorageClass.isTag : StorageClass → Bool
  | .struct | .union | .enum => true
  | _ => false

/-- `struct symbol`, as far as the scopes go; PSEUDO_REG_NONE is `none`. -/
structure Symbol where
  num : Nat
  ss : StorageClass
  scope : Nat
  reg : Option Nat := none
  deriving DecidableEq, Repr

/-- The loop of `symbol_insert`. -/
def insertInto (sym : Symbol) : List Symbol → List Symbol
  | [] => [sym]
  | p :: l => if p.scope ≤ sym.scope then sym :: p :: l else p :: insertInto sym l

/-- SCOPE_WALK_ALL over one level, from THIS on: the chain before THIS, and THIS with what follows.
    The action removes THIS and may insert it again; the walk goes on at what NEXT was before that.
    The fuel is the length of the chain. -/
def walkFrom (level : Nat) (action : Symbol → Option Symbol) :
    Nat → List Symbol → List Symbol → List Symbol
  | 0, done, rest => done ++ rest
  | _ + 1, done, [] => done
  | fuel + 1, done, this :: next =>
    if this.scope < level then done ++ this :: next
    else if level < this.scope then walkFrom level action fuel (done ++ [this]) next
    else
      match action this with
      | none => walkFrom level action fuel done next
      | some sym =>
        if done.any (·.scope ≤ sym.scope) || next.head?.all (·.scope ≤ sym.scope) then
          walkFrom level action fuel (insertInto sym done) next
        else walkFrom level action fuel done (insertInto sym next)

/-- SCOPE_WALK_ALL over one level; the action removes the symbol and may insert it again. -/
def scopeWalk (level : Nat) (action : Symbol → Option Symbol) (chain : List Symbol) : List Symbol :=
  walkFrom level action chain.length [] chain

/-- The symbol table: the chain, `current_scope`, the register buckets as pairs of a register and
    the number of its symbol, and the last number given out. -/
structure Scopes where
  chain : List Symbol := []
  current : Nat := scopeGlobal
  regs : List (Nat × Nat) := []
  lastNum : Nat := 0
  deriving DecidableEq, Repr

/-- `symbol_new` and `symbol_insert`. -/
def symbolInsert (s : Scopes) (ss : StorageClass) (scope : Nat) : Scopes :=
  { s with chain := insertInto { num := s.lastNum + 1, ss := ss, scope := scope } s.chain,
           lastNum := s.lastNum + 1 }

/-- `sym->reg = reg` for the symbol of the given number. -/
def assignReg (num reg : Nat) (sym : Symbol) : Symbol :=
  if sym.num = num then { sym with reg := some reg } else sym

/-- The test of `symbol_reg`: the symbol has no register yet. -/
def needsReg (s : Scopes) (num : Nat) : Bool :=
  s.chain.any fun sym => sym.num == num && sym.reg.isNone

/-- `symbol_reg`, with the register that the target assigns. -/
def symbolReg (s : Scopes) (num reg : Nat) : Scopes :=
  if needsReg s num then
    { s with chain := s.chain.map (assignReg num reg), regs := (reg, num) :: s.regs }
  else s

/-- `reg_symbol`: the number of the symbol. -/
def regSymbol (s : Scopes) (reg : Nat) : Option Nat := (s.regs.find? (·.1 == reg)).map Prod.snd

/-- `scope_enter`; at SCOPE_MAX it is a fatal error. -/
def scopeEnter (s : Scopes) : Option Scopes :=
  if s.current = scopeMax then none else some { s with current := s.current + 1 }

/-- The action of `scope_clear`: a tag is retained at SCOPE_KEEP, another symbol is freed. -/
def clearSymbol (sym : Symbol) : Option Symbol :=
  if sym.ss.isTag then some { sym with scope := scopeKeep } else none

/-- `scope_clear`. `symbol_free` takes a symbol with a register out of the register buckets. -/
def scopeClear (s : Scopes) (level : Nat) : Scopes :=
  { s with chain := scopeWalk level clearSymbol s.chain,
           regs := s.regs.filter fun e =>
             !s.chain.any fun sym => sym.scope == level && !sym.ss.isTag && sym.num == e.2 }

/-- `scope_move`. -/
def scopeMove (s : Scopes) (source dest : Nat) : Scopes :=
  { s with chain := scopeWalk source (fun sym => some { sym with scope := dest }) s.chain }

/-- The action of `scope_exit`: S_LOCAL is promoted to S_REGISTER. -/
def retire (sym : Symbol) : Symbol :=
  { sym with ss := if sym.ss = .local_ then .register else sym.ss, scope := scopeRetired }

/-- `scope_exit`. -/
def scopeExit (s : Scopes) : Scopes :=
  { s with chain := scopeWalk s.current (fun sym => some (retire sym)) s.chain,
           current := s.current - 1 }

/-- `scope_end_func`. -/
def scopeEndFunc (s : Scopes) : Scopes := scopeClear (scopeClear s scopeRetired) scopeLabel

/-- `scope_exit_proto`. -/
def scopeExitProto (s : Scopes) : Scopes :=
  let s := scopeMove (scopeClear s scopeCondemned) s.current scopeCondemned
  { s with current := s.current - 1 }

/-- `scope_resurrect`. -/
def scopeResurrect (s : Scopes) : Scopes := scopeMove s scopeCondemned s.current

/-! ### The walk -/

/-- The order of the chain. -/
def Sorted (l : List Symbol) : Prop := l.Pairwise fun a b => b.scope ≤ a.scope

theorem insertInto_perm (sym : Symbol) : ∀ l, (insertInto sym l).Perm (sym :: l)
  | [] => .refl _
  | p :: l => by
    rw [insertInto]
    split
    · exact .refl _
    · exact ((insertInto_perm sym l).cons p).trans (.swap sym p l)

theorem sorted_insertInto (sym : Symbol) : ∀ {l}, Sorted l → Sorted (insertInto sym l)
  | [], _ => List.pairwise_singleton _ _
  | p :: l, h => by
    rw [insertInto]
    obtain ⟨hp, hl⟩ := List.pairwise_cons.mp h
    split
    · next hle =>
      refine List.pairwise_cons.mpr ⟨fun q hq => ?_, h⟩
      obtain rfl | hq := List.mem_cons.mp hq
      · exact hle
      · exact (hp q hq).trans hle
    · next hlt =>
      refine List.pairwise_cons.mpr ⟨fun q hq => ?_, sorted_insertInto sym hl⟩
      obtain rfl | hq := List.mem_cons.mp ((insertInto_perm sym l).mem_iff.mp hq)
      · omega
      · exact hp q hq

/-- Inserting before the boundary of a split chain. -/
theorem insertInto_left (sym : Symbol) : ∀ {done next : List Symbol},
    (done.any (·.scope ≤ sym.scope) || next.head?.all (·.scope ≤ sym.scope)) = true →
    insertInto sym (done ++ next) = insertInto sym done ++ next
  | [], [], _ => rfl
  | [], n :: next, h => by
    have : n.scope ≤ sym.scope := by simpa using h
    simp [insertInto, this]
  | p :: done, next, h => by
    rw [List.cons_append, insertInto, insertInto]
    split
    · rfl
    · next hp =>
      rw [List.cons_append, insertInto_left sym (by simpa [hp] using h)]

/-- Inserting after the boundary of a split chain. -/
theorem insertInto_right (sym : Symbol) : ∀ {done next : List Symbol},
    done.any (·.scope ≤ sym.scope) = false →
    insertInto sym (done ++ next) = done ++ insertInto sym next
  | [], _, _ => rfl
  | p :: done, next, h => by
    have hp : ¬ p.scope ≤ sym.scope := by
      intro hp
      simp [hp] at h
    rw [List.cons_append, insertInto, if_neg hp, insertInto_right sym (by simpa [hp] using h)]
    rfl

/-- What a walk does to one symbol. -/
def walked (level : Nat) (action : Symbol → Option Symbol) (sym : Symbol) : Option Symbol :=
  if sym.scope = level then action sym else some sym

theorem filterMap_walked {level : Nat} {action : Symbol → Option Symbol} :
    ∀ {l : List Symbol}, (∀ s ∈ l, s.scope ≠ level) → l.filterMap (walked level action) = l
  | [], _ => rfl
  | s :: l, h => by
    have hs : walked level action s = some s := if_neg (h s (List.mem_cons_self ..))
    rw [List.filterMap_cons_some hs, filterMap_walked fun s hs => h s (List.mem_cons_of_mem _ hs)]

/-- A walk from a boundary acts on exactly the symbols of its level that follow, and keeps the chain
    sorted. -/
theorem walkFrom_spec {level : Nat} {action : Symbol → Option Symbol}
    (hact : ∀ s s', action s = some s' → s'.scope ≠ level) :
    ∀ (fuel : Nat) (done rest : List Symbol), Sorted (done ++ rest) →
      rest.countP (level ≤ ·.scope) ≤ fuel →
      (walkFrom level action fuel done rest).Perm
        (done ++ rest.filterMap (walked level action)) ∧
      Sorted (walkFrom level action fuel done rest)
  | 0, done, rest, hs, hn => by
    have hlow : ∀ s ∈ rest, s.scope ≠ level := by
      intro s hs he
      have : 0 < rest.countP (level ≤ ·.scope) := List.countP_pos_iff.mpr ⟨s, hs, by simp [he]⟩
      omega
    rw [walkFrom, filterMap_walked hlow]
    exact ⟨.refl _, hs⟩
  | fuel + 1, done, [], hs, _ => by
    rw [walkFrom]
    exact ⟨by simp, by simpa using hs⟩
  | fuel + 1, done, this :: next, hs, hn => by
    have hthis : ∀ s ∈ next, s.scope ≤ this.scope := fun s hsn =>
      (List.pairwise_cons.mp (List.pairwise_append.mp hs).2.1).1 s hsn
    rw [walkFrom]
    split
    · next hlt =>
      rw [filterMap_walked fun s hsn => ?_]
      · exact ⟨.refl _, hs⟩
      · obtain rfl | hsn := List.mem_cons.mp hsn
        · omega
        · have := hthis s hsn
          omega
    · next hge =>
      rw [List.countP_cons_of_pos (by simpa using hge)] at hn
      have hdone : Sorted (done ++ next) :=
        hs.sublist ((List.Sublist.refl done).append (List.sublist_cons_self this next))
      split
      · next hgt =>
        have hw : walked level action this = some this := if_neg (by omega)
        have hstep := walkFrom_spec hact fuel (done ++ [this]) next (by simpa using hs) (by omega)
        rw [List.filterMap_cons_some hw]
        simpa using hstep
      · next hle =>
        have hw : walked level action this = action this := if_pos (by omega)
        split
        · next hnone =>
          rw [List.filterMap_cons_none (hw.trans hnone)]
          exact walkFrom_spec hact fuel done next hdone (by omega)
        · next sym hsome =>
          rw [List.filterMap_cons_some (hw.trans hsome)]
          have hsorted := sorted_insertInto sym hdone
          split
          · next hleft =>
            rw [insertInto_left sym hleft] at hsorted
            have hstep := walkFrom_spec hact fuel _ next hsorted (by omega)
            refine ⟨hstep.1.trans ?_, hstep.2⟩
            exact ((insertInto_perm sym done).append_right _).trans List.perm_middle.symm
          · next hright =>
            rw [Bool.or_eq_true, not_or, Bool.not_eq_true, Bool.not_eq_true] at hright
            rw [insertInto_right sym hright.1] at hsorted
            -- the symbol is lower than NEXT, so the walk stops before it gets there
            have hlow : sym.scope < level := by
              cases next with
              | nil => simp at hright
              | cons n next =>
                have hn := hthis n (List.mem_cons_self ..)
                have hns : ¬ n.scope ≤ sym.scope := of_decide_eq_false hright.2
                omega
            have hperm := insertInto_perm sym next
            have hcount : (insertInto sym next).countP (level ≤ ·.scope) ≤ fuel := by
              rw [hperm.countP_eq, List.countP_cons_of_neg (by simpa using hlow)]
              omega
            have hstep := walkFrom_spec hact fuel done _ hsorted hcount
            refine ⟨hstep.1.trans (List.Perm.append_left done ?_), hstep.2⟩
            have hsym : walked level action sym = some sym := if_neg (by omega)
            have := hperm.filterMap (walked level action)
            rwa [List.filterMap_cons_some hsym] at this

theorem scopeWalk_perm {level : Nat} {action : Symbol → Option Symbol} {chain : List Symbol}
    (hact : ∀ s s', action s = some s' → s'.scope ≠ level) (hs : Sorted chain) :
    (scopeWalk level action chain).Perm (chain.filterMap (walked level action)) :=
  (walkFrom_spec hact chain.length [] chain hs List.countP_le_length).1

theorem sorted_scopeWalk {level : Nat} {action : Symbol → Option Symbol} {chain : List Symbol}
    (hact : ∀ s s', action s = some s' → s'.scope ≠ level) (hs : Sorted chain) :
    Sorted (scopeWalk level action chain) :=
  (walkFrom_spec hact chain.length [] chain hs List.countP_le_length).2

end Ncc.Scope
