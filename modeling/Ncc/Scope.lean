import Ncc.Symbol

/-! The life of symbols after their scope (symbol.c).

    A symbol of a block scope that is closed is retired until the end of the function, since the
    IR still mentions its register; a symbol of a prototype scope is condemned until the next
    prototype, in case a definition follows. The two levels are one number: SCOPE_CONDEMNED was
    meant to be above SCOPE_RETIRED. A run is followed together with the symbols that were retired and condemned, and
    the two stay apart as long as no prototype scope is left while a symbol is retired. -/

namespace Ncc.Scope

/-! ### The table -/

/-- The invariant of the symbol table between operations. -/
structure Scopes.Ok (s : Scopes) : Prop where
  sorted : Sorted s.chain
  nodup : (s.chain.map Symbol.num).Nodup
  old : ∀ sym ∈ s.chain, sym.num ≤ s.lastNum
  current_ge : scopeGlobal ≤ s.current
  current_le : s.current ≤ scopeMax
  levels : ∀ sym ∈ s.chain,
    sym.scope ≤ s.current ∨ sym.scope = scopeLabel ∨ sym.scope = scopeRetired
  tags : ∀ sym ∈ s.chain, sym.ss.isTag = true → sym.reg = none
  regs : ∀ e ∈ s.regs, ∃ sym ∈ s.chain, sym.num = e.2 ∧ sym.reg = some e.1
  keys : (s.regs.map Prod.fst).Nodup

section
variable {s : Scopes}

theorem Scopes.Ok.eq (h : s.Ok) {a b : Symbol} (ha : a ∈ s.chain) (hb : b ∈ s.chain)
    (hn : a.num = b.num) : a = b := List.inj_on_of_nodup_map h.nodup ha hb hn

theorem ok_start : ({} : Scopes).Ok where
  sorted := List.Pairwise.nil
  nodup := List.nodup_nil
  old := by simp
  current_ge := Nat.le_refl _
  current_le := by decide
  levels := by simp
  tags := by simp
  regs := by simp
  keys := List.nodup_nil

theorem regSymbol_of_mem (h : s.Ok) {r n : Nat} (hm : (r, n) ∈ s.regs) :
    regSymbol s r = some n := by
  obtain ⟨e, he⟩ : ∃ e, s.regs.find? (·.1 == r) = some e :=
    Option.isSome_iff_exists.mp (List.find?_isSome.mpr ⟨_, hm, by simp⟩)
  have hr : e.1 = r := by simpa using List.find?_some he
  have : e = (r, n) := List.inj_on_of_nodup_map h.keys (List.mem_of_find?_eq_some he) hm hr
  rw [regSymbol, he, this]
  rfl

theorem map_num_sublist {f : Symbol → Option Symbol}
    (hf : ∀ a b, f a = some b → b.num = a.num) :
    ∀ l : List Symbol, ((l.filterMap f).map Symbol.num).Sublist (l.map Symbol.num)
  | [] => .refl _
  | a :: l => by
    cases ha : f a with
    | none =>
      rw [List.filterMap_cons_none ha]
      exact (map_num_sublist hf l).cons _
    | some b =>
      rw [List.filterMap_cons_some ha, List.map_cons, List.map_cons, hf a b ha]
      exact (map_num_sublist hf l).cons_cons _

theorem nodup_walked {level : Nat} {action : Symbol → Option Symbol} (h : s.Ok)
    (hact : ∀ a b, action a = some b → b.scope ≠ level)
    (hnum : ∀ a b, action a = some b → b.num = a.num) :
    ((scopeWalk level action s.chain).map Symbol.num).Nodup := by
  refine ((scopeWalk_perm hact h.sorted).map _).nodup_iff.mpr (h.nodup.sublist ?_)
  refine map_num_sublist (fun a b hab => ?_) _
  rw [walked] at hab
  split at hab
  · exact hnum a b hab
  · cases hab; rfl

theorem mem_scopeWalk {level : Nat} {action : Symbol → Option Symbol} {chain : List Symbol}
    (hact : ∀ a b, action a = some b → b.scope ≠ level) (hs : Sorted chain) {x : Symbol} :
    x ∈ scopeWalk level action chain ↔
      (x ∈ chain ∧ x.scope ≠ level) ∨ ∃ t ∈ chain, t.scope = level ∧ action t = some x := by
  rw [(scopeWalk_perm hact hs).mem_iff, List.mem_filterMap]
  constructor
  · rintro ⟨t, ht, hw⟩
    rw [walked] at hw
    split at hw
    · next hl => exact .inr ⟨t, ht, hl, hw⟩
    · next hl => cases hw; exact .inl ⟨ht, hl⟩
  · rintro (⟨hx, hl⟩ | ⟨t, ht, hl, hw⟩)
    · exact ⟨x, hx, if_neg hl⟩
    · exact ⟨t, ht, (if_pos hl).trans hw⟩

theorem clearSymbol_some {a b : Symbol} (h : clearSymbol a = some b) :
    a.ss.isTag = true ∧ b = { a with scope := scopeKeep } := by
  rw [clearSymbol] at h
  split at h
  · next ht => cases h; exact ⟨ht, rfl⟩
  · cases h

/-- Clearing a scope leaves the other scopes, and the tags at SCOPE_KEEP. -/
theorem mem_scopeClear {level : Nat} (h : s.Ok) (hl : level ≠ scopeKeep) {x : Symbol} :
    x ∈ (scopeClear s level).chain ↔ (x ∈ s.chain ∧ x.scope ≠ level) ∨
      ∃ t ∈ s.chain, t.scope = level ∧ t.ss.isTag = true ∧ x = { t with scope := scopeKeep } := by
  have hact : ∀ a b, clearSymbol a = some b → b.scope ≠ level := by
    intro a b hab
    rw [(clearSymbol_some hab).2]
    exact hl.symm
  rw [scopeClear, mem_scopeWalk hact h.sorted]
  refine or_congr_right (exists_congr fun t => and_congr_right fun _ => and_congr_right fun _ => ?_)
  constructor
  · exact clearSymbol_some
  · rintro ⟨ht, rfl⟩
    exact if_pos ht

/-- Moving a scope changes the level of its symbols. -/
theorem mem_scopeMove {source dest : Nat} (h : s.Ok) (hne : dest ≠ source) {x : Symbol} :
    x ∈ (scopeMove s source dest).chain ↔ (x ∈ s.chain ∧ x.scope ≠ source) ∨
      ∃ t ∈ s.chain, t.scope = source ∧ x = { t with scope := dest } := by
  have hact : ∀ a b : Symbol, some { a with scope := dest } = some b → b.scope ≠ source := by
    intro a b hab
    cases hab
    exact hne
  rw [scopeMove, mem_scopeWalk hact h.sorted]
  refine or_congr_right (exists_congr fun t => and_congr_right fun _ => and_congr_right fun _ => ?_)
  exact ⟨fun hx => (Option.some.inj hx).symm, fun hx => congrArg some hx.symm⟩

theorem ok_enter {s' : Scopes} (h : s.Ok) (he : scopeEnter s = some s') : s'.Ok := by
  rw [scopeEnter] at he
  split at he
  · cases he
  · next hmax =>
    cases he
    have := h.current_le
    exact { h with
      current_ge := Nat.le_succ_of_le h.current_ge
      current_le := by change s.current + 1 ≤ scopeMax; omega
      levels := fun sym hs => (h.levels sym hs).imp_left Nat.le_succ_of_le }

theorem ok_insert (h : s.Ok) (ss : StorageClass) {scope : Nat}
    (hl : scope ≤ s.current ∨ scope = scopeLabel ∨ scope = scopeRetired) :
    (symbolInsert s ss scope).Ok := by
  have hperm := insertInto_perm { num := s.lastNum + 1, ss := ss, scope := scope } s.chain
  refine { h with
    sorted := sorted_insertInto _ h.sorted
    nodup := ?_, old := ?_, levels := ?_, tags := ?_, regs := ?_ }
  · refine (hperm.map _).nodup_iff.mpr (List.nodup_cons.mpr ⟨fun hm => ?_, h.nodup⟩)
    obtain ⟨sym, hs, hn⟩ := List.mem_map.mp hm
    have := h.old sym hs
    rw [hn] at this
    exact Nat.not_succ_le_self _ this
  · intro sym hs
    obtain rfl | hs := List.mem_cons.mp (hperm.mem_iff.mp hs)
    · exact Nat.le_refl _
    · exact Nat.le_succ_of_le (h.old sym hs)
  · intro sym hs
    obtain rfl | hs := List.mem_cons.mp (hperm.mem_iff.mp hs)
    · exact hl
    · exact h.levels sym hs
  · intro sym hs ht
    obtain rfl | hs := List.mem_cons.mp (hperm.mem_iff.mp hs)
    · rfl
    · exact h.tags sym hs ht
  · intro e he
    obtain ⟨sym, hs, hn⟩ := h.regs e he
    exact ⟨sym, hperm.mem_iff.mpr (List.mem_cons_of_mem _ hs), hn⟩

theorem needsReg_iff (num : Nat) :
    needsReg s num = true ↔ ∃ sym ∈ s.chain, sym.num = num ∧ sym.reg = none := by
  simp [needsReg]

theorem ok_reg (h : s.Ok) {num reg : Nat} (hr : ∀ e ∈ s.regs, e.1 ≠ reg)
    (ht : ∀ sym ∈ s.chain, sym.num = num → sym.ss.isTag = false) : (symbolReg s num reg).Ok := by
  rw [symbolReg]
  split
  · next hn =>
    obtain ⟨sym₀, hs₀, hnum₀, hnone⟩ := (needsReg_iff num).mp hn
    have hscope : ∀ sym, (assignReg num reg sym).scope = sym.scope := by
      intro sym
      rw [assignReg]
      split <;> rfl
    have hnum : ∀ sym, (assignReg num reg sym).num = sym.num := by
      intro sym
      rw [assignReg]
      split <;> rfl
    refine { h with
      sorted := ?_, nodup := ?_, old := ?_, levels := ?_, tags := ?_, regs := ?_, keys := ?_ }
    · refine List.pairwise_map.mpr (h.sorted.imp fun {a b} hab => ?_)
      rwa [hscope, hscope]
    · rw [List.map_map]
      have : Symbol.num ∘ assignReg num reg = Symbol.num := funext hnum
      rw [this]
      exact h.nodup
    · intro sym hs
      obtain ⟨t, ht', rfl⟩ := List.mem_map.mp hs
      rw [hnum]
      exact h.old t ht'
    · intro sym hs
      obtain ⟨t, ht', rfl⟩ := List.mem_map.mp hs
      rw [hscope]
      exact h.levels t ht'
    · intro sym hs htag
      obtain ⟨t, ht', rfl⟩ := List.mem_map.mp hs
      rw [assignReg] at htag ⊢
      split at htag
      · next he => exact absurd htag (by rw [ht t ht' he]; decide)
      · next he => rw [if_neg he]; exact h.tags t ht' htag
    · intro e he
      obtain rfl | he := List.mem_cons.mp he
      · exact ⟨_, List.mem_map_of_mem hs₀, (hnum _).trans hnum₀, by rw [assignReg, if_pos hnum₀]⟩
      · obtain ⟨t, ht', htn, htr⟩ := h.regs e he
        refine ⟨_, List.mem_map_of_mem ht', (hnum _).trans htn, ?_⟩
        rw [assignReg, if_neg, htr]
        intro hnt
        rw [h.eq ht' hs₀ (hnt.trans hnum₀.symm), hnone] at htr
        cases htr
    · exact List.nodup_cons.mpr ⟨fun hm => by
        obtain ⟨e, he, hre⟩ := List.mem_map.mp hm
        exact hr e he hre, h.keys⟩
  · exact h

/-- Clearing a level that is not a scope still open. -/
theorem ok_clear (h : s.Ok) {level : Nat} (hl : level ≠ scopeKeep) : (scopeClear s level).Ok := by
  have hact : ∀ a b, clearSymbol a = some b → b.scope ≠ level := by
    intro a b hab
    rw [(clearSymbol_some hab).2]
    exact hl.symm
  refine { h with
    sorted := sorted_scopeWalk hact h.sorted
    nodup := nodup_walked h hact fun a b hab => by rw [(clearSymbol_some hab).2]
    old := ?_, levels := ?_, tags := ?_, regs := ?_, keys := ?_ }
  · intro x hx
    obtain ⟨hx, -⟩ | ⟨t, ht, -, -, rfl⟩ := (mem_scopeClear h hl).mp hx
    · exact h.old x hx
    · exact h.old t ht
  · intro x hx
    obtain ⟨hx, -⟩ | ⟨t, ht, -, -, rfl⟩ := (mem_scopeClear h hl).mp hx
    · exact h.levels x hx
    · exact .inl (Nat.zero_le _)
  · intro x hx hxt
    obtain ⟨hx, -⟩ | ⟨t, ht, -, -, rfl⟩ := (mem_scopeClear h hl).mp hx
    · exact h.tags x hx hxt
    · exact h.tags t ht hxt
  · intro e he
    obtain ⟨he, hfree⟩ := List.mem_filter.mp he
    obtain ⟨sym, hs, hn, hr⟩ := h.regs e he
    refine ⟨sym, (mem_scopeClear h hl).mpr (.inl ⟨hs, fun hlev => ?_⟩), hn, hr⟩
    have htag : sym.ss.isTag = false := by
      cases ht : sym.ss.isTag with
      | false => rfl
      | true => rw [h.tags sym hs ht] at hr; cases hr
    rw [Bool.not_eq_true', List.any_eq_false] at hfree
    exact hfree sym hs (by simp [hlev, htag, hn])
  · exact h.keys.sublist (List.filter_sublist.map _)

/-- Moving a scope, whatever else changes in the symbols but their number and register. -/
theorem ok_walk (h : s.Ok) {source dest c : Nat} {f : Symbol → Symbol} (hne : dest ≠ source)
    (hf : ∀ a, (f a).num = a.num ∧ (f a).ss.isTag = a.ss.isTag ∧ (f a).reg = a.reg ∧
      (f a).scope = dest)
    (hge : scopeGlobal ≤ c) (hle : c ≤ scopeMax)
    (hd : dest ≤ c ∨ dest = scopeLabel ∨ dest = scopeRetired)
    (hl : ∀ sym ∈ s.chain, sym.scope ≠ source →
      sym.scope ≤ c ∨ sym.scope = scopeLabel ∨ sym.scope = scopeRetired) :
    ({ s with chain := scopeWalk source (fun a => some (f a)) s.chain, current := c } :
      Scopes).Ok := by
  have hact : ∀ a b, some (f a) = some b → b.scope ≠ source := by
    intro a b hab
    cases hab
    rw [(hf a).2.2.2]
    exact hne
  have hmem : ∀ {x}, x ∈ scopeWalk source (fun a => some (f a)) s.chain ↔
      (x ∈ s.chain ∧ x.scope ≠ source) ∨ ∃ t ∈ s.chain, t.scope = source ∧ some (f t) = some x :=
    mem_scopeWalk hact h.sorted
  refine { h with
    sorted := sorted_scopeWalk hact h.sorted
    nodup := nodup_walked h hact fun a b hab => by cases hab; exact (hf a).1
    old := ?_, current_ge := hge, current_le := hle, levels := ?_, tags := ?_, regs := ?_ }
  · intro x hx
    obtain ⟨hx, -⟩ | ⟨t, ht, -, hft⟩ := hmem.mp hx
    · exact h.old x hx
    · cases hft
      rw [(hf t).1]
      exact h.old t ht
  · intro x hx
    obtain ⟨hx, hxs⟩ | ⟨t, ht, -, hft⟩ := hmem.mp hx
    · exact hl x hx hxs
    · cases hft
      rw [(hf t).2.2.2]
      exact hd
  · intro x hx hxt
    obtain ⟨hx, -⟩ | ⟨t, ht, -, hft⟩ := hmem.mp hx
    · exact h.tags x hx hxt
    · cases hft
      rw [(hf t).2.1] at hxt
      rw [(hf t).2.2.1]
      exact h.tags t ht hxt
  · intro e he
    obtain ⟨sym, hs, hn, hr⟩ := h.regs e he
    by_cases hsc : sym.scope = source
    · exact ⟨f sym, hmem.mpr (.inr ⟨sym, hs, hsc, rfl⟩), (hf sym).1.trans hn,
        (hf sym).2.2.1.trans hr⟩
    · exact ⟨sym, hmem.mpr (.inl ⟨hs, hsc⟩), hn, hr⟩

/-- The symbols of a scope that is left are at none of the levels that stay. -/
theorem levels_left (h : s.Ok) : ∀ sym ∈ s.chain, sym.scope ≠ s.current →
    sym.scope ≤ s.current - 1 ∨ sym.scope = scopeLabel ∨ sym.scope = scopeRetired := by
  intro sym hs hne
  refine (h.levels sym hs).imp_left fun hle => ?_
  omega

theorem current_ne_retired (h : s.Ok) : s.current ≠ scopeRetired := by
  have := h.current_le
  simp only [scopeRetired, scopeLabel]
  omega

theorem current_ne_keep (h : s.Ok) : s.current ≠ scopeKeep := by
  have := h.current_ge
  simp only [scopeGlobal, scopeLurker, scopeKeep] at *
  omega

theorem ok_exit (h : s.Ok) (hc : scopeLocal ≤ s.current) : (scopeExit s).Ok := by
  have htag : ∀ a, (retire a).ss.isTag = a.ss.isTag := by
    intro a
    rw [retire]
    split
    · next hl => rw [hl]; rfl
    · rfl
  exact ok_walk h (current_ne_retired h).symm (fun a => ⟨rfl, htag a, rfl, rfl⟩)
    (Nat.le_sub_one_of_lt hc) ((Nat.sub_le _ _).trans h.current_le) (.inr (.inr rfl))
    (levels_left h)

theorem ok_exitProto (h : s.Ok) (hc : scopeLocal ≤ s.current) : (scopeExitProto s).Ok := by
  have h' : (scopeClear s scopeCondemned).Ok := ok_clear h (by decide)
  exact ok_walk h' (current_ne_retired h).symm (fun _ => ⟨rfl, rfl, rfl, rfl⟩)
    (Nat.le_sub_one_of_lt hc) ((Nat.sub_le _ _).trans h.current_le) (.inr (.inr rfl))
    (levels_left h')

theorem ok_resurrect (h : s.Ok) : (scopeResurrect s).Ok :=
  ok_walk h (current_ne_retired h) (fun _ => ⟨rfl, rfl, rfl, rfl⟩) h.current_ge h.current_le
    (.inl (Nat.le_refl _)) fun sym hs _ => h.levels sym hs

theorem ok_endFunc (h : s.Ok) : (scopeEndFunc s).Ok :=
  ok_clear (ok_clear h (by decide)) (by decide)

end

/-! ### Runs of the parser -/

/-- An operation of the parser on the scopes. -/
inductive Op where
  | enter
  | insert (ss : StorageClass) (scope : Nat)
  | reg (num reg : Nat)
  | exit
  | exitProto
  | resurrect
  | endFunc
  deriving DecidableEq, Repr

/-- The operation on the table. -/
def Op.perform (s : Scopes) : Op → Scopes
  | .enter => (scopeEnter s).getD s
  | .insert ss scope => symbolInsert s ss scope
  | .reg num r => symbolReg s num r
  | .exit => scopeExit s
  | .exitProto => scopeExitProto s
  | .resurrect => scopeResurrect s
  | .endFunc => scopeEndFunc s

/-- The table with what has to be remembered of the run to say which symbols matter. -/
structure History where
  table : Scopes := {}
  /-- The symbols retired in this function. -/
  retired : List Nat := []
  /-- The symbols condemned by the last prototype scope. -/
  condemned : List Nat := []
  /-- The registers assigned in this function, which its IR can mention. -/
  mentioned : List Nat := []

/-- The symbols of the innermost scope. -/
def innermost (s : Scopes) : List Nat :=
  (s.chain.filter (·.scope == s.current)).map Symbol.num

/-- What the operation retires. -/
def retiredAfter (h : History) : Op → List Nat
  | .insert _ scope =>
    if scope = scopeRetired then (h.table.lastNum + 1) :: h.retired else h.retired
  | .exit => innermost h.table ++ h.retired
  | .endFunc => []
  | _ => h.retired

/-- What the operation condemns. -/
def condemnedAfter (h : History) : Op → List Nat
  | .exitProto => innermost h.table
  | .resurrect | .endFunc => []
  | _ => h.condemned

/-- The registers that the IR can mention after the operation. -/
def mentionedAfter (h : History) : Op → List Nat
  | .reg num r => if needsReg h.table num then r :: h.mentioned else h.mentioned
  | .endFunc => []
  | _ => h.mentioned

/-- One operation. -/
def History.step (h : History) (op : Op) : History :=
  ⟨op.perform h.table, retiredAfter h op, condemnedAfter h op, mentionedAfter h op⟩

/-- What the parser and the target keep to. Only the scopes of blocks are left by `scope_exit` and
    only those of prototypes by `scope_exit_proto`; the latter hold type definitions and their
    members and constants, to which no register is assigned. The target assigns a new register each
    time. -/
def Allowed (h : History) : Op → Prop
  | .enter => h.table.current ≠ scopeMax
  | .insert _ scope => scope ≤ h.table.current ∨ scope = scopeLabel ∨ scope = scopeRetired
  | .reg num reg => num ∉ h.condemned ∧ (∀ e ∈ h.table.regs, e.1 ≠ reg) ∧
      ∀ sym ∈ h.table.chain, sym.num = num → sym.ss.isTag = false
  | .exit => scopeLocal ≤ h.table.current
  | .exitProto => scopeLocal ≤ h.table.current ∧
      ∀ sym ∈ h.table.chain, sym.scope = h.table.current → sym.reg = none
  | .resurrect | .endFunc => True

instance (h : History) : ∀ op, Decidable (Allowed h op)
  | .enter => inferInstanceAs (Decidable (_ ≠ _))
  | .insert .. => inferInstanceAs (Decidable (_ ∨ _ ∨ _))
  | .reg .. => inferInstanceAs (Decidable (_ ∧ _ ∧ _))
  | .exit => inferInstanceAs (Decidable (_ ≤ _))
  | .exitProto => inferInstanceAs (Decidable (_ ∧ _))
  | .resurrect | .endFunc => inferInstanceAs (Decidable True)

/-- The property holds of every operation of the run in the state it is performed in. -/
def Along (p : History → Op → Prop) : History → List Op → Prop
  | _, [] => True
  | h, op :: ops => p h op ∧ Along p (h.step op) ops

instance decidableAlong {p : History → Op → Prop} [∀ h op, Decidable (p h op)] :
    ∀ h ops, Decidable (Along p h ops)
  | _, [] => inferInstanceAs (Decidable True)
  | h, op :: ops =>
    @instDecidableAnd (p h op) (Along p (h.step op) ops) _ (decidableAlong (h.step op) ops)

/-- The symbols retired in this function are still there, and so are the symbols of the registers
    that its IR can mention. -/
def Live (h : History) : Prop :=
  (∀ n ∈ h.retired, ∃ sym ∈ h.table.chain, sym.num = n ∧ sym.scope = scopeRetired) ∧
  ∀ r ∈ h.mentioned, ∃ sym ∈ h.table.chain, regSymbol h.table r = some sym.num ∧ sym.reg = some r

instance (h : History) : Decidable (Live h) := inferInstanceAs (Decidable (_ ∧ _))

/-- `scope_exit_proto` and `scope_resurrect`. -/
def Op.handlesCondemned : Op → Bool
  | .exitProto | .resurrect => true
  | _ => false

/-- The operation leaves the retired symbols alone: they are live after it, and `scope_exit_proto`
    and `scope_resurrect` remove or move no others than those that an earlier prototype scope
    condemned (and the former those of the scope it leaves). -/
def Preserves (h : History) (op : Op) : Prop :=
  Live (h.step op) ∧
  (op.handlesCondemned = true → ∀ sym ∈ h.table.chain, sym ∉ (h.step op).table.chain →
    sym.num ∈ h.condemned ∨ op = .exitProto ∧ sym.scope = h.table.current)

/-- When `scope_exit_proto` or `scope_resurrect` is performed, no symbol is at the level
    SCOPE_RETIRED, which is also SCOPE_CONDEMNED, but those that are condemned. -/
def NoneRetired (h : History) (op : Op) : Prop :=
  op.handlesCondemned = true →
    ∀ sym ∈ h.table.chain, sym.scope = scopeRetired → sym.num ∈ h.condemned

instance (h : History) (op : Op) : Decidable (Preserves h op) :=
  inferInstanceAs (Decidable (_ ∧ _))

instance (h : History) (op : Op) : Decidable (NoneRetired h op) :=
  inferInstanceAs (Decidable (_ → _))

/-- The invariant of runs. -/
structure Inv (h : History) : Prop where
  ok : h.table.Ok
  retired_old : ∀ n ∈ h.retired, n ≤ h.table.lastNum
  condemned_old : ∀ n ∈ h.condemned, n ≤ h.table.lastNum
  disjoint : ∀ n ∈ h.retired, n ∉ h.condemned
  level : ∀ sym ∈ h.table.chain, sym.num ∈ h.condemned → sym.scope = scopeRetired ∧ sym.reg = none
  live : ∀ n ∈ h.retired, ∃ sym ∈ h.table.chain, sym.num = n ∧ sym.scope = scopeRetired
  mentioned : ∀ r ∈ h.mentioned, ∃ n, (r, n) ∈ h.table.regs

section
variable {h : History}

theorem mem_innermost {s : Scopes} {n : Nat} :
    n ∈ innermost s ↔ ∃ sym ∈ s.chain, sym.scope = s.current ∧ sym.num = n := by
  simp [innermost, and_assoc]

/-- When no retired symbol is in the way, none was retired at all. -/
theorem retired_eq_nil (hi : Inv h) {op : Op} (hn : NoneRetired h op)
    (hop : op.handlesCondemned = true) : h.retired = [] := by
  refine List.eq_nil_iff_forall_not_mem.mpr fun n hr => ?_
  obtain ⟨sym, hs, hnum, hsc⟩ := hi.live n hr
  exact hi.disjoint n hr (hnum ▸ hn hop sym hs hsc)

/-- The symbols after leaving a prototype scope. -/
theorem mem_exitProto {s : Scopes} (hs : s.Ok) {x : Symbol} :
    x ∈ (scopeExitProto s).chain ↔
      (x ∈ s.chain ∧ x.scope ≠ scopeRetired ∧ x.scope ≠ s.current) ∨
      (∃ t ∈ s.chain, t.scope = scopeRetired ∧ t.ss.isTag = true ∧
        x = { t with scope := scopeKeep }) ∨
      ∃ t ∈ s.chain, t.scope = s.current ∧ x = { t with scope := scopeRetired } := by
  have hk : scopeCondemned ≠ scopeKeep := by decide
  have hclear : ∀ {x}, x ∈ (scopeClear s scopeCondemned).chain ↔ _ := mem_scopeClear hs hk
  have hmove : x ∈ (scopeExitProto s).chain ↔ _ :=
    mem_scopeMove (ok_clear hs hk) (current_ne_retired hs).symm
  have hkeep := current_ne_keep hs
  have hret := current_ne_retired hs
  rw [hmove]
  constructor
  · rintro (⟨hx, hxc⟩ | ⟨t, ht, htc, rfl⟩)
    · obtain ⟨hx, hxr⟩ | ⟨t, ht, htr, htag, rfl⟩ := hclear.mp hx
      · exact .inl ⟨hx, hxr, hxc⟩
      · exact .inr (.inl ⟨t, ht, htr, htag, rfl⟩)
    · obtain ⟨ht, htr⟩ | ⟨u, hu, hur, hutag, rfl⟩ := hclear.mp ht
      · exact .inr (.inr ⟨t, ht, htc, rfl⟩)
      · exact absurd htc.symm hkeep
  · rintro (⟨hx, hxr, hxc⟩ | ⟨t, ht, htr, htag, rfl⟩ | ⟨t, ht, htc, rfl⟩)
    · exact .inl ⟨hclear.mpr (.inl ⟨hx, hxr⟩), hxc⟩
    · exact .inl ⟨hclear.mpr (.inr ⟨t, ht, htr, htag, rfl⟩), hkeep.symm⟩
    · exact .inr ⟨t, hclear.mpr (.inl ⟨ht, fun hr => hret (htc.symm.trans hr)⟩), htc, rfl⟩

/-- No symbol is left at its place at the retired level. -/
theorem notMem_of_retired {s : Scopes} (hs : s.Ok) {op : Op} (hop : op.handlesCondemned = true)
    {sym : Symbol} (hm : sym ∈ s.chain) (hr : sym.scope = scopeRetired) :
    sym ∉ (op.perform s).chain := by
  have hret := current_ne_retired hs
  intro hx
  cases op <;> cases hop
  case exitProto =>
    obtain ⟨-, hxr, -⟩ | ⟨t, ht, -, -, rfl⟩ | ⟨t, ht, htc, he⟩ := (mem_exitProto hs).mp hx
    · exact hxr hr
    · exact absurd (show scopeKeep = scopeRetired from hr) (by decide)
    · have : t = sym := hs.eq ht hm (congrArg Symbol.num he).symm
      exact hret (htc.symm.trans (this ▸ hr))
  case resurrect =>
    obtain ⟨-, hxr⟩ | ⟨t, -, -, rfl⟩ := (mem_scopeMove hs hret).mp hx
    · exact hxr hr
    · exact hret hr

theorem live_of_inv (hi : Inv h) : Live h := by
  refine ⟨hi.live, fun r hr => ?_⟩
  obtain ⟨n, hn⟩ := hi.mentioned r hr
  obtain ⟨sym, hs, hnum, hreg⟩ := hi.ok.regs _ hn
  exact ⟨sym, hs, by rw [regSymbol_of_mem hi.ok hn, hnum], hreg⟩

theorem inv_start : Inv {} where
  ok := ok_start
  retired_old := by simp
  condemned_old := by simp
  disjoint := by simp
  level := by simp
  live := by simp
  mentioned := by simp

theorem inv_enter (hi : Inv h) (ha : Allowed h .enter) : Inv (h.step .enter) := by
  have he : scopeEnter h.table = some { h.table with current := h.table.current + 1 } := if_neg ha
  have hstep : h.step .enter =
      { h with table := { h.table with current := h.table.current + 1 } } := by
    simp only [History.step, Op.perform, he, Option.getD_some]
    rfl
  rw [hstep]
  exact ⟨ok_enter hi.ok he, hi.retired_old, hi.condemned_old, hi.disjoint, hi.level, hi.live,
    hi.mentioned⟩

theorem inv_insert (hi : Inv h) {ss : StorageClass} {scope : Nat}
    (ha : Allowed h (.insert ss scope)) : Inv (h.step (.insert ss scope)) := by
  have hperm := insertInto_perm { num := h.table.lastNum + 1, ss := ss, scope := scope }
    h.table.chain
  have hret : ∀ n ∈ (h.step (.insert ss scope)).retired,
      n ∈ h.retired ∨ n = h.table.lastNum + 1 ∧ scope = scopeRetired := by
    intro n hn
    simp only [History.step, retiredAfter] at hn
    split at hn
    · next hsc => exact (List.mem_cons.mp hn).symm.imp_right fun hn => ⟨hn, hsc⟩
    · exact .inl hn
  refine ⟨ok_insert hi.ok ss ha, fun n hn => ?_,
    fun n hn => Nat.le_succ_of_le (hi.condemned_old n hn), fun n hn hc => ?_, fun sym hs hc => ?_, fun n hn => ?_, hi.mentioned⟩
  · obtain hn | ⟨rfl, -⟩ := hret n hn
    · exact Nat.le_succ_of_le (hi.retired_old n hn)
    · exact Nat.le_refl _
  · obtain hn | ⟨rfl, -⟩ := hret n hn
    · exact hi.disjoint n hn hc
    · exact Nat.not_succ_le_self _ (hi.condemned_old _ hc)
  · obtain rfl | hs := List.mem_cons.mp (hperm.mem_iff.mp hs)
    · exact absurd (hi.condemned_old _ hc) (Nat.not_succ_le_self _)
    · exact hi.level sym hs hc
  · obtain hn | ⟨rfl, hsc⟩ := hret n hn
    · obtain ⟨sym, hs, hsym⟩ := hi.live n hn
      exact ⟨sym, hperm.mem_iff.mpr (List.mem_cons_of_mem _ hs), hsym⟩
    · exact ⟨_, hperm.mem_iff.mpr (List.mem_cons_self ..), rfl, hsc⟩

theorem assignReg_of_ne {num r : Nat} {sym : Symbol} (hn : sym.num ≠ num) :
    assignReg num r sym = sym := if_neg hn

theorem inv_reg (hi : Inv h) {num r : Nat} (ha : Allowed h (.reg num r)) :
    Inv (h.step (.reg num r)) := by
  obtain ⟨hnc, hfresh, htag⟩ := ha
  have hok : (symbolReg h.table num r).Ok := ok_reg hi.ok hfresh htag
  have hnum : ∀ sym, (assignReg num r sym).num = sym.num ∧
      (assignReg num r sym).scope = sym.scope := by
    intro sym
    rw [assignReg]
    split <;> exact ⟨rfl, rfl⟩
  cases hneed : needsReg h.table num with
  | false =>
    have hstep : h.step (.reg num r) = h := by
      simp [History.step, Op.perform, symbolReg, retiredAfter, condemnedAfter, mentionedAfter,
        hneed]
    rw [hstep]
    exact hi
  | true =>
    have hstep : h.step (.reg num r) =
        { h with table := { h.table with chain := h.table.chain.map (assignReg num r),
                                         regs := (r, num) :: h.table.regs },
                 mentioned := r :: h.mentioned } := by
      simp [History.step, Op.perform, symbolReg, retiredAfter, condemnedAfter, mentionedAfter,
        hneed]
    rw [symbolReg, if_pos hneed] at hok
    rw [hstep]
    refine ⟨hok, hi.retired_old, hi.condemned_old, hi.disjoint, fun sym hs hc => ?_,
      fun n hn => ?_, fun r' hr' => ?_⟩
    · obtain ⟨t, ht, rfl⟩ := List.mem_map.mp hs
      have hc : t.num ∈ h.condemned := (hnum t).1 ▸ hc
      have hne : t.num ≠ num := fun he => hnc (he ▸ hc)
      rw [assignReg_of_ne hne]
      exact hi.level t ht hc
    · obtain ⟨sym, hs, hsn, hsc⟩ := hi.live n hn
      exact ⟨_, List.mem_map_of_mem hs, (hnum sym).1.trans hsn, (hnum sym).2.trans hsc⟩
    · obtain rfl | hr' := List.mem_cons.mp hr'
      · exact ⟨num, List.mem_cons_self ..⟩
      · obtain ⟨n, hn⟩ := hi.mentioned r' hr'
        exact ⟨n, List.mem_cons_of_mem _ hn⟩

/-- The symbols after leaving a block scope. -/
theorem mem_exit {s : Scopes} (hs : s.Ok) {x : Symbol} :
    x ∈ (scopeExit s).chain ↔ (x ∈ s.chain ∧ x.scope ≠ s.current) ∨
      ∃ t ∈ s.chain, t.scope = s.current ∧ some (retire t) = some x := by
  refine mem_scopeWalk (fun a b hab => ?_) hs.sorted
  cases hab
  exact (current_ne_retired hs).symm

theorem inv_exit (hi : Inv h) (ha : Allowed h .exit) : Inv (h.step .exit) := by
  have hret := current_ne_retired hi.ok
  refine ⟨ok_exit hi.ok ha, fun n hn => ?_, hi.condemned_old, fun n hn hc => ?_,
    fun sym hs hc => ?_, fun n hn => ?_, hi.mentioned⟩
  · obtain hn | hn := List.mem_append.mp hn
    · obtain ⟨sym, hs, -, rfl⟩ := mem_innermost.mp hn
      exact hi.ok.old sym hs
    · exact hi.retired_old n hn
  · obtain hn | hn := List.mem_append.mp hn
    · obtain ⟨sym, hs, hsc, rfl⟩ := mem_innermost.mp hn
      exact hret (hsc.symm.trans (hi.level sym hs hc).1)
    · exact hi.disjoint n hn hc
  · obtain ⟨hs, -⟩ | ⟨t, ht, htc, hx⟩ := (mem_exit hi.ok).mp hs
    · exact hi.level sym hs hc
    · cases hx
      exact absurd (htc.symm.trans (hi.level t ht hc).1) hret
  · obtain hn | hn := List.mem_append.mp hn
    · obtain ⟨sym, hs, hsc, rfl⟩ := mem_innermost.mp hn
      exact ⟨retire sym, (mem_exit hi.ok).mpr (.inr ⟨sym, hs, hsc, rfl⟩), rfl, rfl⟩
    · obtain ⟨sym, hs, hsn, hsc⟩ := hi.live n hn
      exact ⟨sym, (mem_exit hi.ok).mpr (.inl ⟨hs, fun hc => hret (hc.symm.trans hsc)⟩), hsn, hsc⟩

theorem inv_exitProto (hi : Inv h) (ha : Allowed h .exitProto) (hn : NoneRetired h .exitProto) :
    Inv (h.step .exitProto) := by
  have hnil := retired_eq_nil hi hn rfl
  have hstep : (h.step .exitProto).retired = [] := hnil
  refine ⟨ok_exitProto hi.ok ha.1, ?_, fun n hc => ?_, ?_, fun sym hs hc => ?_, ?_,
    fun r hr => ?_⟩
  · rw [hstep]; simp
  · obtain ⟨sym, hs, -, rfl⟩ := mem_innermost.mp hc
    exact hi.ok.old sym hs
  · rw [hstep]; simp
  · obtain ⟨t, ht, htc, hnum⟩ := mem_innermost.mp hc
    obtain ⟨hs, -, hsc⟩ | ⟨u, hu, hur, -, rfl⟩ | ⟨u, hu, huc, rfl⟩ := (mem_exitProto hi.ok).mp hs
    · exact absurd (hi.ok.eq ht hs hnum ▸ htc) hsc
    · have : t = u := hi.ok.eq ht hu hnum
      exact absurd (htc.symm.trans (this ▸ hur)) (current_ne_retired hi.ok)
    · exact ⟨rfl, ha.2 u hu huc⟩
  · rw [hstep]; simp
  · obtain ⟨n, hm⟩ := hi.mentioned r hr
    refine ⟨n, List.mem_filter.mpr ⟨hm, ?_⟩⟩
    rw [Bool.not_eq_true', List.any_eq_false]
    intro sym hs hcond
    simp only [Bool.and_eq_true, beq_iff_eq] at hcond
    obtain ⟨⟨hsc, -⟩, hnum⟩ := hcond
    obtain ⟨t, ht, htn, htr⟩ := hi.ok.regs _ hm
    have hcond := (hi.level sym hs (hn rfl sym hs hsc)).2
    rw [hi.ok.eq hs ht (hnum.trans htn.symm), htr] at hcond
    cases hcond

theorem inv_resurrect (hi : Inv h) (hn : NoneRetired h .resurrect) : Inv (h.step .resurrect) := by
  have hnil := retired_eq_nil hi hn rfl
  have hstep : (h.step .resurrect).retired = [] := hnil
  refine ⟨ok_resurrect hi.ok, ?_, ?_, ?_, ?_, ?_, hi.mentioned⟩
  · rw [hstep]; simp
  · exact fun n hc => absurd hc List.not_mem_nil
  · rw [hstep]; simp
  · exact fun sym _ hc => absurd hc List.not_mem_nil
  · rw [hstep]; simp

theorem inv_endFunc (hi : Inv h) : Inv (h.step .endFunc) := by
  refine ⟨ok_endFunc hi.ok, ?_, ?_, ?_, ?_, ?_, ?_⟩ <;> intro _ hc <;>
    first | exact absurd hc List.not_mem_nil | exact fun h => absurd h List.not_mem_nil

theorem inv_step (hi : Inv h) {op : Op} (ha : Allowed h op) (hn : NoneRetired h op) :
    Inv (h.step op) := by
  cases op with
  | enter => exact inv_enter hi ha
  | insert ss scope => exact inv_insert hi ha
  | reg num r => exact inv_reg hi ha
  | exit => exact inv_exit hi ha
  | exitProto => exact inv_exitProto hi ha hn
  | resurrect => exact inv_resurrect hi hn
  | endFunc => exact inv_endFunc hi

/-- A step leaves the retired symbols alone exactly when none is in its way. -/
theorem preserves_iff (hi : Inv h) {op : Op} (ha : Allowed h op) :
    Preserves h op ↔ NoneRetired h op := by
  constructor
  · intro hp hop sym hs hr
    have hgone : sym ∉ (h.step op).table.chain := notMem_of_retired hi.ok hop hs hr
    obtain hc | ⟨-, hc⟩ := hp.2 hop sym hs hgone
    · exact hc
    · exact absurd (hc.symm.trans hr) (current_ne_retired hi.ok)
  · intro hn
    refine ⟨live_of_inv (inv_step hi ha hn), fun hop sym hs hgone => ?_⟩
    by_cases hr : sym.scope = scopeRetired
    · exact .inl (hn hop sym hs hr)
    · right
      cases op with
      | exitProto =>
        refine ⟨rfl, ?_⟩
        by_contra hc
        exact hgone ((mem_exitProto hi.ok).mpr (.inl ⟨hs, hr, hc⟩))
      | resurrect =>
        exact absurd ((mem_scopeMove hi.ok (current_ne_retired hi.ok)).mpr (.inl ⟨hs, hr⟩)) hgone
      | enter | insert | reg | exit | endFunc => cases hop

theorem along_preserves_iff : ∀ (ops : List Op) {h : History}, Inv h → Along Allowed h ops →
    (Along Preserves h ops ↔ Along NoneRetired h ops)
  | [], _, _, _ => Iff.rfl
  | op :: ops, h, hi, ⟨ha, hops⟩ => by
    rw [Along, Along, preserves_iff hi ha]
    exact and_congr_right fun hn => along_preserves_iff ops (inv_step hi ha hn) hops

/-- Along every run of the parser, the symbols of closed block scopes stay retired until the end of
    their function, the registers of its IR keep their symbols, and `scope_exit_proto` and
    `scope_resurrect` handle only condemned symbols, if and only if neither of the two is
    performed while a symbol is retired. -/
theorem scopes_preserve_iff (ops : List Op) (ha : Along Allowed {} ops) :
    Along Preserves {} ops ↔ Along NoneRetired {} ops :=
  along_preserves_iff ops inv_start ha

end

/-- A function that declares a prototype before any block in it is closed. -/
def protoFirst : List Op :=
  [.enter, .insert .local_ 3, .reg 1 64, .enter, .insert .struct 4, .exitProto, .enter,
   .insert .local_ 4, .reg 3 65, .exit, .exit, .endFunc]

theorem scopes_preserve_iff_protoFirst : Along Preserves {} protoFirst :=
  (scopes_preserve_iff protoFirst (by decide)).mpr (by decide)

/-- A function that declares a prototype after a block with a variable is closed:

        { { int x; x = 1; } int (*g)(int); } -/
def protoLast : List Op :=
  [.enter, .enter, .insert .local_ 4, .reg 1 64, .exit, .enter, .exitProto]

/-- The symbol of `x` is discarded although the function still mentions its register. -/
theorem scopes_proto_discards :
    ¬ ∀ ops : List Op, Along Allowed {} ops → Along Preserves {} ops := by
  intro h
  exact absurd (h protoLast (by decide)) (by decide)

end Ncc.Scope
