import Ncc.WebsInsn

/-! The names of registers (cc1.h, amd64/amd64.c: `amd64_symbol_reg`, webs.c: `def0`).

    The ordinal of a register, the flag of its class and the index of a web share a word, and nothing
    checks that they fit. There is room for 2^20 registers in a class, 16 of them physical, and for
    1023 DEFs: `names_iff` says that within these limits all names are good, and beyond them some are
    not. -/

namespace Ncc.Webs

/-! ### The code -/

/-- AMD64_REG_PSEUDO. -/
def amd64RegPseudo : PseudoReg := 16

/-- AMD64_REG_FLAG_SSE. -/
def amd64RegFlagSse : PseudoReg := 0x00100000

/-- AMD64_IS_IREG. -/
def amd64IsIreg (r : PseudoReg) : Bool := r &&& amd64RegFlagSse == 0

/-- AMD64_IREG. -/
def amd64Ireg (i : PseudoReg) : PseudoReg := i

/-- AMD64_FREG. -/
def amd64Freg (i : PseudoReg) : PseudoReg := i ||| amd64RegFlagSse

/-- The static variables of `amd64_symbol_reg`. -/
structure NextRegs where
  nextIreg : PseudoReg := amd64RegPseudo
  nextFreg : PseudoReg := amd64RegPseudo

/-- `amd64_symbol_reg` on a symbol whose type is discrete, or is not. -/
def amd64SymbolReg (st : NextRegs) (discrete : Bool) : PseudoReg × NextRegs :=
  if discrete then (amd64Ireg st.nextIreg, { st with nextIreg := st.nextIreg + 1 })
  else (amd64Freg st.nextFreg, { st with nextFreg := st.nextFreg + 1 })

/-- The registers of one symbol after the other. -/
def symbolRegs : NextRegs → List Bool → List PseudoReg
  | _, [] => []
  | st, discrete :: symbols =>
    let (r, st) := amd64SymbolReg st discrete
    r :: symbolRegs st symbols

section
variable {α : Type*} (q : WebQueries α)

/-- The DEFs of a function that get names, in the order in which `def0` comes to them. -/
def namedDefs (g : BlockGraph α) : List PseudoReg :=
  g.blocks.flatMap fun b => (g.insns b).flatMap fun i => (q.defsRegs i).filter (!regPhysical ·)

/-- The webs that `def0` makes of a function: one for every DEF, with the name in it. -/
def defWebs (live : BlockId → LiveData) (g : BlockGraph α) : List Regs :=
  (g.blocks.foldl (def0 q live) ⟨g.insns, fun _ => 0, [], fun _ => []⟩).webs

end

/-! ### Good names -/

/-- The name is none that stands for something else, and has no bit of PSEUDO_REG_RESERVED. -/
structure Fresh (x : PseudoReg) : Prop where
  cc : x ≠ regCc
  none : x ≠ regNone
  mem : x ≠ regMem
  physical : regPhysical x = false
  reserved : x.getLsbD 31 = false

/-- The DEFs of a function get names that differ, and that tell the registers. -/
def GoodLabels (ds : List PseudoReg) (webs : List Regs) : Prop :=
  ∃ names : List PseudoReg, webs = names.map ([·]) ∧ names.Nodup ∧
    names.map pseudoRegBase = ds ∧ ∀ x ∈ names, Fresh x

/-- The names of a translation unit: the registers of its symbols, and the names of the DEFs of its
    functions. -/
structure GoodNames {α : Type*} (q : WebQueries α) (symbols : List Bool)
    (functions : List (BlockGraph α × (BlockId → LiveData))) : Prop where
  distinct : (symbolRegs {} symbols).Nodup
  cls : List.Forall₂ (fun r discrete => amd64IsIreg r = discrete) (symbolRegs {} symbols) symbols
  fresh : ∀ r ∈ symbolRegs {} symbols, Fresh r
  labels : ∀ f ∈ functions, GoodLabels (namedDefs q f.1) (defWebs q f.2 f.1)

/-- There is room for the registers of either class, and for the DEFs of each register. -/
structure WithinLimits {α : Type*} (q : WebQueries α) (symbols : List Bool)
    (functions : List (BlockGraph α × (BlockId → LiveData))) : Prop where
  iregs : symbols.count true ≤ 2 ^ 20 - 16
  fregs : symbols.count false ≤ 2 ^ 20 - 16
  defs : ∀ f ∈ functions, ∀ r, (namedDefs q f.1).count r ≤ 1023

/-! ### Registers of symbols -/

/-- A register that is neither physical nor has an index. -/
structure Pseudo (r : PseudoReg) : Prop where
  lt : r.toNat < 2 ^ 21
  index : 16 ≤ r.toNat % 2 ^ 20

theorem getLsbD_high {r : PseudoReg} (h : r.toNat < 2 ^ 21) {i : Nat} (hi : 21 ≤ i) :
    r.getLsbD i = false :=
  Nat.testBit_lt_two_pow (h.trans_le (Nat.pow_le_pow_right Nat.two_pos hi))

theorem physical_iff (r : PseudoReg) : regPhysical r = true ↔ r.toNat % 2 ^ 20 < 16 := by
  have h : (r &&& 0x000FFFFF#32).toNat = r.toNat % 2 ^ 20 := by
    rw [BitVec.toNat_and]
    exact Nat.and_two_pow_sub_one_eq_mod r.toNat 20
  rw [regPhysical, decide_eq_true_iff]
  exact h ▸ Iff.rfl

theorem fresh_of_bit {x : PseudoReg} (hp : regPhysical x = false) (h : x.getLsbD 31 = false) :
    Fresh x where
  cc := by rintro rfl; exact absurd h (by decide)
  none := by rintro rfl; exact absurd h (by decide)
  mem := by rintro rfl; exact absurd h (by decide)
  physical := hp
  reserved := h

theorem Pseudo.physical {r : PseudoReg} (h : Pseudo r) : regPhysical r = false := by
  rw [Bool.eq_false_iff, ne_eq, physical_iff]
  exact Nat.not_lt_of_le h.index

theorem Pseudo.base {r : PseudoReg} (h : Pseudo r) : pseudoRegBase r = r := by
  apply BitVec.eq_of_getLsbD_eq
  intro i hi
  rw [getLsbD_base r hi]
  by_cases hm : 21 ≤ i ∧ i < 31
  · rw [getLsbD_high h.lt hm.1, Bool.false_and]
  · simp [hm]

theorem Pseudo.fresh {r : PseudoReg} (h : Pseudo r) : Fresh r :=
  fresh_of_bit h.physical (getLsbD_high h.lt (by decide))

/-- The ordinal of the next register of the class. -/
def NextRegs.next (st : NextRegs) (discrete : Bool) : PseudoReg :=
  if discrete then st.nextIreg else st.nextFreg

/-- The register of the class with the ordinal. -/
def regOf (discrete : Bool) (i : PseudoReg) : PseudoReg :=
  if discrete then amd64Ireg i else amd64Freg i

theorem symbolRegs_cons (st : NextRegs) (b : Bool) (symbols : List Bool) :
    symbolRegs st (b :: symbols) =
      regOf b (st.next b) :: symbolRegs (amd64SymbolReg st b).2 symbols := by
  cases b <;> rfl

theorem next_succ (st : NextRegs) (b b' : Bool) :
    (amd64SymbolReg st b).2.next b' = if b' = b then st.next b + 1 else st.next b' := by
  cases b <;> cases b' <;> rfl

theorem toNat_succ {i : PseudoReg} (h : i.toNat ≤ 2 ^ 20) : (i + 1).toNat = i.toNat + 1 := by
  rw [BitVec.toNat_add]
  exact Nat.mod_eq_of_lt (by simp; omega)

/-- The two classes divide the words of 21 bits. -/
theorem toNat_regOf (b : Bool) {i : PseudoReg} (h : i.toNat < 2 ^ 20) :
    (regOf b i).toNat = (if b then 0 else 2 ^ 20) + i.toNat := by
  cases b with
  | true => exact (Nat.zero_add _).symm
  | false =>
    have hor := Nat.two_pow_add_eq_or_of_lt h 1
    rw [Nat.mul_one] at hor
    have hflag : amd64RegFlagSse.toNat = 2 ^ 20 := rfl
    simp only [regOf, amd64Freg, Bool.false_eq_true, if_false]
    rw [BitVec.toNat_or, hflag, Nat.or_comm, ← hor]

theorem amd64IsIreg_eq (r : PseudoReg) : amd64IsIreg r = !r.getLsbD 20 := by
  have h : r &&& amd64RegFlagSse = if r.getLsbD 20 then BitVec.twoPow 32 20 else 0 :=
    BitVec.and_twoPow r 20
  rw [amd64IsIreg, h]
  cases r.getLsbD 20 <;> rfl

theorem amd64IsIreg_regOf (b : Bool) {i : PseudoReg} (h : i.toNat < 2 ^ 20) :
    amd64IsIreg (regOf b i) = b := by
  have hbit : i.getLsbD 20 = false := Nat.testBit_lt_two_pow h
  rw [amd64IsIreg_eq]
  cases b with
  | true => rw [regOf, if_pos rfl, amd64Ireg, hbit]; rfl
  | false =>
    rw [regOf, if_neg Bool.false_ne_true, amd64Freg, BitVec.getLsbD_or, hbit]
    rfl

theorem regOf_inj {b b' : Bool} {i i' : PseudoReg} (h : i.toNat < 2 ^ 20) (h' : i'.toNat < 2 ^ 20)
    (heq : regOf b i = regOf b' i') : b = b' ∧ i = i' := by
  have hb : b = b' := by rw [← amd64IsIreg_regOf b h, heq, amd64IsIreg_regOf b' h']
  subst hb
  have hn := congrArg BitVec.toNat heq
  rw [toNat_regOf b h, toNat_regOf b h'] at hn
  exact ⟨rfl, BitVec.eq_of_toNat_eq (Nat.add_left_cancel hn)⟩

theorem pseudo_regOf (b : Bool) {i : PseudoReg} (hle : 16 ≤ i.toNat) (hlt : i.toNat < 2 ^ 20) :
    Pseudo (regOf b i) := by
  have h := toNat_regOf b hlt
  constructor
  · rw [h]
    split <;> omega
  · rw [h]
    split <;> omega

/-- While there is room in both classes, the registers are as they should be. -/
theorem symbolRegs_within : ∀ (symbols : List Bool) (st : NextRegs),
    (∀ b, (st.next b).toNat + symbols.count b ≤ 2 ^ 20) →
    (symbolRegs st symbols).Nodup ∧
    List.Forall₂ (fun r discrete => amd64IsIreg r = discrete) (symbolRegs st symbols) symbols ∧
    ∀ r ∈ symbolRegs st symbols, ∃ b i, r = regOf b i ∧ (st.next b).toNat ≤ i.toNat ∧
      i.toNat < 2 ^ 20
  | [], _, _ => ⟨.nil, .nil, fun _ h => absurd h List.not_mem_nil⟩
  | b :: symbols, st, h => by
    have hb : (st.next b).toNat < 2 ^ 20 := by
      have := h b
      rw [List.count_cons_self] at this
      omega
    have hnext : ∀ b', ((amd64SymbolReg st b).2.next b').toNat =
        (st.next b').toNat + if b' = b then 1 else 0 := fun b' => by
      rw [next_succ]
      split
      · next heq => rw [heq, toNat_succ hb.le]
      · rfl
    obtain ⟨hnodup, hcls, hmem⟩ := symbolRegs_within symbols (amd64SymbolReg st b).2 fun b' => by
      have := h b'
      rw [hnext]
      rw [List.count_cons] at this
      by_cases heq : b' = b
      · subst heq
        simp at this ⊢
        omega
      · have hne : (b == b') = false := beq_false_of_ne (Ne.symm heq)
        simp [heq, hne] at this ⊢
        omega
    rw [symbolRegs_cons]
    refine ⟨List.nodup_cons.mpr ⟨fun hin => ?_, hnodup⟩, .cons (amd64IsIreg_regOf b hb) hcls,
      fun r hr => ?_⟩
    · obtain ⟨b', i, heq, hle, hlt⟩ := hmem _ hin
      obtain ⟨rfl, rfl⟩ := regOf_inj hb hlt heq
      rw [hnext, if_pos rfl] at hle
      omega
    · rcases List.mem_cons.mp hr with rfl | hr
      · exact ⟨b, _, rfl, le_rfl, hb⟩
      · obtain ⟨b', i, heq, hle, hlt⟩ := hmem r hr
        rw [hnext] at hle
        exact ⟨b', i, heq, (Nat.le_add_right ..).trans hle, hlt⟩

/-- The first register too many of either class is a physical one. -/
theorem symbolRegs_beyond (b : Bool) : ∀ (symbols : List Bool) (st : NextRegs),
    (st.next b).toNat ≤ 2 ^ 20 → 2 ^ 20 < (st.next b).toNat + symbols.count b →
    amd64RegFlagSse ∈ symbolRegs st symbols
  | [], st, hle, hlt => by
    rw [List.count_nil] at hlt
    omega
  | b' :: symbols, st, hle, hlt => by
    rw [symbolRegs_cons]
    by_cases hb : b = b'
    · subst hb
      rw [List.count_cons_self] at hlt
      rcases Nat.lt_or_ge (st.next b).toNat (2 ^ 20) with hlt' | hge
      · have hnext : ((amd64SymbolReg st b).2.next b).toNat = (st.next b).toNat + 1 := by
          rw [next_succ, if_pos rfl, toNat_succ hle]
        exact List.mem_cons_of_mem _ (symbolRegs_beyond b symbols _ (by omega) (by omega))
      · have heq : st.next b = amd64RegFlagSse := BitVec.eq_of_toNat_eq (Nat.le_antisymm hle hge)
        rw [heq]
        cases b <;> exact List.mem_cons_self ..
    · have hnext : (amd64SymbolReg st b').2.next b = st.next b := by rw [next_succ, if_neg hb]
      rw [List.count_cons_of_ne (Ne.symm hb)] at hlt
      exact List.mem_cons_of_mem _ (symbolRegs_beyond b symbols _ (hnext ▸ hle) (hnext ▸ hlt))

/-! ### Names of DEFs -/

/-- The names that the DEFs get, from the indices of the symbols on. -/
def namesFrom : (PseudoReg → Nat) → List PseudoReg → List PseudoReg
  | _, [] => []
  | idx, r :: ds =>
    let i := idx (pseudoRegBase r) + 1
    pseudoRegSetIdx r i :: namesFrom (Function.update idx (pseudoRegBase r) i) ds

/-- The indices of the symbols after the DEFs. -/
def idxAfter : (PseudoReg → Nat) → List PseudoReg → PseudoReg → Nat
  | idx, [] => idx
  | idx, r :: ds => idxAfter (Function.update idx (pseudoRegBase r) (idx (pseudoRegBase r) + 1)) ds

theorem namesFrom_append : ∀ (ds es : List PseudoReg) (idx : PseudoReg → Nat),
    namesFrom idx (ds ++ es) = namesFrom idx ds ++ namesFrom (idxAfter idx ds) es
  | [], _, _ => rfl
  | r :: ds, es, idx => by
    rw [List.cons_append, namesFrom, namesFrom, idxAfter, namesFrom_append ds es]
    rfl

theorem idxAfter_append : ∀ (ds es : List PseudoReg) (idx : PseudoReg → Nat),
    idxAfter idx (ds ++ es) = idxAfter (idxAfter idx ds) es
  | [], _, _ => rfl
  | r :: ds, es, idx => by rw [List.cons_append, idxAfter, idxAfter, idxAfter_append ds es]

/-- The webs and the indices after DEFs that get names. -/
structure Named (ds : List PseudoReg) (idx idx' : PseudoReg → Nat) (webs webs' : List Regs) :
    Prop where
  webs : webs' = webs ++ (namesFrom idx ds).map ([·])
  idx : idx' = idxAfter idx ds

theorem Named.append {ds es : List PseudoReg} {idx idx' idx'' : PseudoReg → Nat}
    {webs webs' webs'' : List Regs} (h : Named ds idx idx' webs webs')
    (h' : Named es idx' idx'' webs' webs'') : Named (ds ++ es) idx idx'' webs webs'' where
  webs := by
    rw [h'.webs, h.webs, h.idx, namesFrom_append, List.map_append, List.append_assoc]
  idx := by rw [h'.idx, h.idx, idxAfter_append]

theorem named_nil (idx : PseudoReg → Nat) (webs : List Regs) : Named [] idx idx webs webs :=
  ⟨(List.append_nil _).symm, rfl⟩

section
variable {α : Type*} (q : WebQueries α)

theorem def0Reg_named : ∀ (rs : Regs) (x : α × Labels),
    Named (rs.filter (!regPhysical ·)) x.2.idx (rs.foldl (def0Reg q) x).2.idx x.2.webs
      (rs.foldl (def0Reg q) x).2.webs
  | [], x => named_nil ..
  | r :: rs, x => by
    have ih := def0Reg_named rs (def0Reg q x r)
    rw [List.foldl_cons]
    cases hp : regPhysical r with
    | true =>
      have hx : def0Reg q x r = x := if_pos hp
      rw [hx] at ih
      rw [hx, List.filter_cons_of_neg (by simp [hp])]
      exact ih
    | false =>
      rw [List.filter_cons_of_pos (by simp [hp])]
      refine @Named.append [r] _ _ _ _ _ _ _ ⟨?_, ?_⟩ ih
      · simp [def0Reg, hp, namesFrom]
      · simp [def0Reg, hp, idxAfter]

theorem def0Insns_named : ∀ (l : List α) (st : Labels),
    Named (l.flatMap fun i => (q.defsRegs i).filter (!regPhysical ·)) st.idx
      (def0Insns q l st).2.idx st.webs (def0Insns q l st).2.webs
  | [], _ => named_nil ..
  | i :: l, st => by
    rw [List.flatMap_cons]
    exact (def0Reg_named q (q.defsRegs i) (i, st)).append (def0Insns_named l (def0Insn q i st).2)

/-- `def0` gives every DEF of the function a name, block after block. -/
theorem def0_named (live : BlockId → LiveData) : ∀ (bs : List BlockId) (st : WebState α), bs.Nodup →
    Named (bs.flatMap fun b => (st.insns b).flatMap fun i => (q.defsRegs i).filter (!regPhysical ·))
      st.idx (bs.foldl (def0 q live) st).idx st.webs (bs.foldl (def0 q live) st).webs
  | [], _, _ => named_nil ..
  | b :: bs, st, h => by
    obtain ⟨hb, hbs⟩ := List.nodup_cons.mp h
    have hfirst := def0Insns_named q (st.insns b) ⟨st.idx, st.webs, []⟩
    have hrest := def0_named live bs (def0 q live st b) hbs
    have hsame : ∀ b' ∈ bs, (def0 q live st b).insns b' = st.insns b' := fun b' hb' =>
      Function.update_of_ne (by rintro rfl; exact hb hb') ..
    rw [List.flatMap_cons, List.foldl_cons]
    refine hfirst.append ?_
    rwa [List.flatMap_congr fun b' hb' => by rw [hsame b' hb']] at hrest

theorem defWebs_names (live : BlockId → LiveData) {g : BlockGraph α} (h : g.blocks.Nodup) :
    defWebs q live g = (namesFrom (fun _ => 0) (namedDefs q g)).map ([·]) :=
  (def0_named q live g.blocks ⟨g.insns, fun _ => 0, [], fun _ => []⟩ h).webs

end

theorem fresh_setIdx {r : PseudoReg} (h : Pseudo r) {k : Nat} (hk : k < 1024) :
    Fresh (pseudoRegSetIdx r k) := by
  have hbase := base_setIdx r hk
  refine fresh_of_bit ((physical_eq hbase).trans h.physical) ?_
  rw [getLsbD_setIdx r k (by decide), h.base, getLsbD_high h.lt (by decide),
    Nat.testBit_lt_two_pow hk]
  rfl

/-- While there are indices enough, the names of a register's DEFs differ, and tell it. -/
theorem namesFrom_within : ∀ (ds : List PseudoReg) (idx : PseudoReg → Nat), (∀ r ∈ ds, Pseudo r) →
    (∀ r, idx r + ds.count r < 1024) →
    (namesFrom idx ds).Nodup ∧ (namesFrom idx ds).map pseudoRegBase = ds ∧
    ∀ x ∈ namesFrom idx ds, ∃ r k, Pseudo r ∧ x = pseudoRegSetIdx r k ∧ idx r < k ∧ k < 1024
  | [], _, _, _ => ⟨.nil, rfl, fun _ h => absurd h List.not_mem_nil⟩
  | r :: ds, idx, hp, hlt => by
    obtain ⟨hr, hds⟩ := List.forall_mem_cons.mp hp
    have hk : idx r + 1 < 1024 := by
      have := hlt r
      rw [List.count_cons_self] at this
      omega
    have hidx : ∀ r', Function.update idx r (idx r + 1) r' = idx r' + if r' = r then 1 else 0 :=
      fun r' => by
        by_cases heq : r' = r
        · rw [heq, Function.update_self, if_pos rfl]
        · rw [Function.update_of_ne heq, if_neg heq, Nat.add_zero]
    obtain ⟨hnodup, hmap, hmem⟩ := namesFrom_within ds (Function.update idx r (idx r + 1)) hds
      fun r' => by
        have := hlt r'
        rw [List.count_cons] at this
        rw [hidx]
        by_cases heq : r' = r
        · subst heq
          simp at this ⊢
          omega
        · have hne : (r == r') = false := beq_false_of_ne (Ne.symm heq)
          simp [heq, hne] at this ⊢
          omega
    have hbase : pseudoRegBase (pseudoRegSetIdx r (idx r + 1)) = r := by
      rw [base_setIdx r hk, hr.base]
    simp only [namesFrom, hr.base]
    refine ⟨List.nodup_cons.mpr ⟨fun hin => ?_, hnodup⟩, by rw [List.map_cons, hbase, hmap],
      fun x hx => ?_⟩
    · obtain ⟨r', k, hr', heq, hgt, hk'⟩ := hmem _ hin
      have hrr : r' = r := by
        have := congrArg pseudoRegBase heq
        rw [hbase, base_setIdx r' hk', hr'.base] at this
        exact this.symm
      rw [hidx, if_pos hrr, hrr, ← setIdx_inj hk hk' heq] at hgt
      omega
    · rcases List.mem_cons.mp hx with rfl | hx
      · exact ⟨r, _, hr, rfl, Nat.lt_succ_self _, hk⟩
      · obtain ⟨r', k, hr', heq, hgt, hk'⟩ := hmem x hx
        rw [hidx] at hgt
        exact ⟨r', k, hr', heq, (Nat.le_add_right ..).trans_lt hgt, hk'⟩

/-- The name of the first DEF too many has the reserved bit. -/
theorem namesFrom_beyond {r : PseudoReg} (hr : pseudoRegBase r = r) :
    ∀ (ds : List PseudoReg) (idx : PseudoReg → Nat), (∀ d ∈ ds, pseudoRegBase d = d) →
    idx r ≤ 1023 → 1023 < idx r + ds.count r → pseudoRegSetIdx r 1024 ∈ namesFrom idx ds
  | [], idx, _, hle, hlt => by
    rw [List.count_nil] at hlt
    omega
  | d :: ds, idx, hb, hle, hlt => by
    obtain ⟨hd, hds⟩ := List.forall_mem_cons.mp hb
    simp only [namesFrom, hd]
    by_cases heq : d = r
    · subst heq
      rw [List.count_cons_self] at hlt
      have hidx : Function.update idx d (idx d + 1) d = idx d + 1 := Function.update_self ..
      rcases Nat.lt_or_ge (idx d) 1023 with hlt' | hge
      · exact List.mem_cons_of_mem _ (namesFrom_beyond hr ds _ hds (by omega) (by omega))
      · rw [Nat.le_antisymm hle hge]
        exact List.mem_cons_self ..
    · have hidx : Function.update idx d (idx d + 1) r = idx r :=
        Function.update_of_ne (Ne.symm heq) ..
      rw [List.count_cons_of_ne heq] at hlt
      exact List.mem_cons_of_mem _ (namesFrom_beyond hr ds _ hds (hidx ▸ hle) (hidx ▸ hlt))

theorem reserved_setIdx (r : PseudoReg) : (pseudoRegSetIdx r 1024).getLsbD 31 = true := by
  rw [getLsbD_setIdx r 1024 (by decide)]
  simp [show Nat.testBit 1024 (31 - 21) = true from rfl]

/-! ### The limits -/

theorem next_start (b : Bool) : (({} : NextRegs).next b).toNat = 16 := by cases b <;> rfl

section
variable {α : Type*} {q : WebQueries α} {symbols : List Bool}
  {functions : List (BlockGraph α × (BlockId → LiveData))}

theorem symbols_limits (h : ∀ r ∈ symbolRegs {} symbols, Fresh r) (b : Bool) :
    symbols.count b ≤ 2 ^ 20 - 16 := by
  by_contra hgt
  have hflag := symbolRegs_beyond b symbols {} (by rw [next_start]; decide)
    (by rw [next_start]; omega)
  exact absurd (h _ hflag).physical (by decide)

theorem pseudo_symbolRegs (h : ∀ b, symbols.count b ≤ 2 ^ 20 - 16) :
    ∀ r ∈ symbolRegs {} symbols, Pseudo r := by
  intro r hr
  obtain ⟨-, -, hmem⟩ := symbolRegs_within symbols {} fun b => by
    have := h b
    rw [next_start]
    omega
  obtain ⟨b, i, rfl, hle, hlt⟩ := hmem r hr
  rw [next_start] at hle
  exact pseudo_regOf b hle hlt

/-- Every name of the translation unit is good exactly within the limits. -/
theorem names_iff (hblocks : ∀ f ∈ functions, f.1.blocks.Nodup)
    (hregs : ∀ f ∈ functions, ∀ r ∈ namedDefs q f.1, r ∈ symbolRegs {} symbols) :
    GoodNames q symbols functions ↔ WithinLimits q symbols functions := by
  constructor
  · intro h
    have hcount := symbols_limits h.fresh
    refine ⟨hcount true, hcount false, fun f hf r => ?_⟩
    by_contra hgt
    have hpseudo : ∀ d ∈ namedDefs q f.1, Pseudo d := fun d hd =>
      pseudo_symbolRegs hcount d (hregs f hf d hd)
    have hr : r ∈ namedDefs q f.1 := List.count_pos_iff.mp (by omega)
    have hbad := namesFrom_beyond (hpseudo r hr).base (namedDefs q f.1) (fun _ => 0)
      (fun d hd => (hpseudo d hd).base) (Nat.zero_le _) (by omega)
    obtain ⟨names, hwebs, -, -, hfresh⟩ := h.labels f hf
    rw [defWebs_names q f.2 (hblocks f hf)] at hwebs
    rw [List.map_injective_iff.mpr (fun _ _ heq => List.singleton_inj.mp heq) hwebs] at hbad
    have hreserved := (hfresh _ hbad).reserved
    rw [reserved_setIdx] at hreserved
    cases hreserved
  · intro h
    have hcount : ∀ b, symbols.count b ≤ 2 ^ 20 - 16 := fun b => by
      cases b
      · exact h.fregs
      · exact h.iregs
    have hpseudo := pseudo_symbolRegs hcount
    obtain ⟨hnodup, hcls, -⟩ := symbolRegs_within symbols {} fun b => by
      have := hcount b
      rw [next_start]
      omega
    refine ⟨hnodup, hcls, fun r hr => (hpseudo r hr).fresh, fun f hf => ?_⟩
    obtain ⟨hnames, hbase, hmem⟩ := namesFrom_within (namedDefs q f.1) (fun _ => 0)
      (fun d hd => hpseudo d (hregs f hf d hd)) fun r => by
        have := h.defs f hf r
        omega
    refine ⟨_, defWebs_names q f.2 (hblocks f hf), hnames, hbase, fun x hx => ?_⟩
    obtain ⟨r, k, hr, rfl, -, hk⟩ := hmem x hx
    exact fresh_setIdx hr hk

end

theorem one_block_closed : ∀ b ∈ ([0] : List BlockId), ([] : List BlockId) ⊆ [0] := by decide

/-- A function that sets the first register there is. -/
def setsOne : BlockGraph Insn where
  blocks := [0]
  insns _ := [insnNew .move (some (operandReg .int 16)) (some (operandI .int 1 none))]
  conditional _ := false
  control _ := none
  succs _ := []
  closed := one_block_closed

theorem names_iff_one :
    GoodNames insnWebQueries [true, false] [(setsOne, fun _ => ⟨[], ∅, ∅⟩)] :=
  have hdefs : namedDefs insnWebQueries setsOne = [16] := rfl
  have hone : setsOne.blocks.Nodup := List.nodup_singleton 0
  (names_iff (List.forall_mem_singleton.mpr hone)
    (List.forall_mem_singleton.mpr fun r hr => by
      rw [hdefs] at hr
      rw [List.mem_singleton.mp hr]
      decide)).mpr
    { iregs := by decide
      fregs := by decide
      defs := List.forall_mem_singleton.mpr fun r => by
        rw [hdefs]
        exact List.count_le_length.trans (by decide) }

/-- A symbol too many of a discrete type gets the register %xmm0. -/
theorem names_beyond : ¬ ∀ symbols : List Bool, GoodNames insnWebQueries symbols [] := by
  intro h
  have hle := symbols_limits (h (List.replicate (2 ^ 20 - 15) true)).fresh true
  rw [List.count_replicate_self] at hle
  exact absurd hle (by decide)

end Ncc.Webs
