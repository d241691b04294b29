import Ncc.Webs

/-! Target-independent insns with renamed registers (insn.c).

    An operand is either USEd or DEFd; only I_ASM has sets and maps of registers. `Mirrors` says what a
    sequence of substitutions has made of an insn: every operand and every entry of the maps has its
    register renamed. From it follow both that stripping undoes the substitutions and that the insn
    does under the new names what it did under the old. -/

namespace Ncc.Webs

/-- `webs.c` on target-independent insns. -/
def insnWebQueries : WebQueries Insn where
  toQueries := insnQueries
  substitute := insnSubstitute
  strip := insnStripIndices

/-- A target-independent insn either USEs or DEFs an operand. -/
def insnOccurs (insn : Insn) (o : Occ) : Prop :=
  (o.reg ∈ insnDefsRegs insn ∧ o.defs = true ∧ o.use = false) ∨
    (o.reg ∈ insnUsesRegs insn ∧ o.use = true ∧ o.defs = false)

/-- What `asm_statement` makes of the output clause: the variables it maps are DEFd, and no others. -/
structure AsmFormed (a : Iasm) : Prop where
  defs : a.defs.Pairwise (· < ·)
  uses : a.uses.Pairwise (· < ·)
  outputs : ∀ e ∈ a.outputs.entries, e.2 ∈ a.defs ∨ e.2 = regNone
  mapped : ∀ r ∈ a.defs, ∃ e ∈ a.outputs.entries, e.2 = r

/-- The insns of the front end and of the passes before target code. -/
structure WebFormed (insn : Insn) : Prop where
  formed : insn.Formed
  asm : insn.op = .asm → AsmFormed insn.iasm

section
variable {insn : Insn} {bef aft r : PseudoReg} {d u : Bool}

theorem physical_regNone : regPhysical regNone = true := by decide

theorem sorted_regsSubstitute {s : Regs} (h : s.Pairwise (· < ·)) :
    (regsSubstitute s bef aft).Pairwise (· < ·) := by
  unfold regsSubstitute
  split
  · exact sorted_regsAdd (h.filter _)
  · exact h

theorem AsmFormed.substituteDefs {a : Iasm} (h : AsmFormed a) (hb : regPhysical bef = false) :
    AsmFormed (a.substituteDefs bef aft) := by
  refine ⟨sorted_regsSubstitute h.defs, h.uses, fun e he => ?_, fun r hr => ?_⟩
  · obtain ⟨v, hv, hev⟩ := Assoc.mem_mapValues.mp (Assoc.mem_def.mpr he)
    rw [← hev]
    rcases h.outputs _ hv with hd | hn
    · refine Or.inl (mem_regsSubstitute.mpr ?_)
      by_cases hvb : v = bef
      · subst hvb; exact Or.inl ⟨if_pos rfl, hd⟩
      · rw [if_neg hvb]; exact Or.inr ⟨hd, hvb⟩
    · have hvn : v = regNone := hn
      have hne : v ≠ bef := by
        rintro rfl
        rw [hvn, physical_regNone] at hb
        exact absurd hb (by decide)
      exact Or.inr (by rw [if_neg hne]; exact hvn)
  · have hfind : ∀ x ∈ a.defs, ∃ e ∈ (a.substituteDefs bef aft).outputs.entries,
        e.2 = if x = bef then aft else x := by
      intro x hx
      obtain ⟨e, he, rfl⟩ := h.mapped x hx
      exact ⟨(e.1, if e.2 = bef then aft else e.2), Assoc.mem_mapValues.mpr ⟨e.2, he, rfl⟩, rfl⟩
    rcases mem_regsSubstitute.mp hr with ⟨rfl, hbef⟩ | ⟨hr, hne⟩
    · obtain ⟨e, he, hv⟩ := hfind bef hbef
      exact ⟨e, he, by rw [hv, if_pos rfl]⟩
    · obtain ⟨e, he, hv⟩ := hfind r hr
      exact ⟨e, he, by rw [hv, if_neg hne]⟩

theorem operandSubstituteReg_none : operandSubstituteReg none bef aft = none := rfl

theorem webFormed_substituteDefs (h : WebFormed insn) (hb : regPhysical bef = false) :
    WebFormed (insnSubstituteDefs insn bef aft) := by
  refine ⟨⟨h.formed.real, fun hd => ?_, h.formed.cc⟩, fun hop => ?_⟩
  · have hdst : insn.dst = none := h.formed.dst hd
    simp only [insnSubstituteDefs, hdst, operandSubstituteReg_none, ite_self]
  · have hop : insn.op = .asm := hop
    simp only [insnSubstituteDefs, hop, if_true]
    exact (h.asm hop).substituteDefs hb

theorem webFormed_substituteUses (h : WebFormed insn) :
    WebFormed (insnSubstituteUses insn bef aft) := by
  refine ⟨⟨h.formed.real, fun hd => ?_, h.formed.cc⟩, fun hop => ?_⟩
  · have hdst : insn.dst = none := h.formed.dst hd
    simp only [insnSubstituteUses, hdst, operandSubstituteReg_none, ite_self]
  · have hop : insn.op = .asm := hop
    have ha := h.asm hop
    simp only [insnSubstituteUses, hop, if_true]
    exact ⟨ha.defs, sorted_regsSubstitute ha.uses, ha.outputs, ha.mapped⟩

theorem mem_defsRegs_substitute : r ∈ insnDefsRegs (insnSubstitute insn bef aft d u) ↔
    if d then (r = aft ∧ bef ∈ insnDefsRegs insn) ∨ (r ∈ insnDefsRegs insn ∧ r ≠ bef)
    else r ∈ insnDefsRegs insn := by
  cases d <;> cases u <;> simp [insnSubstitute, mem_defsRegs_substituteDefs]

theorem mem_usesRegs_substitute : r ∈ insnUsesRegs (insnSubstitute insn bef aft d u) ↔
    if u then (r = aft ∧ bef ∈ insnUsesRegs insn) ∨ (r ∈ insnUsesRegs insn ∧ r ≠ bef)
    else r ∈ insnUsesRegs insn := by
  cases d <;> cases u <;> simp [insnSubstitute, mem_usesRegs_substituteUses]

theorem insnOccurs_substitute {o' : Occ} : insnOccurs (insnSubstitute insn bef aft d u) o' ↔
    ∃ o, insnOccurs insn o ∧ o' = o.substitute bef aft d u := by
  obtain ⟨r, use, defs⟩ := o'
  simp only [insnOccurs, mem_defsRegs_substitute, mem_usesRegs_substitute]
  constructor
  · rintro (⟨hr, rfl, rfl⟩ | ⟨hr, rfl, rfl⟩)
    · cases d with
      | false => exact ⟨⟨r, false, true⟩, Or.inl ⟨hr, rfl, rfl⟩, by simp [Occ.substitute]⟩
      | true =>
        rcases hr with ⟨rfl, hb⟩ | ⟨hr, hne⟩
        · exact ⟨⟨bef, false, true⟩, Or.inl ⟨hb, rfl, rfl⟩, by simp [Occ.substitute]⟩
        · exact ⟨⟨r, false, true⟩, Or.inl ⟨hr, rfl, rfl⟩, by simp [Occ.substitute, hne]⟩
    · cases u with
      | false => exact ⟨⟨r, true, false⟩, Or.inr ⟨hr, rfl, rfl⟩, by simp [Occ.substitute]⟩
      | true =>
        rcases hr with ⟨rfl, hb⟩ | ⟨hr, hne⟩
        · exact ⟨⟨bef, true, false⟩, Or.inr ⟨hb, rfl, rfl⟩, by simp [Occ.substitute]⟩
        · exact ⟨⟨r, true, false⟩, Or.inr ⟨hr, rfl, rfl⟩, by simp [Occ.substitute, hne]⟩
  · rintro ⟨⟨x, use', defs'⟩, ⟨hx, hd, hu⟩ | ⟨hx, hu, hd⟩, he⟩
    · simp only at hx hd hu
      subst hd hu
      by_cases hc : x = bef ∧ d = true
      · obtain ⟨rfl, rfl⟩ := hc
        simp only [Occ.substitute, Bool.and_true, Bool.and_false, Bool.or_false, and_self, if_true,
          Occ.mk.injEq] at he
        obtain ⟨rfl, rfl, rfl⟩ := he
        exact Or.inl ⟨Or.inl ⟨rfl, hx⟩, rfl, rfl⟩
      · simp only [Occ.substitute, Bool.and_true, Bool.and_false, Bool.or_false, hc, if_false,
          Occ.mk.injEq] at he
        obtain ⟨rfl, rfl, rfl⟩ := he
        refine Or.inl ⟨?_, rfl, rfl⟩
        cases d with
        | false => exact hx
        | true => exact Or.inr ⟨hx, fun he => hc ⟨he, rfl⟩⟩
    · simp only at hx hd hu
      subst hd hu
      by_cases hc : x = bef ∧ u = true
      · obtain ⟨rfl, rfl⟩ := hc
        simp only [Occ.substitute, Bool.and_true, Bool.and_false, Bool.false_or, and_self, if_true,
          Occ.mk.injEq] at he
        obtain ⟨rfl, rfl, rfl⟩ := he
        exact Or.inr ⟨Or.inl ⟨rfl, hx⟩, rfl, rfl⟩
      · simp only [Occ.substitute, Bool.and_true, Bool.and_false, Bool.false_or, hc, if_false,
          Occ.mk.injEq] at he
        obtain ⟨rfl, rfl, rfl⟩ := he
        refine Or.inr ⟨?_, rfl, rfl⟩
        cases u with
        | false => exact hx
        | true => exact Or.inr ⟨hx, fun he => hc ⟨he, rfl⟩⟩

end

/-- A physical register is never renamed, and no other register becomes one. -/
theorem Renaming.physical {α : Type*} {q : WebQueries α} {i i' : α} {ν : Occ → PseudoReg}
    (h : Renaming q i i' ν) (o : Occ) : (regPhysical o.reg = true → ν o = o.reg) ∧
      regPhysical (ν o) = regPhysical o.reg := by
  induction h with
  | refl => exact ⟨fun _ => rfl, rfl⟩
  | step bef aft d u _ hb ha ih =>
    simp only [substitute_reg]
    obtain ⟨ih₁, ih₂⟩ := ih
    split
    · rename_i hc
      refine ⟨fun hp => ?_, ?_⟩
      · rw [← hc.1, ih₂, hp] at hb
        exact absurd hb (by decide)
      · rw [ha, ← hb, ← hc.1, ih₂]
    · exact ⟨ih₁, ih₂⟩

/-! ### What a renamed insn is -/

/-- The operand with its register renamed. -/
def operandRename (f : PseudoReg → PseudoReg) (o : Option Operand) : Option Operand :=
  o.map fun o =>
    match o.val with
    | .reg r => { o with val := .reg (f r) }
    | .con _ _ => o

section
variable {o : Option Operand} {f f' : PseudoReg → PseudoReg} {bef aft : PseudoReg}

theorem operandRename_congr (h : ∀ r ∈ operandRegs o, f r = f' r) :
    operandRename f o = operandRename f' o := by
  rcases o with _ | ⟨ts, _ | x, n⟩
  · rfl
  · rfl
  · simp only [operandRename, Option.map_some, h x (List.mem_singleton_self x)]

theorem operandRename_id (h : ∀ r ∈ operandRegs o, f r = r) : operandRename f o = o := by
  rcases o with _ | ⟨ts, _ | x, n⟩
  · rfl
  · rfl
  · simp only [operandRename, Option.map_some, h x (List.mem_singleton_self x)]

theorem operandSubstituteReg_rename : operandSubstituteReg (operandRename f o) bef aft =
    operandRename (fun r => if f r = bef then aft else f r) o := by
  rcases o with _ | ⟨ts, _ | x, n⟩
  · rfl
  · rfl
  · simp only [operandSubstituteReg, operandRename, Option.map_some]
    split <;> rfl

theorem operandStrip_rename : operandStrip (operandRename f o) =
    operandRename (fun r => pseudoRegBase (f r)) o := by
  rcases o with _ | ⟨ts, _ | x, n⟩ <;> rfl

@[simp] theorem tsOpt_rename : tsOpt (operandRename f o) = tsOpt o := by
  rcases o with _ | ⟨ts, _ | x, n⟩ <;> rfl

theorem readOpt_rename {env : Env} {regs regs' : PseudoReg → Word}
    (h : ∀ r ∈ operandRegs o, regs' (f r) = regs r) :
    readOpt env regs' (operandRename f o) = readOpt env regs o := by
  rcases o with _ | ⟨ts, _ | x, n⟩
  · rfl
  · rfl
  · simp only [operandRename, Option.map_some, readOpt, Operand.read,
      h x (List.mem_singleton_self x)]

end

/-- `a'` is the payload `a` with its variables renamed. -/
structure AsmMirrors (a a' : Iasm) (ν : Occ → PseudoReg) : Prop where
  text : a'.text = a.text
  flags : (a'.defsMem, a'.usesMem, a'.defsCc) = (a.defsMem, a.usesMem, a.defsCc)
  inputs : a'.inputs.entries = a.inputs.entries.map fun e => (e.1, ν ⟨e.2, true, false⟩)
  outputs : a'.outputs.entries = a.outputs.entries.map fun e => (e.1, ν ⟨e.2, false, true⟩)
  defs : ∀ r, r ∈ a'.defs ↔ ∃ x ∈ a.defs, r = ν ⟨x, false, true⟩
  uses : ∀ r, r ∈ a'.uses ↔ ∃ x ∈ a.uses, r = ν ⟨x, true, false⟩

/-- `i'` is `i` with its registers renamed. -/
structure Mirrors (i i' : Insn) (ν : Occ → PseudoReg) : Prop where
  op : i'.op = i.op
  isVolatile : i'.isVolatile = i.isVolatile
  dst : i'.dst = operandRename (fun r => ν ⟨r, i.op.useDst, !i.op.useDst⟩) i.dst
  src1 : i'.src1 = operandRename (fun r => ν ⟨r, true, false⟩) i.src1
  src2 : i'.src2 = operandRename (fun r => ν ⟨r, true, false⟩) i.src2
  other : i.op ≠ .asm → i'.iasm = i.iasm
  asm : i.op = .asm → AsmMirrors i.iasm i'.iasm ν

section
variable {i i' : Insn} {ν ν' : Occ → PseudoReg} {bef aft : PseudoReg}

/-- The image of a set under a renaming, after one more substitution. -/
theorem mem_substitute_image {s s' : Regs} {f : PseudoReg → PseudoReg} {r : PseudoReg}
    (h : ∀ r, r ∈ s' ↔ ∃ x ∈ s, r = f x) : r ∈ regsSubstitute s' bef aft ↔
      ∃ x ∈ s, r = if f x = bef then aft else f x := by
  rw [mem_regsSubstitute, h, h]
  constructor
  · rintro (⟨rfl, x, hx, rfl⟩ | ⟨⟨x, hx, rfl⟩, hne⟩)
    · exact ⟨x, hx, (if_pos rfl).symm⟩
    · exact ⟨x, hx, (if_neg hne).symm⟩
  · rintro ⟨x, hx, rfl⟩
    by_cases hf : f x = bef
    · exact Or.inl ⟨if_pos hf, x, hx, hf.symm⟩
    · rw [if_neg hf]; exact Or.inr ⟨⟨x, hx, rfl⟩, hf⟩

theorem Mirrors.substituteDefs (h : Mirrors i i' ν) (hν : ∀ r, ν' ⟨r, true, false⟩ =
    ν ⟨r, true, false⟩ ∧ ν' ⟨r, false, true⟩ =
      if ν ⟨r, false, true⟩ = bef then aft else ν ⟨r, false, true⟩) :
    Mirrors i (insnSubstituteDefs i' bef aft) ν' := by
  have huse : ∀ o, operandRename (fun r => ν ⟨r, true, false⟩) o =
      operandRename (fun r => ν' ⟨r, true, false⟩) o :=
    fun o => operandRename_congr fun r _ => (hν r).1.symm
  refine ⟨h.op, h.isVolatile, ?_, h.src1.trans (huse _), h.src2.trans (huse _), fun hop => ?_,
    fun hop => ?_⟩
  · simp only [insnSubstituteDefs, h.op, h.dst]
    cases hu : i.op.useDst with
    | true => exact huse _
    | false =>
      rw [if_neg (by simp), operandSubstituteReg_rename]
      exact operandRename_congr fun r _ => ((hν r).2).symm
  · simp only [insnSubstituteDefs, h.op, if_neg hop]
    exact h.other hop
  · simp only [insnSubstituteDefs, h.op, if_pos hop]
    obtain ⟨ht, hf, hi, ho, hd, hu⟩ := h.asm hop
    refine ⟨ht, hf, ?_, ?_, fun r => ?_, fun r => ?_⟩
    · rw [Iasm.substituteDefs, hi]
      exact List.map_congr_left fun e _ => by rw [(hν e.2).1]
    · simp only [Iasm.substituteDefs, regmapsSubstitute, Assoc.mapValues, ho, List.map_map]
      exact List.map_congr_left fun e _ => by rw [(hν e.2).2]; rfl
    · simp only [Iasm.substituteDefs, mem_substitute_image hd, (hν _).2]
    · simp only [Iasm.substituteDefs, hu, (hν _).1]

theorem Mirrors.substituteUses (h : Mirrors i i' ν) (hν : ∀ r, ν' ⟨r, false, true⟩ =
    ν ⟨r, false, true⟩ ∧ ν' ⟨r, true, false⟩ =
      if ν ⟨r, true, false⟩ = bef then aft else ν ⟨r, true, false⟩) :
    Mirrors i (insnSubstituteUses i' bef aft) ν' := by
  have huse : ∀ o, operandSubstituteReg (operandRename (fun r => ν ⟨r, true, false⟩) o) bef aft =
      operandRename (fun r => ν' ⟨r, true, false⟩) o := by
    intro o
    rw [operandSubstituteReg_rename]
    exact operandRename_congr fun r _ => ((hν r).2).symm
  refine ⟨h.op, h.isVolatile, ?_, ?_, ?_, fun hop => ?_, fun hop => ?_⟩
  · simp only [insnSubstituteUses, h.op, h.dst]
    cases hu : i.op.useDst with
    | true => exact huse _
    | false => exact operandRename_congr fun r _ => ((hν r).1).symm
  · simp only [insnSubstituteUses, h.src1]
    exact huse _
  · simp only [insnSubstituteUses, h.src2]
    exact huse _
  · simp only [insnSubstituteUses, h.op, if_neg hop]
    exact h.other hop
  · simp only [insnSubstituteUses, h.op, if_pos hop]
    obtain ⟨ht, hf, hi, ho, hd, hu⟩ := h.asm hop
    refine ⟨ht, hf, ?_, ?_, fun r => ?_, fun r => ?_⟩
    · simp only [Iasm.substituteUses, regmapsSubstitute, Assoc.mapValues, hi, List.map_map]
      exact List.map_congr_left fun e _ => by rw [(hν e.2).2]; rfl
    · rw [Iasm.substituteUses, ho]
      exact List.map_congr_left fun e _ => by rw [(hν e.2).1]
    · simp only [Iasm.substituteUses, hd, (hν _).1]
    · simp only [Iasm.substituteUses, mem_substitute_image hu, (hν _).2]

theorem mirrors_refl (i : Insn) : Mirrors i i Occ.reg := by
  have hid : ∀ o : Option Operand, o = operandRename (fun r => r) o :=
    fun o => (operandRename_id fun _ _ => rfl).symm
  refine ⟨rfl, rfl, hid _, hid _, hid _, fun _ => rfl, fun _ => ⟨rfl, rfl, ?_, ?_, ?_, ?_⟩⟩
  all_goals simp

theorem substitute_mk_reg (r bef aft : PseudoReg) (use defs d u : Bool) :
    ((⟨r, use, defs⟩ : Occ).substitute bef aft d u).reg =
      if r = bef ∧ ((d && defs) || (u && use)) = true then aft else r :=
  substitute_reg ⟨r, use, defs⟩ r bef aft d u

/-- What renaming makes of a target-independent insn. -/
theorem mirrors_of_renaming (h : Renaming insnWebQueries i i' ν) : Mirrors i i' ν := by
  induction h with
  | refl => exact mirrors_refl i
  | @step i' ν bef aft d u _ hb ha ih =>
    have hmid : Mirrors i (if d then insnSubstituteDefs i' bef aft else i')
        fun o => ({ o with reg := ν o }.substitute bef aft d false).reg := by
      cases d with
      | true => exact ih.substituteDefs fun r => by simp [substitute_mk_reg]
      | false =>
        have heq : (fun o : Occ => ({ o with reg := ν o }.substitute bef aft false false).reg) = ν := by
          funext o
          simp [substitute_reg]
        rw [heq]
        exact ih
    show Mirrors i (insnSubstitute i' bef aft d u) _
    cases u with
    | false => exact hmid
    | true =>
      refine hmid.substituteUses fun r => ?_
      simp [substitute_mk_reg]

end

section
variable {i i' : Insn} {ν : Occ → PseudoReg}

theorem occurs_src1 {r : PseudoReg} (h : r ∈ operandRegs i.src1) : insnOccurs i ⟨r, true, false⟩ := by
  refine Or.inr ⟨?_, rfl, rfl⟩
  simp only [insnUsesRegs]
  split <;> simp [h]

theorem occurs_src2 {r : PseudoReg} (h : r ∈ operandRegs i.src2) : insnOccurs i ⟨r, true, false⟩ := by
  refine Or.inr ⟨?_, rfl, rfl⟩
  simp only [insnUsesRegs]
  split <;> simp [h]

theorem occurs_dst {r : PseudoReg} (h : r ∈ operandRegs i.dst) :
    insnOccurs i ⟨r, i.op.useDst, !i.op.useDst⟩ := by
  cases hu : i.op.useDst with
  | true =>
    refine Or.inr ⟨?_, rfl, rfl⟩
    simp only [insnUsesRegs, hu, if_true]
    split <;> simp [h]
  | false =>
    refine Or.inl ⟨?_, rfl, rfl⟩
    simp only [insnDefsRegs, hu]
    split <;> simp [h]

theorem occurs_asmUses {r : PseudoReg} (hop : i.op = .asm) (h : r ∈ i.iasm.uses) :
    insnOccurs i ⟨r, true, false⟩ := by
  refine Or.inr ⟨?_, rfl, rfl⟩
  simp only [insnUsesRegs, hop, if_true]
  simp [h]

theorem occurs_asmDefs {r : PseudoReg} (hop : i.op = .asm) (h : r ∈ i.iasm.defs) :
    insnOccurs i ⟨r, false, true⟩ := by
  refine Or.inl ⟨?_, rfl, rfl⟩
  simp only [insnDefsRegs, hop, if_true]
  simp [h]

theorem regsStrip_image {s s' : Regs} {f : PseudoReg → PseudoReg} (hs : s.Pairwise (· < ·))
    (h : ∀ r, r ∈ s' ↔ ∃ x ∈ s, r = f x) (hf : ∀ x ∈ s, pseudoRegBase (f x) = x) :
    regsStrip s' = s := by
  refine regs_ext (sorted_foldl_regsAdd _ List.Pairwise.nil) hs fun r => ?_
  rw [mem_regsStrip]
  constructor
  · rintro ⟨y, hy, rfl⟩
    obtain ⟨x, hx, rfl⟩ := (h y).mp hy
    rw [hf x hx]
    exact hx
  · exact fun hr => ⟨f r, (h _).mpr ⟨r, hr, rfl⟩, (hf r hr).symm⟩

theorem regmapsStrip_image {m m' : Regmaps} {f : PseudoReg → PseudoReg}
    (h : m'.entries = m.entries.map fun e => (e.1, f e.2))
    (hf : ∀ e ∈ m.entries, pseudoRegBase (f e.2) = e.2) : regmapsStrip m' = m := by
  obtain ⟨es, hn⟩ := m
  have hes : m'.entries.map (fun e => (e.1, pseudoRegBase e.2)) = es := by
    rw [h, List.map_map]
    conv_rhs => rw [← List.map_id es]
    exact List.map_congr_left fun e he => Prod.ext rfl (hf e he)
  simp only [regmapsStrip, Assoc.mapValues, hes]

/-- Stripping undoes a renaming that keeps the bases. -/
theorem strip_of_mirrors (hf : WebFormed i) (h : Renaming insnWebQueries i i' ν)
    (hν : ∀ o, insnOccurs i o → pseudoRegBase o.reg = o.reg ∧ pseudoRegBase (ν o) = o.reg) :
    insnStripIndices i' = i := by
  have hm := mirrors_of_renaming h
  have hdst : operandStrip i'.dst = i.dst := by
    rw [hm.dst, operandStrip_rename]
    exact operandRename_id fun r hr => (hν _ (occurs_dst hr)).2
  have hsrc1 : operandStrip i'.src1 = i.src1 := by
    rw [hm.src1, operandStrip_rename]
    exact operandRename_id fun r hr => (hν _ (occurs_src1 hr)).2
  have hsrc2 : operandStrip i'.src2 = i.src2 := by
    rw [hm.src2, operandStrip_rename]
    exact operandRename_id fun r hr => (hν _ (occurs_src2 hr)).2
  have hasm : (if i'.op = .asm then i'.iasm.strip else i'.iasm) = i.iasm := by
    by_cases hop : i.op = .asm
    · rw [if_pos (hm.op.trans hop)]
      obtain ⟨ht, hfl, hi, ho, hd, hu⟩ := hm.asm hop
      have ha := hf.asm hop
      have hdefs : regsStrip i'.iasm.defs = i.iasm.defs :=
        regsStrip_image ha.defs hd fun x hx => (hν _ (occurs_asmDefs hop hx)).2
      have huses : regsStrip i'.iasm.uses = i.iasm.uses :=
        regsStrip_image ha.uses hu fun x hx => (hν _ (occurs_asmUses hop hx)).2
      have hin : regmapsStrip i'.iasm.inputs = i.iasm.inputs :=
        @regmapsStrip_image _ _ (fun v => ν ⟨v, true, false⟩) hi fun e he =>
          (hν _ (occurs_asmUses hop (i.iasm.inputs_uses e he))).2
      have hout : regmapsStrip i'.iasm.outputs = i.iasm.outputs := by
        refine @regmapsStrip_image _ _ (fun v => ν ⟨v, false, true⟩) ho fun e he => ?_
        rcases ha.outputs e he with hd' | hn
        · exact (hν _ (occurs_asmDefs hop hd')).2
        · -- no variable
          have hp := (h.physical ⟨e.2, false, true⟩).1 (hn ▸ physical_regNone)
          have hp : ν ⟨e.2, false, true⟩ = e.2 := hp
          rw [hp, hn]
          decide
      simp only [Prod.mk.injEq] at hfl
      obtain ⟨hf₁, hf₂, hf₃⟩ := hfl
      generalize i'.iasm = a at *
      generalize i.iasm = c at *
      obtain ⟨t', d', u', in', out', m₁, m₂, m₃, p'⟩ := a
      obtain ⟨t, d, u, inn, out, k₁, k₂, k₃, p⟩ := c
      simp only at ht hf₁ hf₂ hf₃ hdefs huses hin hout
      subst ht hf₁ hf₂ hf₃ hdefs huses hin hout
      rfl
    · rw [if_neg (hm.op ▸ hop)]
      exact hm.other hop
  have hop := hm.op
  have hvol := hm.isVolatile
  simp only [insnStripIndices, hdst, hsrc1, hsrc2, hasm]
  rw [hop, hvol]

/-- The appearances in target-independent insns. -/
def insnAppearances : Appearances insnWebQueries where
  formed := WebFormed
  occurs := insnOccurs
  mem_defs {i r} _ := by
    constructor
    · exact fun h => ⟨⟨r, false, true⟩, Or.inl ⟨h, rfl, rfl⟩, rfl, rfl⟩
    · rintro ⟨o, ⟨hr, -, -⟩ | ⟨-, -, hd⟩, hd', rfl⟩
      · exact hr
      · rw [hd] at hd'; exact absurd hd' (by decide)
  mem_uses {i r} _ := by
    constructor
    · exact fun h => ⟨⟨r, true, false⟩, Or.inr ⟨h, rfl, rfl⟩, rfl, rfl⟩
    · rintro ⟨o, ⟨-, -, hu⟩ | ⟨hr, -, -⟩, hu', rfl⟩
      · rw [hu] at hu'; exact absurd hu' (by decide)
      · exact hr
  formed_substitute {i bef aft d u} h hb _ := by
    show WebFormed (insnSubstitute i bef aft d u)
    cases d <;> cases u
    · exact h
    · exact webFormed_substituteUses h
    · exact webFormed_substituteDefs h hb
    · exact webFormed_substituteUses (webFormed_substituteDefs h hb)
  occurs_substitute _ _ _ := insnOccurs_substitute
  strip := strip_of_mirrors

/-! ### What a renamed insn does -/

/-- A result is written to the renamed dst. -/
theorem write_rename {s t : State} {dst : Option Operand} {f : PseudoReg → PseudoReg} {v : Word}
    {r : PseudoReg} (hr : r ∈ operandRegs dst) :
    (t.write (operandRename f dst) v).regs (f r) = (s.write dst v).regs r := by
  rcases dst with _ | ⟨ts, _ | x, n⟩
  · exact absurd hr List.not_mem_nil
  · exact absurd hr List.not_mem_nil
  · rw [List.mem_singleton.mp hr]
    simp [State.write, operandRename]

/-- The machine register of a renamed output variable. -/
theorem source_mirrors {a a' : Iasm} (h : AsmMirrors a a' ν) {r : PseudoReg} (hr : r ∈ a.defs)
    (hf : AsmFormed a)
    (hinj : ∀ e ∈ a.outputs.entries, ν ⟨e.2, false, true⟩ = ν ⟨r, false, true⟩ → e.2 = r) :
    a'.source (ν ⟨r, false, true⟩) = a.source r := by
  have hfind : a'.outputs.entries.find? (fun e => decide (e.2 = ν ⟨r, false, true⟩)) =
      (a.outputs.entries.find? fun e => decide (e.2 = r)).map
        fun e => (e.1, ν ⟨e.2, false, true⟩) := by
    rw [h.outputs, List.find?_map]
    congr 1
    refine List.find?_congr fun e he => ?_
    simp only [Function.comp]
    exact decide_eq_decide.mpr ⟨hinj e he, fun h => by rw [h]⟩
  obtain ⟨e, he, her⟩ := hf.mapped r hr
  have hsome : (a.outputs.entries.find? fun e => decide (e.2 = r)).isSome :=
    List.find?_isSome.mpr ⟨e, he, decide_eq_true her⟩
  obtain ⟨e', he'⟩ := Option.isSome_iff_exists.mp hsome
  simp only [Iasm.source, hfind, he', Option.map_some, Option.getD_some]

variable {s t : State}

/-- Executing a renamed insn. -/
theorem exec_mirrors (env : Env) (hf : WebFormed i) (h : Renaming insnWebQueries i i' ν)
    (hrest : (t.ccs, t.mem, t.args, t.ret) = (s.ccs, s.mem, s.args, s.ret))
    (huse : ∀ o, insnOccurs i o → o.use = true → t.regs (ν o) = s.regs o.reg)
    (hinj : ∀ o o', insnOccurs i o → insnOccurs i o' → o.defs = true → o'.defs = true →
      ν o = ν o' → o.reg = o'.reg) :
    (let u := exec env i' t; (u.ccs, u.mem, u.args, u.ret)) =
        (let u := exec env i s; (u.ccs, u.mem, u.args, u.ret)) ∧
      ∀ o, insnOccurs i o → o.defs = true →
        (exec env i' t).regs (ν o) = (exec env i s).regs o.reg := by
  have hm := mirrors_of_renaming h
  simp only [Prod.mk.injEq] at hrest
  obtain ⟨hccs, hmem, hargs, hret⟩ := hrest
  have ha : readOpt env t.regs i'.src1 = readOpt env s.regs i.src1 := by
    rw [hm.src1]
    exact readOpt_rename fun r hr => huse _ (occurs_src1 hr) rfl
  have hb : readOpt env t.regs i'.src2 = readOpt env s.regs i.src2 := by
    rw [hm.src2]
    exact readOpt_rename fun r hr => huse _ (occurs_src2 hr) rfl
  have hd : i.op.useDst = true → readOpt env t.regs i'.dst = readOpt env s.regs i.dst := by
    intro hu
    rw [hm.dst]
    exact readOpt_rename fun r hr => huse _ (occurs_dst hr) hu
  have hts₁ : tsOpt i'.src1 = tsOpt i.src1 := by rw [hm.src1, tsOpt_rename]
  have htsd : tsOpt i'.dst = tsOpt i.dst := by rw [hm.dst, tsOpt_rename]
  -- a DEF of anything but inline assembly is the dst
  have hdef : i.op ≠ .asm → ∀ o, insnOccurs i o → o.defs = true →
      o = ⟨o.reg, false, true⟩ ∧ i.op.useDst = false ∧ o.reg ∈ operandRegs i.dst := by
    rintro hop ⟨r, use, defs⟩ ho hdd
    rcases ho with ⟨hr, -, hu⟩ | ⟨-, -, hd'⟩
    · have hu : use = false := hu
      have hdd : defs = true := hdd
      subst hu hdd
      simp only [insnDefsRegs, if_neg hop] at hr
      cases hu : i.op.useDst with
      | true => rw [hu] at hr; exact absurd hr List.not_mem_nil
      | false => rw [hu] at hr; exact ⟨rfl, rfl, hr⟩
    · rw [hd'] at hdd; exact absurd hdd (by decide)
  have hwrite : i.op ≠ .asm → ∀ (s₁ t₁ : State) (v : Word), ∀ o, insnOccurs i o → o.defs = true →
      (t₁.write i'.dst v).regs (ν o) = (s₁.write i.dst v).regs o.reg := by
    intro hop s₁ t₁ v o ho hdd
    obtain ⟨he, hu, hr⟩ := hdef hop o ho hdd
    rw [hm.dst, he, hu]
    exact @write_rename s₁ t₁ i.dst (fun r => ν ⟨r, false, true⟩) v o.reg hr
  have hnone : i.op ≠ .asm → (i.op.hasDst = false ∨ i.op.useDst = true) →
      ∀ o, insnOccurs i o → o.defs = true → False := by
    intro hop hno o ho hdd
    obtain ⟨-, hu, hr⟩ := hdef hop o ho hdd
    rcases hno with hno | hno
    · rw [hf.formed.dst hno] at hr
      exact absurd hr List.not_mem_nil
    · rw [hu] at hno; exact absurd hno (by decide)
  have hop' := hm.op
  cases hop : i.op with
  | number => exact absurd hop hf.formed.real
  | asm =>
    obtain ⟨ht, hfl, hi, ho, hdefs, -⟩ := hm.asm hop
    have hm' := hm.asm hop
    have hfa := hf.asm hop
    simp only [Prod.mk.injEq] at hfl
    obtain ⟨hf₁, hf₂, hf₃⟩ := hfl
    have hread : i'.iasm.read t.regs = i.iasm.read s.regs := by
      rw [Iasm.read, Iasm.read, hi, List.map_map]
      exact List.map_congr_left fun e he =>
        Prod.ext rfl (huse _ (occurs_asmUses hop (i.iasm.inputs_uses e he)) rfl)
    rw [hop] at hop'
    simp only [exec, hop, hop', execAsm, hread, ht, hf₁, hf₂, hf₃, hmem, hccs, hargs, hret]
    refine ⟨trivial, fun o hoc hdd => ?_⟩
    rcases hoc with ⟨hr, hd', hu⟩ | ⟨-, -, hd'⟩
    · obtain ⟨r, use, defs⟩ := o
      simp only at hr hd' hu
      subst hd' hu
      have hdst : i.dst = none := hf.formed.dst (by rw [hop]; rfl)
      have hrd : r ∈ i.iasm.defs := by
        simpa [insnDefsRegs, hop, hdst, operandRegs, InsnOp.useDst] using hr
      rw [if_pos ((hdefs _).mpr ⟨r, hrd, rfl⟩), if_pos hrd, source_mirrors hm' hrd hfa]
      intro e he heq
      rcases hfa.outputs e he with hed | hen
      · exact hinj _ _ (occurs_asmDefs hop hed) (occurs_asmDefs hop hrd) rfl rfl heq
      · -- no variable is not the name of one
        have hp := h.physical ⟨e.2, false, true⟩
        have hpr := h.physical ⟨r, false, true⟩
        have hphys : regPhysical e.2 = true := by rw [hen]; exact physical_regNone
        have hpr' : regPhysical r = true := by
          rw [← hpr.2, ← heq, hp.2]
          exact hphys
        have h₁ : ν ⟨e.2, false, true⟩ = e.2 := hp.1 hphys
        have h₂ : ν ⟨r, false, true⟩ = r := hpr.1 hpr'
        rw [← h₁, heq, h₂]
    · rw [hd'] at hdd; exact absurd hdd (by decide)
  | store | blkcopy | blkzero =>
    have hop'' : i.op ≠ .asm := by rw [hop]; decide
    have hu : i.op.useDst = true := by rw [hop]; rfl
    rw [hop] at hop'
    simp only [exec, hop, hop', hd hu, ha, hb, hts₁, hmem, hccs, hargs, hret]
    exact ⟨trivial, fun o ho hdd => (hnone hop'' (Or.inr hu) o ho hdd).elim⟩
  | nop | arg | varg | blkarg | ret | cmp | test =>
    have hop'' : i.op ≠ .asm := by rw [hop]; decide
    have hno : i.op.hasDst = false := by rw [hop]; rfl
    rw [hop] at hop'
    simp only [exec, hop, hop', ha, hb, hts₁, hmem, hccs, hargs, hret]
    exact ⟨trivial, fun o ho hdd => (hnone hop'' (Or.inl hno) o ho hdd).elim⟩
  | _ =>
    have hop'' : i.op ≠ .asm := by rw [hop]; simp
    rw [hop] at hop'
    simp only [exec, hop, hop', ha, hb, hts₁, htsd, hmem, hccs, hargs, hret, write_ccs,
      write_mem, write_args, write_ret]
    exact ⟨trivial, fun o ho hdd => hwrite hop'' _ _ _ o ho hdd⟩

end

end Ncc.Webs
