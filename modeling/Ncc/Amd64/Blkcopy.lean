import Ncc.Amd64.CallRun

/-! Copying a block (amd64/gen.c: `blkcopy`).

    A small block is copied by moves with running displacements, a large one by REP MOVS. Nothing
    looks at the displacements again when they have been increased: `dehuge` and
    `amd64_operands_combine` see to it that a displacement fits in 32 bits, BLKCOPY0 does not, and
    `blkcopy_exact_iff` says that this is all that can go wrong. -/

namespace Ncc.Amd64

/-! ### What insns read -/

/-- One of the `n` bytes at an address. -/
def Within (a : Word) (n : Nat) (x : Word) : Prop := ∃ k < n, x = a + BitVec.ofNat 64 k

section
variable (env : Env) (callee : Word → Machine → Machine)

/-- The bytes that a string move reads when it is repeated. -/
def repeatReads (n : Nat) : Nat → Machine → Word → Prop
  | 0, _, _ => False
  | k + 1, s, x => Within (s.regs rsi) n x ∨
      repeatReads n k ((s.string n).setReg rcx (BitVec.ofNat 64 k)) x

/-- The bytes of memory that an insn reads; what a called function reads is left out. -/
def Code.Reads (code : Code) (s : Machine) (x : Word) : Prop :=
  match code.op, code.opr with
  | .leal, _ | .leaq, _ | .rep, _ | .zero, _ | .xmmzero, _ | .stosq, _ => False
  | .popq, _ => Within (s.regs rsp) 8 x
  | .movups, [src, _] => src.cls = .mem ∧ Within (src.address env s.regs) 16 x
  | op, [src, _] => src.cls = .mem ∧ Within (src.address env s.regs) op.moveSize x
  | _, [src] => src.cls = .mem ∧ Within (src.address env s.regs) 8 x
  | op, [] =>
    if s.rep then repeatReads op.stringSize (s.regs rcx).toNat s x
    else Within (s.regs rsi) op.stringSize x
  | _, _ => False

/-- The bytes that some insns read, one after the other. -/
def Reads : List Code → Machine → Word → Prop
  | [], _, _ => False
  | code :: l, s, x => code.Reads env s x ∨ Reads l (code.exec env callee s) x

end

/-- There is an AMD64 insn for the code: displacements are 32 bits, sign-extended. -/
def Code.Encodable (code : Code) : Prop := ∀ o ∈ code.opr, o.cls = .mem → hugeCon o.i = false

/-! ### Where the moves are -/

/-- The size of the last move of a small copy. -/
def lastSize (bytes : Nat) : Nat :=
  if bytes % 16 = 0 then 16 else if bytes % 8 = 0 then 8 else if bytes % 4 = 0 then 4
  else if bytes % 2 = 0 then 2 else 1

/-- How far from the beginning the last move of a small copy is. -/
def lastOffset (bytes : Nat) : Nat := bytes - lastSize bytes

theorem lastOffset_wide {i : Nat} (hi : i ≠ 0) : lastOffset (16 + i) = 16 + lastOffset i := by
  have hmod : ∀ m, m ∣ 16 → (16 + i) % m = i % m := by
    rintro m ⟨c, hc⟩
    rw [hc]
    simp
  have hle : lastSize i ≤ i := by
    unfold lastSize
    split_ifs <;> omega
  have hsize : lastSize (16 + i) = lastSize i := by
    rw [lastSize, hmod 16 (by decide), hmod 8 (by decide), hmod 4 (by decide), hmod 2 (by decide)]
    rfl
  rw [lastOffset, hsize, lastOffset]
  omega

theorem lastOffset_narrow : ∀ bytes < 16, bytes ≠ (blkcopyOp bytes).moveSize → bytes ≠ 0 →
    lastOffset bytes = (blkcopyOp bytes).moveSize + lastOffset (bytes - (blkcopyOp bytes).moveSize) := by
  decide

theorem lastOffset_single : ∀ bytes < 16, bytes = (blkcopyOp bytes).moveSize → lastOffset bytes = 0 := by
  decide

section
variable {env : Env} {callee : Word → Machine → Machine} {s : Machine} {o src dst r : Operand}
variable {n m k limit : Nat} {temp : TypeBits → Nat → PseudoReg} {selxns : Selxns}

theorem displace_displace (o : Operand) (i j : Nat) :
    (o.displace i).displace j = o.displace (i + j) := by
  simp only [Operand.displace, BitVec.ofNat_add, BitVec.add_assoc]

@[simp] theorem displace_zero (o : Operand) : o.displace 0 = o := by
  simp [Operand.displace]

/-- A temporary is no memory. -/
theorem orTmp_cls {t : Option Operand} (ht : ∀ o ∈ t, o.cls = .reg) (m : Nat) (ts : TypeBits) :
    (orTmp temp m ts t).2.cls = .reg := by
  cases t with
  | none => rfl
  | some o => exact ht o rfl

/-- The memory operands of the loop are at most as far from the beginning as the last of them. -/
theorem mem_blkcopyLoop {t tXmm : Option Operand} (ht : ∀ o ∈ t, o.cls = .reg)
    (htXmm : ∀ o ∈ tXmm, o.cls = .reg) {code : Code}
    (hc : code ∈ (blkcopyLoop temp m t tXmm src dst k).2) (ho : o ∈ code.opr) (hmem : o.cls = .mem) :
    ∃ c ≤ lastOffset k, o = src.displace c ∨ o = dst.displace c := by
  induction k using Nat.strong_induction_on generalizing m t tXmm src dst with
  | _ k ih =>
    unfold blkcopyLoop at hc
    split at hc
    · exact absurd hc List.not_mem_nil
    · next hk =>
      -- the first two insns, and the rest
      have hfirst : ∀ {op : Op} {r : Operand}, r.cls = .reg → code ∈ blkcopy0 op src dst r →
          o = src ∨ o = dst := by
        intro op r hr hc
        have hne : o ≠ r := fun h => absurd (hmem.symm.trans (h ▸ hr)) (by decide)
        simp only [blkcopy0, List.mem_cons, List.not_mem_nil, or_false] at hc
        rcases hc with rfl | rfl
        · exact .inl (by simpa [hne] using ho)
        · exact .inr (by simpa [hne] using ho)
      have hzero : o = src ∨ o = dst → ∃ c ≤ lastOffset k, o = src.displace c ∨ o = dst.displace c :=
        fun h => ⟨0, Nat.zero_le _, by simpa using h⟩
      split at hc
      · next h16 =>
        obtain ⟨i, rfl⟩ := Nat.exists_eq_add_of_le h16
        dsimp only at hc
        rw [Nat.add_sub_cancel_left] at hc
        rcases List.mem_append.mp hc with hc | hc
        · exact hzero (hfirst (orTmp_cls htXmm _ _) hc)
        · obtain ⟨c, hcle, hoc⟩ := ih i (by omega) ht
            (fun o ho => Option.some.inj ho ▸ orTmp_cls htXmm _ _) hc
          have hi : i ≠ 0 := by
            rintro rfl
            unfold blkcopyLoop at hc
            exact absurd hc List.not_mem_nil
          refine ⟨16 + c, by rw [lastOffset_wide hi]; omega, ?_⟩
          rwa [displace_displace, displace_displace] at hoc
      · next h16 =>
        obtain ⟨hpos, hle⟩ := moveSize_blkcopyOp k hk
        dsimp only at hc
        rcases List.mem_append.mp hc with hc | hc
        · exact hzero (hfirst (orTmp_cls ht _ _) hc)
        · obtain ⟨c, hcle, hoc⟩ := ih (k - (blkcopyOp k).moveSize) (by omega)
            (fun o ho => Option.some.inj ho ▸ orTmp_cls ht _ _) htXmm hc
          have hne : k ≠ (blkcopyOp k).moveSize := by
            intro h
            unfold blkcopyLoop at hc
            rw [dif_pos (by omega)] at hc
            exact absurd hc List.not_mem_nil
          refine ⟨(blkcopyOp k).moveSize + c, ?_, ?_⟩
          · rw [lastOffset_narrow k (by omega) hne hk]
            omega
          · rwa [displace_displace, displace_displace] at hoc

/-- There are insns for the last move. -/
theorem blkcopyLoop_last (hk : k ≠ 0) (m : Nat) (t tXmm : Option Operand) (src dst : Operand) :
    (∃ code ∈ (blkcopyLoop temp m t tXmm src dst k).2, src.displace (lastOffset k) ∈ code.opr) ∧
      ∃ code ∈ (blkcopyLoop temp m t tXmm src dst k).2, dst.displace (lastOffset k) ∈ code.opr := by
  induction k using Nat.strong_induction_on generalizing m t tXmm src dst with
  | _ k ih =>
    have hone : ∀ (op : Op) (r : Operand) (l : List Code),
        (∃ code ∈ blkcopy0 op src dst r ++ l, src ∈ code.opr) ∧
          ∃ code ∈ blkcopy0 op src dst r ++ l, dst ∈ code.opr :=
      fun op r l => ⟨⟨⟨op, [src, r]⟩, by simp [blkcopy0], by simp⟩,
        ⟨⟨op, [r, dst]⟩, by simp [blkcopy0], by simp⟩⟩
    have hmore : ∀ (pre l : List Code) (o : Operand), (∃ code ∈ l, o ∈ code.opr) →
        ∃ code ∈ pre ++ l, o ∈ code.opr := by
      intro pre l o h
      obtain ⟨code, hc, ho⟩ := h
      exact ⟨code, List.mem_append_right _ hc, ho⟩
    unfold blkcopyLoop
    rw [dif_neg hk]
    split
    · next h16 =>
      obtain ⟨i, rfl⟩ := Nat.exists_eq_add_of_le h16
      rcases Nat.eq_zero_or_pos i with rfl | hi
      · simpa [lastOffset, lastSize] using hone _ _ _
      · dsimp only
        rw [Nat.add_sub_cancel_left, lastOffset_wide hi.ne']
        obtain ⟨h₁, h₂⟩ := ih i (by omega) hi.ne' (orTmp temp m .double tXmm).1 t
          (some (orTmp temp m .double tXmm).2) (src.displace 16) (dst.displace 16)
        rw [displace_displace] at h₁ h₂
        exact ⟨hmore _ _ _ h₁, hmore _ _ _ h₂⟩
    · next h16 =>
      obtain ⟨hpos, hle⟩ := moveSize_blkcopyOp k hk
      dsimp only
      by_cases heq : k = (blkcopyOp k).moveSize
      · rw [lastOffset_single k (by omega) heq]
        simpa using hone _ _ _
      · rw [lastOffset_narrow k (by omega) heq hk]
        obtain ⟨h₁, h₂⟩ := ih (k - (blkcopyOp k).moveSize) (by omega) (by omega)
          (orTmp temp m .long t).1 (some (orTmp temp m .long t).2) tXmm
          (src.displace (blkcopyOp k).moveSize) (dst.displace (blkcopyOp k).moveSize)
        rw [displace_displace] at h₁ h₂
        exact ⟨hmore _ _ _ h₁, hmore _ _ _ h₂⟩

/-! ### Displacements -/

/-- The displacement of an address when it has been memorized. -/
def displacement (selxns : Selxns) (o : Operand) : Word :=
  if operandHuge (materialize selxns o) then 0 else (materialize selxns o).i

/-- The displacement of the last move fits. -/
def LastFits (selxns : Selxns) (bytes : Nat) (o : Operand) : Prop :=
  hugeCon (displacement selxns o + BitVec.ofNat 64 (lastOffset bytes)) = false

theorem memorize_i (n : Nat) (o : Operand) :
    (memorize temp selxns n o).2.1.i = displacement selxns o := by
  simp only [memorize, dehuge, displacement]
  split <;> rfl

theorem hugeCon_iff (i : Word) : hugeCon i = false ↔ -2 ^ 31 ≤ i.toInt ∧ i.toInt < 2 ^ 31 := by
  simp only [hugeCon, Bool.or_eq_false_iff, BitVec.slt, decide_eq_false_iff_not]
  have h₁ : (-0x80000000 : Word).toInt = -2 ^ 31 := by decide
  have h₂ : (0x7FFFFFFF : Word).toInt = 2 ^ 31 - 1 := by decide
  rw [h₁, h₂]
  omega

/-- What lies between two displacements that fit does so, too. -/
theorem hugeCon_between {i : Word} {a b : Nat} (hab : a ≤ b) (hb : b < 2 ^ 31)
    (h₀ : hugeCon i = false) (h₁ : hugeCon (i + BitVec.ofNat 64 b) = false) :
    hugeCon (i + BitVec.ofNat 64 a) = false := by
  rw [hugeCon_iff] at h₀ h₁ ⊢
  have hadd : ∀ c : Nat, c < 2 ^ 31 → (i + BitVec.ofNat 64 c).toInt = i.toInt + c := by
    intro c hc
    have hnat : (BitVec.ofNat 64 c).toNat = c := by
      rw [BitVec.toNat_ofNat]
      exact Nat.mod_eq_of_lt (by omega)
    have hc' : (BitVec.ofNat 64 c).toInt = c := by
      rw [BitVec.toInt_eq_toNat_of_lt (by rw [hnat]; omega), hnat]
    rw [BitVec.toInt_add, hc']
    exact Int.bmod_eq_of_le (by omega) (by omega)
  rw [hadd b hb] at h₁
  rw [hadd a (by omega)]
  omega

/-- The addresses that the generator makes have displacements that fit. -/
theorem displacement_small (hc : ∀ e, e ∈ selxns → e.2.Combined) (h : Imported o)
    (hcls : o.cls = .con ∨ o.cls = .reg) (hts : isLongs o.ts = true) :
    hugeCon (displacement selxns o) = false := by
  unfold displacement
  split
  · decide
  · next hhuge =>
    rcases materialize_cases selxns o with heq | ⟨-, he⟩
    · rw [heq] at hhuge ⊢
      rcases hcls with hcls | hcls
      · simpa [operandHuge, hcls, hts] using hhuge
      · rw [(h.isReg hcls).i]
        decide
    · exact (hc _ he).small

theorem copies_small (h : ¬ blkcopyMax < blkcopyCopies k) : k < 80 := by
  unfold blkcopyMax blkcopyCopies at h
  omega

/-- The code of `memorize` has no memory operands. -/
theorem memorize_encodable (n : Nat) (o : Operand) :
    ∀ code ∈ (memorize temp selxns n o).2.2, code.Encodable := by
  simp only [memorize, dehuge]
  split
  · next h =>
    intro code hc x hx hmem
    have hcon : (materialize selxns o).cls = .con := (operandHuge_con h).1
    rw [List.mem_singleton.mp hc, Amd64.move] at hx
    have hx' : x ∈ [materialize selxns o, operandTmp temp n (materialize selxns o).ts] := by
      split_ifs at hx <;> exact hx
    rcases List.mem_cons.mp hx' with rfl | hx'
    · rw [hcon] at hmem
      cases hmem
    · rw [List.mem_singleton.mp hx'] at hmem
      cases hmem
  · exact fun _ hc => absurd hc List.not_mem_nil

/-- The code of a copy can be encoded exactly when the last displacements fit, unless the block is
    large. -/
theorem blkcopy_encodable_iff (hk : k ≠ 0) (hsrc : src.cls = .con ∨ src.cls = .reg)
    (hdst : dst.cls = .con ∨ dst.cls = .reg) (hsi : hugeCon (displacement selxns src) = false)
    (hdi : hugeCon (displacement selxns dst) = false) :
    (∀ code ∈ (blkcopy temp selxns n src dst k).2, code.Encodable) ↔
      (blkcopyMax < blkcopyCopies k ∨ LastFits selxns k src ∧ LastFits selxns k dst) := by
  unfold blkcopy
  split
  · next hlarge =>
    refine iff_of_true ?_ (.inl hlarge)
    have hmove : ∀ o : Operand, o.cls = .con ∨ o.cls = .reg → ∀ r,
        (move o (operandReg .ulong r 0)).Encodable := by
      intro o ho r x hx hmem
      have hx' : x ∈ [o, operandReg .ulong r 0] := by
        rw [Amd64.move] at hx
        split_ifs at hx <;> exact hx
      rcases List.mem_cons.mp hx' with rfl | hx'
      · rcases ho with ho | ho <;> rw [ho] at hmem <;> cases hmem
      · rw [List.mem_singleton.mp hx'] at hmem
        cases hmem
    intro code hc
    simp only [List.mem_cons, List.not_mem_nil, or_false] at hc
    rcases hc with rfl | rfl | rfl | rfl | rfl
    · exact hmove src hsrc _
    · exact hmove dst hdst _
    · exact hmove _ (.inl rfl) _
    · exact fun _ h => absurd h List.not_mem_nil
    · exact fun _ h => absurd h List.not_mem_nil
  · next hsmall =>
    have hk80 := copies_small hsmall
    dsimp only
    rw [or_iff_right hsmall]
    simp only [List.mem_append]
    constructor
    · intro h
      obtain ⟨⟨c₁, hc₁, ho₁⟩, c₂, hc₂, ho₂⟩ := @blkcopyLoop_last k temp hk
        (memorize temp selxns (memorize temp selxns n src).1 dst).1 none none
        (memorize temp selxns n src).2.1
        (memorize temp selxns (memorize temp selxns n src).1 dst).2.1
      have h₁ := h c₁ (.inr hc₁) _ ho₁ rfl
      have h₂ := h c₂ (.inr hc₂) _ ho₂ rfl
      rw [Operand.displace, memorize_i] at h₁ h₂
      exact ⟨h₁, h₂⟩
    · rintro ⟨h₁, h₂⟩ code ((hc | hc) | hc)
      · exact memorize_encodable _ _ code hc
      · exact memorize_encodable _ _ code hc
      · intro o ho hmem
        obtain ⟨c, hcle, hoc⟩ := mem_blkcopyLoop (by simp) (by simp) hc ho hmem
        have hlt : lastOffset k < 2 ^ 31 := by unfold lastOffset; omega
        rcases hoc with rfl | rfl
        · rw [Operand.displace, memorize_i]
          exact hugeCon_between hcle hlt hsi h₁
        · rw [Operand.displace, memorize_i]
          exact hugeCon_between hcle hlt hdi h₂

/-! ### Reads -/

theorem reads_append (l₁ l₂ : List Code) (s : Machine) (x : Word) :
    Reads env callee (l₁ ++ l₂) s x ↔
      Reads env callee l₁ s x ∨ Reads env callee l₂ (execs env callee l₁ s) x := by
  induction l₁ generalizing s with
  | nil => simp [Reads]
  | cons code l ih => simp only [List.cons_append, Reads, ih, or_assoc, execs_cons]

theorem Within.mono {a x : Word} {i j : Nat} (h : Within a i x) (hij : i ≤ j) : Within a j x :=
  h.imp fun _ hk => ⟨hk.1.trans_le hij, hk.2⟩

theorem Within.displace {a x : Word} {i j : Nat} (h : Within (a + BitVec.ofNat 64 i) j x) :
    Within a (i + j) x := by
  obtain ⟨k, hk, rfl⟩ := h
  exact ⟨i + k, by omega, (add_ofNat_add a i k).symm⟩

/-- A move from or to a register reads nothing but its source. -/
theorem blkcopy0_reads {op : Op} (hop : op = .movups ∨ op = .movq ∨ op = .movl ∨ op = .movw ∨ op = .movb)
    (hr : r.cls = .reg) {x : Word} (h : Reads env callee (blkcopy0 op src dst r) s x) :
    Within (src.address env s.regs) (if op = .movups then 16 else op.moveSize) x := by
  have hmem : ¬ r.cls = .mem := by rw [hr]; decide
  simp only [blkcopy0, Reads, or_false] at h
  rcases hop with rfl | rfl | rfl | rfl | rfl <;>
    simp only [Code.Reads, hmem, false_and, or_false] at h <;> exact h.2

/-- The code of a small copy reads the block. -/
theorem blkcopyLoop_reads (hbytes : k ≤ 2 ^ 64) {t tXmm : Option Operand} (hm : n ≤ m)
    (ht : ∀ o ∈ t, ∃ ts j, n ≤ j ∧ j < limit ∧ o = operandTmp temp j ts)
    (htXmm : ∀ o ∈ tXmm, ∃ ts j, n ≤ j ∧ j < limit ∧ o = operandTmp temp j ts)
    (hlim : (blkcopyLoop temp m t tXmm src dst k).1 ≤ limit)
    (hsrc : Apart temp n limit src) (hdst : Apart temp n limit dst)
    (hd : Movable (src.address env s.regs) (dst.address env s.regs) k) {x : Word}
    (h : Reads env callee (blkcopyLoop temp m t tXmm src dst k).2 s x) :
    Within (src.address env s.regs) k x := by
  induction k using Nat.strong_induction_on generalizing m t tXmm src dst s with
  | _ k ih =>
    unfold blkcopyLoop at hlim h
    split at h
    · exact h.elim
    · next hk =>
      rw [dif_neg hk] at hlim
      split at h
      · next h16 =>
        rw [if_pos h16] at hlim
        obtain ⟨ts, j, hj, hjlim, hr⟩ := orTmp_spec hm htXmm .double
          ((le_blkcopyLoop ..).trans hlim)
        obtain ⟨i, rfl⟩ := Nat.exists_eq_add_of_le h16
        have hfirst : Copies temp n limit s
            (execs env callee (blkcopy0 .movups src dst (operandTmp temp j ts)) s)
            (dst.address env s.regs) (src.address env s.regs) 16 :=
          blkcopy0_wide hdst hj hjlim ts hd.left
        have hle := @le_orTmp temp m .double tXmm
        dsimp only at hlim h
        rw [hr, Nat.add_sub_cancel_left] at hlim h
        have ha := hfirst.displace env hsrc 16
        have hb := hfirst.displace env hdst 16
        rcases (reads_append _ _ _ _).mp h with h | h
        · exact (blkcopy0_reads (.inl rfl) rfl h).mono h16
        · have hrest := ih i (by omega) (by omega) (hm.trans hle) ht
            (fun o ho => ⟨ts, j, hj, hjlim, (Option.some.inj ho).symm⟩) hlim (hsrc.displace 16)
            (hdst.displace 16) (by rw [ha, hb]; exact hd.right) h
          rw [ha] at hrest
          exact hrest.displace
      · next h16 =>
        rw [if_neg h16] at hlim
        obtain ⟨ts, j, hj, hjlim, hr⟩ := orTmp_spec hm ht .long ((le_blkcopyLoop ..).trans hlim)
        obtain ⟨hpos, hop⟩ := moveSize_blkcopyOp k hk
        have hsize : (blkcopyOp k).moveSize + (k - (blkcopyOp k).moveSize) = k := by omega
        have hfirst : Copies temp n limit s
            (execs env callee (blkcopy0 (blkcopyOp k) src dst (operandTmp temp j ts)) s)
            (dst.address env s.regs) (src.address env s.regs) (blkcopyOp k).moveSize :=
          blkcopy0_spec hsrc hdst hj hjlim ts _ (blkcopyOp_cases k)
        have hle := @le_orTmp temp m .long t
        dsimp only at hlim h
        rw [hr] at hlim h
        have ha := hfirst.displace env hsrc (blkcopyOp k).moveSize
        have hb := hfirst.displace env hdst (blkcopyOp k).moveSize
        rw [← hsize] at hd
        rcases (reads_append _ _ _ _).mp h with h | h
        · have hwithin := blkcopy0_reads (.inr (blkcopyOp_cases k)) rfl h
          rw [if_neg (by rcases blkcopyOp_cases k with e | e | e | e <;> rw [e] <;> decide)] at hwithin
          exact hwithin.mono hop
        · have hrest := ih (k - (blkcopyOp k).moveSize) (by omega) (by omega) (hm.trans hle)
            (fun o ho => ⟨ts, j, hj, hjlim, (Option.some.inj ho).symm⟩) htXmm hlim
            (hsrc.displace _) (hdst.displace _) (by rw [ha, hb]; exact hd.right) h
          rw [ha] at hrest
          exact hsize ▸ hrest.displace

theorem repeatReads_within {size : Nat} : ∀ {j : Nat} {s : Machine} {x : Word},
    repeatReads size j s x → Within (s.regs rsi) (size * j) x
  | j + 1, s, x, h => by
    rcases h with h | h
    · exact h.mono (Nat.le_mul_of_pos_right _ (Nat.succ_pos j))
    · have hrest := repeatReads_within h
      have hrsi : ((s.string size).setReg rcx (BitVec.ofNat 64 j)).regs rsi =
          s.regs rsi + BitVec.ofNat 64 size := rfl
      rw [hrsi] at hrest
      have hmul : size * (j + 1) = size + size * j := by ring
      rw [hmul]
      exact hrest.displace

theorem move_reads (h : src.cls ≠ .mem) {x : Word} : ¬ (move src dst).Reads env s x := by
  rw [Amd64.move]
  split_ifs
  · cases dst.ts <;> exact id
  · exact fun hx => h hx.1
  · cases dst.ts <;> exact fun hx => h hx.1

theorem memorize_reads (o : Operand) {x : Word} :
    ¬ Reads env callee (memorize temp selxns n o).2.2 s x := by
  simp only [memorize, dehuge]
  split
  · next h =>
    have hcon : (materialize selxns o).cls ≠ .mem := by
      rw [(operandHuge_con h).1]
      decide
    exact fun hx => hx.elim (move_reads hcon) id
  · exact id

theorem string_reads {op : Op} (hop : op = .movsb ∨ op = .movsw ∨ op = .movsl ∨ op = .movsq)
    (hs : s.rep = true) {x : Word} (h : Reads env callee [⟨op, []⟩] s x) :
    Within (s.regs rsi) (op.stringSize * (s.regs rcx).toNat) x := by
  have hreads : ∀ {n : Nat} {s : Machine}, s.rep = true →
      (if s.rep then repeatReads n (s.regs rcx).toNat s x else Within (s.regs rsi) n x) →
      Within (s.regs rsi) (n * (s.regs rcx).toNat) x := by
    intro n s hs h
    rw [if_pos hs] at h
    exact repeatReads_within h
  rcases hop with rfl | rfl | rfl | rfl <;> exact hreads hs (h.resolve_right id)

theorem stringOp_cases (bytes : Nat) : stringOp bytes = .movsb ∨ stringOp bytes = .movsw ∨
    stringOp bytes = .movsl ∨ stringOp bytes = .movsq := by
  unfold stringOp
  split_ifs <;> simp

variable (env callee) in
/-- The code of a copy reads the block. -/
theorem blkcopy_reads (hf : Fresh temp limit) (hk : k < 2 ^ 64)
    (hsrc : Addressed env temp selxns n limit s src) (hdst : Addressed env temp selxns n limit s dst)
    (hlim : (blkcopy temp selxns n src dst k).1 ≤ limit)
    (hmov : Movable (src.address env s.regs) (dst.address env s.regs) k) {x : Word}
    (h : Reads env callee (blkcopy temp selxns n src dst k).2 s x) :
    Within (src.address env s.regs) k x := by
  unfold blkcopy at hlim h
  split at h
  · obtain ⟨-, hmul, -⟩ := stringOp_spec env callee k
    have hcls : ∀ {o : Operand}, o.cls = .con ∨ o.cls = .reg → o.cls ≠ .mem := by
      rintro o (ho | ho) <;> rw [ho] <;> decide
    rcases (reads_append (stringSetup src dst (BitVec.ofNat 64 (k / (stringOp k).stringSize)))
      [⟨stringOp k, []⟩] s x).mp h with h | h
    · rcases h with h | h | h | h | h
      · exact (move_reads (hcls hsrc.cls) h).elim
      · exact (move_reads (hcls hdst.cls) h).elim
      · exact (move_reads (hcls (.inl rfl)) h).elim
      · exact h.elim
      · exact h.elim
    · rw [execs_stringSetup env callee _ hsrc hdst] at h
      have hwithin := string_reads (stringOp_cases k) rfl h
      have hcount : (BitVec.ofNat 64 (k / (stringOp k).stringSize)).toNat =
          k / (stringOp k).stringSize := by
        rw [BitVec.toNat_ofNat]
        exact Nat.mod_eq_of_lt ((Nat.div_le_self _ _).trans_lt hk)
      rw [setReg_self, hcount, hmul] at hwithin
      exact hwithin
  · next hsmall =>
    rw [if_neg hsmall] at hlim
    dsimp only at hlim h
    obtain ⟨-, hapart₁, hapart₂, haddr₁, haddr₂⟩ := memorize_both env callee hf hsrc hdst
      ((le_blkcopyLoop ..).trans hlim)
    rcases (reads_append _ _ _ _).mp h with h | h
    · rcases (reads_append _ _ _ _).mp h with h | h
      · exact (memorize_reads _ h).elim
      · exact (memorize_reads _ h).elim
    · have hwithin := blkcopyLoop_reads hk.le le_rfl (by simp) (by simp) hlim hapart₁ hapart₂
        (by rw [haddr₁, haddr₂]; exact hmov) h
      rwa [haddr₁] at hwithin

end

/-! ### Copies of blocks -/

/-- An operand that is used as an address: a register or a constant, of a pointer's type. -/
structure Operand.IsPointer (o : Operand) : Prop where
  imported : Imported o
  cls : o.cls = .con ∨ o.cls = .reg
  long : isLongs o.ts = true

/-- What `blkcopy` emits copies the block exactly: there are such insns, they copy the bytes of the
    source to the destination and change no others, and read no others either. The two blocks are
    disjoint or the same. -/
structure CopiesBlock (env : Env) (callee : Word → Machine → Machine)
    (temp : TypeBits → Nat → PseudoReg) (selxns : Selxns) (n limit : Nat) (src dst : Operand)
    (bytes : Nat) : Prop where
  encodable : ∀ code ∈ (blkcopy temp selxns n src dst bytes).2, code.Encodable
  copied : ∀ s : Machine, s.rep = false → Addressed env temp selxns n limit s src →
    Addressed env temp selxns n limit s dst →
    Movable (src.address env s.regs) (dst.address env s.regs) bytes →
    Copied s.mem (execs env callee (blkcopy temp selxns n src dst bytes).2 s).mem
      (dst.address env s.regs) (src.address env s.regs) bytes
  reads : ∀ s : Machine, s.rep = false → Addressed env temp selxns n limit s src →
    Addressed env temp selxns n limit s dst →
    Movable (src.address env s.regs) (dst.address env s.regs) bytes →
    ∀ x, Reads env callee (blkcopy temp selxns n src dst bytes).2 s x →
      Within (src.address env s.regs) bytes x

/-- A block of any size is copied exactly if and only if it is large, or the displacement of the last
    move fits in both addresses. -/
theorem blkcopy_exact_iff (env : Env) (callee : Word → Machine → Machine)
    {temp : TypeBits → Nat → PseudoReg} {selxns : Selxns} {n limit : Nat} {src dst : Operand}
    (hf : Fresh temp limit) (hc : ∀ e, e ∈ selxns → e.2.Combined) (hsrc : src.IsPointer)
    (hdst : dst.IsPointer) (size : ObjectSize) (hpos : 0 < size.bytes)
    (hlim : (blkcopy temp selxns n src dst size.bytes).1 ≤ limit) :
    CopiesBlock env callee temp selxns n limit src dst size.bytes ↔
      (blkcopyMax < blkcopyCopies size.bytes ∨
        LastFits selxns size.bytes src ∧ LastFits selxns size.bytes dst) := by
  have hk : size.bytes < 2 ^ 64 := size.le.trans_lt (by decide)
  have hiff := @blkcopy_encodable_iff src dst n size.bytes temp selxns hpos.ne' hsrc.cls hdst.cls
    (displacement_small hc hsrc.imported hsrc.cls hsrc.long)
    (displacement_small hc hdst.imported hdst.cls hdst.long)
  refine ⟨fun h => hiff.mp h.encodable, fun h => ⟨hiff.mpr h, fun s hrep hs hd hmov => ?_,
    fun s _ hs hd hmov x hx => blkcopy_reads env callee hf hk hs hd hlim hmov hx⟩⟩
  exact (blkcopy_copies env callee hf hrep hk hs hd hlim hmov).2.1

/-- Two temporaries. -/
def twoTemps (_ : TypeBits) (n : Nat) : PseudoReg := if n = 0 then 32 else 33

theorem fresh_twoTemps : Fresh twoTemps 2 where
  pseudo ts n := by
    unfold twoTemps
    split <;> decide
  inj ts ts' n n' hn hn' h := by
    unfold twoTemps at h
    split at h <;> split at h <;> first | omega | exact absurd h (by decide)

/-- 24 bytes take two temporaries, if no address is huge. -/
theorem temps_blkcopy {src dst : Operand} (hs : operandHuge src = false)
    (hd : operandHuge dst = false) : (blkcopy twoTemps .empty 0 src dst 24).1 = 2 := by
  have hmat : ∀ o, materialize .empty o = o := by
    intro o
    unfold materialize
    split <;> rfl
  have hcopies : ¬ blkcopyMax < blkcopyCopies 24 := by decide
  simp only [blkcopy, if_neg hcopies, memorize, hmat, dehuge, hs, hd]
  simp [blkcopyLoop, orTmp, blkcopyOp, Op.moveSize]

theorem isPointer_reg {r : PseudoReg} (hr : r ≠ regNone) : (operandReg .ulong r 0).IsPointer :=
  ⟨.inl ⟨rfl, hr, rfl, rfl, rfl, rfl⟩, .inr rfl, rfl⟩

/-- 24 bytes, from and to where two pointers point. -/
theorem blkcopy_exact_pointers : CopiesBlock default (fun _ s => s) twoTemps .empty 0 2
    (operandReg .ulong 16 0) (operandReg .ulong 17 0) 24 :=
  (blkcopy_exact_iff default (fun _ s => s) fresh_twoTemps (fun e he => absurd he (Assoc.notMem_empty e))
    (isPointer_reg (by decide)) (isPointer_reg (by decide)) ⟨24, by decide⟩ (by decide)
    (temps_blkcopy rfl rfl).le).mpr (.inr ⟨by unfold LastFits; decide, by unfold LastFits; decide⟩)

/-- A destination at the constant address 0x7FFFFFF8, and 24 bytes: the second move would be to
    0x80000008. -/
theorem not_blkcopy_exact : ¬ ∀ (env : Env) (callee : Word → Machine → Machine)
    (temp : TypeBits → Nat → PseudoReg) (n limit : Nat) (src dst : Operand) (size : ObjectSize),
    Fresh temp limit → src.IsPointer → dst.IsPointer → 0 < size.bytes →
    (blkcopy temp .empty n src dst size.bytes).1 ≤ limit →
    CopiesBlock env callee temp .empty n limit src dst size.bytes := by
  intro h
  have hcon : (operandCon .ulong 0x7FFFFFF8 none 0).IsPointer :=
    ⟨.inr ⟨by decide, rfl, rfl, rfl⟩, .inl rfl, rfl⟩
  have hcopies := h default (fun _ s => s) twoTemps 0 2 (operandReg .ulong 16 0)
    (operandCon .ulong 0x7FFFFFF8 none 0) ⟨24, by decide⟩ fresh_twoTemps (isPointer_reg (by decide))
    hcon (by decide) (temps_blkcopy rfl (by decide)).le
  have hiff := (blkcopy_encodable_iff (by decide) (.inr rfl) (.inl rfl) (by decide)
    (by decide)).mp hcopies.encodable
  rcases hiff with hlarge | ⟨-, hfits⟩
  · exact absurd hlarge (by decide)
  · exact absurd hfits (by unfold LastFits; decide)

end Ncc.Amd64
