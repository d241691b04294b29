import Ncc.Amd64.Blkcopy
import Ncc.RegNames

/-! Frames (amd64/amd64.c: `amd64_symbol_storage`, `amd64_logues`; amd64/gen.c: `blkzero`).

    A frame has a slot for each local variable, the spilled registers among them, and one for each
    XMM register that the function must preserve; integer registers are pushed below it. Both kinds
    of slots come from one counter, an int, which nobody checks: `frame_correct_iff` says that frames
    are good as long as it does not overflow. -/

namespace Ncc.Amd64

/-! ### Locals -/

/-- A local variable: `type_sizeof` of its type, and `sym->offset`. -/
structure Local where
  size : ObjectSize
  offset : BitVec 32
  deriving DecidableEq

/-- `amd64_symbol_storage`, which increases `amd64_local_addr`. -/
def symbolStorage (localAddr : BitVec 32) (size : ObjectSize) : BitVec 32 × Local :=
  let localAddr := roundUp (localAddr + BitVec.ofNat 32 size.bytes)
  (localAddr, ⟨size, -localAddr⟩)

/-- One call after the other. -/
def symbolStorages : BitVec 32 → List ObjectSize → BitVec 32 × List Local
  | localAddr, [] => (localAddr, [])
  | localAddr, size :: sizes =>
    let (localAddr, sym) := symbolStorage localAddr size
    let (localAddr, syms) := symbolStorages localAddr sizes
    (localAddr, sym :: syms)

/-! ### Entry and exit -/

/-- AMD64_REG_*. -/
def rbx : PseudoReg := 11
@[inherit_doc rbx] def r10 : PseudoReg := 9
@[inherit_doc rbx] def r11 : PseudoReg := 10
@[inherit_doc rbx] def r12 : PseudoReg := 12
@[inherit_doc rbx] def r13 : PseudoReg := 13
@[inherit_doc rbx] def r14 : PseudoReg := 14
@[inherit_doc rbx] def r15 : PseudoReg := 15

/-- The registers of the machine: those of `amd64_regnames`. -/
def machineRegs : List PseudoReg :=
  (List.range 16).map (BitVec.ofNat 32) ++ (List.range 16).map xmm

/-- `amd64_itrash`. -/
def itrash : List PseudoReg := [rax, rcx, rdx, rsi, rdi, r8, r9, r10, r11]

/-- AMD64_NR_FTRASH. -/
def nrFtrash : Nat := 8

/-- What a function preserves besides RSP and RBP. -/
def preserved : List PseudoReg :=
  [rbx, r12, r13, r14, r15] ++ [8, 9, 10, 11, 12, 13, 14, 15].map xmm

/-- `regs_remove`. -/
def regsRemove (regs : Regs) (r : PseudoReg) : Regs := regs.filter (· ≠ r)

/-- `amd64_regs_remove_trash`. -/
def regsRemoveTrash (regs : Regs) : Regs :=
  ((List.range nrFtrash).map xmm).foldl regsRemove (itrash.foldl regsRemove regs)

/-- `func_regs`: the machine registers that a function uses. -/
structure FuncRegs where
  regs : Regs
  sorted : regs.Pairwise (· < ·)
  machine : ∀ r ∈ regs, r ∈ machineRegs

/-- The registers that are left for `amd64_logues` to save. -/
def FuncRegs.saved (f : FuncRegs) : Regs :=
  regsRemoveTrash (regsRemove (regsRemove f.regs rsp) rbp)

/-- AMD64_IS_IREG. -/
def isIreg (r : PseudoReg) : Bool := Webs.amd64IsIreg r

/-- AMD64_XMM_BYTES. -/
def xmmBytes : BitVec 32 := 8

/-- Room for the XMM registers. -/
def xmmRoom (localAddr : BitVec 32) (regs : Regs) : BitVec 32 :=
  roundUp (regs.foldl (fun a r => if isIreg r then a else a + xmmBytes) localAddr)

/-- The operand that an XMM register is saved in. -/
def xmmOperand (addr : BitVec 32) : Operand :=
  { operandBased rbp (-addr) 0 with cls := .mem, ts := .double }

/-- The loop of `amd64_logues`: it appends to the entry block and prepends to the exit block. -/
def saveRegs : BitVec 32 → Regs → List Code → List Code → List Code × List Code
  | _, [], entry, exit => (entry, exit)
  | addr, r :: regs, entry, exit =>
    if isIreg r then
      saveRegs addr regs (entry ++ [⟨.pushq, [operandReg .long r 0]⟩])
        (⟨.popq, [operandReg .long r 0]⟩ :: exit)
    else
      saveRegs (addr - xmmBytes) regs
        (entry ++ [⟨.movsd, [operandReg .double r 0, xmmOperand addr]⟩])
        (⟨.movsd, [xmmOperand addr, operandReg .double r 0]⟩ :: exit)

/-- What `amd64_logues` leaves: `amd64_local_addr`, and the code of the entry block and of the exit
    block. -/
structure Logues where
  localAddr : BitVec 32
  entry : List Code
  exit : List Code

/-- `amd64_logues`, with the code that is in the two blocks. -/
def logues (localAddr : BitVec 32) (funcRegs : FuncRegs) (entry exit : List Code) : Logues :=
  let regs := funcRegs.saved
  let localAddr := xmmRoom localAddr regs
  let entry := entry ++ [⟨.pushq, [operandReg .long rbp 0]⟩]
  let entry := entry ++ [⟨.movq, [operandReg .long rsp 0, operandReg .long rbp 0]⟩]
  let exit := ⟨.popq, [operandReg .long rbp 0]⟩ :: exit
  let (entry, exit) :=
    if localAddr ≠ 0 then
      (entry ++ [⟨.subq, [operandCon .long (localAddr.signExtend 64) none 0, operandReg .long rsp 0]⟩],
        ⟨.movq, [operandReg .long rbp 0, operandReg .long rsp 0]⟩ :: exit)
    else (entry, exit)
  let (entry, exit) := saveRegs localAddr regs entry exit
  ⟨localAddr, entry, exit⟩

/-! ### Clearing a block -/

/-- ROUND_UP, of an unsigned long to AMD64_STACK_ALIGN. -/
def padded (bytes : Nat) : Nat := (bytes + 7) / 8 * 8

/-- BLKZERO_MAX. -/
def blkzeroMax : Nat := 64

section
variable (temp : TypeBits → Nat → PseudoReg) (selxns : Selxns)

/-- A temporary that holds zero, made when it is first needed. -/
def orZeroXmm (n : Nat) : Option Operand → Nat × Operand × List Code
  | none =>
    let tmp := operandTmp temp n .double
    (n + 1, tmp, [⟨.xmmzero, [tmp, tmp]⟩])
  | some tmp => (n, tmp, [])

/-- The loop of `blkzero`. It is entered with a multiple of 8. -/
def blkzeroLoop (n : Nat) (tmpXmm : Option Operand) (dst : Operand) (bytes : Nat) : Nat × List Code :=
  if bytes = 0 then (n, [])
  else if 16 ≤ bytes then
    let (n, tmp, codes₁) := orZeroXmm temp n tmpXmm
    let (n, codes₂) := blkzeroLoop n (some tmp) (dst.displace 16) (bytes - 16)
    (n, codes₁ ++ ⟨.movups, [tmp, dst]⟩ :: codes₂)
  else
    let (n, codes) := blkzeroLoop n tmpXmm dst (bytes - 8)
    (n, ⟨.movq, [operandCon .long 0 none 0, dst]⟩ :: codes)
termination_by bytes

/-- `blkzero`. -/
def blkzero (n : Nat) (dst : Operand) (bytes : Nat) : Nat × List Code :=
  let bytes := padded bytes
  if blkzeroMax < bytes then
    (n, [move dst (operandReg .ulong rdi 0),
      move (operandCon .ulong (BitVec.ofNat 64 (bytes / 8)) none 0) (operandReg .ulong rcx 0),
      ⟨.zero, [operandReg .int rax 0, operandReg .int rax 0]⟩, ⟨.rep, []⟩, ⟨.stosq, []⟩])
  else
    let (n, dst, codes₁) := memorize temp selxns n dst
    let (n, codes₂) := blkzeroLoop temp n none dst bytes
    (n, codes₁ ++ codes₂)

end

section
variable {env : Env} {callee : Word → Machine → Machine} {s s' s'' : Machine} {dst : Operand}
variable {n m k limit : Nat} {temp : TypeBits → Nat → PseudoReg} {selxns : Selxns} {a : Word}

/-- What clearing leaves: only temporaries from `n` on are written. -/
structure Clears (temp : TypeBits → Nat → PseudoReg) (n limit : Nat) (s s' : Machine) (a : Word)
    (bytes : Nat) : Prop where
  zeroed : Zeroed s.mem s'.mem a bytes
  regs : ∀ r, (∀ ts m, n ≤ m → m < limit → r ≠ temp ts m) → s'.regs r = s.regs r

theorem Clears.append {i j : Nat} (h : Clears temp n limit s s' a i)
    (h' : Clears temp n limit s' s'' (a + BitVec.ofNat 64 i) j) (hn : i + j ≤ 2 ^ 64) :
    Clears temp n limit s s'' a (i + j) :=
  ⟨h.zeroed.append h'.zeroed hn, fun r hr => (h'.regs r hr).trans (h.regs r hr)⟩

/-- A temporary that holds zero. -/
def HoldsZero (temp : TypeBits → Nat → PseudoReg) (n limit : Nat) (s : Machine) (o : Operand) : Prop :=
  ∃ ts j, n ≤ j ∧ j < limit ∧ o = operandTmp temp j ts ∧ s.regs o.reg = 0 ∧ s.high o.reg = 0

theorem le_orZeroXmm (m : Nat) (t : Option Operand) : m ≤ (orZeroXmm temp m t).1 := by
  rcases t with _ | o
  · exact Nat.le_succ m
  · exact le_rfl

theorem le_blkzeroLoop (m : Nat) (t : Option Operand) (dst : Operand) (k : Nat) :
    m ≤ (blkzeroLoop temp m t dst k).1 := by
  induction k using Nat.strong_induction_on generalizing m t dst with
  | _ k ih =>
    unfold blkzeroLoop
    split
    · exact le_rfl
    · split
      · exact (le_orZeroXmm m t).trans (ih (k - 16) (by omega) ..)
      · exact ih (k - 8) (by omega) ..

variable (env callee) in
/-- The temporary held zero before, or does now. -/
theorem orZeroXmm_spec {t : Option Operand} (hm : n ≤ m) (ht : ∀ o ∈ t, HoldsZero temp n limit s o)
    (hlim : (orZeroXmm temp m t).1 ≤ limit) :
    let s' := execs env callee (orZeroXmm temp m t).2.2 s
    s'.mem = s.mem ∧ HoldsZero temp n limit s' (orZeroXmm temp m t).2.1 ∧
      ∀ r, (∀ ts m, n ≤ m → m < limit → r ≠ temp ts m) → s'.regs r = s.regs r := by
  rcases t with _ | o
  · have hreg : (operandTmp temp m .double).reg = temp .double m := rfl
    refine ⟨rfl, ⟨.double, m, hm, hlim, rfl, ?_, ?_⟩, fun r hr => ?_⟩
    · exact setReg_self ..
    · exact Function.update_self ..
    · exact setReg_ne (hreg ▸ hr .double m hm hlim)
  · exact ⟨rfl, ht o rfl, fun _ _ => rfl⟩

/-- MOVUPS from a temporary that holds zero. -/
theorem movups_clears {o : Operand} (ho : HoldsZero temp n limit s o) (hdst : dst.cls = .mem) :
    Clears temp n limit s (Code.exec env callee ⟨.movups, [o, dst]⟩ s) (dst.address env s.regs) 16 := by
  obtain ⟨ts, j, -, -, -, hlow, hhigh⟩ := ho
  set a := dst.address env s.regs with ha
  have hrun : Code.exec env callee ⟨.movups, [o, dst]⟩ s =
      { s with mem := storeWord (storeWord s.mem a 8 0) (a + 8) 8 0 } := by
    show Machine.moveWide env s o dst = _
    rw [Machine.moveWide, if_pos hdst, hlow, hhigh]
  rw [hrun]
  exact ⟨(zeroed_storeWord _ _ le_rfl).append (zeroed_storeWord _ _ le_rfl) (by decide), fun _ _ => rfl⟩

/-- MOVQ of zero. -/
theorem movq_clears (hdst : dst.cls = .mem) :
    Clears temp n limit s (Code.exec env callee ⟨.movq, [operandCon .long 0 none 0, dst]⟩ s)
      (dst.address env s.regs) 8 := by
  have hrun : Code.exec env callee ⟨.movq, [operandCon .long 0 none 0, dst]⟩ s =
      { s with mem := storeWord s.mem (dst.address env s.regs) 8 0 } := by
    show Machine.move env s .movq _ dst = _
    rw [Machine.move, if_pos hdst]
    rfl
  rw [hrun]
  exact ⟨zeroed_storeWord _ _ le_rfl, fun _ _ => rfl⟩

/-- The loop of `blkzero` clears the block. -/
theorem blkzeroLoop_spec (hbytes : k ≤ 2 ^ 64) (h8 : k % 8 = 0) {t : Option Operand} (hm : n ≤ m)
    (ht : ∀ o ∈ t, HoldsZero temp n limit s o) (hlim : (blkzeroLoop temp m t dst k).1 ≤ limit)
    (hdst : Apart temp n limit dst) :
    Clears temp n limit s (execs env callee (blkzeroLoop temp m t dst k).2 s)
      (dst.address env s.regs) k := by
  induction k using Nat.strong_induction_on generalizing m t dst s with
  | _ k ih =>
    unfold blkzeroLoop at hlim ⊢
    split
    · next hk =>
      subst hk
      exact ⟨.zero, fun _ _ => rfl⟩
    · next hk =>
      rw [if_neg hk] at hlim
      split
      · next h16 =>
        -- 16 bytes, and the rest
        rw [if_pos h16] at hlim
        obtain ⟨i, rfl⟩ := Nat.exists_eq_add_of_le h16
        dsimp only at hlim ⊢
        rw [Nat.add_sub_cancel_left] at hlim ⊢
        obtain ⟨hmem, hzero, hregs⟩ := orZeroXmm_spec env callee hm ht ((le_blkzeroLoop ..).trans hlim)
        set s₁ := execs env callee (orZeroXmm temp m t).2.2 s with hs₁
        set tmp := (orZeroXmm temp m t).2.1
        have hfirst : Clears temp n limit s₁ (Code.exec env callee ⟨.movups, [tmp, dst]⟩ s₁)
            (dst.address env s₁.regs) 16 := movups_clears hzero hdst.1
        set s₂ := Code.exec env callee ⟨.movups, [tmp, dst]⟩ s₁ with hs₂
        have hzero₂ : HoldsZero temp n limit s₂ tmp := by
          obtain ⟨ts, j, hj, hjlim, htmp, hlow, hhigh⟩ := hzero
          have hsame : s₂.regs = s₁.regs ∧ s₂.high = s₁.high := by
            have hrun : s₂ = s₁.moveWide env tmp dst := rfl
            rw [hrun, Machine.moveWide, if_pos hdst.1]
            exact ⟨rfl, rfl⟩
          exact ⟨ts, j, hj, hjlim, htmp, by rw [hsame.1, hlow], by rw [hsame.2, hhigh]⟩
        have haddr₁ : dst.address env s₁.regs = dst.address env s.regs := hdst.address hregs
        have haddr₂ : (dst.displace 16).address env s₂.regs =
            dst.address env s.regs + BitVec.ofNat 64 16 := by
          rw [address_displace, hdst.address hfirst.regs, haddr₁]
        have hrest := ih i (by omega) (s := s₂) (by omega) (by omega) (hm.trans (le_orZeroXmm m t))
          (fun o ho => Option.some.inj ho ▸ hzero₂) hlim (hdst.displace 16)
        rw [execs_append, execs_cons, ← hs₁, ← hs₂]
        rw [haddr₂] at hrest
        rw [haddr₁] at hfirst
        have happ := hfirst.append hrest hbytes
        exact ⟨hmem ▸ happ.zeroed, fun r hr => (happ.regs r hr).trans (hregs r hr)⟩
      · next h16 =>
        -- the last 8 bytes
        rw [if_neg h16] at hlim
        obtain rfl : k = 8 := by omega
        have hdone : ∀ m t dst, (blkzeroLoop temp m t dst (8 - 8)).2 = [] := by
          intro m t dst
          rw [Nat.sub_self, blkzeroLoop, if_pos rfl]
        dsimp only
        rw [hdone, execs_cons, execs_nil]
        exact movq_clears hdst.1

/-- What REP STOSQ leaves. -/
theorem repeatStos_spec (hax : s.regs rax = 0) (hk : 8 * k ≤ 2 ^ 64) :
    Zeroed s.mem (Machine.repeatStos k s).mem (s.regs rdi) (8 * k) := by
  induction k generalizing s with
  | zero => exact .zero
  | succ k ih =>
    have hfirst : Zeroed s.mem s.stos.mem (s.regs rdi) 8 := by
      rw [Machine.stos, hax]
      exact zeroed_storeWord _ _ le_rfl
    have hrest := @ih (s.stos.setReg rcx (BitVec.ofNat 64 k)) hax (by omega)
    rw [show 8 * (k + 1) = 8 + 8 * k by ring]
    exact hfirst.append hrest (by omega)

theorem padded_spec (n : Nat) : n ≤ padded n ∧ padded n < n + 8 ∧ padded n % 8 = 0 := by
  unfold padded
  omega

/-- `blkzero` clears the block up to the next multiple of 8 bytes. -/
theorem blkzero_zeroed (env : Env) (callee : Word → Machine → Machine) (hf : Fresh temp limit)
    (hk : k ≤ maxObjectSize)
    (hdst : Addressed env temp selxns n limit s dst)
    (hlim : (blkzero temp selxns n dst k).1 ≤ limit) :
    Zeroed s.mem (execs env callee (blkzero temp selxns n dst k).2 s).mem (dst.address env s.regs)
      (padded k) := by
  obtain ⟨-, hlt, hmod⟩ := padded_spec k
  have hmax : maxObjectSize = 2 ^ 27 := rfl
  unfold blkzero at hlim ⊢
  dsimp only at hlim ⊢
  split
  · -- REP STOSQ
    set s₁ := s.setReg rdi (dst.address env s.regs) with hs₁
    set s₂ := s₁.setReg rcx (BitVec.ofNat 64 (padded k / 8)) with hs₂
    have h₁ : (move dst (operandReg .ulong rdi 0)).exec env callee s = s₁ := by
      rw [exec_move_long env callee s hdst.cls.symm rfl, hdst.value]
    have h₂ : (move (operandCon .ulong (BitVec.ofNat 64 (padded k / 8)) none 0)
        (operandReg .ulong rcx 0)).exec env callee s₁ = s₂ := by
      rw [exec_move_long env callee s₁ (.inr rfl) rfl]
      simp [Machine.value, operandCon, operandNew, symWord, hs₂]
    have hcount : (s₂.regs rcx).toNat = padded k / 8 := by
      rw [hs₂, setReg_self, BitVec.toNat_ofNat]
      exact Nat.mod_eq_of_lt (by omega)
    have hrun : ∀ s : Machine, execs env callee
        [⟨.zero, [operandReg .int rax 0, operandReg .int rax 0]⟩, ⟨.rep, []⟩, ⟨.stosq, []⟩] s =
        { Machine.repeatStos (s.regs rcx).toNat { s.setReg rax 0 with rep := true } with
          rep := false } := fun _ => rfl
    rw [execs_cons, execs_cons, h₁, h₂, hrun, hcount]
    have hz := @repeatStos_spec { s₂.setReg rax 0 with rep := true } (padded k / 8) rfl (by omega)
    rwa [show 8 * (padded k / 8) = padded k by omega] at hz
  · next hsmall =>
    -- stores
    rw [if_neg hsmall] at hlim
    have hle := (le_blkzeroLoop ..).trans hlim
    obtain ⟨hload, hcls, haddr, hapart⟩ := memorize_spec env callee hf hdst hle
    set s₁ := execs env callee (memorize temp selxns n dst).2.2 s
    have hz := (@blkzeroLoop_spec env callee s₁ _ _ _ _ limit temp (by omega) hmod none le_rfl
      (by simp) hlim ⟨hcls, hapart⟩).zeroed
    rw [haddr, hload.mem] at hz
    rwa [execs_append]

end

/-! ### Slots -/

/-- Some bytes of a frame, from an offset from RBP on. -/
structure Slot where
  offset : Int
  bytes : Nat

/-- No byte is in both. -/
def Slot.Apart (a b : Slot) : Prop := a.offset + a.bytes ≤ b.offset ∨ b.offset + b.bytes ≤ a.offset

/-- The slot of a local, with its padding. -/
def Local.slot (l : Local) : Slot := ⟨l.offset.toInt, padded l.size.bytes⟩

/-- The slots of the XMM registers that some code saves. -/
def savedSlots (codes : List Code) : List Slot :=
  codes.filterMap fun code =>
    match code.op, code.opr with
    | .movsd, [_, o] => some ⟨o.i.toInt, 8⟩
    | _, _ => none

section
variable (sizes : List ObjectSize) (funcRegs : FuncRegs)

/-- The locals of a function: `amd64_func_new` has set `amd64_local_addr` to 0. -/
def frameLocals : List Local := (symbolStorages 0 sizes).2

/-- What `amd64_logues` does for it: nothing is in the entry block before, and only RET in the exit
    block, after the code that is put there. -/
def frameLogues : Logues := logues (symbolStorages 0 sizes).1 funcRegs [] []

/-- All slots of the frame. -/
def frameSlots : List Slot :=
  (frameLocals sizes).map Local.slot ++ savedSlots (frameLogues sizes funcRegs).entry

/-- The bytes of the frame, if there is no limit. -/
def frameBytes : Nat :=
  (sizes.map fun size => padded size.bytes).sum + 8 * (funcRegs.saved.countP fun r => !isIreg r)

end

section
variable {a i : BitVec 32} {sizes : List ObjectSize} {regs : Regs} {n : Nat}

/-- ROUND_UP of what does not fit: the int is negative, and remains so. -/
theorem roundUp_overflow (h : 2 ^ 31 ≤ i.toNat + 7) (h' : i.toNat < 2 ^ 31 + 2 ^ 28) :
    2 ^ 31 ≤ (roundUp i).toNat ∧ (roundUp i).toNat < 2 ^ 31 + 2 ^ 29 := by
  have hsum : (i + 7).toNat = i.toNat + 7 := by
    rw [BitVec.toNat_add, show (7 : BitVec 32).toNat = 7 from rfl]
    omega
  have hmsb : (i + 7).msb = true := by
    rw [BitVec.msb_eq_true_iff_two_mul_ge, hsum]
    omega
  have hneg : (-(i + 7)).toNat = 2 ^ 32 - (i.toNat + 7) := by
    rw [BitVec.toNat_neg, hsum]
    omega
  have hdiv : (i + 7).sdiv 8 = -(-(i + 7) / 8) := by
    rw [BitVec.sdiv_eq, hmsb]
    rfl
  have hquot : (-(i + 7) / 8).toNat = (2 ^ 32 - (i.toNat + 7)) / 8 := by
    rw [BitVec.toNat_udiv, hneg]
    rfl
  have hround : (roundUp i).toNat = 2 ^ 32 - (2 ^ 32 - (i.toNat + 7)) / 8 * 8 := by
    rw [roundUp, hdiv, BitVec.toNat_mul, BitVec.toNat_neg, hquot, show (8 : BitVec 32).toNat = 8 from rfl]
    omega
  omega

/-- An offset that does not fit is above RBP, or as far below as it gets. -/
theorem toInt_neg_overflow (h : 2 ^ 31 ≤ i.toNat) : 0 < (-i).toInt ∨ (-i).toInt = -2 ^ 31 := by
  have hi := i.isLt
  rw [BitVec.toInt_eq_toNat_cond, BitVec.toNat_neg]
  split <;> omega

theorem toInt_neg_of_lt (h : i.toNat < 2 ^ 31) : (-i).toInt = -i.toNat := by
  rw [BitVec.toInt_eq_toNat_cond, BitVec.toNat_neg]
  split <;> omega

theorem toNat_add_size (size : ObjectSize) (ha : a.toNat < 2 ^ 31) :
    (a + BitVec.ofNat 32 size.bytes).toNat = a.toNat + size.bytes := by
  have hle : size.bytes ≤ 2 ^ 27 := size.le
  rw [BitVec.toNat_add, BitVec.toNat_ofNat]
  omega

theorem padded_add (h : a.toNat % 8 = 0) (k : Nat) : padded (a.toNat + k) = a.toNat + padded k := by
  unfold padded
  omega

/-- One more local, if there is room. -/
theorem symbolStorage_fits (size : ObjectSize) (h : a.toNat % 8 = 0)
    (hfit : a.toNat + padded size.bytes < 2 ^ 31) :
    (symbolStorage a size).1.toNat = a.toNat + padded size.bytes := by
  have hsum := toNat_add_size size (show a.toNat < 2 ^ 31 by omega)
  obtain ⟨hle, -, -⟩ := padded_spec size.bytes
  have hpad := padded_add h size.bytes
  have hdef : padded (a.toNat + size.bytes) = (a.toNat + size.bytes + 7) / 8 * 8 := rfl
  show (roundUp _).toNat = _
  rw [toNat_roundUp (by rw [hsum]; omega), hsum]
  omega

/-- One more local, if there is none. -/
theorem symbolStorage_overflows (size : ObjectSize) (h : a.toNat % 8 = 0) (ha : a.toNat < 2 ^ 31)
    (hfit : 2 ^ 31 ≤ a.toNat + padded size.bytes) : 2 ^ 31 ≤ (symbolStorage a size).1.toNat := by
  have hsum := toNat_add_size size ha
  have hle : size.bytes ≤ 2 ^ 27 := size.le
  have hlt := (padded_spec size.bytes).2.1
  exact (roundUp_overflow (by omega) (by omega)).1

theorem symbolStorages_cons (size : ObjectSize) : symbolStorages a (size :: sizes) =
    ((symbolStorages (symbolStorage a size).1 sizes).1,
      (symbolStorage a size).2 :: (symbolStorages (symbolStorage a size).1 sizes).2) := rfl

/-- The slots of locals that fit: one below the other. -/
theorem symbolStorages_fit (h : a.toNat % 8 = 0)
    (hfit : a.toNat + (sizes.map fun size => padded size.bytes).sum < 2 ^ 31) :
    (symbolStorages a sizes).1.toNat = a.toNat + (sizes.map fun size => padded size.bytes).sum ∧
      ((symbolStorages a sizes).2.map Local.slot).Pairwise Slot.Apart ∧
      ∀ l ∈ (symbolStorages a sizes).2, l.offset.toInt + padded l.size.bytes ≤ -a.toNat ∧
        -((symbolStorages a sizes).1.toNat : Int) ≤ l.offset.toInt := by
  induction sizes generalizing a with
  | nil => simp [symbolStorages]
  | cons size sizes ih =>
    rw [List.map_cons, List.sum_cons] at hfit
    have hpad := (padded_spec size.bytes).2.2
    have hnext := symbolStorage_fits size h (by omega)
    have hoff : (symbolStorage a size).2.offset.toInt = -((symbolStorage a size).1.toNat : Int) :=
      toInt_neg_of_lt (i := (symbolStorage a size).1) (by omega)
    obtain ⟨hsum, hpair, hall⟩ := ih (a := (symbolStorage a size).1) (by omega) (by omega)
    rw [symbolStorages_cons]
    dsimp only
    refine ⟨?_, ?_, ?_⟩
    · rw [List.map_cons, List.sum_cons]
      omega
    · refine List.pairwise_cons.mpr ⟨?_, hpair⟩
      rintro slot hslot
      obtain ⟨l, hl, rfl⟩ := List.mem_map.mp hslot
      refine .inr ?_
      show l.offset.toInt + padded l.size.bytes ≤ (symbolStorage a size).2.offset.toInt
      have := (hall l hl).1
      omega
    · intro l hl
      rcases List.mem_cons.mp hl with hl | hl
      · have hsize : l.size = size := congrArg Local.size hl
        rw [hsize, hl]
        omega
      · have := hall l hl
        omega

/-- If all slots are below RBP and above the reserved space's end, the locals fit. -/
theorem fit_of_slots {limit : Int} (hlimit : -2 ^ 31 < limit) (h : a.toNat % 8 = 0) (ha : a.toNat < 2 ^ 31)
    (hslots : ∀ l ∈ (symbolStorages a sizes).2, l.offset.toInt + padded l.size.bytes ≤ 0 ∧
      limit ≤ l.offset.toInt) :
    a.toNat + (sizes.map fun size => padded size.bytes).sum < 2 ^ 31 := by
  induction sizes generalizing a with
  | nil => simpa using ha
  | cons size sizes ih =>
    obtain ⟨hbelow, hreserved⟩ := hslots (symbolStorage a size).2 List.mem_cons_self
    have hpad := (padded_spec size.bytes).2.2
    have hfit : a.toNat + padded size.bytes < 2 ^ 31 := by
      by_contra hover
      have hbig := symbolStorage_overflows size h ha (by omega)
      rcases toInt_neg_overflow hbig with hpos | hmin
      · have hoff : 0 < (symbolStorage a size).2.offset.toInt := hpos
        omega
      · have hoff : (symbolStorage a size).2.offset.toInt = -2 ^ 31 := hmin
        omega
    have hnext := symbolStorage_fits size h hfit
    have hrest := ih (a := (symbolStorage a size).1) (by omega) (by omega)
      fun l hl => hslots l (List.mem_cons_of_mem _ hl)
    rw [List.map_cons, List.sum_cons]
    omega

end

/-! ### Saving and restoring -/

/-- The insns that save registers. -/
def saving : BitVec 32 → Regs → List Code
  | _, [] => []
  | addr, r :: regs =>
    if isIreg r then ⟨.pushq, [operandReg .long r 0]⟩ :: saving addr regs
    else ⟨.movsd, [operandReg .double r 0, xmmOperand addr]⟩ :: saving (addr - xmmBytes) regs

/-- The insns that restore them. -/
def restoring : BitVec 32 → Regs → List Code
  | _, [] => []
  | addr, r :: regs =>
    if isIreg r then restoring addr regs ++ [⟨.popq, [operandReg .long r 0]⟩]
    else restoring (addr - xmmBytes) regs ++ [⟨.movsd, [xmmOperand addr, operandReg .double r 0]⟩]

/-- How many registers are pushed. -/
def pushed (regs : Regs) : Nat := regs.countP fun r => isIreg r

/-- How many registers have a slot. -/
def stored (regs : Regs) : Nat := regs.countP fun r => !isIreg r

/-- A byte that a register is saved in, so much below RBP: XMM registers from `addr` up, the others
    from `depth` down. -/
def SavedAt (b : Word) (addr depth : Nat) (regs : Regs) (x : Word) : Prop :=
  ∃ m, (addr - 8 * stored regs < m ∧ m ≤ addr ∨ depth < m ∧ m ≤ depth + 8 * pushed regs) ∧
    x = b - BitVec.ofNat 64 m

section
variable {env : Env} {callee : Word → Machine → Machine} {s s' s₂ : Machine} {b x : Word}
variable {addr : BitVec 32} {regs : Regs} {r : PseudoReg} {depth m k : Nat}

theorem saveRegs_eq (addr : BitVec 32) (regs : Regs) (entry exit : List Code) :
    saveRegs addr regs entry exit = (entry ++ saving addr regs, restoring addr regs ++ exit) := by
  induction regs generalizing addr entry exit with
  | nil => simp [saveRegs, saving, restoring]
  | cons r regs ih =>
    unfold saveRegs saving restoring
    split <;> rw [ih] <;> simp

@[simp] theorem pushed_cons : pushed (r :: regs) = pushed regs + if isIreg r then 1 else 0 :=
  List.countP_cons

@[simp] theorem stored_cons : stored (r :: regs) = stored regs + if isIreg r then 0 else 1 := by
  rw [stored, List.countP_cons, stored]
  cases isIreg r <;> rfl

/-- The bytes of a slot, from below. -/
theorem below_add (b : Word) (hk : k ≤ m) :
    b - BitVec.ofNat 64 m + BitVec.ofNat 64 k = b - BitVec.ofNat 64 (m - k) := by
  obtain ⟨i, rfl⟩ := Nat.exists_eq_add_of_le hk
  rw [Nat.add_sub_cancel_left, BitVec.ofNat_add]
  ring

theorem below_sub (b : Word) (m : Nat) :
    b - BitVec.ofNat 64 m - 8 = b - BitVec.ofNat 64 (m + 8) := by
  rw [BitVec.ofNat_add, sub_sub]
  rfl

theorem below_inj {i j : Nat} (hi : i < 2 ^ 64) (hj : j < 2 ^ 64)
    (h : b - BitVec.ofNat 64 i = b - BitVec.ofNat 64 j) : i = j := by
  have h' := congrArg BitVec.toNat (sub_right_injective h)
  rwa [BitVec.toNat_ofNat, BitVec.toNat_ofNat, Nat.mod_eq_of_lt hi, Nat.mod_eq_of_lt hj] at h'

theorem exec_pushq (r : PseudoReg) : Code.exec env callee ⟨.pushq, [operandReg .long r 0]⟩ s =
    { s.setReg rsp (s.regs rsp - 8) with mem := storeWord s.mem (s.regs rsp - 8) 8 (s.regs r) } := rfl

theorem exec_popq (r : PseudoReg) : Code.exec env callee ⟨.popq, [operandReg .long r 0]⟩ s =
    (s.setReg rsp (s.regs rsp + 8)).setReg r (loadWord s.mem (s.regs rsp) 8) := rfl

/-- Where an XMM register is saved. -/
theorem address_xmmOperand (env : Env) (h : addr.toNat < 2 ^ 31) (regs : PseudoReg → Word) :
    (xmmOperand addr).address env regs = regs rbp - BitVec.ofNat 64 addr.toNat := by
  have hext : (-addr).signExtend 64 = -BitVec.ofNat 64 addr.toNat := by
    have hint : ((-addr).signExtend 64).toInt = -addr.toNat := by
      rw [BitVec.toInt_signExtend_of_le (by decide), toInt_neg_of_lt h]
    rw [← BitVec.ofInt_toInt (x := (-addr).signExtend 64), hint, BitVec.ofInt_neg]
    simp
  have hrbp : rbp ≠ regNone := by decide
  simp only [Operand.address, xmmOperand, operandBased, operandNew, symWord, regWord, hrbp, if_false,
    if_true, hext]
  simp [sub_eq_add_neg]

/-- MOVSD to a slot. -/
theorem exec_movsd_save (h : addr.toNat < 2 ^ 31) (r : PseudoReg) :
    Code.exec env callee ⟨.movsd, [operandReg .double r 0, xmmOperand addr]⟩ s =
      { s with mem := storeWord s.mem (s.regs rbp - BitVec.ofNat 64 addr.toNat) 8 (s.regs r) } := by
  rw [← address_xmmOperand env h]
  rfl

/-- MOVSD from a slot. -/
theorem exec_movsd_restore (h : addr.toNat < 2 ^ 31) (r : PseudoReg) :
    Code.exec env callee ⟨.movsd, [xmmOperand addr, operandReg .double r 0]⟩ s =
      s.setReg r (loadWord s.mem (s.regs rbp - BitVec.ofNat 64 addr.toNat) 8) := by
  rw [← address_xmmOperand env h]
  rfl

theorem toNat_sub_xmmBytes (h : 8 ≤ addr.toNat) : (addr - xmmBytes).toNat = addr.toNat - 8 := by
  have hlt := addr.isLt
  rw [BitVec.toNat_sub, show xmmBytes.toNat = 8 from rfl]
  omega

variable (env callee) in
/-- Saving registers changes the stack pointer, and memory where they are saved. -/
theorem saving_spec (hrsp : s.regs rsp = b - BitVec.ofNat 64 depth) (hrbp : s.regs rbp = b)
    (haddr : addr.toNat < 2 ^ 31) (hroom : 8 * stored regs ≤ addr.toNat) :
    let s' := execs env callee (saving addr regs) s
    s'.regs rsp = b - BitVec.ofNat 64 (depth + 8 * pushed regs) ∧
      (∀ r, r ≠ rsp → s'.regs r = s.regs r) ∧
      ∀ x, ¬ SavedAt b addr.toNat depth regs x → s'.mem x = s.mem x := by
  induction regs generalizing s addr depth with
  | nil => exact ⟨hrsp, fun _ _ => rfl, fun _ _ => rfl⟩
  | cons r regs ih =>
    unfold saving
    split
    · next hi =>
      -- pushed
      rw [stored_cons, if_pos hi, Nat.add_zero] at hroom
      dsimp only
      rw [execs_cons, exec_pushq]
      have hsub : s.regs rsp - 8 = b - BitVec.ofNat 64 (depth + 8) := by
        rw [hrsp, below_sub]
      rw [hsub]
      obtain ⟨h₁, h₂, h₃⟩ := @ih { s.setReg rsp (b - BitVec.ofNat 64 (depth + 8)) with
        mem := storeWord s.mem (b - BitVec.ofNat 64 (depth + 8)) 8 (s.regs r) } addr (depth + 8)
        (show (s.setReg rsp _).regs rsp = _ from setReg_self ..) hrbp haddr hroom
      refine ⟨?_, fun q hq => (h₂ q hq).trans (setReg_ne hq), fun x hx => ?_⟩
      · rw [h₁, pushed_cons, if_pos hi]
        congr 2
        ring
      · rw [h₃ x fun ⟨m, hm, hxm⟩ => hx ⟨m, ?_, hxm⟩]
        · refine storeWord_others _ _ _ fun k hk hxk => hx ⟨depth + 8 - k, .inr ?_, ?_⟩
          · rw [pushed_cons, if_pos hi]
            omega
          · rw [hxk, below_add b (by omega)]
        · rw [stored_cons, pushed_cons, if_pos hi, if_pos hi]
          omega
    · next hi =>
      -- stored
      rw [stored_cons, if_neg hi] at hroom
      have hnat := toNat_sub_xmmBytes (show 8 ≤ addr.toNat by omega)
      dsimp only
      rw [execs_cons, exec_movsd_save haddr, hrbp]
      obtain ⟨h₁, h₂, h₃⟩ := @ih { s with
        mem := storeWord s.mem (b - BitVec.ofNat 64 addr.toNat) 8 (s.regs r) } (addr - xmmBytes) depth
        hrsp hrbp (by omega) (by omega)
      refine ⟨?_, h₂, fun x hx => ?_⟩
      · rw [h₁, pushed_cons, if_neg hi, Nat.add_zero]
      · rw [h₃ x fun ⟨m, hm, hxm⟩ => hx ⟨m, ?_, hxm⟩]
        · refine storeWord_others _ _ _ fun k hk hxk => hx ⟨addr.toNat - k, .inl ?_, ?_⟩
          · rw [stored_cons, if_neg hi]
            omega
          · rw [hxk, below_add b (by omega)]
        · rw [stored_cons, pushed_cons, if_neg hi, if_neg hi]
          omega

/-- A word is read back if its bytes are where it was stored. -/
theorem loadWord_of_bytes {mem : Mem} {a w : Word}
    (h : ∀ k < 8, mem (a + BitVec.ofNat 64 k) = wordByte w k) : loadWord mem a 8 = w := by
  have hstore : ∀ k < 8, mem (a + BitVec.ofNat 64 k) = storeWord mem a 8 w (a + BitVec.ofNat 64 k) :=
    fun k hk => (h k hk).trans (storeWord_apply mem a w hk le_rfl).symm
  rw [loadWord_congr hstore, loadWord_storeWord_long]

variable (env callee) in
/-- Registers are restored, whatever happened in between, if the bytes they are saved in, the stack
    pointer and the frame pointer are as they were. -/
theorem restoring_spec (hrsp : s.regs rsp = b - BitVec.ofNat 64 depth) (hrbp : s.regs rbp = b)
    (haddr : addr.toNat < 2 ^ 31) (hroom : 8 * stored regs ≤ addr.toNat) (hle : addr.toNat ≤ depth)
    (hdepth : depth + 8 * pushed regs < 2 ^ 63) (hnd : regs.Nodup)
    (hregs : ∀ r ∈ regs, r ≠ rsp ∧ r ≠ rbp)
    (hrsp₂ : s₂.regs rsp = b - BitVec.ofNat 64 (depth + 8 * pushed regs)) (hrbp₂ : s₂.regs rbp = b)
    (hmem : ∀ x, SavedAt b addr.toNat depth regs x →
      s₂.mem x = (execs env callee (saving addr regs) s).mem x) :
    let s' := execs env callee (restoring addr regs) s₂
    s'.mem = s₂.mem ∧ s'.regs rsp = b - BitVec.ofNat 64 depth ∧
      (∀ r ∈ regs, s'.regs r = s.regs r) ∧ ∀ r, r ≠ rsp → r ∉ regs → s'.regs r = s₂.regs r := by
  induction regs generalizing s addr depth with
  | nil => exact ⟨rfl, hrsp₂, by simp, fun _ _ _ => rfl⟩
  | cons r regs ih =>
    obtain ⟨hr, hnd⟩ := List.nodup_cons.mp hnd
    obtain ⟨hrsp_ne, hrbp_ne⟩ := hregs r List.mem_cons_self
    have hregs' : ∀ q ∈ regs, q ≠ rsp ∧ q ≠ rbp := fun q hq => hregs q (List.mem_cons_of_mem _ hq)
    have hne : ∀ q ∈ regs, q ≠ r := fun q hq h => hr (h ▸ hq)
    unfold restoring
    split
    · next hi =>
      -- pushed: the word is on the top of the stack when it is popped
      rw [stored_cons, if_pos hi, Nat.add_zero] at hroom
      rw [pushed_cons, if_pos hi] at hrsp₂ hdepth
      have hsub : s.regs rsp - 8 = b - BitVec.ofNat 64 (depth + 8) := by
        rw [hrsp, below_sub]
      set s₁ : Machine := { s.setReg rsp (b - BitVec.ofNat 64 (depth + 8)) with
        mem := storeWord s.mem (b - BitVec.ofNat 64 (depth + 8)) 8 (s.regs r) } with hs₁
      have hrun : execs env callee (saving addr (r :: regs)) s = execs env callee (saving addr regs) s₁ := by
        rw [saving, if_pos hi, execs_cons, exec_pushq, hsub]
      rw [hrun] at hmem
      have htop : s₁.regs rsp = b - BitVec.ofNat 64 (depth + 8) := by
        show (s.setReg rsp _).regs rsp = _
        exact setReg_self ..
      obtain ⟨-, -, hkept⟩ := saving_spec env callee htop hrbp haddr hroom
      obtain ⟨h₁, h₂, h₃, h₄⟩ := @ih s₁ addr (depth + 8) htop hrbp haddr hroom (by omega)
        (by omega) hnd hregs' (by rw [hrsp₂]; congr 2; ring) fun x ⟨m, hm, hxm⟩ => hmem x ⟨m, by
          rw [stored_cons, pushed_cons, if_pos hi, if_pos hi]; omega, hxm⟩
      have hword : loadWord s₂.mem (b - BitVec.ofNat 64 (depth + 8)) 8 = s.regs r := by
        refine loadWord_of_bytes fun k hk => ?_
        rw [below_add b (by omega), hmem _ ⟨depth + 8 - k, .inr ?_, rfl⟩, hkept _ ?_,
          ← below_add b (by omega)]
        · exact storeWord_apply _ _ _ hk le_rfl
        · rintro ⟨m, hm, hxm⟩
          have := below_inj (by omega) (by omega) hxm
          omega
        · rw [pushed_cons, if_pos hi]
          omega
      dsimp only
      rw [execs_append, execs_cons, execs_nil, exec_popq, h₂, h₁, hword]
      refine ⟨h₁, ?_, ?_, fun q hq hqr => ?_⟩
      · rw [setReg_ne hrsp_ne.symm, setReg_self, ← below_sub, sub_add_cancel]
      · intro q hq
        rcases List.mem_cons.mp hq with rfl | hq
        · exact setReg_self ..
        · rw [setReg_ne (hne q hq), setReg_ne (hregs' q hq).1, h₃ q hq]
          exact setReg_ne (hregs' q hq).1
      · obtain ⟨hqr, hqs⟩ := not_or.mp (mt List.mem_cons.mpr hqr)
        rw [setReg_ne hqr, setReg_ne hq, h₄ q hq hqs]
    · next hi =>
      -- stored: the word is in its slot
      rw [stored_cons, if_neg hi] at hroom
      rw [pushed_cons, if_neg hi, Nat.add_zero] at hrsp₂ hdepth
      have hnat := toNat_sub_xmmBytes (show 8 ≤ addr.toNat by omega)
      set s₁ : Machine := { s with
        mem := storeWord s.mem (b - BitVec.ofNat 64 addr.toNat) 8 (s.regs r) } with hs₁
      have hrun : execs env callee (saving addr (r :: regs)) s =
          execs env callee (saving (addr - xmmBytes) regs) s₁ := by
        rw [saving, if_neg hi, execs_cons, exec_movsd_save haddr, hrbp]
      rw [hrun] at hmem
      obtain ⟨-, -, hkept⟩ := saving_spec env callee (s := s₁) hrsp hrbp
        (show (addr - xmmBytes).toNat < 2 ^ 31 by omega) (show 8 * stored regs ≤ _ by omega)
      obtain ⟨h₁, h₂, h₃, h₄⟩ := @ih s₁ (addr - xmmBytes) depth hrsp hrbp (by omega) (by omega) (by omega)
        hdepth hnd hregs' hrsp₂ fun x ⟨m, hm, hxm⟩ => hmem x ⟨m, by
          rw [stored_cons, pushed_cons, if_neg hi, if_neg hi]; omega, hxm⟩
      have hword : loadWord s₂.mem (b - BitVec.ofNat 64 addr.toNat) 8 = s.regs r := by
        refine loadWord_of_bytes fun k hk => ?_
        rw [below_add b (by omega), hmem _ ⟨addr.toNat - k, .inl ?_, rfl⟩, hkept _ ?_,
          ← below_add b (by omega)]
        · exact storeWord_apply _ _ _ hk le_rfl
        · rintro ⟨m, hm, hxm⟩
          have := below_inj (by omega) (by omega) hxm
          omega
        · rw [stored_cons, if_neg hi]
          omega
      have hbp : (execs env callee (restoring (addr - xmmBytes) regs) s₂).regs rbp = b := by
        rw [h₄ rbp (by decide) fun h => (hregs' rbp h).2 rfl, hrbp₂]
      dsimp only
      rw [execs_append, execs_cons, execs_nil, exec_movsd_restore haddr, hbp, h₁, hword]
      refine ⟨h₁, ?_, ?_, fun q hq hqr => ?_⟩
      · rw [setReg_ne hrsp_ne.symm, h₂]
      · intro q hq
        rcases List.mem_cons.mp hq with rfl | hq
        · exact setReg_self ..
        · rw [setReg_ne (hne q hq), h₃ q hq]
      · obtain ⟨hqr, hqs⟩ := not_or.mp (mt List.mem_cons.mpr hqr)
        rw [setReg_ne hqr, h₄ q hq hqs]

end

/-! ### Good frames -/

/-- What the body of a function keeps, from the end of the entry block to the exit block: the stack
    pointer, since its calls are balanced, the frame pointer, the registers that must be preserved
    and that it does not use, and everything in memory from RSP to the return address that is not a
    local. -/
structure Keeps (locals : List Local) (funcRegs : FuncRegs) (s s' : Machine) : Prop where
  stack : s'.regs rsp = s.regs rsp
  frame : s'.regs rbp = s.regs rbp
  regs : ∀ r ∈ preserved, r ∉ funcRegs.regs → s'.regs r = s.regs r
  mem : ∀ x, Within (s.regs rsp) (s.regs rbp + 8 - s.regs rsp).toNat x →
    (∀ l ∈ locals, ¬ Within (s.regs rbp + l.offset.signExtend 64) (padded l.size.bytes) x) →
    s'.mem x = s.mem x

/-- The frame of a function is good: its slots are apart from each other, below RBP, and not below
    the space that the entry block reserves; an I_BLKZERO of a local clears its slot and nothing
    else; and the exit block restores what the function must preserve. -/
structure FrameCorrect (sizes : List ObjectSize) (funcRegs : FuncRegs) : Prop where
  apart : (frameSlots sizes funcRegs).Pairwise Slot.Apart
  below : ∀ slot ∈ frameSlots sizes funcRegs, slot.offset + slot.bytes ≤ 0
  reserved : ∀ slot ∈ frameSlots sizes funcRegs,
    -(frameLogues sizes funcRegs).localAddr.toInt ≤ slot.offset
  entered : ∀ (env : Env) (callee : Word → Machine → Machine) (s : Machine),
    let s' := execs env callee (frameLogues sizes funcRegs).entry s
    s'.regs rbp = s.regs rsp - 8 ∧
      s'.regs rsp = s'.regs rbp - (frameLogues sizes funcRegs).localAddr.signExtend 64 -
        BitVec.ofNat 64 (8 * pushed funcRegs.saved)
  cleared : ∀ l ∈ frameLocals sizes, ∀ (env : Env) (callee : Word → Machine → Machine)
    (temp : TypeBits → Nat → PseudoReg) (selxns : Selxns) (n limit : Nat) (dst : Operand) (s : Machine),
    Fresh temp limit → Addressed env temp selxns n limit s dst →
    (blkzero temp selxns n dst l.size.bytes).1 ≤ limit →
    dst.address env s.regs = s.regs rbp + l.offset.signExtend 64 →
    Zeroed s.mem (execs env callee (blkzero temp selxns n dst l.size.bytes).2 s).mem
      (s.regs rbp + l.offset.signExtend 64) (padded l.size.bytes)
  restored : ∀ (env : Env) (callee : Word → Machine → Machine) (s s' : Machine),
    Keeps (frameLocals sizes) funcRegs (execs env callee (frameLogues sizes funcRegs).entry s) s' →
    ∀ r, r = rsp ∨ r = rbp ∨ r ∈ preserved →
      (execs env callee (frameLogues sizes funcRegs).exit s').regs r = s.regs r

/-! ### The registers that are saved -/

theorem machineRegs_eq : machineRegs = [0, 1, 2, 3, 4, 5, 6, 7, 8, 9, 10, 11, 12, 13, 14, 15,
    0x100000, 0x100001, 0x100002, 0x100003, 0x100004, 0x100005, 0x100006, 0x100007,
    0x100008, 0x100009, 0x10000A, 0x10000B, 0x10000C, 0x10000D, 0x10000E, 0x10000F] := rfl

theorem preserved_eq : preserved = [11, 12, 13, 14, 15,
    0x100008, 0x100009, 0x10000A, 0x10000B, 0x10000C, 0x10000D, 0x10000E, 0x10000F] := rfl

theorem ftrash_eq : (List.range nrFtrash).map xmm =
    [0x100000, 0x100001, 0x100002, 0x100003, 0x100004, 0x100005, 0x100006, 0x100007] := rfl

/-- Of the machine's registers, what is not removed is what must be preserved. -/
theorem machine_preserved {q : PseudoReg} (hq : q ∈ machineRegs) :
    ((q ≠ rsp ∧ q ≠ rbp) ∧ q ∉ itrash) ∧ q ∉ (List.range nrFtrash).map xmm ↔ q ∈ preserved := by
  rw [preserved_eq, ftrash_eq]
  rw [machineRegs_eq] at hq
  simp only [List.mem_cons, List.not_mem_nil, or_false] at hq
  rcases hq with rfl | rfl | rfl | rfl | rfl | rfl | rfl | rfl | rfl | rfl | rfl | rfl | rfl | rfl |
    rfl | rfl | rfl | rfl | rfl | rfl | rfl | rfl | rfl | rfl | rfl | rfl | rfl | rfl | rfl | rfl |
    rfl | rfl <;> decide

theorem preserved_ne {q : PseudoReg} (hq : q ∈ preserved) : q ≠ rsp ∧ q ≠ rbp := by
  rw [preserved_eq] at hq
  simp only [List.mem_cons, List.not_mem_nil, or_false] at hq
  rcases hq with rfl | rfl | rfl | rfl | rfl | rfl | rfl | rfl | rfl | rfl | rfl | rfl | rfl <;> decide

section
variable {regs : Regs} {r : PseudoReg} {a : BitVec 32}

theorem mem_foldl_regsRemove {l : List PseudoReg} :
    r ∈ l.foldl regsRemove regs ↔ r ∈ regs ∧ r ∉ l := by
  induction l generalizing regs with
  | nil => simp
  | cons q l ih =>
    rw [List.foldl_cons, ih, regsRemove, List.mem_filter, List.mem_cons]
    simp only [ne_eq, decide_not, Bool.not_eq_eq_eq_not, Bool.not_true, decide_eq_false_iff_not]
    tauto

theorem sorted_foldl_regsRemove {l : List PseudoReg} (h : regs.Pairwise (· < ·)) :
    (l.foldl regsRemove regs).Pairwise (· < ·) := by
  induction l generalizing regs with
  | nil => exact h
  | cons q l ih => exact ih (h.filter _)

/-- What is saved: what must be preserved and is used. -/
theorem FuncRegs.mem_saved (f : FuncRegs) : r ∈ f.saved ↔ r ∈ f.regs ∧ r ∈ preserved := by
  rw [FuncRegs.saved, regsRemoveTrash, mem_foldl_regsRemove, mem_foldl_regsRemove, regsRemove, regsRemove,
    List.mem_filter, List.mem_filter]
  simp only [decide_eq_true_eq]
  constructor
  · rintro ⟨⟨⟨⟨hr, hrsp⟩, hrbp⟩, hi⟩, hf⟩
    exact ⟨hr, (machine_preserved (f.machine r hr)).mp ⟨⟨⟨hrsp, hrbp⟩, hi⟩, hf⟩⟩
  · rintro ⟨hr, hp⟩
    obtain ⟨⟨⟨hrsp, hrbp⟩, hi⟩, hf⟩ := (machine_preserved (f.machine r hr)).mpr hp
    exact ⟨⟨⟨⟨hr, hrsp⟩, hrbp⟩, hi⟩, hf⟩

theorem FuncRegs.nodup_saved (f : FuncRegs) : f.saved.Nodup :=
  (sorted_foldl_regsRemove (sorted_foldl_regsRemove ((f.sorted.filter _).filter _))).imp
    fun h => BitVec.ne_of_lt h

theorem FuncRegs.length_saved (f : FuncRegs) : f.saved.length ≤ 13 :=
  (List.subperm_of_subset f.nodup_saved fun _ hr => (f.mem_saved.mp hr).2).length_le

theorem FuncRegs.stored_saved (f : FuncRegs) : stored f.saved ≤ 13 :=
  List.countP_le_length.trans f.length_saved

theorem FuncRegs.pushed_saved (f : FuncRegs) : pushed f.saved ≤ 13 :=
  List.countP_le_length.trans f.length_saved

/-- The counter when there is room for the XMM registers, before it is rounded. -/
theorem toNat_foldl_xmm (h : a.toNat + 8 * stored regs < 2 ^ 32) :
    (regs.foldl (fun a r => if isIreg r then a else a + xmmBytes) a).toNat = a.toNat + 8 * stored regs := by
  induction regs generalizing a with
  | nil => rfl
  | cons r regs ih =>
    rw [stored_cons] at h ⊢
    rw [List.foldl_cons]
    split
    · next hi =>
      rw [if_pos hi] at h
      rw [ih (by omega)]
      omega
    · next hi =>
      rw [if_neg hi] at h
      have hadd : (a + xmmBytes).toNat = a.toNat + 8 := by
        rw [BitVec.toNat_add, show xmmBytes.toNat = 8 from rfl]
        omega
      rw [ih (by omega), hadd]
      omega

theorem toNat_xmmRoom (ha : a.toNat % 8 = 0) (h : a.toNat + 8 * stored regs < 2 ^ 31) :
    (xmmRoom a regs).toNat = a.toNat + 8 * stored regs := by
  have hfold := @toNat_foldl_xmm regs a (by omega)
  rw [xmmRoom, toNat_roundUp (by omega), hfold]
  omega

/-- The slots of XMM registers, one below the other. -/
theorem savedSlots_saving {addr : BitVec 32} (haddr : addr.toNat < 2 ^ 31)
    (hroom : 8 * stored regs ≤ addr.toNat) :
    (savedSlots (saving addr regs)).Pairwise Slot.Apart ∧
      ∀ slot ∈ savedSlots (saving addr regs), slot.bytes = 8 ∧ -(addr.toNat : Int) ≤ slot.offset ∧
        slot.offset + 8 ≤ 8 * stored regs - addr.toNat := by
  induction regs generalizing addr with
  | nil => exact ⟨List.Pairwise.nil, fun _ h => absurd h List.not_mem_nil⟩
  | cons r regs ih =>
    rw [stored_cons] at hroom ⊢
    unfold saving
    split
    · next hi =>
      rw [if_pos hi] at hroom
      exact ih haddr (by omega)
    · next hi =>
      rw [if_neg hi] at hroom
      have hnat := toNat_sub_xmmBytes (show 8 ≤ addr.toNat by omega)
      have hoff : (xmmOperand addr).i.toInt = -addr.toNat := by
        show ((-addr).signExtend 64).toInt = _
        rw [BitVec.toInt_signExtend_of_le (by decide), toInt_neg_of_lt haddr]
      obtain ⟨hpair, hall⟩ := @ih (addr - xmmBytes) (by omega) (by omega)
      have hslots : savedSlots (⟨.movsd, [operandReg .double r 0, xmmOperand addr]⟩ ::
          saving (addr - xmmBytes) regs) =
          ⟨(xmmOperand addr).i.toInt, 8⟩ :: savedSlots (saving (addr - xmmBytes) regs) := rfl
      rw [hslots, hoff]
      refine ⟨List.pairwise_cons.mpr ⟨fun slot hslot => .inl ?_, hpair⟩, fun slot hslot => ?_⟩
      · have := hall slot hslot
        show -(addr.toNat : Int) + (8 : Nat) ≤ slot.offset
        omega
      · rcases List.mem_cons.mp hslot with rfl | hslot
        · refine ⟨rfl, le_rfl, ?_⟩
          show -(addr.toNat : Int) + 8 ≤ _
          omega
        · have := hall slot hslot
          omega

/-- The first XMM register has the lowest slot. -/
theorem mem_savedSlots (addr : BitVec 32) (h : 0 < stored regs) :
    (⟨(-addr).toInt, 8⟩ : Slot) ∈ savedSlots (saving addr regs) := by
  induction regs with
  | nil => exact absurd h (by decide)
  | cons r regs ih =>
    rw [stored_cons] at h
    unfold saving
    split
    · next hi =>
      rw [if_pos hi] at h
      exact ih h
    · have hoff : (-addr).toInt = (xmmOperand addr).i.toInt :=
        (BitVec.toInt_signExtend_of_le (by decide)).symm
      rw [hoff]
      exact List.mem_cons_self

end

/-! ### Entering and leaving -/

/-- What comes before the registers are saved. -/
def opening (localAddr : BitVec 32) : List Code :=
  [⟨.pushq, [operandReg .long rbp 0]⟩, ⟨.movq, [operandReg .long rsp 0, operandReg .long rbp 0]⟩] ++
    if localAddr ≠ 0 then
      [⟨.subq, [operandCon .long (localAddr.signExtend 64) none 0, operandReg .long rsp 0]⟩]
    else []

/-- What comes after they are restored. -/
def closing (localAddr : BitVec 32) : List Code :=
  (if localAddr ≠ 0 then [⟨.movq, [operandReg .long rbp 0, operandReg .long rsp 0]⟩] else []) ++
    [⟨.popq, [operandReg .long rbp 0]⟩]

section
variable {env : Env} {callee : Word → Machine → Machine} {s : Machine} {a : BitVec 32} {b : Word}
variable {sizes : List ObjectSize} {funcRegs : FuncRegs}

/-- The two blocks are mirror images. -/
theorem logues_eq (a : BitVec 32) (f : FuncRegs) :
    logues a f [] [] = ⟨xmmRoom a f.saved, opening (xmmRoom a f.saved) ++ saving (xmmRoom a f.saved) f.saved,
      restoring (xmmRoom a f.saved) f.saved ++ closing (xmmRoom a f.saved)⟩ := by
  simp only [logues, saveRegs_eq, opening, closing]
  split <;> rfl

theorem savedSlots_append (l₁ l₂ : List Code) :
    savedSlots (l₁ ++ l₂) = savedSlots l₁ ++ savedSlots l₂ :=
  List.filterMap_append

theorem savedSlots_opening (a : BitVec 32) : savedSlots (opening a) = [] := by
  unfold opening
  split <;> rfl

theorem savedSlots_entry (a : BitVec 32) (regs : Regs) :
    savedSlots (opening a ++ saving a regs) = savedSlots (saving a regs) := by
  rw [savedSlots_append, savedSlots_opening, List.nil_append]

variable (env callee) in
/-- The old frame pointer is pushed, the new one is set, and the stack pointer goes below the slots. -/
theorem opening_spec (a : BitVec 32) (s : Machine) :
    let s' := execs env callee (opening a) s
    s'.regs rbp = s.regs rsp - 8 ∧ s'.regs rsp = s.regs rsp - 8 - a.signExtend 64 ∧
      (∀ r, r ≠ rsp → r ≠ rbp → s'.regs r = s.regs r) ∧
      s'.mem = storeWord s.mem (s.regs rsp - 8) 8 (s.regs rbp) := by
  unfold opening
  split
  · refine ⟨rfl, ?_, fun r h₁ h₂ => ?_, rfl⟩
    · show s.regs rsp - 8 - (symWord env none + a.signExtend 64) = _
      simp [symWord]
    · exact (setReg_ne h₁).trans ((setReg_ne h₂).trans (setReg_ne h₁))
  · next ha =>
    obtain rfl : a = 0 := not_not.mp ha
    refine ⟨rfl, ?_, fun r h₁ h₂ => (setReg_ne h₂).trans (setReg_ne h₁), rfl⟩
    show s.regs rsp - 8 = s.regs rsp - 8 - 0
    rw [sub_zero]

variable (env callee) in
/-- Both are taken back. -/
theorem closing_spec (hrbp : s.regs rbp = b) (hrsp : s.regs rsp = b - a.signExtend 64) :
    let s' := execs env callee (closing a) s
    s'.regs rsp = b + 8 ∧ s'.regs rbp = loadWord s.mem b 8 ∧
      ∀ r, r ≠ rsp → r ≠ rbp → s'.regs r = s.regs r := by
  unfold closing
  split
  · have hrun : execs env callee ([⟨.movq, [operandReg .long rbp 0, operandReg .long rsp 0]⟩] ++
        [⟨.popq, [operandReg .long rbp 0]⟩]) s =
        ((s.setReg rsp b).setReg rsp (b + 8)).setReg rbp (loadWord s.mem b 8) := by
      rw [← hrbp]
      rfl
    dsimp only
    rw [hrun]
    exact ⟨rfl, rfl, fun r h₁ h₂ => (setReg_ne h₂).trans ((setReg_ne h₁).trans (setReg_ne h₁))⟩
  · next ha =>
    obtain rfl : a = 0 := not_not.mp ha
    have htop : s.regs rsp = b := hrsp.trans (sub_zero b)
    rw [List.nil_append, execs_cons, execs_nil, exec_popq, htop]
    exact ⟨rfl, rfl, fun r h₁ h₂ => (setReg_ne h₂).trans (setReg_ne h₁)⟩

/-! ### Frames that fit -/

/-- A local is so far below the frame pointer. -/
theorem offset_eq {o : BitVec 32} {k : Nat} (h : o.toInt = -k) :
    b + o.signExtend 64 = b - BitVec.ofNat 64 k := by
  have hint : (o.signExtend 64).toInt = -k := by
    rw [BitVec.toInt_signExtend_of_le (by decide), h]
  rw [← BitVec.ofInt_toInt (x := o.signExtend 64), hint, BitVec.ofInt_neg, sub_eq_add_neg]
  simp

end

/-! ### Entering and leaving a frame that fits -/

section
variable {env : Env} {callee : Word → Machine → Machine} {s s' : Machine} {addr : BitVec 32} {b : Word}
variable {regs : Regs} {locals : List Local} {funcRegs : FuncRegs}

variable (env callee) in
/-- The registers and memory when a function has been entered. -/
theorem entry_spec (haddr : addr.toNat < 2 ^ 31) (hroom : 8 * stored regs ≤ addr.toNat) (s : Machine) :
    let s₁ := execs env callee (opening addr) s
    let s' := execs env callee (saving addr regs) s₁
    let b := s.regs rsp - 8
    s₁.regs rbp = b ∧ s₁.regs rsp = b - BitVec.ofNat 64 addr.toNat ∧
      s'.regs rbp = b ∧ s'.regs rsp = b - BitVec.ofNat 64 (addr.toNat + 8 * pushed regs) ∧
      (∀ r, r ≠ rsp → r ≠ rbp → s'.regs r = s.regs r) ∧
      ∀ x, ¬ SavedAt b addr.toNat addr.toNat regs x → s'.mem x = storeWord s.mem b 8 (s.regs rbp) x := by
  intro s₁ s' b
  obtain ⟨hrbp, hrsp, hregs, hmem⟩ := opening_spec env callee addr s
  rw [signExtend_of_lt haddr] at hrsp
  obtain ⟨hrsp', hregs', hmem'⟩ := saving_spec env callee
    hrsp hrbp haddr hroom
  refine ⟨hrbp, hrsp, (hregs' rbp (by decide)).trans hrbp, hrsp', fun r h₁ h₂ => ?_, fun x hx => ?_⟩
  · exact (hregs' r h₁).trans (hregs r h₁ h₂)
  · rw [hmem' x hx]
    exact congrFun hmem x

/-- The slots of the locals are above those of the XMM registers. -/
def LocalsAbove (locals : List Local) (room : Nat) : Prop :=
  ∀ l ∈ locals, l.offset.toInt + padded l.size.bytes ≤ 0 ∧ -(room : Int) ≤ l.offset.toInt

/-- A byte of a local is so far below RBP. -/
theorem LocalsAbove.byte {room : Nat} (h : LocalsAbove locals room) {l : Local} (hl : l ∈ locals) {x : Word}
    (hx : Within (b + l.offset.signExtend 64) (padded l.size.bytes) x) :
    ∃ m, 0 < m ∧ m ≤ room ∧ x = b - BitVec.ofNat 64 m := by
  obtain ⟨k, hk, rfl⟩ := hx
  obtain ⟨hbelow, habove⟩ := h l hl
  obtain ⟨c, hc⟩ := Int.eq_ofNat_of_zero_le (show 0 ≤ -l.offset.toInt by omega)
  rw [offset_eq (k := c) (by omega), below_add b (by omega)]
  exact ⟨c - k, by omega, by omega, rfl⟩

/-- The word above is no word below. -/
theorem above_ne_below {j m : Nat} (hj : j < 8) (hm : 0 < m) (hlt : m < 2 ^ 63) :
    b + BitVec.ofNat 64 j ≠ b - BitVec.ofNat 64 m := by
  intro h
  have hsum : BitVec.ofNat 64 (j + m) = 0 := by
    rw [BitVec.ofNat_add, ← add_right_inj b, ← add_assoc, h]
    ring
  have hnat := congrArg BitVec.toNat hsum
  rw [BitVec.toNat_ofNat, Nat.mod_eq_of_lt (by omega)] at hnat
  exact absurd hnat (by show j + m ≠ 0; omega)

/-- What the exit block reads is in the frame, and in no local. -/
theorem Keeps.saved {depth room : Nat} (hk : Keeps locals funcRegs s s') (habove : LocalsAbove locals room)
    (hdepth : depth + 8 * pushed regs < 2 ^ 60) (hroom : room + 8 * stored regs ≤ depth)
    (hrbp : s.regs rbp = b) (hrsp : s.regs rsp = b - BitVec.ofNat 64 (depth + 8 * pushed regs)) :
    (∀ x, SavedAt b (room + 8 * stored regs) depth regs x → s'.mem x = s.mem x) ∧
      ∀ j < 8, s'.mem (b + BitVec.ofNat 64 j) = s.mem (b + BitVec.ofNat 64 j) := by
  generalize hd : depth + 8 * pushed regs = d at hdepth hrsp
  have hsize : (s.regs rbp + 8 - s.regs rsp).toNat = d + 8 := by
    have hword : s.regs rbp + 8 - s.regs rsp = BitVec.ofNat 64 (d + 8) := by
      rw [hrbp, hrsp, BitVec.ofNat_add]
      show b + 8 - (b - BitVec.ofNat 64 d) = BitVec.ofNat 64 d + 8
      ring
    rw [hword, BitVec.toNat_ofNat]
    exact Nat.mod_eq_of_lt (by omega)
  refine ⟨?_, fun j hj => ?_⟩
  · rintro x ⟨m, hm, rfl⟩
    refine hk.mem _ ?_ fun l hl hx => ?_
    · rw [hsize, hrsp]
      exact ⟨d - m, by omega, by rw [below_add b (by omega), Nat.sub_sub_self (by omega)]⟩
    · rw [hrbp] at hx
      obtain ⟨i, hi, hi', hx⟩ := habove.byte hl hx
      have := below_inj (by omega) (by omega) hx
      omega
  · refine hk.mem _ ?_ fun l hl hx => ?_
    · rw [hsize, hrsp]
      refine ⟨d + j, by omega, ?_⟩
      rw [BitVec.ofNat_add]
      ring
    · rw [hrbp] at hx
      obtain ⟨i, hi, hi', hx⟩ := habove.byte hl hx
      exact above_ne_below hj hi (by omega) hx

variable (env callee) in
/-- A frame that fits is taken down again. -/
theorem leave_spec (haddr : addr.toNat < 2 ^ 31) {room : Nat}
    (hroom : room + 8 * stored funcRegs.saved = addr.toNat) (habove : LocalsAbove locals room)
    (hk : Keeps locals funcRegs (execs env callee (opening addr ++ saving addr funcRegs.saved) s) s')
    {r : PseudoReg} (hr : r = rsp ∨ r = rbp ∨ r ∈ preserved) :
    (execs env callee (restoring addr funcRegs.saved ++ closing addr) s').regs r = s.regs r := by
  have hpushed := funcRegs.pushed_saved
  have hsaved : ∀ q ∈ funcRegs.saved, q ≠ rsp ∧ q ≠ rbp :=
    fun q hq => preserved_ne (funcRegs.mem_saved.mp hq).2
  rw [execs_append] at hk
  obtain ⟨hrbp₁, hrsp₁, hrbp, hrsp, hregs, hmem⟩ := entry_spec env callee
    haddr (show 8 * stored funcRegs.saved ≤ addr.toNat by omega) s
  set s₁ := execs env callee (opening addr) s with hs₁
  set s₂ := execs env callee (saving addr funcRegs.saved) s₁ with hs₂
  set b := s.regs rsp - 8 with hb
  obtain ⟨hbytes₁, hbytes₂⟩ := hk.saved habove
    (show addr.toNat + 8 * pushed funcRegs.saved < 2 ^ 60 by omega) hroom.le hrbp hrsp
  rw [hroom, hs₂] at hbytes₁
  -- the registers that were saved
  obtain ⟨hmem₃, hrsp₃, hback, hrest⟩ := restoring_spec env callee hrsp₁ hrbp₁ haddr (by omega) le_rfl
    (by omega) funcRegs.nodup_saved hsaved (hk.stack.trans hrsp) (hk.frame.trans hrbp) hbytes₁
  set s₃ := execs env callee (restoring addr funcRegs.saved) s' with hs₃
  have hrbp₃ : s₃.regs rbp = b :=
    (hrest rbp (by decide) fun hq => (hsaved rbp hq).2 rfl).trans (hk.frame.trans hrbp)
  -- the old frame pointer
  have hword : loadWord s₃.mem b 8 = s.regs rbp := by
    refine loadWord_of_bytes fun j hj => ?_
    rw [hmem₃, hbytes₂ j hj, hmem _ ?_, storeWord_apply _ _ _ hj le_rfl]
    rintro ⟨m, hm, hx⟩
    exact above_ne_below hj (by omega) (by omega) hx
  obtain ⟨htop, hframe, hothers⟩ := closing_spec env callee (a := addr) hrbp₃
    (by rw [hrsp₃, signExtend_of_lt haddr])
  rw [execs_append]
  rcases hr with rfl | rfl | hr
  · rw [htop, hb, sub_add_cancel]
  · rw [hframe, hword]
  · obtain ⟨hr₁, hr₂⟩ := preserved_ne hr
    rw [hothers r hr₁ hr₂]
    by_cases hsave : r ∈ funcRegs.saved
    · rw [hback r hsave]
      exact (opening_spec env callee addr s).2.2.1 r hr₁ hr₂
    · rw [hrest r hr₁ hsave, hk.regs r hr fun hused => hsave (funcRegs.mem_saved.mpr ⟨hused, hr⟩)]
      exact hregs r hr₁ hr₂

end

/-! ### When frames are good -/

section
variable {sizes : List ObjectSize} {funcRegs : FuncRegs} {addr : BitVec 32}

/-- The bytes of the locals. -/
def localBytes (sizes : List ObjectSize) : Nat := (sizes.map fun size => padded size.bytes).sum

theorem frameBytes_eq (sizes : List ObjectSize) (f : FuncRegs) :
    frameBytes sizes f = localBytes sizes + 8 * stored f.saved := rfl

theorem localBytes_mod (sizes : List ObjectSize) : localBytes sizes % 8 = 0 := by
  refine Nat.mod_eq_zero_of_dvd (List.dvd_sum fun k hk => ?_)
  obtain ⟨size, -, rfl⟩ := List.mem_map.mp hk
  exact Nat.dvd_of_mod_eq_zero (padded_spec size.bytes).2.2

theorem frameLogues_eq (sizes : List ObjectSize) (f : FuncRegs)
    (h : addr = xmmRoom (symbolStorages 0 sizes).1 f.saved) :
    frameLogues sizes f = ⟨addr, opening addr ++ saving addr f.saved,
      restoring addr f.saved ++ closing addr⟩ := by
  rw [frameLogues, logues_eq, h]

/-- The locals, if they fit. -/
theorem locals_fit (h : localBytes sizes < 2 ^ 31) :
    (symbolStorages 0 sizes).1.toNat = localBytes sizes ∧
      ((frameLocals sizes).map Local.slot).Pairwise Slot.Apart ∧
      LocalsAbove (frameLocals sizes) (localBytes sizes) := by
  have hzero : (0 : BitVec 32).toNat = 0 := rfl
  obtain ⟨hsum, hpair, hall⟩ := @symbolStorages_fit 0 sizes rfl
    (by rwa [hzero, Nat.zero_add])
  rw [hzero, Nat.zero_add] at hsum
  refine ⟨hsum, hpair, fun l hl => ?_⟩
  have hl' := hall l hl
  rw [hzero, hsum] at hl'
  exact ⟨hl'.1, hl'.2⟩

/-- The counter of a frame that fits. -/
theorem frameLogues_fit (h : frameBytes sizes funcRegs < 2 ^ 31) :
    ∃ addr, frameLogues sizes funcRegs = ⟨addr, opening addr ++ saving addr funcRegs.saved,
        restoring addr funcRegs.saved ++ closing addr⟩ ∧
      addr.toNat < 2 ^ 31 ∧ localBytes sizes + 8 * stored funcRegs.saved = addr.toNat := by
  rw [frameBytes_eq] at h
  have hmod := localBytes_mod sizes
  obtain ⟨hsum, -⟩ := locals_fit (show localBytes sizes < 2 ^ 31 by omega)
  have hroom : (xmmRoom (symbolStorages 0 sizes).1 funcRegs.saved).toNat =
      localBytes sizes + 8 * stored funcRegs.saved := by
    rw [toNat_xmmRoom (by rw [hsum, hmod]) (by rwa [hsum]), hsum]
  refine ⟨_, frameLogues_eq sizes funcRegs rfl, ?_, hroom.symm⟩
  rwa [hroom]

/-- The slots of a frame that fits. -/
theorem slots_fit {locals : List Local} {regs : Regs} {room : Nat} (haddr : addr.toNat < 2 ^ 31)
    (hroom : room + 8 * stored regs = addr.toNat) (hpair : (locals.map Local.slot).Pairwise Slot.Apart)
    (habove : LocalsAbove locals room) :
    (locals.map Local.slot ++ savedSlots (saving addr regs)).Pairwise Slot.Apart ∧
      ∀ slot ∈ locals.map Local.slot ++ savedSlots (saving addr regs),
        slot.offset + slot.bytes ≤ 0 ∧ -addr.toInt ≤ slot.offset := by
  have hint : addr.toInt = addr.toNat := BitVec.toInt_eq_toNat_of_lt (by omega)
  obtain ⟨hpair', hall⟩ := savedSlots_saving haddr (show 8 * stored regs ≤ addr.toNat by omega)
  refine ⟨List.pairwise_append.mpr ⟨hpair, hpair', ?_⟩, fun slot hslot => ?_⟩
  · intro slot hslot slot' hslot'
    obtain ⟨l, hl, rfl⟩ := List.mem_map.mp hslot
    refine .inr ?_
    show slot'.offset + slot'.bytes ≤ l.offset.toInt
    have hlow := (habove l hl).2
    obtain ⟨hbytes, -, hhigh⟩ := hall slot' hslot'
    omega
  · rw [hint]
    rcases List.mem_append.mp hslot with hslot | hslot
    · obtain ⟨l, hl, rfl⟩ := List.mem_map.mp hslot
      obtain ⟨hbelow, hlow⟩ := habove l hl
      refine ⟨hbelow, ?_⟩
      show -(addr.toNat : Int) ≤ l.offset.toInt
      omega
    · obtain ⟨hbytes, hlow, hhigh⟩ := hall slot hslot
      omega

/-- If the XMM registers do not fit, the slot of the first is above RBP, or nothing is reserved. -/
theorem xmm_overflows {a : BitVec 32} {regs : Regs} (ha : a.toNat < 2 ^ 31)
    (hregs : stored regs ≤ 13) (hover : 2 ^ 31 ≤ a.toNat + 8 * stored regs)
    (hslots : ∀ slot ∈ savedSlots (saving (xmmRoom a regs) regs),
      slot.offset + slot.bytes ≤ 0 ∧ -(xmmRoom a regs).toInt ≤ slot.offset) : False := by
  have hroom := @toNat_foldl_xmm regs a (by omega)
  have hbig : 2 ^ 31 ≤ (xmmRoom a regs).toNat := (roundUp_overflow (by omega) (by omega)).1
  generalize xmmRoom a regs = addr at hbig hslots
  obtain ⟨hbelow, hreserved⟩ := hslots _ (mem_savedSlots addr (by omega))
  dsimp only at hbelow hreserved
  have hlt := @BitVec.toInt_lt 32 addr
  rcases toInt_neg_overflow hbig with hpos | hmin <;> omega

/-- A frame whose slots are all within what is reserved fits. -/
theorem fits_of_slots (hslots : ∀ slot ∈ frameSlots sizes funcRegs, slot.offset + slot.bytes ≤ 0 ∧
      -(frameLogues sizes funcRegs).localAddr.toInt ≤ slot.offset) :
    frameBytes sizes funcRegs < 2 ^ 31 := by
  rw [frameSlots, frameLogues_eq sizes funcRegs rfl, savedSlots_entry] at hslots
  dsimp only at hslots
  have hlt := @BitVec.toInt_lt 32 (xmmRoom (symbolStorages 0 sizes).1 funcRegs.saved)
  have hfit := @fit_of_slots 0 sizes _
    (show -2 ^ 31 < -(xmmRoom (symbolStorages 0 sizes).1 funcRegs.saved).toInt by omega) rfl (by decide)
    fun l hl => hslots l.slot (List.mem_append_left _ (List.mem_map_of_mem hl))
  rw [show (0 : BitVec 32).toNat = 0 from rfl, Nat.zero_add] at hfit
  have hsum := (locals_fit hfit).1
  rw [frameBytes_eq]
  by_contra hover
  refine @xmm_overflows (symbolStorages 0 sizes).1 funcRegs.saved ?_
    funcRegs.stored_saved ?_ fun slot hs => hslots slot (List.mem_append_right _ hs)
  · rwa [hsum]
  · rw [hsum]
    exact Nat.le_of_not_lt hover

end

/-- The frame of a function is good if and only if it has less than 2^31 bytes. -/
theorem frame_correct_iff (sizes : List ObjectSize) (funcRegs : FuncRegs) :
    FrameCorrect sizes funcRegs ↔ frameBytes sizes funcRegs < 2 ^ 31 := by
  constructor
  · intro hc
    exact fits_of_slots fun slot hs => ⟨hc.below slot hs, hc.reserved slot hs⟩
  · intro h
    obtain ⟨addr, hlogues, hlt, hroom⟩ := frameLogues_fit h
    obtain ⟨-, hpair, habove⟩ := locals_fit (show localBytes sizes < 2 ^ 31 by omega)
    obtain ⟨hpair', hall⟩ := slots_fit hlt hroom hpair habove
    have hslots : frameSlots sizes funcRegs =
        (frameLocals sizes).map Local.slot ++ savedSlots (saving addr funcRegs.saved) := by
      rw [frameSlots, hlogues, savedSlots_entry]
    rw [← hslots] at hpair' hall
    refine ⟨hpair', fun slot hs => (hall slot hs).1, fun slot hs => ?_,
      fun env callee s => ?_, fun l _ env callee temp selxns n limit dst s hf hdst hlim hat => ?_,
      fun env callee s s' hk r hr => ?_⟩
    · rw [hlogues]
      exact (hall slot hs).2
    · rw [hlogues]
      obtain ⟨-, -, hrbp, hrsp, -⟩ := entry_spec env callee
        hlt (show 8 * stored funcRegs.saved ≤ addr.toNat by omega) s
      dsimp only
      rw [execs_append]
      refine ⟨hrbp, ?_⟩
      rw [hrbp, hrsp, signExtend_of_lt hlt, BitVec.ofNat_add, sub_sub _ (BitVec.ofNat 64 addr.toNat)]
    · have hzeroed := blkzero_zeroed env callee hf l.size.le hdst hlim
      rwa [hat] at hzeroed
    · rw [hlogues] at hk ⊢
      dsimp only at hk ⊢
      exact leave_spec env callee hlt hroom habove hk hr

/-- 16 locals of 128 MB do not fit. -/
theorem not_frame_correct : ¬ ∀ (sizes : List ObjectSize) (funcRegs : FuncRegs),
    FrameCorrect sizes funcRegs := by
  intro h
  have hc := h (List.replicate 16 ⟨maxObjectSize, le_rfl⟩) ⟨[], .nil, by simp⟩
  have hfits := fits_of_slots fun slot hs => ⟨hc.below slot hs, hc.reserved slot hs⟩
  rw [frameBytes, List.map_replicate, List.sum_replicate] at hfits
  have hpadded : padded maxObjectSize = 2 ^ 27 := by
    norm_num [padded, maxObjectSize]
  rw [hpadded, smul_eq_mul] at hfits
  omega

end Ncc.Amd64
