import Ncc.Amd64.CallRun

/-! Caller and callee agree on where arguments are.

    Both follow one convention, `ArgType.places`: the callee's homes are its places
    (`homes_places`), `call0` keeps an I_ARG where it says "register" (`call0_spec`), and `call1` and
    `call2` put every argument at its place (`call1_spec`, `call2_spec`). The convention counts bytes
    without bound, the code with ints. -/

namespace Ncc.Amd64

open Layout

/-! ### The convention -/

/-- AMD64_REG_CLASS_INT, AMD64_REG_CLASS_FP. -/
inductive RegClass where
  | int | fp
  deriving DecidableEq

/-- The registers that arguments of the type go in. -/
def ArgType.pool : ArgType → Option RegClass
  | .scalar ts => some (if ts.floating then .fp else .int)
  | .strun _ => none

/-- The bytes that an argument of the type takes on the stack. -/
def ArgType.slot (t : ArgType) : Nat := (t.sizeof + 7) / 8 * 8

/-- How many registers of the class pass arguments. -/
def nrArgs : RegClass → Nat
  | .int => nrIargs
  | .fp => nrFargs

/-- The register that passes an argument. -/
def argReg : RegClass → Nat → PseudoReg
  | .int, i => iargs i
  | .fp, i => xmm i

/-- A variadic function has all its arguments on the stack. -/
def start (variadic : Bool) : Cursor RegClass := ⟨if variadic then nrArgs else fun _ => 0, 0⟩

/-- Where arguments of these types are, from a cursor on. -/
abbrev placesFrom (c : Cursor RegClass) (ts : List ArgType) : List (Place RegClass) :=
  places ArgType.pool nrArgs ArgType.slot c ts

/-- What they leave of the cursor. -/
abbrev finalFrom (c : Cursor RegClass) (ts : List ArgType) : Cursor RegClass :=
  final ArgType.pool nrArgs ArgType.slot c ts

/-- The bytes that arguments of these types take on the stack. -/
def stackBytes (variadic : Bool) (ts : List ArgType) : Nat := (finalFrom (start variadic) ts).bytes

/-- The types of an actual and a formal that it can be passed for: a scalar may be narrower or wider
    than the formal of a function without a prototype. -/
def Compatible : ArgType → ArgType → Prop
  | .scalar a, .scalar b => a.floating = b.floating
  | .strun m, .strun n => m = n
  | _, _ => False

section
variable {t u : ArgType} {c : Cursor RegClass} {i j n m : Nat} {k : RegClass}

theorem slot_scalar (ts : TypeBits) : (ArgType.scalar ts).slot = 8 := by cases ts <;> rfl

theorem slot_mod (t : ArgType) : t.slot % 8 = 0 := Nat.mul_mod_left _ _

theorem sizeof_le_slot (t : ArgType) : t.sizeof ≤ t.slot ∧ t.slot ≤ t.sizeof + 7 := by
  unfold ArgType.slot
  omega

theorem sizeof_le_max (t : ArgType) : t.sizeof ≤ maxObjectSize := by
  cases t with
  | scalar ts => cases ts <;> decide
  | strun size => exact size.le

theorem Compatible.layout (h : Compatible t u) : t.pool = u.pool ∧ t.slot = u.slot := by
  cases t with
  | scalar a =>
    cases u with
    | scalar b =>
      have hab : a.floating = b.floating := h
      exact ⟨by rw [ArgType.pool, ArgType.pool, hab], by rw [slot_scalar, slot_scalar]⟩
    | strun n => exact absurd h id
  | strun m =>
    cases u with
    | scalar b => exact absurd h id
    | strun n => exact ⟨rfl, congrArg (fun s => (ArgType.strun s).slot) h⟩

/-- The registers that pass arguments. -/
theorem argReg_spec (hn : n < nrArgs k) : isPhysical (argReg k n) = true ∧ argReg k n ≠ rbp ∧
    argReg k n ≠ rsp ∧ ∀ k' m, m < nrArgs k' → argReg k n = argReg k' m → k = k' ∧ n = m := by
  have h : ∀ k n, n < nrArgs k → isPhysical (argReg k n) = true ∧ argReg k n ≠ rbp ∧
      argReg k n ≠ rsp ∧ ∀ k', ∀ m < nrArgs k', argReg k n = argReg k' m → k = k' ∧ n = m := by
    have hfin : ∀ k, ∀ n < 6, isPhysical (argReg k n) = true ∧ argReg k n ≠ rbp ∧
        argReg k n ≠ rsp ∧ ∀ k', ∀ m < 6, argReg k n = argReg k' m → k = k' ∧ n = m := by
      intro k
      cases k <;> intro n hn <;> refine ⟨?_, ?_, ?_, fun k' => ?_⟩ <;> revert n <;>
        try cases k'
      all_goals decide
    intro k n hn
    obtain ⟨h₁, h₂, h₃, h₄⟩ := hfin k n (by cases k <;> exact hn)
    exact ⟨h₁, h₂, h₃, fun k' m hm => h₄ k' m (by cases k' <;> exact hm)⟩
  obtain ⟨h₁, h₂, h₃, h₄⟩ := h k n hn
  exact ⟨h₁, h₂, h₃, fun k' m hm => h₄ k' m hm⟩

end

/-! ### The callee -/

/-- The callee has counted what the cursor counts, as long as ints can. -/
structure Counts (st : FormalState) (c : Cursor RegClass) : Prop where
  iargs : st.iargs = c.used .int
  fargs : st.fargs = c.used .fp
  aligned : c.bytes % 8 = 0
  argAddr : c.bytes + 16 < 2 ^ 31 → st.argAddr = BitVec.ofNat 32 (c.bytes + 16)

/-- The home is what the place says, as long as ints can. -/
def HomeAt : Place RegClass → Home → Prop
  | .reg k n, home => home = .reg (argReg k n)
  | .stack n, home => ∃ offset, home = .frame offset ∧
      (n + 16 < 2 ^ 31 → offset = BitVec.ofNat 32 (n + 16))

theorem counts_start (variadic : Bool) : Counts (amd64FuncNew variadic) (start variadic) := by
  cases variadic <;> exact ⟨rfl, rfl, rfl, fun _ => rfl⟩

/-- One formal. -/
theorem formalDeclare_spec {st : FormalState} {c : Cursor RegClass} (h : Counts st c)
    (t : ArgType) :
    Counts (amd64FormalDeclare st t).1 (next ArgType.pool nrArgs ArgType.slot c t) ∧
      HomeAt (place ArgType.pool nrArgs c t) (amd64FormalDeclare st t).2 := by
  -- a formal without a register
  have hframe : room ArgType.pool nrArgs c t = none →
      Counts { st with argAddr := roundUp (st.argAddr + BitVec.ofNat 32 t.sizeof) }
        (next ArgType.pool nrArgs ArgType.slot c t) ∧
      HomeAt (place ArgType.pool nrArgs c t) (.frame st.argAddr) := by
    intro hroom
    rw [next, place, hroom]
    refine ⟨⟨h.iargs, h.fargs, ?_, fun hlt => ?_⟩, st.argAddr, rfl, h.argAddr⟩
    · have := slot_mod t
      have := h.aligned
      dsimp only
      omega
    · obtain ⟨hle, hle'⟩ := sizeof_le_slot t
      have hmod := slot_mod t
      have hal := h.aligned
      dsimp only at hlt ⊢
      have haddr := h.argAddr (by omega)
      have hnat : (st.argAddr + BitVec.ofNat 32 t.sizeof).toNat = c.bytes + 16 + t.sizeof := by
        rw [haddr, BitVec.toNat_add, BitVec.toNat_ofNat, BitVec.toNat_ofNat]
        omega
      apply BitVec.eq_of_toNat_eq
      rw [toNat_roundUp (by omega), hnat, BitVec.toNat_ofNat]
      unfold ArgType.slot
      omega
  unfold amd64FormalDeclare
  cases t with
  | strun size => exact hframe rfl
  | scalar ts =>
    cases hts : ts.floating with
    | false =>
      have hpool : (ArgType.scalar ts).pool = some .int := by simp [ArgType.pool, hts]
      by_cases hlt : c.used .int < nrIargs
      · have hroom : room ArgType.pool nrArgs c (.scalar ts) = some .int := by
          simp [room, hpool, nrArgs, hlt]
        rw [if_pos (by simp [ArgType.discrete, hts, h.iargs, hlt]), next, place, hroom]
        exact ⟨⟨by simp [h.iargs], by simp [h.fargs], h.aligned, h.argAddr⟩, by
          rw [HomeAt, h.iargs]; rfl⟩
      · have hroom : room ArgType.pool nrArgs c (.scalar ts) = none := by
          simp [room, hpool, nrArgs, hlt]
        rw [if_neg (by simp [h.iargs, hlt]), if_neg (by simp [ArgType.floating, hts])]
        exact hframe hroom
    | true =>
      have hpool : (ArgType.scalar ts).pool = some .fp := by simp [ArgType.pool, hts]
      rw [if_neg (by simp [ArgType.discrete, hts])]
      by_cases hlt : c.used .fp < nrFargs
      · have hroom : room ArgType.pool nrArgs c (.scalar ts) = some .fp := by
          simp [room, hpool, nrArgs, hlt]
        rw [if_pos (by simp [ArgType.floating, hts, h.fargs, hlt]), next, place, hroom]
        exact ⟨⟨by simp [h.iargs], by simp [h.fargs], h.aligned, h.argAddr⟩, by
          rw [HomeAt, h.fargs]; rfl⟩
      · have hroom : room ArgType.pool nrArgs c (.scalar ts) = none := by
          simp [room, hpool, nrArgs, hlt]
        rw [if_neg (by simp [h.fargs, hlt])]
        exact hframe hroom

/-- The callee looks for its arguments where the convention puts them. -/
theorem formalsDeclare_spec {st : FormalState} {c : Cursor RegClass} (h : Counts st c)
    (ts : List ArgType) : List.Forall₂ HomeAt (placesFrom c ts) (formalsDeclare st ts) := by
  induction ts generalizing st c with
  | nil => exact .nil
  | cons t ts ih =>
    obtain ⟨hcounts, hhome⟩ := formalDeclare_spec h t
    exact .cons hhome (ih hcounts)

theorem homes_places (f : FuncType) :
    List.Forall₂ HomeAt (placesFrom (start f.variadic) f.allFormals) f.homes :=
  formalsDeclare_spec (counts_start f.variadic) _

/-! ### The caller -/

/-- The I_ARGUMENT of an argument with the given place. -/
def mark : Actual → Place RegClass → ArgInsn
  | .scalar o, .reg _ _ => ⟨.arg, o, ⟨0, Nat.zero_le _⟩⟩
  | .scalar o, .stack _ => ⟨.varg, o, ⟨0, Nat.zero_le _⟩⟩
  | .strun address size, _ => ⟨.blkarg, address, size⟩

/-- The I_ARGUMENTs of some arguments, marked as the convention says. -/
def marked (c : Cursor RegClass) (l : List Actual) : List ArgInsn :=
  List.zipWith mark l (placesFrom c (l.map Actual.type))

/-- Nothing is counted past the limits. -/
def Bounded (c : Cursor RegClass) : Prop := ∀ k, c.used k ≤ nrArgs k

section
variable {c : Cursor RegClass} {t : ArgType} {k : RegClass} {n : Nat}

theorem bounded_start (variadic : Bool) : Bounded (start variadic) := by
  intro k
  cases variadic <;> simp [start]

theorem Bounded.next (h : Bounded c) (t : ArgType) :
    Bounded (next ArgType.pool nrArgs ArgType.slot c t) := by
  intro k
  unfold Layout.next
  split
  · next k' hk =>
    have hlt := (room_spec hk).2
    rcases eq_or_ne k k' with rfl | hne
    · simpa using hlt
    · simpa [Function.update_of_ne hne] using h k
  · exact h k

/-- `call0` of a call to a variadic function leaves every insn as it is. -/
theorem call0_variadic (i f : Nat) (l : List Actual) :
    call0 i f (l.map (genArg true)) = (i, f, l.map (genArg true)) := by
  induction l with
  | nil => rfl
  | cons a l ih => cases a <;> simp [call0, genArg, ih]

theorem marked_variadic (h : ∀ k, nrArgs k ≤ c.used k) (l : List Actual) :
    marked c l = l.map (genArg true) := by
  induction l generalizing c with
  | nil => rfl
  | cons a l ih =>
    obtain ⟨hplace, hused⟩ := @place_of_full _ _ _ _ _ ArgType.slot c h a.type
    have hcons : marked c (a :: l) = mark a (place ArgType.pool nrArgs c a.type) ::
        marked (Layout.next ArgType.pool nrArgs ArgType.slot c a.type) l := rfl
    rw [hcons, hplace, ih (by rw [hused]; exact h)]
    cases a <;> rfl

/-- `call0` keeps an I_ARG where the convention says "register". -/
theorem call0_spec (h : Bounded c) (l : List Actual) :
    (call0 (c.used .int) (c.used .fp) (l.map (genArg false))).2.2 = marked c l := by
  induction l generalizing c with
  | nil => rfl
  | cons a l ih =>
    have hcons : marked c (a :: l) = mark a (place ArgType.pool nrArgs c a.type) ::
        marked (Layout.next ArgType.pool nrArgs ArgType.slot c a.type) l := rfl
    have hih := ih (h.next a.type)
    rw [hcons]
    cases a with
    | strun address size =>
      have hnext : (Layout.next ArgType.pool nrArgs ArgType.slot c
          (Actual.strun address size).type).used = c.used := rfl
      rw [hnext] at hih
      simp only [List.map_cons, genArg, call0, reduceCtorEq, if_false, hih]
      rfl
    | scalar o =>
      have hint := h .int
      have hfp := h .fp
      simp only [nrArgs] at hint hfp
      cases hts : o.ts.floating with
      | false =>
        have hpool : (Actual.scalar o).type.pool = some .int := by
          simp [Actual.type, ArgType.pool, hts]
        by_cases hlt : c.used .int < nrIargs
        · have hroom : room ArgType.pool nrArgs c (Actual.scalar o).type = some .int := by
            simp [room, hpool, nrArgs, hlt]
          rw [next, hroom] at hih
          rw [place, next, hroom]
          simpa [genArg, call0, hts, mark, show ¬ c.used .int = nrIargs by omega] using hih
        · have hroom : room ArgType.pool nrArgs c (Actual.scalar o).type = none := by
            simp [room, hpool, nrArgs, hlt]
          rw [next, hroom] at hih
          rw [place, next, hroom]
          simpa [genArg, call0, hts, mark, show c.used .int = nrIargs by omega] using hih
      | true =>
        have hpool : (Actual.scalar o).type.pool = some .fp := by
          simp [Actual.type, ArgType.pool, hts]
        by_cases hlt : c.used .fp < nrFargs
        · have hroom : room ArgType.pool nrArgs c (Actual.scalar o).type = some .fp := by
            simp [room, hpool, nrArgs, hlt]
          rw [next, hroom] at hih
          rw [place, next, hroom]
          simpa [genArg, call0, hts, mark, show ¬ c.used .fp = nrFargs by omega] using hih
        · have hroom : room ArgType.pool nrArgs c (Actual.scalar o).type = none := by
            simp [room, hpool, nrArgs, hlt]
          rw [next, hroom] at hih
          rw [place, next, hroom]
          simpa [genArg, call0, hts, mark, show c.used .fp = nrFargs by omega] using hih

/-- `call0`, of either kind of function. -/
theorem call0_start (variadic : Bool) (l : List Actual) :
    (call0 0 0 (l.map (genArg variadic))).2.2 = marked (start variadic) l := by
  cases variadic with
  | true => rw [call0_variadic, marked_variadic fun _ => le_rfl]
  | false => exact call0_spec (bounded_start false) l

end

/-! ### Arguments in machine states -/

/-- The block ends before an area, or begins after it. -/
def Outside (lo hi : Nat) (a : Word) (n : Nat) : Prop :=
  a.toNat + n ≤ 2 ^ 64 ∧ (a.toNat + n ≤ lo ∨ hi ≤ a.toNat)

section
variable (env : Env) (callee : Word → Machine → Machine) (constant : TypeBits → Word → Symbol)
variable (temp : TypeBits → Nat → PseudoReg) (selxns : Selxns)

/-- Byte `k` of an argument: of its value, or of the struct at its address. -/
def Actual.byte (s : Machine) : Actual → Nat → BitVec 8
  | .scalar o, k => s.byte env (operandImport constant o 0) k
  | .strun address _, k =>
    s.mem ((operandImport constant address 0).address env s.regs + BitVec.ofNat 64 k)

/-- The argument can be read: its registers are pseudo registers of the function, and the memory it
    is read from is not in the area that is pushed to. -/
def Actual.Ready (n : Nat) (s : Machine) (lo hi : Nat) : Actual → Prop
  | .scalar o => (∀ r, o.val = .reg r → Stable temp n r) ∧
      ((operandImport constant o 0).cls = .mem →
        Outside lo hi ((operandImport constant o 0).address env s.regs) o.ts.sizeof)
  | .strun address size =>
      IsAddress env temp selxns n s (operandImport constant address 0) ∧
      Outside lo hi ((operandImport constant address 0).address env s.regs) size.bytes

end

section
variable {env : Env} {callee : Word → Machine → Machine} {constant : TypeBits → Word → Symbol}
variable {temp : TypeBits → Nat → PseudoReg} {selxns : Selxns} {s s' : Machine} {a : Actual}
variable {lo hi n m k limit : Nat} {o : Ncc.Operand} {r : PseudoReg}
variable {c c' : Cursor RegClass}

theorem import_cases (constant : TypeBits → Word → Symbol) (o : Ncc.Operand) :
    (∃ r, o.val = .reg r ∧ operandImport constant o 0 = operandReg o.ts r 0) ∨
      (∃ w sym, o.ts.integral = true ∧ operandImport constant o 0 = operandCon o.ts w sym 0) ∨
      (o.ts.floating = true ∧ (operandImport constant o 0).cls = .mem ∧
        (operandImport constant o 0).ts = o.ts ∧
        ∀ r, (operandImport constant o 0).mentions r = false) := by
  unfold operandImport
  rcases hval : o.val with ⟨w, sym⟩ | r
  · by_cases hts : o.ts.integral = true
    · exact .inr (.inl ⟨w, sym, hts, if_pos hts⟩)
    · dsimp only
      rw [if_neg hts]
      refine .inr (.inr ⟨?_, rfl, rfl, fun r => rfl⟩)
      simpa [TypeBits.integral] using hts
  · exact .inl ⟨r, rfl, rfl⟩

variable (constant) in
theorem ts_import (o : Ncc.Operand) : (operandImport constant o 0).ts = o.ts := by
  rcases import_cases constant o with ⟨r, -, h⟩ | ⟨w, sym, -, h⟩ | ⟨-, -, h, -⟩
  · rw [h]; rfl
  · rw [h]; rfl
  · exact h

/-- An operand mentions registers that are left alone. -/
theorem import_mentions (h : ∀ r, o.val = .reg r → Stable temp n r)
    (hr : (operandImport constant o 0).mentions r = true) : Stable temp n r := by
  rcases import_cases constant o with ⟨q, hq, heq⟩ | ⟨w, sym, -, heq⟩ | ⟨-, -, -, hno⟩
  · rw [heq] at hr
    exact mentions_reg hr ▸ h q hq
  · rw [heq] at hr
    exact absurd hr (by simp [Operand.mentions, operandCon, operandNew])
  · exact absurd hr (by simp [hno r])

/-- An argument is the same while its registers and the memory outside the area are. -/
theorem Actual.Ready.byte (h : a.Ready env constant temp selxns n s lo hi)
    (hregs : ∀ r, Stable temp n r → s'.regs r = s.regs r)
    (hmem : ∀ x, x.toNat < lo ∨ hi ≤ x.toNat → s'.mem x = s.mem x) (hk : k < a.type.sizeof) :
    a.byte env constant s' k = a.byte env constant s k := by
  have hout : ∀ {b : Word} {n : Nat}, Outside lo hi b n → k < n →
      s'.mem (b + BitVec.ofNat 64 k) = s.mem (b + BitVec.ofNat 64 k) := by
    intro b n hb hlt
    obtain ⟨hle, hside⟩ := hb
    refine hmem _ ?_
    rw [toNat_add_of_le (by omega)]
    omega
  cases a with
  | scalar o =>
    obtain ⟨hstable, hsource⟩ := h
    refine byte_congr (fun r hr => hregs r (import_mentions hstable hr))
      (fun hcls => hout (hsource hcls) hk) fun hcls => ?_
    rcases import_cases constant o with ⟨q, hq, heq⟩ | ⟨w, sym, -, heq⟩ | ⟨-, hmem, -, -⟩
    · rw [heq]
      exact (hstable q hq).ne_none
    · rw [heq] at hcls
      cases hcls
    · rw [hmem] at hcls
      cases hcls
  | strun address size =>
    obtain ⟨haddr, hsource⟩ := h
    have heq := (haddr.congr hregs le_rfl).2
    show s'.mem (_ + _) = s.mem (_ + _)
    rw [heq]
    exact hout hsource hk

/-- A later state finds the argument ready, too. -/
theorem Actual.Ready.later (h : a.Ready env constant temp selxns n s lo hi)
    (hregs : ∀ r, Stable temp n r → s'.regs r = s.regs r) (hle : n ≤ m) :
    a.Ready env constant temp selxns m s' lo hi := by
  cases a with
  | scalar o =>
    obtain ⟨hstable, hsource⟩ := h
    refine ⟨fun r hr => (hstable r hr).mono hle, fun hcls => ?_⟩
    rw [address_congr fun r hr => hregs r (import_mentions hstable hr)]
    exact hsource hcls
  | strun address size =>
    obtain ⟨haddr, hsource⟩ := h
    obtain ⟨haddr', heq⟩ := haddr.congr hregs hle
    exact ⟨haddr', by rw [heq]; exact hsource⟩

/-! ### Pushing -/

/-- An argument was put below the stack pointer. -/
structure Pushed (temp : TypeBits → Nat → PseudoReg) (n n' : Nat) (s s' : Machine)
    (slot bytes : Nat) (byte : Nat → BitVec 8) : Prop where
  le : n ≤ n'
  rep : s'.rep = false
  top : s'.regs rsp = s.regs rsp - BitVec.ofNat 64 slot
  stable : ∀ r, Stable temp n r → s'.regs r = s.regs r
  bytes : ∀ k < bytes, s'.mem (s'.regs rsp + BitVec.ofNat 64 k) = byte k
  others : ∀ x, x.toNat < (s'.regs rsp).toNat ∨ (s.regs rsp).toNat ≤ x.toNat → s'.mem x = s.mem x

theorem toNat_sub_ofNat {x : Word} (h : m ≤ x.toNat) :
    (x - BitVec.ofNat 64 m).toNat = x.toNat - m := by
  have hx := x.isLt
  rw [BitVec.toNat_sub, BitVec.toNat_ofNat]
  omega

variable (env callee) in
/-- `stack_alloc`. -/
theorem stackAlloc_spec (st : CallState) {b : Nat} (hb : b ≤ maxObjectSize) (s : Machine) :
    (stackAlloc st (BitVec.ofNat 32 b)).1 =
        ⟨st.temps, st.stackAllocked + BitVec.ofNat 32 ((b + 7) / 8 * 8)⟩ ∧
      execs env callee (stackAlloc st (BitVec.ofNat 32 b)).2 s =
        s.setReg rsp (s.regs rsp - BitVec.ofNat 64 ((b + 7) / 8 * 8)) := by
  have hb' : b ≤ 2 ^ 27 := hb
  have hnat : (BitVec.ofNat 32 b).toNat = b := by
    rw [BitVec.toNat_ofNat]
    exact Nat.mod_eq_of_lt (by omega)
  have hround : (roundUp (BitVec.ofNat 32 b)).toNat = (b + 7) / 8 * 8 := by
    rw [toNat_roundUp (by omega), hnat]
  have hword : roundUp (BitVec.ofNat 32 b) = BitVec.ofNat 32 ((b + 7) / 8 * 8) := by
    rw [← hround, BitVec.ofNat_toNat, BitVec.setWidth_eq]
  refine ⟨by rw [stackAlloc, hword], ?_⟩
  have hext : (roundUp (BitVec.ofNat 32 b)).signExtend 64 =
      BitVec.ofNat 64 ((b + 7) / 8 * 8) := by
    rw [signExtend_of_lt (by omega), hround]
  show s.setReg rsp (s.regs rsp - (symWord env none + (roundUp (BitVec.ofNat 32 b)).signExtend 64)) =
    _
  rw [hext, symWord, zero_add]

theorem stable_setReg_rsp (w : Word) {q : PseudoReg} (hq : Stable temp n q) :
    (s.setReg rsp w).regs q = s.regs q :=
  setReg_ne (hq.ne (by decide) (by decide))

/-- What was written at the stack pointer is no more than the slot. -/
theorem others_of_store {b : Word} {w : Word} {j slot : Nat} (hj : j ≤ slot)
    (hb : b.toNat + slot ≤ 2 ^ 64) (x : Word) (hx : x.toNat < b.toNat ∨ b.toNat + slot ≤ x.toNat)
    (mem : Mem) : storeWord mem b j w x = mem x := by
  refine storeWord_others mem b w fun i hi heq => ?_
  rw [heq, toNat_add_of_le (by omega)] at hx
  omega

variable (env callee) in
/-- PUSHQ of a scalar. -/
theorem push_scalar (hf : Fresh temp limit) (hrep : s.rep = false) {x : Operand} (h8 : 8 ≤ (s.regs rsp).toNat) (m : Nat) :
    Pushed temp m (dehuge temp m x).1 s
      (execs env callee ((dehuge temp m x).2.2 ++ [⟨.pushq, [(dehuge temp m x).2.1]⟩]) s) 8 8
      (fun k => s.byte env x k) := by
  obtain ⟨hload, hbyte, -, hcase⟩ := dehuge_spec env callee m x s
  set s₁ := execs env callee (dehuge temp m x).2.2 s with hs₁
  set y := (dehuge temp m x).2.1 with hy
  have hrsp : s₁.regs rsp = s.regs rsp := hload.physical hf (by decide)
  have hmem : s₁.mem = s.mem := hload.mem
  rw [execs_append, ← hs₁]
  show Pushed temp m _ s (s₁.push env y) 8 8 _
  have htop : (s₁.push env y).regs rsp = s.regs rsp - BitVec.ofNat 64 8 := by
    rw [← hrsp]
    exact @setReg_self s₁ _ rsp
  have hstore : (s₁.push env y).mem =
      storeWord s.mem (s.regs rsp - BitVec.ofNat 64 8) 8 (s₁.value env y 8) := by
    rw [← hmem, ← hrsp]
    rfl
  have hnat := toNat_sub_ofNat h8
  refine ⟨hload.le, hload.rep.trans hrep, htop, fun r hr => ?_, fun k hk => ?_, fun q hq => ?_⟩
  · exact (stable_setReg_rsp _ hr).trans (hload.stable hf hr)
  · rw [htop, hstore, storeWord_apply _ _ _ hk le_rfl, wordByte_value hk le_rfl]
    exact hbyte k hk
  · rw [hstore]
    rw [htop] at hq
    exact others_of_store le_rfl (by have := (s.regs rsp).isLt; omega) q (by omega) _

variable (env callee) in
/-- `store` of a floating argument at the stack pointer. -/
theorem store_scalar (hf : Fresh temp limit) (hsel : selxns.lookup rsp = none) (hrep : s.rep = false)
    {x : Operand} (hx : x.ts.floating = true) (h8 : 8 ≤ (s.regs rsp).toNat)
    (hbytes : ∀ w k, k < x.ts.sizeof → (s.setReg rsp w).byte env x k = s.byte env x k) (m : Nat) :
    Pushed temp m (store temp selxns m x rspOperand).1 s
      (execs env callee (store temp selxns m x rspOperand).2
        (s.setReg rsp (s.regs rsp - BitVec.ofNat 64 8))) 8 x.ts.sizeof
      (fun k => s.byte env x k) := by
  have hhuge : operandHuge x = false := by
    cases hts : x.ts <;> simp_all [operandHuge, isLongs, TypeBits.floating]
  have hdehuge : dehuge temp m x = (m, x, []) := by simp [dehuge, hhuge]
  set s₁ := s.setReg rsp (s.regs rsp - BitVec.ofNat 64 8) with hs₁
  obtain ⟨hload, hbyte, hts, hcls⟩ := @demem_spec env callee temp m x s₁
  set y := (demem temp m x).2.1 with hy
  set s₂ := execs env callee (demem temp m x).2.2 s₁ with hs₂
  have hstore : store temp selxns m x rspOperand = ((demem temp m x).1,
      (demem temp m x).2.2 ++ [⟨storeOp y.ts, [y, { rspOperand with cls := .mem }]⟩]) := by
    rw [store, memorize_rsp hsel]
    dsimp only
    rw [hdehuge]
    rfl
  have htop : s₂.regs rsp = s.regs rsp - BitVec.ofNat 64 8 :=
    (hload.physical hf (by decide)).trans (setReg_self ..)
  have hmem : s₂.mem = s.mem := hload.mem
  rw [hstore]
  dsimp only
  rw [execs_append, ← hs₂, execs_cons, execs_nil, exec_storeOp]
  have hrun : s₂.move env (storeOp y.ts) y { rspOperand with cls := .mem } =
      { s₂ with mem := storeWord s.mem (s.regs rsp - BitVec.ofNat 64 8) x.ts.sizeof
                  (s₂.value env y x.ts.sizeof) } := by
    rw [Machine.move, if_pos rfl, address_rsp, moveSize_storeOp, hts, htop, hmem]
  rw [hrun]
  have hsize : x.ts.sizeof ≤ 8 := by cases x.ts <;> decide
  have hnat := toNat_sub_ofNat h8
  refine ⟨hload.le, hload.rep.trans hrep, htop, fun r hr => ?_, fun k hk => ?_, fun q hq => ?_⟩
  · exact (hload.stable hf hr).trans (stable_setReg_rsp _ hr)
  · show storeWord _ _ _ _ (s₂.regs rsp + _) = _
    rw [htop, storeWord_apply _ _ _ hk hsize, wordByte_value hk hsize, hbyte k hk]
    exact hbytes _ k hk
  · have hq' : q.toNat < (s₂.regs rsp).toNat ∨ (s.regs rsp).toNat ≤ q.toNat := hq
    rw [htop] at hq'
    exact others_of_store hsize (by have := (s.regs rsp).isLt; omega) q (by omega) _

/-- `call1` has nothing to do for an argument in a register. -/
theorem call1Arg_reg (st : CallState) {kind : RegClass} {i : Nat}
    (h : place ArgType.pool nrArgs c a.type = .reg kind i) :
    call1Arg constant temp selxns st (mark a (.reg kind i)) = (st, []) := by
  cases a with
  | scalar o => rfl
  | strun address size => exact absurd h (by simp [place, room, Actual.type, ArgType.pool])

variable (env callee selxns) in
/-- `call1` puts any other argument below the stack pointer: a scalar in a general register, -/
theorem call1Arg_int (hf : Fresh temp limit) (hrep : s.rep = false) (st : CallState)
    (hint : (operandImport constant o 0).ts.integral = true) (h8 : 8 ≤ (s.regs rsp).toNat)
    (i : Nat) :
    Pushed temp st.temps (call1Arg constant temp selxns st (mark (.scalar o) (.stack i))).1.temps s
        (execs env callee (call1Arg constant temp selxns st (mark (.scalar o) (.stack i))).2 s)
        8 8 ((Actual.scalar o).byte env constant s) ∧
      (call1Arg constant temp selxns st (mark (.scalar o) (.stack i))).1.stackAllocked =
        st.stackAllocked + BitVec.ofNat 32 8 := by
  have hcode : call1Arg constant temp selxns st (mark (.scalar o) (.stack i)) =
      (⟨(dehuge temp st.temps (operandImport constant o 0)).1, st.stackAllocked + 8⟩,
        (dehuge temp st.temps (operandImport constant o 0)).2.2 ++
          [⟨.pushq, [(dehuge temp st.temps (operandImport constant o 0)).2.1]⟩]) := by
    unfold mark call1Arg
    exact if_pos hint
  rw [hcode]
  exact ⟨push_scalar env callee hf hrep h8 st.temps, rfl⟩

/-- a scalar in an XMM register, -/
theorem call1Arg_float (hf : Fresh temp limit) (hsel : selxns.lookup rsp = none) (hrep : s.rep = false)
    (st : CallState) (hfl : (operandImport constant o 0).ts.integral = false)
    (hstable : ∀ r, o.val = .reg r → Stable temp n r) (h8 : 8 ≤ (s.regs rsp).toNat) (i : Nat) :
    Pushed temp st.temps (call1Arg constant temp selxns st (mark (.scalar o) (.stack i))).1.temps s
        (execs env callee (call1Arg constant temp selxns st (mark (.scalar o) (.stack i))).2 s)
        8 o.ts.sizeof ((Actual.scalar o).byte env constant s) ∧
      (call1Arg constant temp selxns st (mark (.scalar o) (.stack i))).1.stackAllocked =
        st.stackAllocked + BitVec.ofNat 32 8 := by
  set x := operandImport constant o 0 with hx
  have hts : x.ts = o.ts := ts_import constant o
  obtain ⟨hst, hexec⟩ := stackAlloc_spec env callee st (sizeof_le_max (.scalar x.ts)) s
  have hround : ((ArgType.scalar x.ts).sizeof + 7) / 8 * 8 = 8 := slot_scalar _
  rw [hround] at hst hexec
  have hcode : call1Arg constant temp selxns st (mark (.scalar o) (.stack i)) =
      ({ (stackAlloc st (BitVec.ofNat 32 (ArgType.scalar x.ts).sizeof)).1 with
          temps := (store temp selxns
            (stackAlloc st (BitVec.ofNat 32 (ArgType.scalar x.ts).sizeof)).1.temps x rspOperand).1 },
        (stackAlloc st (BitVec.ofNat 32 (ArgType.scalar x.ts).sizeof)).2 ++ (store temp selxns
          (stackAlloc st (BitVec.ofNat 32 (ArgType.scalar x.ts).sizeof)).1.temps x
            rspOperand).2) := by
    unfold mark call1Arg
    exact if_neg (by rw [← hx, hfl]; decide)
  rw [hcode, execs_append, hexec, hst]
  have hbytes : ∀ w k, k < x.ts.sizeof → (s.setReg rsp w).byte env x k = s.byte env x k := by
    intro w k _
    refine byte_congr (fun r hr => stable_setReg_rsp w (import_mentions hstable hr))
      (fun _ => rfl) fun hcls => ?_
    rcases import_cases constant o with ⟨q, hq, heq⟩ | ⟨w, sym, -, heq⟩ | ⟨-, hmem, -, -⟩
    · rw [hx, heq]
      exact (hstable q hq).ne_none
    · rw [hx, heq] at hcls
      cases hcls
    · rw [hx, hmem] at hcls
      cases hcls
  have hfloat : x.ts.floating = true := by simpa [TypeBits.integral] using hfl
  have hstore := store_scalar env callee hf hsel hrep hfloat h8 hbytes st.temps
  rw [hts] at hstore
  exact ⟨hstore, rfl⟩

/-- A block that was copied to the stack pointer. -/
theorem pushed_of_copied {s₁ : Machine} {slot bytes : Nat} {src : Word} (hle : bytes ≤ slot)
    (hroom : slot ≤ (s.regs rsp).toNat)
    (hs₁ : s₁ = s.setReg rsp (s.regs rsp - BitVec.ofNat 64 slot))
    (h : Settled temp n m s₁ s') (hc : Copied s₁.mem s'.mem (s₁.regs rsp) src bytes) :
    Pushed temp n m s s' slot bytes fun k => s.mem (src + BitVec.ofNat 64 k) := by
  have htop : s₁.regs rsp = s.regs rsp - BitVec.ofNat 64 slot := by rw [hs₁, setReg_self]
  have hmem : s₁.mem = s.mem := by rw [hs₁, setReg_mem]
  have hnat := toNat_sub_ofNat hroom
  have hlt := (s.regs rsp).isLt
  rw [htop, hmem] at hc
  refine ⟨h.le, h.rep, h.rsp.trans htop, fun r hr => ?_, fun k hk => ?_, fun q hq => ?_⟩
  · rw [h.stable r hr, hs₁]
    exact stable_setReg_rsp _ hr
  · rw [h.rsp, htop]
    exact hc.bytes k hk
  · rw [h.rsp, htop, hnat] at hq
    exact hc.apart (by omega) (by omega)

/-- and a struct. -/
theorem call1Arg_strun (hf : Fresh temp limit) (hsel : selxns.lookup rsp = none) (hrep : s.rep = false)
    (st : CallState) {address : Ncc.Operand} {size : ObjectSize}
    (haddr : IsAddress env temp selxns st.temps s (operandImport constant address 0))
    (hsource : Outside lo hi ((operandImport constant address 0).address env s.regs) size.bytes)
    {slot : Nat} (hslot : slot = (size.bytes + 7) / 8 * 8) (hlo : lo + slot ≤ (s.regs rsp).toNat)
    (hhi : (s.regs rsp).toNat ≤ hi) (p : Place RegClass)
    (hlim : (call1Arg constant temp selxns st (mark (.strun address size) p)).1.temps ≤ limit) :
    Pushed temp st.temps
        (call1Arg constant temp selxns st (mark (.strun address size) p)).1.temps s
        (execs env callee (call1Arg constant temp selxns st (mark (.strun address size) p)).2 s)
        slot size.bytes ((Actual.strun address size).byte env constant s) ∧
      (call1Arg constant temp selxns st (mark (.strun address size) p)).1.stackAllocked =
        st.stackAllocked + BitVec.ofNat 32 slot := by
  set x := operandImport constant address 0 with hx
  obtain ⟨hst, hexec⟩ := stackAlloc_spec env callee st size.le s
  rw [← hslot] at hst hexec
  have hcode : call1Arg constant temp selxns st (mark (.strun address size) p) =
      ({ (stackAlloc st (BitVec.ofNat 32 size.bytes)).1 with
          temps := (blkcopy temp selxns (stackAlloc st (BitVec.ofNat 32 size.bytes)).1.temps x
            rspOperand size.bytes).1 },
        (stackAlloc st (BitVec.ofNat 32 size.bytes)).2 ++
          (blkcopy temp selxns (stackAlloc st (BitVec.ofNat 32 size.bytes)).1.temps x
            rspOperand size.bytes).2) := rfl
  rw [hcode, hst] at hlim
  rw [hcode, execs_append, hexec, hst]
  set s₁ := s.setReg rsp (s.regs rsp - BitVec.ofNat 64 slot) with hs₁
  have hregs : ∀ r, Stable temp st.temps r → s₁.regs r = s.regs r := fun r hr =>
    stable_setReg_rsp _ hr
  obtain ⟨haddr', heq⟩ := haddr.congr hregs le_rfl
  have htop : s₁.regs rsp = s.regs rsp - BitVec.ofNat 64 slot := setReg_self ..
  have hnat : (s.regs rsp - BitVec.ofNat 64 slot).toNat = (s.regs rsp).toNat - slot :=
    toNat_sub_ofNat (by omega)
  have hlt := (s.regs rsp).isLt
  obtain ⟨hwrap, hside⟩ := hsource
  have hd : Movable (x.address env s₁.regs) (s₁.regs rsp) size.bytes := by
    rw [heq, htop]
    exact .inr (disjoint_of_le hwrap (by omega) (by omega))
  obtain ⟨hsettled, hcopied⟩ := blkcopy_spec env callee hf hsel
    (show s₁.rep = false from hrep) haddr' size.le hlim hd
  rw [heq] at hcopied
  exact ⟨pushed_of_copied (by omega) (by omega) hs₁ hsettled hcopied, rfl⟩

/-- All three. -/
theorem call1Arg_stack (hf : Fresh temp limit) (hsel : selxns.lookup rsp = none) (hrep : s.rep = false)
    (st : CallState) (h : a.Ready env constant temp selxns st.temps s lo hi) (i : Nat)
    (hlo : lo + a.type.slot ≤ (s.regs rsp).toNat) (hhi : (s.regs rsp).toNat ≤ hi)
    (hlim : (call1Arg constant temp selxns st (mark a (.stack i))).1.temps ≤ limit) :
    Pushed temp st.temps (call1Arg constant temp selxns st (mark a (.stack i))).1.temps s
        (execs env callee (call1Arg constant temp selxns st (mark a (.stack i))).2 s)
        a.type.slot a.type.sizeof (a.byte env constant s) ∧
      (call1Arg constant temp selxns st (mark a (.stack i))).1.stackAllocked =
        st.stackAllocked + BitVec.ofNat 32 a.type.slot := by
  cases a with
  | scalar o =>
    obtain ⟨hstable, -⟩ := h
    have hslot : (Actual.scalar o).type.slot = 8 := slot_scalar o.ts
    rw [hslot] at hlo ⊢
    by_cases hint : (operandImport constant o 0).ts.integral = true
    · obtain ⟨hpush, hst⟩ := call1Arg_int env callee selxns hf hrep st hint (by omega) i
      have hle : (Actual.scalar o).type.sizeof ≤ 8 := by
        rw [← hslot]
        exact (sizeof_le_slot _).1
      exact ⟨{ hpush with bytes := fun k hk => hpush.bytes k (hk.trans_le hle) }, hst⟩
    · exact call1Arg_float hf hsel hrep st (by simpa using hint) hstable (by omega) i
  | strun address size => exact call1Arg_strun hf hsel hrep st h.1 h.2 rfl hlo hhi _ hlim

/-! ### All arguments -/

/-- What `call1` leaves: the arguments with places on the stack are in the `total` bytes below the old
    stack pointer. -/
structure PushedAll (env : Env) (constant : TypeBits → Word → Symbol)
    (temp : TypeBits → Nat → PseudoReg) (c : Cursor RegClass) (l : List Actual) (st st' : CallState)
    (s s' : Machine) (total : Nat) : Prop where
  le : st.temps ≤ st'.temps
  rep : s'.rep = false
  top : s'.regs rsp = s.regs rsp - BitVec.ofNat 64 (total - c.bytes)
  stable : ∀ r, Stable temp st.temps r → s'.regs r = s.regs r
  bytes : ∀ (i j : Nat) (a : Actual), (placesFrom c (l.map Actual.type))[i]? = some (.stack j) →
    l[i]? = some a → ∀ k < a.type.sizeof,
      s'.mem (s.regs rsp - BitVec.ofNat 64 (total - j) + BitVec.ofNat 64 k) =
        a.byte env constant s k
  others : ∀ x, x.toNat < (s'.regs rsp).toNat ∨ (s.regs rsp).toNat ≤ x.toNat → s'.mem x = s.mem x
  stackAllocked : st'.stackAllocked = st.stackAllocked + BitVec.ofNat 32 (total - c.bytes)

theorem le_store (n : Nat) (src dst : Operand) : n ≤ (store temp selxns n src dst).1 := by
  have hdst : n ≤ (memorize temp selxns n dst).1 := le_memorize n dst
  have hsrc : (memorize temp selxns n dst).1 ≤ (dehuge temp (memorize temp selxns n dst).1 src).1 :=
    le_dehuge _ src
  refine (hdst.trans hsrc).trans ?_
  show _ ≤ (demem temp _ _).1
  unfold demem
  split
  · exact Nat.le_succ _
  · exact le_rfl

theorem le_blkcopy (n : Nat) (src dst : Operand) (bytes : Nat) :
    n ≤ (blkcopy temp selxns n src dst bytes).1 := by
  unfold blkcopy
  split
  · exact le_rfl
  · exact ((le_memorize n src).trans (le_memorize _ dst)).trans (le_blkcopyLoop ..)

/-- The temporaries are numbered upwards. -/
theorem le_call1Arg (st : CallState) (insn : ArgInsn) :
    st.temps ≤ (call1Arg constant temp selxns st insn).1.temps := by
  unfold call1Arg
  split
  · exact le_rfl
  · dsimp only
    split
    · exact le_dehuge ..
    · exact le_store ..
  · exact le_blkcopy ..

/-- `call1` numbers the temporaries of the last arguments first. -/
theorem call1_temps_drop (st : CallState) (i : Nat) (insns : List ArgInsn) :
    (call1 constant temp selxns st (insns.drop i)).1.temps ≤
      (call1 constant temp selxns st insns).1.temps := by
  induction insns generalizing i with
  | nil =>
    rw [List.drop_nil]
  | cons insn insns ih =>
    cases i with
    | zero => exact le_rfl
    | succ i => exact (ih i).trans (le_call1Arg ..)

/-- `call1`: by induction on the arguments, the last of which is pushed first. -/
theorem call1_spec (hf : Fresh temp limit) (hsel : selxns.lookup rsp = none) (hrep : s.rep = false)
    (st : CallState) (l : List Actual) (c : Cursor RegClass)
    (hready : ∀ a ∈ l, a.Ready env constant temp selxns st.temps s lo (s.regs rsp).toNat)
    (hlo : lo + ((finalFrom c (l.map Actual.type)).bytes - c.bytes) ≤ (s.regs rsp).toNat)
    (hlim : (call1 constant temp selxns st (marked c l)).1.temps ≤ limit) :
    PushedAll env constant temp c l st (call1 constant temp selxns st (marked c l)).1 s
      (execs env callee (call1 constant temp selxns st (marked c l)).2 s)
      (finalFrom c (l.map Actual.type)).bytes := by
  induction l generalizing c with
  | nil =>
    refine ⟨le_rfl, hrep, ?_, fun _ _ => rfl, fun i j a _ ha => ?_, fun _ _ => rfl, ?_⟩
    · show s.regs rsp = s.regs rsp - BitVec.ofNat 64 (c.bytes - c.bytes)
      rw [Nat.sub_self]
      simp
    · exact absurd ha (by simp)
    · show st.stackAllocked = st.stackAllocked + BitVec.ofNat 32 (c.bytes - c.bytes)
      rw [Nat.sub_self]
      simp
  | cons a l ih =>
    have hcons : marked c (a :: l) = mark a (place ArgType.pool nrArgs c a.type) ::
        marked (next ArgType.pool nrArgs ArgType.slot c a.type) l := rfl
    set c' := next ArgType.pool nrArgs ArgType.slot c a.type with hc'
    have hfinal : finalFrom c ((a :: l).map Actual.type) = finalFrom c' (l.map Actual.type) := rfl
    have hplaces : placesFrom c ((a :: l).map Actual.type) =
        place ArgType.pool nrArgs c a.type :: placesFrom c' (l.map Actual.type) := rfl
    have hbytes : c'.bytes ≤ (finalFrom c' (l.map Actual.type)).bytes := bytes_final_le ..
    have hle : c.bytes ≤ c'.bytes := bytes_next_le ..
    rw [hfinal] at hlo ⊢
    set total := (finalFrom c' (l.map Actual.type)).bytes with htotal
    rw [hcons, call1] at hlim ⊢
    dsimp only at hlim ⊢
    have h := ih c' (fun b hb => hready b (List.mem_cons_of_mem _ hb)) (by omega)
      ((le_call1Arg ..).trans hlim)
    rw [execs_append]
    set st₁ := (call1 constant temp selxns st (marked c' l)).1 with hst₁
    set s₁ := execs env callee (call1 constant temp selxns st (marked c' l)).2 s with hs₁
    rcases @place_cases _ _ _ ArgType.pool nrArgs ArgType.slot c a.type with
      ⟨k, hk, -, -, hnext⟩ | ⟨hk, hnext⟩
    · -- in a register: nothing happens now
      have hsame : c'.bytes = c.bytes := by rw [hc', hnext]
      rw [hk, call1Arg_reg st₁ hk]
      refine { h with top := hsame ▸ h.top, stackAllocked := hsame ▸ h.stackAllocked
                      bytes := fun i j b hi hb => ?_ }
      rw [hplaces] at hi
      cases i with
      | zero => exact absurd (hk ▸ hi) (by simp)
      | succ i => exact h.bytes i j b (by simpa using hi) (by simpa using hb)
    · -- on the stack, below those pushed before
      have hsum : c'.bytes = c.bytes + a.type.slot := by rw [hc', hnext]
      have htop₁ : (s₁.regs rsp).toNat = (s.regs rsp).toNat - (total - c'.bytes) := by
        rw [h.top]
        exact toNat_sub_ofNat (by omega)
      obtain ⟨hpush, halloc⟩ := call1Arg_stack hf hsel h.rep st₁
        ((hready a List.mem_cons_self).later h.stable h.le) c.bytes (by omega) (by omega)
        (by rw [hk] at hlim; exact hlim)
      set s₂ := execs env callee (call1Arg constant temp selxns st₁ (mark a (.stack c.bytes))).2 s₁
      rw [hk]
      have hsplit : total - c.bytes = (total - c'.bytes) + a.type.slot := by omega
      have htop : s₂.regs rsp = s.regs rsp - BitVec.ofNat 64 (total - c.bytes) := by
        rw [hpush.top, h.top, hsplit, BitVec.ofNat_add, sub_sub]
      have hnat : (s₂.regs rsp).toNat = (s.regs rsp).toNat - (total - c.bytes) := by
        rw [htop]
        exact toNat_sub_ofNat (by omega)
      refine ⟨h.le.trans hpush.le, hpush.rep, htop, fun r hr => ?_, fun i j b hi hb k hkb => ?_,
        fun x hx => ?_, ?_⟩
      · exact (hpush.stable r (hr.mono h.le)).trans (h.stable r hr)
      · rw [hplaces] at hi
        cases i with
        | zero =>
          obtain rfl : c.bytes = j := by simpa using hk.symm.trans (Option.some.inj hi)
          obtain rfl : a = b := Option.some.inj hb
          rw [← htop, hpush.bytes k hkb]
          refine (hready a List.mem_cons_self).byte h.stable (fun x hx => h.others x ?_) hkb
          omega
        | succ i =>
          have hi' : (placesFrom c' (l.map Actual.type))[i]? = some (.stack j) := by simpa using hi
          have hb' : l[i]? = some b := by simpa using hb
          obtain ⟨hjle, t, ht, hend⟩ := stack_bounds hi'
          obtain rfl : b.type = t := by simpa [hb'] using ht
          have hend' : j + b.type.slot ≤ total := hend
          have hslot := (sizeof_le_slot b.type).1
          have hx : (s.regs rsp - BitVec.ofNat 64 (total - j)).toNat =
              (s.regs rsp).toNat - (total - j) := toNat_sub_ofNat (by omega)
          have hlt := (s.regs rsp).isLt
          rw [hpush.others _ (.inr _)]
          · exact h.bytes i j b hi' hb' k hkb
          · rw [toNat_add_of_le (by omega), hx]
            omega
      · have hx' : x.toNat < (s₂.regs rsp).toNat ∨ (s.regs rsp).toNat ≤ x.toNat := hx
        rw [hnat] at hx'
        have hpushed : s₂.mem x = s₁.mem x := hpush.others x (by rw [hnat]; omega)
        exact hpushed.trans (h.others x (by omega))
      · rw [halloc, h.stackAllocked, hsplit, BitVec.ofNat_add, add_assoc]

/-- What `call2` leaves: the arguments with places in registers are there. -/
structure LoadedAll (env : Env) (constant : TypeBits → Word → Symbol) (c : Cursor RegClass)
    (l : List Actual) (s s' : Machine) : Prop where
  mem : s'.mem = s.mem
  rep : s'.rep = s.rep
  regs : ∀ r, (∀ k j, c.used k ≤ j → j < nrArgs k → r ≠ argReg k j) → s'.regs r = s.regs r
  bytes : ∀ (i : Nat) (k : RegClass) (j : Nat) (a : Actual),
    (placesFrom c (l.map Actual.type))[i]? = some (.reg k j) → l[i]? = some a →
      ∀ b < a.type.sizeof, wordByte (s'.regs (argReg k j)) b = a.byte env constant s b

/-- The insn for an argument in a register, and the counters after it. -/
theorem call2_reg {kind : RegClass} (l : List ArgInsn)
    (h : a.type.pool = some kind) (hnext : c' = { c with
      used := Function.update c.used kind (c.used kind + 1) }) :
    ∃ o, a = .scalar o ∧ call2 constant (c.used .int) (c.used .fp)
        (mark a (.reg kind (c.used kind)) :: l) =
      move (operandImport constant o 0)
          (operandReg o.ts (argReg kind (c.used kind)) 0) ::
        call2 constant (c'.used .int) (c'.used .fp) l := by
  subst hnext
  cases a with
  | strun address size => cases h
  | scalar o =>
    have hts := ts_import constant o
    refine ⟨o, rfl, ?_⟩
    cases hfl : o.ts.floating with
    | true =>
      obtain rfl : RegClass.fp = kind := by simpa [Actual.type, ArgType.pool, hfl] using h
      simp [call2, mark, hts, hfl, argReg]
    | false =>
      obtain rfl : RegClass.int = kind := by simpa [Actual.type, ArgType.pool, hfl] using h
      simp [call2, mark, hts, hfl, argReg]

/-- `call2`: by induction on the arguments, the first of which is loaded first. -/
theorem call2_spec (l : List Actual) (c : Cursor RegClass)
    (hready : ∀ a ∈ l, a.Ready env constant temp selxns n s lo hi) :
    LoadedAll env constant c l s
      (execs env callee (call2 constant (c.used .int) (c.used .fp) (marked c l)) s) := by
  induction l generalizing c s with
  | nil => exact ⟨rfl, rfl, fun _ _ => rfl, fun i k j a _ ha => absurd ha (by simp)⟩
  | cons a l ih =>
    have hcons : marked c (a :: l) = mark a (place ArgType.pool nrArgs c a.type) ::
        marked (next ArgType.pool nrArgs ArgType.slot c a.type) l := rfl
    have hplaces : placesFrom c ((a :: l).map Actual.type) =
        place ArgType.pool nrArgs c a.type ::
          placesFrom (next ArgType.pool nrArgs ArgType.slot c a.type) (l.map Actual.type) := rfl
    rcases @place_cases _ _ _ ArgType.pool nrArgs ArgType.slot c a.type with
      ⟨kind, hk, hpool, hlt, hnext⟩ | ⟨hk, hnext⟩
    · set c' := next ArgType.pool nrArgs ArgType.slot c a.type with hc'
      obtain ⟨o, rfl, hcode⟩ := call2_reg (marked c' l) hpool hnext
      have hphys := argReg_spec hlt
      set r := argReg kind (c.used kind) with hr
      have hready₀ := hready _ List.mem_cons_self
      obtain ⟨w, hexec, hw⟩ := @exec_move env callee (operandImport constant o 0) s (by
        rcases import_cases constant o with ⟨q, -, heq⟩ | ⟨v, sym, -, heq⟩ | ⟨-, hmem, -, -⟩
        · simp [heq, operandReg, operandNew]
        · simp [heq, operandCon, operandNew]
        · rw [hmem]; decide) o.ts r
      have hregs : ∀ q, Stable temp n q → (s.setReg r w).regs q = s.regs q := fun q hq =>
        setReg_ne (hq.ne hphys.1 hphys.2.1)
      have h := @ih (s.setReg r w) c' fun b hb =>
        (hready b (List.mem_cons_of_mem _ hb)).later hregs le_rfl
      rw [hcons, hk, hcode, execs_cons, hexec]
      have hused : ∀ k, c.used k ≤ c'.used k := fun k => used_next_le c _ k
      refine ⟨h.mem, h.rep, fun q hq => ?_, fun i k j b hi hb m hm => ?_⟩
      · rw [h.regs q fun k j hj hj' => hq k j ((hused k).trans hj) hj']
        exact setReg_ne (hq kind _ le_rfl hlt)
      · rw [hplaces, hk] at hi
        cases i with
        | zero =>
          obtain ⟨rfl, rfl⟩ : kind = k ∧ c.used kind = j := by simpa using hi
          obtain rfl : Actual.scalar o = b := Option.some.inj hb
          -- the registers loaded later are others
          have hkeep := h.regs r fun k j hj hj' heq => by
            obtain ⟨rfl, rfl⟩ := hphys.2.2.2 k j hj' heq
            rw [hnext] at hj
            simp at hj
          rw [hkeep, setReg_self]
          exact hw m hm
        | succ i =>
          have hb' : l[i]? = some b := by simpa using hb
          rw [h.bytes i k j b (by simpa using hi) hb' m hm]
          exact (hready b (List.mem_cons_of_mem _ (List.mem_of_getElem? hb'))).byte hregs
            (fun _ _ => rfl) hm
    · have hskip : ∀ rest, call2 constant (c.used .int) (c.used .fp)
          (mark a (.stack c.bytes) :: rest) = call2 constant (c.used .int) (c.used .fp) rest := by
        intro rest
        cases a <;> rfl
      have h := ih (next ArgType.pool nrArgs ArgType.slot c a.type) fun b hb =>
        hready b (List.mem_cons_of_mem _ hb)
      rw [hcons, hk, hskip]
      rw [hnext] at h hplaces ⊢
      refine ⟨h.mem, h.rep, h.regs, fun i k j b hi hb m hm => ?_⟩
      rw [hplaces, hk] at hi
      cases i with
      | zero => exact absurd hi (by simp)
      | succ i => exact h.bytes i k j b (by simpa using hi) (by simpa using hb) m hm

/-- No argument of a call to a variadic function is in a register. -/
theorem call2_variadic (i f : Nat) (l : List Actual) :
    call2 constant i f (l.map (genArg true)) = [] := by
  induction l with
  | nil => rfl
  | cons a l ih => cases a <;> simpa [call2, genArg] using ih

theorem call2_start (variadic : Bool) (l : List Actual) :
    call2 constant 0 0 (marked (start variadic) l) =
      call2 constant ((start variadic).used .int) ((start variadic).used .fp)
        (marked (start variadic) l) := by
  cases variadic with
  | true =>
    rw [marked_variadic fun _ => le_rfl, call2_variadic, call2_variadic]
  | false => rfl

end

end Ncc.Amd64
