import Ncc.Amd64.CallAgree

/-! A call and the function it calls.

    `Agrees` says what a call owes the function: every argument is in the home that the function
    declares for it, no two overlap, and the stack pointer comes back. That holds as long as the
    stacked arguments can be counted in an int, and only then (`call_agrees_iff`). -/

namespace Ncc.Amd64

open Layout

/-- A call: the type of the function, the address of the temporary for a struct it returns, the
    actual arguments, the operands of I_CALL, and the number of temporaries made before. -/
structure CallSite where
  type : FuncType
  strunRet : Ncc.Operand
  actuals : List Actual
  src : Operand
  dst : Option Operand
  temps : Nat

namespace CallSite

/-- All arguments. -/
def args (site : CallSite) : List Actual := site.type.allActuals site.strunRet site.actuals

/-- The I_ARGUMENTs before the I_CALL. -/
def insns (site : CallSite) : List ArgInsn := site.type.genCall site.strunRet site.actuals

section
variable (env : Env) (callee : Word → Machine → Machine) (constant : TypeBits → Word → Symbol)
variable (temp : TypeBits → Nat → PseudoReg) (selxns : Selxns) (site : CallSite) (s : Machine)

/-- The code of the call. -/
def code : List Code × Code × List Code :=
  call constant temp selxns site.temps site.insns site.src site.dst

/-- The machine at the AMD64_I_CALL. -/
def atCall : Machine := execs env callee (site.code constant temp selxns).1 s

/-- The machine after the call. -/
def after : Machine :=
  execs env callee (site.code constant temp selxns).2.2
    ((site.code constant temp selxns).2.1.exec env callee
      (site.atCall env callee constant temp selxns s))

/-- The frame pointer of the function: below the stack pointer at the AMD64_I_CALL are the return
    address and the caller's frame pointer. -/
def framePointer : Word := (site.atCall env callee constant temp selxns s).regs rsp - 16

/-- The stack pointer when `call1` has dealt with the `i`th argument. -/
def pushedAt (i : Nat) : Word :=
  (execs env callee
    (call1 constant temp selxns ⟨site.temps, 0⟩ ((call0 0 0 site.insns).2.2.drop i)).2 s).regs rsp

/-- Byte `k` of a home, at the AMD64_I_CALL. -/
def homeByte (home : Home) (k : Nat) : BitVec 8 :=
  match home with
  | .reg r => wordByte ((site.atCall env callee constant temp selxns s).regs r) k
  | .frame offset =>
    (site.atCall env callee constant temp selxns s).mem
      (site.framePointer env callee constant temp selxns s + offset.signExtend 64 +
        BitVec.ofNat 64 k)

/-- Caller and callee agree. -/
structure Agrees : Prop where
  /-- An argument is in a register for the caller if it is for the callee. -/
  kept : ∀ (i : Nat) (home : Home) (insn : ArgInsn), site.type.homes[i]? = some home →
    (call0 0 0 site.insns).2.2[i]? = some insn → (insn.op = .arg ↔ ∃ r, home = .reg r)
  /-- An argument on the stack is where the callee looks for it. -/
  slots : ∀ (i : Nat) (offset : BitVec 32), site.type.homes[i]? = some (.frame offset) →
    site.pushedAt env callee constant temp selxns s i =
      site.framePointer env callee constant temp selxns s + offset.signExtend 64
  /-- Every argument has arrived, and nothing has overwritten it. -/
  delivered : ∀ (i : Nat) (home : Home) (a : Actual), site.type.homes[i]? = some home →
    site.args[i]? = some a → ∀ k < a.type.sizeof,
      site.homeByte env callee constant temp selxns s home k = a.byte env constant s k
  /-- Arguments on the stack do not overlap. -/
  apart : ∀ (i j : Nat) (a : Actual) (x y : ArgInsn), i < j → site.args[i]? = some a →
    (call0 0 0 site.insns).2.2[i]? = some x → x.op ≠ .arg →
    (call0 0 0 site.insns).2.2[j]? = some y → y.op ≠ .arg →
    (site.pushedAt env callee constant temp selxns s i).toNat + a.type.sizeof ≤
      (site.pushedAt env callee constant temp selxns s j).toNat
  /-- The frame of the caller is left alone. -/
  frame : ∀ x, (s.regs rsp).toNat ≤ x.toNat →
    (site.atCall env callee constant temp selxns s).mem x = s.mem x
  /-- The stack pointer comes back. -/
  restored : (site.after env callee constant temp selxns s).regs rsp = s.regs rsp

/-- The bytes that `call1` puts on the stack. -/
def stacked : Nat := stackBytes site.type.variadic (site.args.map Actual.type)

/-- The temporaries that `call1` has made when it is done, and those before it. -/
def temps1 : Nat :=
  (call1 constant temp selxns ⟨site.temps, 0⟩ (call0 0 0 site.insns).2.2).1.temps

/-- What a call can rely on: the actuals are of the types of the formals, the stack has room in the
    lower half of the address space, the arguments can be read, and the callee leaves the stack
    pointer as it was. -/
structure Sane : Prop where
  fresh : Fresh temp (site.temps1 constant temp selxns)
  uncached : selxns.lookup rsp = none
  rep : s.rep = false
  strunRet : site.strunRet.ts.floating = false
  types : ∃ l₁ l₂, site.actuals = l₁ ++ l₂ ∧
    List.Forall₂ (fun t a => Compatible t (Actual.type a)) site.type.formals l₁ ∧
    (site.type.variadic = false → l₂ = [])
  room : site.stacked ≤ (s.regs rsp).toNat
  user : (s.regs rsp).toNat < 2 ^ 63
  ready : ∀ a ∈ site.args, a.Ready env constant temp selxns site.temps s
    ((s.regs rsp).toNat - site.stacked) (s.regs rsp).toNat
  returns : ∀ w s', (callee w s').regs rsp = s'.regs rsp
  dst : ∀ d ∈ site.dst, ∃ ts r, d = operandReg ts r 0 ∧ r ≠ rsp

/-- The stacked arguments can be counted in an int, and so can the frame offsets. -/
def Fits : Prop :=
  site.stacked < 2 ^ 31 ∧ ∀ (i n : Nat),
    (placesFrom (start site.type.variadic) site.type.allFormals)[i]? = some (.stack n) →
      n + 16 < 2 ^ 31

end

section
variable {env : Env} {callee : Word → Machine → Machine} {constant : TypeBits → Word → Symbol}
variable {temp : TypeBits → Nat → PseudoReg} {selxns : Selxns} {site : CallSite} {s : Machine}

/-- The places of all arguments. -/
abbrev places (site : CallSite) : List (Place RegClass) :=
  placesFrom (start site.type.variadic) (site.args.map Actual.type)

theorem insns_eq (site : CallSite) :
    (call0 0 0 site.insns).2.2 = marked (start site.type.variadic) site.args :=
  call0_start site.type.variadic site.args

theorem marked_drop (c : Cursor RegClass) (l : List Actual) (i : Nat) :
    (marked c l).drop i =
      marked (finalFrom c ((l.map Actual.type).take i)) (l.drop i) := by
  rw [marked, List.drop_zipWith, places_drop, ← List.map_drop, marked]

/-- The formals are the first of the actuals. -/
theorem Sane.places (h : site.Sane env callee constant temp selxns s) :
    ∃ rest, site.places =
      placesFrom (start site.type.variadic) site.type.allFormals ++ rest := by
  obtain ⟨l₁, l₂, hl, htypes, -⟩ := h.types
  have hforall : List.Forall₂ (fun t u : ArgType => t.pool = u.pool ∧ t.slot = u.slot)
      site.type.allFormals ((site.type.allActuals site.strunRet l₁).map Actual.type) := by
    have hrest : List.Forall₂ (fun t u : ArgType => t.pool = u.pool ∧ t.slot = u.slot)
        site.type.formals (l₁.map Actual.type) := by
      rw [List.forall₂_map_right_iff]
      exact htypes.imp fun _ _ hc => hc.layout
    unfold FuncType.allFormals FuncType.allActuals
    split
    · refine .cons ⟨?_, ?_⟩ hrest
      · have hts := h.strunRet
        simp only [Actual.type, ArgType.pool, hts]
        rfl
      · rw [Actual.type, slot_scalar, slot_scalar]
    · exact hrest
  have hargs : site.args = site.type.allActuals site.strunRet l₁ ++ l₂ := by
    rw [args, FuncType.allActuals, hl, FuncType.allActuals, List.append_assoc]
  refine ⟨placesFrom (finalFrom (start site.type.variadic)
    ((site.type.allActuals site.strunRet l₁).map Actual.type)) (l₂.map Actual.type), ?_⟩
  show placesFrom _ (site.args.map Actual.type) = _
  rw [hargs, List.map_append, placesFrom, places_append, placesFrom, placesFrom,
    places_congr hforall]

/-- What the callee declares is what the convention says. -/
theorem Sane.home (h : site.Sane env callee constant temp selxns s) {i : Nat} {home : Home}
    (hi : site.type.homes[i]? = some home) :
    ∃ p, site.places[i]? = some p ∧
      (placesFrom (start site.type.variadic) site.type.allFormals)[i]? = some p ∧
      HomeAt p home := by
  obtain ⟨rest, hrest⟩ := h.places
  obtain ⟨hlen, hall⟩ := List.forall₂_iff_get.mp (homes_places site.type)
  obtain ⟨hlt, rfl⟩ := List.getElem?_eq_some_iff.mp hi
  have hlt' := hlen ▸ hlt
  refine ⟨_, ?_, List.getElem?_eq_getElem hlt', hall i hlt' hlt⟩
  rw [hrest, List.getElem?_append_left hlt', List.getElem?_eq_getElem hlt']

theorem code_eq (site : CallSite) : site.code constant temp selxns =
    let args := marked (start site.type.variadic) site.args
    let p := call1 constant temp selxns ⟨site.temps, 0⟩ args
    let d := dehuge temp p.1.temps site.src
    (p.2 ++ call2 constant 0 0 args ++ d.2.2,
      ⟨.call (call0 0 0 site.insns).1 (call0 0 0 site.insns).2.1, [d.2.1]⟩,
      (if p.1.stackAllocked ≠ 0 then
        [⟨.addq, [operandCon .long (p.1.stackAllocked.signExtend 64) none 0, rspOperand]⟩]
      else []) ++
      match site.dst with
      | none => []
      | some dst => [move (operandReg dst.ts (if dst.ts.floating then xmm 0 else rax) 0) dst]) := by
  rw [← insns_eq]
  rfl

/-- `call1`, of the arguments from the `i`th on. -/
theorem Sane.pushed (h : site.Sane env callee constant temp selxns s) (i : Nat) :
    PushedAll env constant temp (finalFrom (start site.type.variadic)
        ((site.args.map Actual.type).take i)) (site.args.drop i) ⟨site.temps, 0⟩
      (call1 constant temp selxns ⟨site.temps, 0⟩
        ((marked (start site.type.variadic) site.args).drop i)).1 s
      (execs env callee (call1 constant temp selxns ⟨site.temps, 0⟩
        ((marked (start site.type.variadic) site.args).drop i)).2 s) site.stacked := by
  have htotal : (finalFrom (finalFrom (start site.type.variadic)
      ((site.args.map Actual.type).take i)) ((site.args.drop i).map Actual.type)).bytes =
      site.stacked := by
    rw [finalFrom, finalFrom, ← final_append, List.map_drop, List.take_append_drop]
    rfl
  have hroom := h.room
  rw [marked_drop, ← htotal]
  refine call1_spec h.fresh h.uncached h.rep ⟨site.temps, 0⟩ (site.args.drop i) _
    (fun a ha => h.ready a (List.mem_of_mem_drop ha)) ?_ ?_
  · rw [htotal]
    omega
  · rw [← marked_drop, temps1, insns_eq]
    exact call1_temps_drop ..

theorem Sane.pushedAt (h : site.Sane env callee constant temp selxns s) (i : Nat) :
    site.pushedAt env callee constant temp selxns s i =
      s.regs rsp - BitVec.ofNat 64 (site.stacked - (finalFrom (start site.type.variadic)
        ((site.args.map Actual.type).take i)).bytes) := by
  rw [CallSite.pushedAt, insns_eq]
  exact (h.pushed i).top

/-- The machine at the AMD64_I_CALL. -/
structure Arrived (env : Env) (constant : TypeBits → Word → Symbol) (site : CallSite)
    (s s' : Machine) : Prop where
  top : s'.regs rsp = s.regs rsp - BitVec.ofNat 64 site.stacked
  stack : ∀ (i j : Nat) (a : Actual), site.places[i]? = some (.stack j) → site.args[i]? = some a →
    ∀ k < a.type.sizeof, s'.mem (s.regs rsp - BitVec.ofNat 64 (site.stacked - j) +
      BitVec.ofNat 64 k) = a.byte env constant s k
  regs : ∀ (i : Nat) (kind : RegClass) (j : Nat) (a : Actual),
    site.places[i]? = some (.reg kind j) → site.args[i]? = some a →
      ∀ k < a.type.sizeof, wordByte (s'.regs (argReg kind j)) k = a.byte env constant s k
  others : ∀ x, (s.regs rsp).toNat ≤ x.toNat → s'.mem x = s.mem x

theorem Sane.arrived (h : site.Sane env callee constant temp selxns s) :
    Arrived env constant site s (site.atCall env callee constant temp selxns s) := by
  have hpush := h.pushed 0
  rw [List.drop_zero, List.drop_zero, List.take_zero] at hpush
  set l := marked (start site.type.variadic) site.args with hl
  set p := call1 constant temp selxns ⟨site.temps, 0⟩ l with hp
  set s₁ := execs env callee p.2 s with hs₁
  have hready : ∀ a ∈ site.args, a.Ready env constant temp selxns p.1.temps s₁
      ((s.regs rsp).toNat - site.stacked) (s.regs rsp).toNat := fun a ha =>
    (h.ready a ha).later hpush.stable hpush.le
  have hload := @call2_spec env callee constant temp selxns s₁ _ _ _ site.args
    (start site.type.variadic) hready
  rw [← hl, ← call2_start, ← hl] at hload
  set s₂ := execs env callee (call2 constant 0 0 l) s₁ with hs₂
  obtain ⟨hlast, -⟩ := @dehuge_spec env callee temp p.1.temps site.src s₂
  set s₃ := execs env callee (dehuge temp p.1.temps site.src).2.2 s₂ with hs₃
  have hrun : site.atCall env callee constant temp selxns s = s₃ := by
    rw [atCall, code_eq]
    dsimp only
    rw [execs_append, execs_append]
  have hmem : s₃.mem = s₁.mem := hlast.mem.trans hload.mem
  have htop₁ : s₁.regs rsp = s.regs rsp - BitVec.ofNat 64 site.stacked := hpush.top
  have hroom := h.room
  have hnat : (s₁.regs rsp).toNat = (s.regs rsp).toNat - site.stacked := by
    rw [htop₁]
    exact toNat_sub_ofNat hroom
  rw [hrun]
  refine ⟨?_, fun i j a hi ha k hk => ?_, fun i kind j a hi ha k hk => ?_, fun x hx => ?_⟩
  · rw [hlast.physical h.fresh (by decide), ← htop₁]
    exact hload.regs rsp fun kind j _ hj => (argReg_spec hj).2.2.1.symm
  · rw [hmem]
    exact hpush.bytes i j a hi ha k hk
  · obtain ⟨-, hj, -⟩ := reg_bounds hi
    rw [hlast.physical h.fresh (argReg_spec hj).1, hload.bytes i kind j a hi ha k hk]
    refine (h.ready a (List.mem_of_getElem? ha)).byte hpush.stable (fun x hx => ?_) hk
    exact hpush.others x (by omega)
  · rw [hmem]
    exact hpush.others x (.inr hx)

/-- After the call the stack pointer is off by what `stack_allocked` lost. -/
theorem Sane.regs_after (h : site.Sane env callee constant temp selxns s) :
    (site.after env callee constant temp selxns s).regs rsp =
      s.regs rsp - BitVec.ofNat 64 site.stacked +
        (BitVec.ofNat 32 site.stacked).signExtend 64 := by
  have hpush := h.pushed 0
  rw [List.drop_zero, List.drop_zero, List.take_zero] at hpush
  have hallocked : (call1 constant temp selxns ⟨site.temps, 0⟩
      (marked (start site.type.variadic) site.args)).1.stackAllocked =
      BitVec.ofNat 32 site.stacked := by
    rw [hpush.stackAllocked]
    exact BitVec.zero_add _
  set s₁ := site.atCall env callee constant temp selxns s with hs₁
  have htop : s₁.regs rsp = s.regs rsp - BitVec.ofNat 64 site.stacked := h.arrived.top
  -- the stack pointer before the result is moved
  have hpop : ∀ s₂ : Machine, s₂.regs rsp = s₁.regs rsp →
      (execs env callee (if BitVec.ofNat 32 site.stacked ≠ 0 then
        [⟨.addq, [operandCon .long ((BitVec.ofNat 32 site.stacked).signExtend 64) none 0,
          rspOperand]⟩] else []) s₂).regs rsp =
        s₁.regs rsp + (BitVec.ofNat 32 site.stacked).signExtend 64 := by
    intro s₂ hs₂
    split
    · show (s₂.setReg rsp (s₂.regs rsp +
        (symWord env none + (BitVec.ofNat 32 site.stacked).signExtend 64))).regs rsp = _
      rw [setReg_self, symWord, zero_add, hs₂]
    · next hz =>
      have hz' : BitVec.ofNat 32 site.stacked = 0 := not_not.mp hz
      rw [hz', execs_nil, hs₂]
      simp
  rw [after, ← hs₁, code_eq]
  dsimp only
  rw [hallocked, execs_append]
  have hcallee : ∀ i f o, ∃ w, Code.exec env callee ⟨.call i f, [o]⟩ s₁ = callee w s₁ :=
    fun _ _ _ => ⟨_, rfl⟩
  obtain ⟨w, hw⟩ := hcallee (call0 0 0 site.insns).1 (call0 0 0 site.insns).2.1
    (dehuge temp (call1 constant temp selxns ⟨site.temps, 0⟩
      (marked (start site.type.variadic) site.args)).1.temps site.src).2.1
  rw [hw, ← htop, ← hpop _ (h.returns w s₁)]
  rcases hdst : site.dst with _ | d
  · rfl
  · obtain ⟨ts, r, rfl, hr⟩ := h.dst d hdst
    -- the result is moved to another register
    dsimp only
    rw [execs_cons, execs_nil]
    obtain ⟨v, hv, -⟩ := @exec_move env callee (operandReg ts (if ts.floating then xmm 0 else rax) 0)
      (execs env callee (if BitVec.ofNat 32 site.stacked ≠ 0 then
        [⟨.addq, [operandCon .long ((BitVec.ofNat 32 site.stacked).signExtend 64) none 0,
          rspOperand]⟩] else []) (callee w s₁)) (by simp [operandReg, operandNew]) ts r
    exact (congrArg (fun m : Machine => m.regs rsp) hv).trans (setReg_ne hr.symm)

/-- Only a nonnegative int is the same as a long. -/
theorem lt_of_signExtend {x : BitVec 32} {m : Nat} (hm : m < 2 ^ 64 - 2 ^ 31)
    (h : x.signExtend 64 = BitVec.ofNat 64 m) : m < 2 ^ 31 := by
  have hnat := congrArg BitVec.toNat h
  rw [BitVec.toNat_signExtend, BitVec.toNat_ofNat, BitVec.toNat_setWidth, BitVec.msb_eq_decide]
    at hnat
  have hx := x.isLt
  by_cases hmsb : 2 ^ (32 - 1) ≤ x.toNat
  · simp only [hmsb, decide_true, if_true] at hnat
    omega
  · simp only [hmsb, decide_false, Bool.false_eq_true, if_false] at hnat
    omega

theorem signExtend_ofNat {m : Nat} (hm : m < 2 ^ 31) :
    (BitVec.ofNat 32 m).signExtend 64 = BitVec.ofNat 64 m := by
  have hnat : (BitVec.ofNat 32 m).toNat = m := by
    rw [BitVec.toNat_ofNat]
    exact Nat.mod_eq_of_lt (by omega)
  rw [signExtend_of_lt (by omega), hnat]

/-- A place on the stack ends before the end. -/
theorem Sane.stack_le {i n : Nat} (hi : site.places[i]? = some (.stack n)) :
    n ≤ site.stacked := by
  obtain ⟨-, t, -, hle⟩ := stack_bounds hi
  have hle' : n + t.slot ≤ site.stacked := hle
  omega

/-- Where the callee looks on its frame. -/
theorem Sane.slot_eq (h : site.Sane env callee constant temp selxns s) {i n : Nat}
    (hi : site.places[i]? = some (.stack n)) (hn : n + 16 < 2 ^ 31) :
    site.framePointer env callee constant temp selxns s +
        (BitVec.ofNat 32 (n + 16)).signExtend 64 =
      s.regs rsp - BitVec.ofNat 64 (site.stacked - n) := by
  have hle := Sane.stack_le hi
  have hsplit : BitVec.ofNat 64 site.stacked =
      BitVec.ofNat 64 (site.stacked - n) + BitVec.ofNat 64 n := by
    rw [← BitVec.ofNat_add, Nat.sub_add_cancel hle]
  rw [framePointer, h.arrived.top, signExtend_ofNat hn, hsplit, BitVec.ofNat_add,
    show BitVec.ofNat 64 16 = (16 : Word) from rfl]
  ring

theorem Sane.pushedAt_stack (h : site.Sane env callee constant temp selxns s) {i n : Nat}
    (hi : site.places[i]? = some (.stack n)) :
    site.pushedAt env callee constant temp selxns s i =
      s.regs rsp - BitVec.ofNat 64 (site.stacked - n) := by
  rw [h.pushedAt, stack_cursor hi]

/-- What `call0` leaves of an argument says where it is. -/
theorem insn_arg {i : Nat} {insn : ArgInsn} (hi : (call0 0 0 site.insns).2.2[i]? = some insn) :
    ∃ a p, site.args[i]? = some a ∧ site.places[i]? = some p ∧
      (insn.op = .arg ↔ ∃ k n, p = .reg k n) := by
  rw [insns_eq, marked, List.getElem?_zipWith] at hi
  rcases ha : site.args[i]? with _ | a
  · simp [ha] at hi
  · rcases hp : site.places[i]? with _ | p
    · have hp' : (placesFrom (start site.type.variadic)
          (site.args.map Actual.type))[i]? = none := hp
      simp [ha, hp'] at hi
    · have hp' : (placesFrom (start site.type.variadic)
          (site.args.map Actual.type))[i]? = some p := hp
      simp only [ha, hp'] at hi
      obtain rfl : mark a p = insn := Option.some.inj hi
      refine ⟨a, p, rfl, rfl, ?_⟩
      cases a with
      | scalar o => cases p <;> simp [mark]
      | strun address size =>
        cases p with
        | stack n => simp [mark]
        | reg k n =>
          obtain ⟨-, -, t, ht, hpool⟩ := reg_bounds hp'
          obtain rfl : (Actual.strun address size).type = t := by simpa [ha] using ht
          cases hpool

/-- A place on the stack cannot be declared past an int. -/
theorem Agrees.fits (h : site.Sane env callee constant temp selxns s)
    (ha : site.Agrees env callee constant temp selxns s) : site.Fits := by
  have hroom := h.room
  have huser := h.user
  refine ⟨?_, fun i n hi => ?_⟩
  · have hrestored := ha.restored
    rw [h.regs_after, sub_add, sub_eq_self, sub_eq_zero] at hrestored
    exact lt_of_signExtend (by omega) hrestored.symm
  · obtain ⟨rest, hrest⟩ := h.places
    have hlt := (List.getElem?_eq_some_iff.mp hi).1
    have hp : site.places[i]? = some (.stack n) := by
      rw [hrest, List.getElem?_append_left hlt, hi]
    have hle := Sane.stack_le hp
    obtain ⟨hlen, hall⟩ := List.forall₂_iff_get.mp (homes_places site.type)
    have hhome := hall i hlt (hlen ▸ hlt)
    obtain ⟨_, hget⟩ := List.getElem?_eq_some_iff.mp hi
    rw [List.get_eq_getElem, hget] at hhome
    obtain ⟨offset, hoffset, -⟩ := hhome
    have hslot := ha.slots i offset (by
      rw [← hoffset, List.get_eq_getElem]
      exact List.getElem?_eq_getElem _)
    refine @lt_of_signExtend offset _ (by omega) ?_
    have hsplit : BitVec.ofNat 64 site.stacked =
        BitVec.ofNat 64 (site.stacked - n) + BitVec.ofNat 64 n := by
      rw [← BitVec.ofNat_add, Nat.sub_add_cancel hle]
    rw [h.pushedAt_stack hp, framePointer, h.arrived.top, hsplit] at hslot
    rw [BitVec.ofNat_add, show BitVec.ofNat 64 16 = (16 : Word) from rfl]
    linear_combination -hslot

/-- Every argument is in its home, as long as offsets are ints. -/
theorem Sane.delivered (h : site.Sane env callee constant temp selxns s) (hf : site.Fits) {i : Nat}
    {home : Home} {a : Actual} (hi : site.type.homes[i]? = some home)
    (ha : site.args[i]? = some a) {k : Nat} (hk : k < a.type.sizeof) :
    site.homeByte env callee constant temp selxns s home k = a.byte env constant s k := by
  obtain ⟨p, hp, hp', hat⟩ := h.home hi
  cases p with
  | reg kind n =>
    obtain rfl : home = .reg (argReg kind n) := hat
    exact h.arrived.regs i kind n a hp ha k hk
  | stack n =>
    have hn := hf.2 i n hp'
    obtain ⟨offset, rfl, hoffset⟩ := hat
    rw [hoffset hn, homeByte, h.slot_eq hp hn]
    exact h.arrived.stack i n a hp ha k hk

/-- Arguments on the stack are apart. -/
theorem Sane.apart (h : site.Sane env callee constant temp selxns s) {i j : Nat} {a : Actual}
    {x y : ArgInsn} (hij : i < j) (ha : site.args[i]? = some a)
    (hx : (call0 0 0 site.insns).2.2[i]? = some x) (hxop : x.op ≠ .arg)
    (hy : (call0 0 0 site.insns).2.2[j]? = some y) (hyop : y.op ≠ .arg) :
    (site.pushedAt env callee constant temp selxns s i).toNat + a.type.sizeof ≤
      (site.pushedAt env callee constant temp selxns s j).toNat := by
  have hstack : ∀ {i : Nat} {x : ArgInsn}, (call0 0 0 site.insns).2.2[i]? = some x → x.op ≠ .arg →
      ∃ n, site.places[i]? = some (.stack n) := by
    intro i x hx hop
    obtain ⟨-, p, -, hp, hiff⟩ := insn_arg hx
    cases p with
    | reg k n => exact absurd (hiff.mpr ⟨k, n, rfl⟩) hop
    | stack n => exact ⟨n, hp⟩
  obtain ⟨n, hn⟩ := hstack hx hxop
  obtain ⟨m, hm⟩ := hstack hy hyop
  obtain ⟨t, ht, hle⟩ := stack_apart hij hn hm
  obtain rfl : a.type = t := by simpa [ha] using ht
  have hslot := (sizeof_le_slot a.type).1
  have hroom := h.room
  have hnle := Sane.stack_le hn
  have hmle := Sane.stack_le hm
  rw [h.pushedAt_stack hn, h.pushedAt_stack hm, toNat_sub_ofNat (by omega),
    toNat_sub_ofNat (by omega)]
  omega

/-- Caller and callee agree on where every argument is, no argument is overwritten, and the stack
    pointer comes back after the call, exactly when the stacked arguments and the frame offsets can
    be counted in an int. -/
theorem call_agrees_iff (env : Env) (callee : Word → Machine → Machine)
    (constant : TypeBits → Word → Symbol) (temp : TypeBits → Nat → PseudoReg) (selxns : Selxns)
    (site : CallSite) (s : Machine) (h : site.Sane env callee constant temp selxns s) :
    site.Agrees env callee constant temp selxns s ↔ site.Fits := by
  refine ⟨Agrees.fits h, fun hf => ⟨?_, ?_, fun i home a hi ha k hk => h.delivered hf hi ha hk,
    fun i j a x y hij ha hx hxop hy hyop => h.apart hij ha hx hxop hy hyop, h.arrived.others, ?_⟩⟩
  · intro i home insn hi hinsn
    obtain ⟨p, hp, -, hat⟩ := h.home hi
    obtain ⟨-, q, -, hq, hiff⟩ := insn_arg hinsn
    obtain rfl : p = q := Option.some.inj (hp.symm.trans hq)
    rw [hiff]
    cases p with
    | reg kind n =>
      obtain rfl : home = .reg (argReg kind n) := hat
      exact ⟨fun _ => ⟨_, rfl⟩, fun _ => ⟨kind, n, rfl⟩⟩
    | stack n =>
      obtain ⟨offset, rfl, -⟩ := hat
      constructor
      · rintro ⟨_, _, he⟩
        cases he
      · rintro ⟨_, he⟩
        cases he
  · intro i offset hi
    obtain ⟨p, hp, hp', hat⟩ := h.home hi
    cases p with
    | reg kind n => cases hat
    | stack n =>
      have hn := hf.2 i n hp'
      obtain ⟨offset', heq, hoffset⟩ := hat
      obtain rfl : offset = offset' := by simpa using heq
      rw [hoffset hn, h.slot_eq hp hn, h.pushedAt_stack hp]
  · rw [h.regs_after, signExtend_ofNat hf.1, sub_add_cancel]

end

/-! ### Two calls -/

/-- Pseudo registers in order. -/
def countedTemp (_ : TypeBits) (n : Nat) : PseudoReg := BitVec.ofNat 32 (16 + n % 1024)

/-- A function of an int and `n` structs, called with constants for their addresses. -/
def structsSite (n : Nat) (size : ObjectSize) : CallSite :=
  ⟨⟨false, .scalar .int :: List.replicate n (.strun size), false⟩, operandI .ulong 0 none,
    .scalar (operandI .int 5 none) :: List.replicate n (.strun (operandI .ulong 0 none) size),
    operandNew .eff .ulong 0, none, 0⟩

/-- A machine with an empty memory. -/
def blankMachine : Machine := ⟨fun _ => 2 ^ 40, fun _ => 0, fun _ => 0, false⟩

theorem countedTemp_fresh : Fresh countedTemp 1024 := by
  refine ⟨fun _ n => ?_, fun _ _ n n' hn hn' h => ?_⟩
  · have hall : ∀ m : Fin 1024, isPhysical (BitVec.ofNat 32 (16 + m.1)) = false := by decide +kernel
    exact hall ⟨n % 1024, Nat.mod_lt _ (by decide)⟩
  · simp only [countedTemp] at h
    have h' := congrArg BitVec.toNat h
    rw [BitVec.toNat_ofNat, BitVec.toNat_ofNat] at h'
    omega

theorem structsSite_sane (n : Nat) (size : ObjectSize)
    (hstacked : (structsSite n size).stacked ≤ 2 ^ 32)
    (htemps : (structsSite n size).temps1 (fun _ _ => 0) countedTemp .empty ≤ 1024) :
    (structsSite n size).Sane default (fun _ s => s) (fun _ _ => 0) countedTemp .empty blankMachine := by
  have hsize : size.bytes ≤ 2 ^ 27 := size.le
  refine ⟨countedTemp_fresh.mono htemps, rfl, rfl, rfl, ⟨_, [], (List.append_nil _).symm, ?_,
    fun _ => rfl⟩, ?_, by decide, fun a ha => ?_, fun _ _ => rfl, fun d hd => ?_⟩
  · refine .cons rfl ?_
    rw [List.forall₂_iff_get]
    refine ⟨by simp, fun i _ _ => ?_⟩
    simp [Compatible, Actual.type]
  · exact hstacked.trans (by decide)
  · rcases List.mem_cons.mp ha with rfl | ha
    · show (∀ r, (OperandVal.con 5 none) = .reg r → _) ∧ (OperandClass.con = .mem → _)
      constructor
      · intro r hr
        cases hr
      · intro h
        cases h
    · obtain rfl := List.eq_of_mem_replicate ha
      refine ⟨⟨.inr ⟨by decide, rfl, rfl, rfl⟩, .inl rfl, fun r hr => ?_, rfl, fun r hr => ?_,
        fun _ => rfl⟩, ?_⟩
      · cases hr
      · cases hr
      · refine ⟨?_, .inl ?_⟩
        · show 0 + size.bytes ≤ 2 ^ 64
          omega
        · show 0 + size.bytes ≤ 2 ^ 40 - _
          omega
  · cases hd

/-- Two structs of a hundred bytes. -/
theorem call_agrees_two :
    (structsSite 2 ⟨100, by decide⟩).Sane default (fun _ s => s) (fun _ _ => 0) countedTemp .empty
        blankMachine ∧
      ((structsSite 2 ⟨100, by decide⟩).Agrees default (fun _ s => s) (fun _ _ => 0) countedTemp .empty
          blankMachine ↔
        (structsSite 2 ⟨100, by decide⟩).Fits) := by
  have h := structsSite_sane 2 ⟨100, by decide⟩ (by decide +kernel) (by decide +kernel)
  exact ⟨h, call_agrees_iff _ _ _ _ _ _ _ h⟩

/-- Sixteen structs of 128 MB: after the call the stack pointer is lost. -/
theorem not_agrees_sixteen :
    (structsSite 16 ⟨128 * 1024 * 1024, by decide⟩).Sane default (fun _ s => s) (fun _ _ => 0)
        countedTemp .empty blankMachine ∧
      ¬ (structsSite 16 ⟨128 * 1024 * 1024, by decide⟩).Agrees default (fun _ s => s)
        (fun _ _ => 0) countedTemp .empty blankMachine := by
  have h := structsSite_sane 16 ⟨128 * 1024 * 1024, by decide⟩ (by decide +kernel)
    (by decide +kernel)
  refine ⟨h, fun ha => ?_⟩
  have hstacked : (structsSite 16 ⟨128 * 1024 * 1024, by decide⟩).stacked = 2 ^ 31 := by
    decide +kernel
  have hrestored := ha.restored
  rw [h.regs_after, hstacked] at hrestored
  exact absurd hrestored (by decide +kernel)

end CallSite

end Ncc.Amd64
