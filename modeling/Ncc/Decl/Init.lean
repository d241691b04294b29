import Ncc.Decl.Layout
import Ncc.Decl.Emit

/-! Static initializers (init.c: `init`, `init_struct`, `init_array`, `init_strlit` and
    `init_value`).

    An initializer is read along with the type, and what is read decides which of the functions that
    write is called next: `init` gives these calls, `Call.emit` carries one out, and `Call.place` says
    what it is for: a value at its place in the object, or a gap before the next one. `init_ends` says
    that the walk ends when the fuel is more than the depth of the type, which `run_nested` bounds. -/

namespace Ncc.Decl

open Bits

/-! ### What is read -/

/-- The tokens of an initializer. An expression is one token, with its value; a string literal all by
    itself is another one, with its address. -/
inductive Tok where
  | lbrace
  | rbrace
  | comma
  | strlit (text : List (BitVec 8)) (c : Constant)
  | value (c : Constant)
  deriving DecidableEq

deriving instance DecidableEq for CType, Formals

/-- The calls of functions that write: `bits` or `word`, `string_emit`, and `init_pad`. -/
inductive Call where
  | value (type : CType) (field : Option Field) (c : Constant) (offset : Int)
  | strlit (text : List (BitVec 8)) (n : Nat) (offset : Int)
  | pad (n : Int)
  deriving DecidableEq

/-- The tokens ahead, `pushback`, and the calls so far. -/
structure Run where
  tokens : List Tok
  pushback : Option Constant
  calls : List Call

/-- Why there is no more to do: an error, or no fuel. -/
inductive Stop where
  | error (message : String)
  | fuel
  deriving DecidableEq

/-- An error is fatal. -/
def fatal {α : Type} (x : Except String α) : Except Stop α := x.mapError Stop.error

/-- One call more. -/
def Run.call (r : Run) (c : Call) : Run := { r with calls := r.calls ++ [c] }

/-! ### The code -/

/-- TYPE_SCALAR. -/
def scalar : CType → Bool
  | .basic .void _ => false
  | .basic .. | .ptr .. => true
  | _ => false

/-- TYPE_CHAR_ARRAY. -/
def charArray : CType → Bool
  | .array _ _ (.basic ts _) => ts = .char || ts = .schar || ts = .uchar
  | _ => false

/-- TYPE_GET_NR_ELEMENTS, 0 if the type is TYPE_UNBOUNDED_ARRAY. -/
def nrElements : CType → Nat
  | .array _ n _ => n
  | _ => 0

/-- `type_machine_bits` of the base of a scalar type. -/
def typeMachineBits : CType → TypeBits
  | .basic .char _ => .char
  | .basic .schar _ => .schar
  | .basic .uchar _ => .uchar
  | .basic .short _ => .short
  | .basic .ushort _ => .ushort
  | .basic .int _ => .int
  | .basic .uint _ => .uint
  | .basic .long _ => .long
  | .basic .float _ => .float
  | .basic .double _ | .basic .ldouble _ => .double
  | _ => .ulong

/-- Is the token a string literal? -/
def atStrlit (r : Run) : Bool :=
  match r.tokens with
  | .strlit .. :: _ => true
  | _ => false

/-- `next_value`; the values of `static_expression` are in the tokens. -/
def nextValue (r : Run) : Except Stop (Constant × Run) :=
  match r.pushback with
  | some c => .ok (c, { r with pushback := none })
  | none =>
    match r.tokens with
    | .value c :: ts | .strlit _ c :: ts => .ok (c, { r with tokens := ts })
    | _ => .error (.error "syntax")

/-- The lookahead of `init`; a constant is never a struct or a union. -/
def lookahead (r : Run) : Except Stop Run :=
  match r.tokens with
  | .strlit .. :: _ | .lbrace :: _ => .ok r
  | _ => (nextValue r).map fun (c, r) => { r with pushback := some c }

/-- `lex_match(K_RBRACE)`. -/
def matchRbrace (r : Run) : Except Stop Run :=
  match r.tokens with
  | .rbrace :: ts => .ok { r with tokens := ts }
  | _ => .error (.error "syntax")

section
variable (tags : Tags) (fakeAssign : CType → Constant → Except String Constant)

/-- `init_value`. -/
def initValue (dst : CType) (field : Option Field) (value : Constant) (offset : Int) (r : Run) :
    Except Stop Run :=
  (fatal (fakeAssign dst value)).bind fun value =>
    if field ≠ none ∧ value.sym ≠ none then .error (.error "invalid bit-field initializer")
    else .ok (r.call (.value dst field value offset))

/-- The bits of a member. -/
def memberSize (m : Member) : Except Stop Int :=
  match m.field with
  | some f => .ok f.size
  | none => (fatal (typeSizeof tags m.type {})).map fun n => (n * 8 : Nat)

/-- The loop of `init_struct`. -/
def structLoop (braced : Bool) (init : Member → Run → Except Stop Run) :
    List Member → Int → Run → Except Stop (Int × Run)
  | [], _, _ => .error (.error "too many initializers")
  | m :: ms, offsetBits, r =>
    let padBits := m.offset * 8 - offsetBits + (m.field.map Field.shift).getD 0
    (init m (r.call (.pad padBits))).bind fun r =>
      (memberSize tags m).bind fun size =>
        let offsetBits := offsetBits + padBits + size
        if !braced && ms.isEmpty then .ok (offsetBits, r)
        else
          match r.tokens with
          | .comma :: ts => structLoop braced init ms offsetBits { r with tokens := ts }
          | _ => .ok (offsetBits, r)

/-- `init_struct`; a union has one member as far as this goes. -/
def initStruct (braced : Bool) (init : Member → Run → Except Stop Run) (dst : CType) (tag : Nat)
    (r : Run) : Except Stop Run :=
  match tags[tag]? with
  | none => .error (.error "can't initialize incomplete")
  | some s =>
    if s.members.isEmpty then .error (.error "can't initialize incomplete")
    else
      (structLoop tags braced init (if s.isUnion then s.members.take 1 else s.members) 0 r).bind
        fun (offsetBits, r) =>
          (fatal (typeSizeof tags dst {})).map fun size : Nat =>
            r.call (.pad (size * 8 - offsetBits))

/-- The loop of `init_array`, from element `n` on; the first argument is fuel. -/
def arrayLoop (braced : Bool) (init : Nat → Run → Except Stop Run) (nr : Nat) :
    Nat → Nat → Run → Except Stop (Nat × Run)
  | 0, _, _ => .error .fuel
  | fuel + 1, n, r =>
    if nr ≠ 0 ∧ n = nr then .error (.error "too many initializers for array")
    else
      (init n r).bind fun r =>
        if !braced && n + 1 = nr then .ok (n + 1, r)
        else
          match r.tokens with
          | .comma :: ts => arrayLoop braced init nr fuel (n + 1) { r with tokens := ts }
          | _ => .ok (n + 1, r)

/-- `init_array`, without `update_bounds`, which changes the type and nothing else. The loop takes a
    comma every time, so that the tokens are fuel enough. -/
def initArray (braced : Bool) (init : CType → Int → Run → Except Stop Run) (nr : Nat)
    (element : CType) (offset : Int) (r : Run) : Except Stop Run :=
  (fatal (typeSizeof tags element {})).bind fun size =>
    (arrayLoop braced (fun n => init element (offset + n * size)) nr (r.tokens.length + 1) 0 r).map
      fun (n, r) => if nr = 0 then r else r.call (.pad ((nr - n) * size * 8))

/-- `init_strlit`. -/
def initStrlit (nr : Nat) (offset : Int) (r : Run) : Except Stop Run :=
  match r.tokens with
  | .strlit text _ :: ts =>
    if nr ≠ 0 ∧ nr < text.length then .error (.error "string literal exceeds length of array")
    else
      .ok (({ r with tokens := ts } : Run).call
        (.strlit text (if nr = 0 then text.length + 1 else nr) offset))
  | _ => .error (.error "syntax")

/-- `init`; `outer` is INIT_FLAG_OUTER, and T_FIELD of the type is apart. -/
def init : Nat → Bool → CType → Option Field → Int → Run → Except Stop Run
  | 0, _, _, _, _, _ => .error .fuel
  | fuel + 1, outer, dst, field, offset, r =>
    let braced := r.tokens.head? == some .lbrace
    let r := if braced then { r with tokens := r.tokens.tail } else r
    (lookahead r).bind fun r =>
      (if scalar dst then
          (nextValue r).bind fun (value, r) => initValue fakeAssign dst field value offset r
        else if charArray dst && atStrlit r then initStrlit (nrElements dst) offset r
        else if outer && !braced then .error (.error "aggregate initializer missing braces")
        else
          match dst with
          | .strun tag _ =>
            initStruct tags braced
              (fun m => init fuel false m.type m.field (offset + m.offset)) dst tag r
          | .array _ nr element =>
            initArray tags braced (fun t => init fuel false t none) nr element offset r
          | _ => .error (.error "not an object")).bind fun r =>
        if braced then matchRbrace r else .ok r

/-- The calls of `init_static` for an object of a type. -/
def initStatic (fuel : Nat) (dst : CType) (tokens : List Tok) : Except Stop (List Call) :=
  (init tags fakeAssign fuel true dst none 0 ⟨tokens, none, []⟩).map Run.calls

end

/-! ### What the calls write, and what they are for -/

section
variable (env : Env)

/-- Carry a call out. -/
def Call.emit (o : Out) : Call → Out
  | value type field c _ =>
    match field with
    | some f => bits c.i f.size o
    | none => output (word env (typeMachineBits type) c) o
  | strlit text n _ => output (stringEmit text n) o
  | pad n => initPad n o

/-- The output after some calls. -/
def emitAll (calls : List Call) (o : Out) : Out := calls.foldl (Call.emit env) o

/-- A gap, from the end of what comes before it to the start of what comes behind. -/
structure Joint where
  stop : Int
  start : Int

/-- The bits so far, the values in their places, and the gaps. -/
structure Plan where
  pos : Int
  leaves : List Piece
  joints : List Joint

/-- The bit at which a field of a type at an offset starts. -/
def startBit (field : Option Field) (offset : Int) : Int :=
  8 * offset + (field.map Field.shift).getD 0

/-- The bits of a constant. -/
def valueBits (type : CType) (field : Option Field) (c : Constant) : List Bool :=
  match field with
  | some f => lowBits c.i f.size
  | none => lowBits (constWord env (typeMachineBits type) c) (8 * (typeMachineBits type).sizeof)

/-- The characters of a string literal in an array of `n`. -/
def strlitBytes (text : List (BitVec 8)) (n : Nat) : List (BitVec 8) :=
  (List.range n).map fun k => text.getD k 0

/-- A value behind what there is. -/
def Plan.leaf (p : Plan) (l : Piece) : Plan :=
  { p with pos := p.pos + l.bits.length, leaves := p.leaves ++ [l] }

/-- What a call is for. -/
def Call.place (p : Plan) : Call → Plan
  | value type field c offset => p.leaf ⟨startBit field offset, valueBits env type field c⟩
  | strlit text n offset => p.leaf ⟨8 * offset, bitsOf (strlitBytes text n)⟩
  | pad n => { p with pos := p.pos + n, joints := p.joints ++ [⟨p.pos, p.pos + n⟩] }

/-- What some calls are for. -/
def plan (calls : List Call) : Plan := calls.foldl (Call.place env) ⟨0, [], []⟩

end

/-! ### How deep types are -/

/-- The types that are aggregates. -/
def aggregate : CType → Bool
  | .array .. | .strun .. => true
  | _ => false

/-- A type with at most so many aggregates in one another, all of them defined. -/
inductive Nested (tags : Tags) : Nat → CType → Prop
  | other {n : Nat} {t : CType} (h : aggregate t = false) : Nested tags n t
  | array {n : Nat} {q : Quals} {nr : Nat} {e : CType} (h : Nested tags n e) :
      Nested tags (n + 1) (.array q nr e)
  | strun {n tag : Nat} {q : Quals} {s : Strun} (hs : definedTag tags tag = some s)
      (h : ∀ m ∈ s.members, Nested tags n m.type) : Nested tags (n + 1) (.strun tag q)

theorem Nested.mono {tags : Tags} {n n' : Nat} {t : CType} (h : Nested tags n t) (hn : n ≤ n') :
    Nested tags n' t := by
  induction h generalizing n' with
  | other h => exact .other h
  | array _ ih =>
    obtain ⟨k, rfl⟩ : ∃ k, n' = k + 1 := ⟨n' - 1, by omega⟩
    exact .array (ih (by omega))
  | strun hs _ ih =>
    obtain ⟨k, rfl⟩ : ∃ k, n' = k + 1 := ⟨n' - 1, by omega⟩
    exact .strun hs fun m hm => ih m hm (by omega)

theorem Nested.extends {tags tags' : Tags} (hext : Extends tags tags') {n : Nat} {t : CType}
    (h : Nested tags n t) : Nested tags' n t := by
  induction h with
  | other h => exact .other h
  | array _ ih => exact .array ih
  | strun hs _ ih => exact .strun (hext _ _ hs) ih

/-- The members of a tag are of bounded depth. -/
def MembersNested (tags : Tags) (ms : List Member) : Prop := ∃ n, ∀ m ∈ ms, Nested tags n m.type

theorem MembersNested.extends {tags tags' : Tags} (hext : Extends tags tags') {ms : List Member}
    (h : MembersNested tags ms) : MembersNested tags' ms :=
  h.imp fun _ hn m hm => (hn m hm).extends hext

theorem MembersNested.append {tags : Tags} {ms new : List Member} (h : MembersNested tags ms)
    (h' : MembersNested tags new) : MembersNested tags (ms ++ new) := by
  obtain ⟨n, hn⟩ := h
  obtain ⟨n', hn'⟩ := h'
  refine ⟨max n n', fun m hm => ?_⟩
  rcases List.mem_append.mp hm with hm | hm
  · exact (hn m hm).mono (le_max_left _ _)
  · exact (hn' m hm).mono (le_max_right _ _)

/-- A type that has an alignment is made of defined tags. -/
theorem nested_of_alignof {tags : Tags} (htags : ∀ s ∈ tags, MembersNested tags s.members)
    {a : Option Nat} : ∀ {t : CType}, typeAlignof tags t = .ok a → ∃ n, Nested tags n t
  | .basic .., _ | .ptr .., _ | .oldFunc .., _ | .func .., _ => ⟨0, .other rfl⟩
  | .array q nr e, h => by
    rw [typeAlignof] at h
    obtain ⟨n, hn⟩ := nested_of_alignof htags h
    exact ⟨n + 1, .array hn⟩
  | .strun tag q, h => by
    rw [typeAlignof] at h
    cases hs : definedTag tags tag with
    | none =>
      rw [hs] at h
      cases h
    | some s =>
      obtain ⟨n, hn⟩ := htags s (List.mem_of_getElem? (definedTag_eq_some.mp hs).1)
      exact ⟨n + 1, .strun hs hn⟩

/-- The members that one declaration adds. -/
theorem insertAt_nested {tags : Tags} (htags : ∀ s ∈ tags, MembersNested tags s.members)
    {s s' : Strun} {id : Option Nat} {type : CType} {field : Option Nat} {shift : Nat} {offset : Int}
    {a : Option Nat} (h : insertAt tags s id type field shift offset = .ok s')
    (halign : typeAlignof tags type = .ok a) (hs : MembersNested tags s.members) :
    MembersNested tags s'.members := by
  obtain ⟨new, rfl, hnew⟩ := insertAt_ok h
  refine hs.append ?_
  rcases hnew with rfl | ⟨rfl, -⟩ | ⟨src, hsrc, hsub⟩
  · exact ⟨0, nofun⟩
  · obtain ⟨n, hn⟩ := nested_of_alignof htags halign
    refine ⟨n, fun m hm => ?_⟩
    obtain rfl := List.mem_singleton.mp hm
    exact hn
  · obtain ⟨tag, q, rfl, hget⟩ := anonymousStrun_eq_some hsrc
    obtain ⟨n, hn⟩ := htags src (List.mem_of_getElem? hget)
    refine ⟨n, fun m hm => ?_⟩
    obtain ⟨m', hm', rfl⟩ := List.mem_map.mp (hsub.subset hm)
    exact hn m' hm'

/-- One event keeps the depth bounded. -/
theorem step_nested {tags tags' : Tags} {e : Event}
    (htags : ∀ s ∈ tags, MembersNested tags s.members) (hlaid : ∀ s ∈ tags, Laid tags s)
    (hb : e.bounded = true) (hundef : ∀ tag, e.tag = some tag → definedTag tags tag = none)
    (h : step tags e = .ok tags') : ∀ s ∈ tags', MembersNested tags' s.members := by
  have set_nested {tag : Nat} {s' : Strun} (htag : e.tag = some tag)
      (hs' : MembersNested tags s'.members) :
      ∀ s ∈ tags.set tag s', MembersNested (tags.set tag s') s.members := by
    intro s hs
    refine MembersNested.extends (extends_set (hundef tag htag)) ?_
    rcases List.mem_or_eq_of_mem_set hs with hs | rfl
    · exact htags s hs
    · exact hs'
  cases e with
  | newTag id isUnion =>
    obtain rfl := Except.ok.inj h
    have hext : Extends tags (tags ++ [newTag id isUnion]) :=
      fun tag d hd => by rwa [definedTag_append rfl]
    intro s hs
    refine MembersNested.extends hext ?_
    rcases List.mem_append.mp hs with hs | hs
    · exact htags s hs
    · obtain rfl := List.mem_singleton.mp hs
      exact ⟨0, nofun⟩
  | member tag first id type bits =>
    rcases updateTag_ok h with rfl | ⟨s, s', hs, hf, rfl⟩
    · exact htags
    · have hmem := List.mem_of_getElem? hs
      obtain ⟨-, al, offset, shift, size, hfit, hins⟩ :=
        declareMember_spec (fun s hs => (hlaid s hs).size) (hlaid s hmem).size hb hf
      exact set_nested rfl (insertAt_nested htags hins hfit.alignof (htags s hmem))
  | complete tag =>
    rcases updateTag_ok h with rfl | ⟨s, s', hs, hf, rfl⟩
    · exact htags
    · have hmem := List.mem_of_getElem? hs
      obtain ⟨size, rfl, -⟩ := completeStrun_spec (hlaid s hmem).size hf
      exact set_nested rfl (htags s hmem)

/-- Every run keeps the depth bounded. -/
theorem run_nested : ∀ {es : List Event} {tags tags' : Tags},
    (∀ s ∈ tags, MembersNested tags s.members) → (∀ s ∈ tags, Laid tags s) →
    (∀ e ∈ es, e.bounded = true) → Once es →
    (∀ e ∈ es, ∀ tag, e.tag = some tag → definedTag tags tag = none) →
    run tags es = .ok tags' → ∀ s ∈ tags', MembersNested tags' s.members
  | [], tags, tags', htags, _, _, _, _, h => by
    obtain rfl := Except.ok.inj h
    exact htags
  | e :: es, tags, tags', htags, hlaid, hb, honce, hundef, h => by
    rw [run] at h
    obtain ⟨mid, hstep, h⟩ := bind_ok.mp h
    obtain ⟨hnot, honce⟩ := List.pairwise_cons.mp honce
    have hmid := step_nested htags hlaid (hb e List.mem_cons_self)
      (hundef e List.mem_cons_self) hstep
    obtain ⟨hlaid', hnone⟩ := step_laid hlaid (hb e List.mem_cons_self)
      (hundef e List.mem_cons_self) hstep
    refine run_nested hmid hlaid' (fun e' he' => hb e' (List.mem_cons_of_mem _ he')) honce
      (fun e' he' tag htag => ?_) h
    refine hnone tag (hundef e' (List.mem_cons_of_mem _ he') tag htag) fun hcomp => ?_
    exact hnot e' he' tag hcomp htag

/-! ### The walk ends -/

/-- There was fuel, and no more than `n` tokens are left. -/
def Ends {α : Type} (run : α → Run) (n : Nat) (x : Except Stop α) : Prop :=
  x ≠ .error .fuel ∧ ∀ a, x = .ok a → (run a).tokens.length ≤ n

section
variable {α β : Type} {run : α → Run} {run' : β → Run} {n : Nat}

theorem Ends.ok {a : α} (h : (run a).tokens.length ≤ n) : Ends run n (.ok a) :=
  ⟨nofun, fun _ ha => Except.ok.inj ha ▸ h⟩

theorem Ends.error (message : String) : Ends run n (.error (.error message)) := ⟨nofun, nofun⟩

theorem Ends.le {n' : Nat} {x : Except Stop α} (h : Ends run n x) (hn : n ≤ n') : Ends run n' x :=
  ⟨h.1, fun a ha => le_trans (h.2 a ha) hn⟩

theorem Ends.bind {x : Except Stop α} {f : α → Except Stop β} (h : Ends run n x)
    (hf : ∀ a, (run a).tokens.length ≤ n → Ends run' n (f a)) : Ends run' n (x.bind f) := by
  cases x with
  | error e => exact ⟨fun he => h.1 (congrArg Except.error (Except.error.inj he)), nofun⟩
  | ok a => exact hf a (h.2 a rfl)

theorem Ends.fatal {γ : Type} {x : Except String γ} {f : γ → Except Stop β}
    (hf : ∀ a, Ends run' n (f a)) : Ends run' n ((fatal x).bind f) := by
  cases x with
  | error e => exact Ends.error e
  | ok a => exact hf a

end

theorem nextValue_ends (r : Run) : Ends Prod.snd r.tokens.length (nextValue r) := by
  rw [nextValue]
  split
  · exact .ok (le_refl _)
  · split
    · next hts => exact .ok (by rw [hts]; exact Nat.le_succ _)
    · next hts => exact .ok (by rw [hts]; exact Nat.le_succ _)
    · exact .error _

theorem lookahead_ends (r : Run) : Ends id r.tokens.length (lookahead r) := by
  rw [lookahead]
  split
  · exact .ok (le_refl _)
  · exact .ok (le_refl _)
  · exact (nextValue_ends r).bind fun a ha => .ok ha

theorem matchRbrace_ends (r : Run) : Ends id r.tokens.length (matchRbrace r) := by
  rw [matchRbrace]
  split
  · next hts => exact .ok (by rw [hts]; exact Nat.le_succ _)
  · exact .error _

section
variable {tags : Tags} {fakeAssign : CType → Constant → Except String Constant}

theorem initValue_ends (dst : CType) (field : Option Field) (value : Constant) (offset : Int)
    (r : Run) : Ends id r.tokens.length (initValue fakeAssign dst field value offset r) := by
  refine .fatal fun c => ?_
  split
  · exact .error _
  · exact .ok (le_refl _)

theorem initStrlit_ends (nr : Nat) (offset : Int) (r : Run) :
    Ends id r.tokens.length (initStrlit nr offset r) := by
  rw [initStrlit]
  split
  · next hts =>
    split
    · exact .error _
    · exact .ok (by rw [hts]; exact Nat.le_succ _)
  · exact .error _

theorem structLoop_ends {braced : Bool} {init : Member → Run → Except Stop Run} {ms : List Member}
    (hinit : ∀ m ∈ ms, ∀ r, Ends id r.tokens.length (init m r)) (offsetBits : Int) (r : Run) :
    Ends Prod.snd r.tokens.length (structLoop tags braced init ms offsetBits r) := by
  induction ms generalizing offsetBits r with
  | nil => exact .error _
  | cons m ms ih =>
    rw [structLoop]
    refine Ends.bind (hinit m List.mem_cons_self (r.call _)) fun r₁ hr₁ => ?_
    have hrest (size : Int) : Ends Prod.snd r.tokens.length
        (if !braced && ms.isEmpty then .ok (size, r₁)
        else
          match r₁.tokens with
          | .comma :: ts => structLoop tags braced init ms size { r₁ with tokens := ts }
          | _ => .ok (size, r₁)) := by
      split
      · exact .ok hr₁
      · split
        · next ts hts =>
          have hlen : r₁.tokens.length = ts.length + 1 := congrArg List.length hts
          have hle : ts.length + 1 ≤ r.tokens.length := hlen ▸ hr₁
          exact (ih (fun m hm => hinit m (List.mem_cons_of_mem _ hm)) size
            { r₁ with tokens := ts }).le (show ts.length ≤ r.tokens.length by omega)
        · exact .ok hr₁
    rw [memberSize]
    cases m.field with
    | some f => exact hrest _
    | none =>
      cases typeSizeof tags m.type {} with
      | error e => exact .error e
      | ok n => exact hrest _

/-- The loop of `init_array` takes a comma each time. -/
theorem arrayLoop_ends {braced : Bool} {init : Nat → Run → Except Stop Run} {nr : Nat}
    (hinit : ∀ n r, Ends id r.tokens.length (init n r)) {fuel n : Nat} {r : Run}
    (h : r.tokens.length < fuel) :
    Ends Prod.snd r.tokens.length (arrayLoop braced init nr fuel n r) := by
  induction fuel generalizing n r with
  | zero => exact absurd h (Nat.not_lt_zero _)
  | succ fuel ih =>
    rw [arrayLoop]
    split
    · exact .error _
    · refine Ends.bind (hinit n r) fun r₁ hr₁ => ?_
      split
      · exact .ok hr₁
      · split
        · next ts hts =>
          have hlen : r₁.tokens.length = ts.length + 1 := congrArg List.length hts
          have hle : ts.length + 1 ≤ r.tokens.length := hlen ▸ hr₁
          exact (ih (r := { r₁ with tokens := ts }) (show ts.length < fuel by omega)).le
            (show ts.length ≤ r.tokens.length by omega)
        · exact .ok hr₁

theorem initStruct_ends {braced : Bool} {init : Member → Run → Except Stop Run} {dst : CType}
    {tag : Nat} {s : Strun} (hs : definedTag tags tag = some s)
    (hinit : ∀ m ∈ s.members, ∀ r, Ends id r.tokens.length (init m r)) (r : Run) :
    Ends id r.tokens.length (initStruct tags braced init dst tag r) := by
  rw [initStruct, (definedTag_eq_some.mp hs).1]
  dsimp only
  split
  · exact .error _
  · refine Ends.bind (structLoop_ends (fun m hm => hinit m ?_) 0 r) fun a ha => ?_
    · split at hm
      · exact List.mem_of_mem_take hm
      · exact hm
    · cases typeSizeof tags dst {} with
      | error e => exact .error e
      | ok n => exact .ok ha

theorem initArray_ends {braced : Bool} {init : CType → Int → Run → Except Stop Run} {nr : Nat}
    {element : CType} {offset : Int} (hinit : ∀ offset r, Ends id r.tokens.length
      (init element offset r)) (r : Run) :
    Ends id r.tokens.length (initArray tags braced init nr element offset r) := by
  refine .fatal fun size => ?_
  refine Ends.bind (arrayLoop_ends (fun n r => hinit _ r) (Nat.lt_succ_self _)) fun a ha => .ok ?_
  obtain ⟨n, r₁⟩ := a
  dsimp only
  split <;> exact ha

/-- The walk ends when the fuel is more than the depth of the type. -/
theorem init_ends {n : Nat} {dst : CType} (h : Nested tags n dst) {fuel : Nat} (hfuel : n < fuel)
    (outer : Bool) (field : Option Field) (offset : Int) (r : Run) :
    Ends id r.tokens.length (init tags fakeAssign fuel outer dst field offset r) := by
  induction fuel generalizing n dst outer field offset r with
  | zero => exact absurd hfuel (Nat.not_lt_zero _)
  | succ fuel ih =>
    rw [init]
    dsimp only
    have hbrace : (if r.tokens.head? == some .lbrace then { r with tokens := r.tokens.tail }
        else r).tokens.length ≤ r.tokens.length := by
      split
      · rw [List.length_tail]
        exact Nat.sub_le _ _
      · exact le_refl _
    refine Ends.bind ((lookahead_ends _).le hbrace) fun r₁ hr₁ => ?_
    refine Ends.bind (Ends.le (show Ends id r₁.tokens.length _ from ?_) hr₁) fun r₂ hr₂ => ?_
    · split
      · exact (nextValue_ends r₁).bind fun a ha => (initValue_ends dst field a.1 offset a.2).le ha
      · split
        · exact initStrlit_ends _ _ _
        · split
          · exact .error _
          · cases h with
            | other hother =>
              cases dst with
              | strun | array => exact nomatch hother
              | _ => exact Ends.error "not an object"
            | array he => exact initArray_ends (fun offset r => ih he (by omega) _ _ _ r) r₁
            | strun hs hm =>
              exact initStruct_ends hs (fun m hm' r => ih (hm m hm') (by omega) _ _ _ r) r₁
    · split
      · exact (matchRbrace_ends r₂).le hr₂
      · exact .ok hr₂

end

end Ncc.Decl
