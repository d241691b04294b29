import Ncc.Thread

/-! Executions before and after `nop`, `prune` and `unreach` (opt.c).

    A run passes through the blocks that are left as it did, and executes the insns that are left:
    what the passes take out is passed through without effect (`Threads`). An empty block is not
    executed twice in a row, so a run that never ends still does not end. -/

namespace Ncc

/-! ### Insns without effect -/

/-- The insns that are left when those that `nop0` takes for no-ops are passed over. -/
def dropRemovable : Option Insn → List Insn → List Insn
  | _, [] => []
  | prev, insn :: insns =>
    if removable prev insn then dropRemovable prev insns
    else insn :: dropRemovable (some insn) insns

theorem dropRemovable_of_removeFirst : ∀ {prev : Option Insn} {insns insns' : List Insn},
    removeFirst prev insns = some insns' → dropRemovable prev insns = dropRemovable prev insns'
  | _, [], _, h => nomatch h
  | prev, insn :: insns, insns', h => by
    rw [removeFirst] at h
    split_ifs at h with hrem
    · rw [← Option.some.inj h, dropRemovable, if_pos hrem]
    · obtain ⟨rest, hrest, rfl⟩ := Option.map_eq_some_iff.mp h
      rw [dropRemovable, dropRemovable, if_neg hrem, if_neg hrem, dropRemovable_of_removeFirst hrest]

theorem dropRemovable_of_none : ∀ {prev : Option Insn} {insns : List Insn},
    removeFirst prev insns = none → dropRemovable prev insns = insns
  | _, [], _ => rfl
  | prev, insn :: insns, h => by
    rw [removeFirst] at h
    split_ifs at h with hrem
    rw [dropRemovable, if_neg hrem, dropRemovable_of_none (Option.map_eq_none_iff.mp h)]

/-- Starting again with every insn that is removed comes to one pass. -/
theorem nopInsns_eq (insns : List Insn) : nopInsns insns = dropRemovable none insns := by
  induction insns using nopInsns.induct with
  | case1 insns insns' h ih =>
    rw [nopInsns, h]
    exact ih.trans (dropRemovable_of_removeFirst h).symm
  | case2 insns h =>
    rw [nopInsns, h]
    exact (dropRemovable_of_none h).symm

section
variable (env : Env)

/-- Executed in this state, the insns that `nop0` takes for no-ops leave it as it is. -/
def IdleInsns : Option Insn → List Insn → State → Prop
  | _, [], _ => True
  | prev, insn :: insns, s =>
    if removable prev insn = true then exec env insn s = s ∧ IdleInsns prev insns s
    else IdleInsns (some insn) insns (exec env insn s)

/-- The insns executed, less some no-ops and register copies that leave the state as it is. -/
inductive Drops : State → List Insn → List Insn → Prop
  | nil {s : State} : Drops s [] []
  | keep {s : State} {l l' : List Insn} (insn : Insn) :
      Drops (exec env insn s) l l' → Drops s (insn :: l) (insn :: l')
  | drop {s : State} {l l' : List Insn} (insn : Insn) :
      insn.op = .nop ∨ (insnCopy insn).isSome = true → exec env insn s = s → Drops s l l' →
        Drops s (insn :: l) l'

end

section
variable {env : Env} {s : State} {l l' l'' : List Insn}

theorem Drops.refl (s : State) (l : List Insn) : Drops env s l l := by
  induction l generalizing s with
  | nil => exact .nil
  | cons insn l ih => exact .keep insn (ih _)

/-- The insns that are left do what all of them do. -/
theorem Drops.execs_eq (h : Drops env s l l') : execs env l' s = execs env l s := by
  induction h with
  | nil => rfl
  | keep insn _ ih => exact ih
  | drop insn _ hidle _ ih => rw [execs_cons, hidle, ih]

theorem Drops.trans (h : Drops env s l l') (h' : Drops env s l' l'') : Drops env s l l'' := by
  induction h generalizing l'' with
  | nil => exact h'
  | keep insn _ ih =>
    cases h' with
    | keep _ h' => exact .keep insn (ih h')
    | drop _ hop hidle h' =>
      rw [hidle] at ih
      exact .drop insn hop hidle (ih h')
  | drop insn hop hidle _ ih => exact .drop insn hop hidle (ih h')

theorem op_of_removable {prev : Option Insn} {insn : Insn} (h : removable prev insn = true) :
    insn.op = .nop ∨ (insnCopy insn).isSome = true := by
  rw [removable, Bool.or_eq_true, beq_iff_eq] at h
  rcases h with h | h
  · exact .inl h
  · cases hcopy : insnCopy insn with
    | none => rw [hcopy] at h; exact absurd h Bool.false_ne_true
    | some c => exact .inr rfl

/-- A pass of `nop0` drops insns that have no effect. -/
theorem drops_dropRemovable : ∀ {prev : Option Insn} {l : List Insn} {s : State},
    IdleInsns env prev l s → Drops env s l (dropRemovable prev l)
  | _, [], _, _ => .nil
  | prev, insn :: l, s, h => by
    rw [IdleInsns] at h
    rw [dropRemovable]
    split_ifs at h ⊢ with hrem
    · exact .drop insn (op_of_removable hrem) h.1 (drops_dropRemovable h.2)
    · exact .keep insn (drops_dropRemovable h)

/-- It leaves nothing to remove. -/
theorem idle_dropRemovable : ∀ {prev : Option Insn} {l : List Insn} {s : State},
    IdleInsns env prev (dropRemovable prev l) s
  | _, [], _ => trivial
  | prev, insn :: l, s => by
    rw [dropRemovable]
    split_ifs with hrem
    · exact idle_dropRemovable
    · rw [IdleInsns, if_neg hrem]
      exact idle_dropRemovable

theorem flow_drops {x x' : Block} (h : Drops env s x.insns x'.insns) :
    flow env x' s = branch env x' (execs env x.insns s) := by
  rw [flow, h.execs_eq]

end

/-! ### Runs -/

section
variable (env : Env) (s₀ : State)

/-- In every block control arrives at, what `nop0` takes for no-ops leaves the state as it is. -/
def Idle (f : Func) : Prop :=
  ∀ path b s, Reach env f s₀ path b s → IdleInsns env none (f.block b).insns s

/-- Control takes the way it took, through the blocks that are left, and executes the insns that are
    left; the others have no effect. -/
structure Threads (f f' : Func) : Prop where
  blocks : f'.blocks ⊆ f.blocks
  drops : ∀ path b s, Reach env f s₀ path b s →
    Drops env s (f.block b).insns (if b ∈ f'.blocks then (f'.block b).insns else [])
  forth : ∀ path b s, Reach env f s₀ path b s → b ∈ f'.blocks →
    Reach env f' s₀ (path.filter fun x => x ∈ f'.blocks) b s
  back : ∀ path' b s, Reach env f' s₀ path' b s →
    b ∈ f'.blocks ∧ ∃ path, Reach env f s₀ path b s ∧ path' = path.filter fun x => x ∈ f'.blocks
  ends : ∀ path b s, Reach env f s₀ path b s →
    (flow env (f.block b) s = none ↔ b ∈ f'.blocks ∧ flow env (f'.block b) s = none)

end

section
variable {env : Env} {s₀ : State} {f f' f'' : Func}

theorem Reach.mem_blocks (hf : f.Listed) {path : List BlockId} {b : BlockId} {s : State}
    (h : Reach env f s₀ path b s) : b ∈ f.blocks := by
  cases h with
  | entry => exact hf.1
  | step _ hgo => exact (hf.2 _ b (branch_mem hgo)).2

theorem Reach.reaches {path : List BlockId} {b : BlockId} {s : State}
    (h : Reach env f s₀ path b s) : f.Reaches b := by
  induction h with
  | entry => exact .refl
  | step _ hgo ih => exact ih.tail (branch_mem hgo)

theorem flags_execs (henv : Testz.FlagsEnv env) : ∀ {l : List Insn} {s : State},
    Testz.Flags s.ccs → Testz.Flags (execs env l s).ccs
  | [], _, h => h
  | _ :: l, _, h => flags_execs (l := l) henv (Testz.flags_exec henv h)

theorem Reach.flags (henv : Testz.FlagsEnv env) (h₀ : Testz.Flags s₀.ccs) {path : List BlockId}
    {b : BlockId} {s : State} (h : Reach env f s₀ path b s) : Testz.Flags s.ccs := by
  induction h with
  | entry => exact h₀
  | step _ _ ih => exact flags_execs henv ih

theorem Threads.trans (h : Threads env s₀ f f') (h' : Threads env s₀ f' f'') :
    Threads env s₀ f f'' := by
  have hfilter : ∀ path : List BlockId, (path.filter fun x => x ∈ f'.blocks).filter
      (fun x => x ∈ f''.blocks) = path.filter fun x => x ∈ f''.blocks := by
    intro path
    rw [List.filter_filter]
    refine List.filter_congr fun x _ => ?_
    rw [← Bool.decide_and]
    exact decide_eq_decide.mpr ⟨And.left, fun hx => ⟨hx, h'.blocks hx⟩⟩
  refine ⟨fun b hb => h.blocks (h'.blocks hb), fun path b s hr => ?_, fun path b s hr hb => ?_,
    fun path'' b s hr'' => ?_, fun path b s hr => ?_⟩
  · have hdrops := h.drops path b s hr
    by_cases hb : b ∈ f'.blocks
    · rw [if_pos hb] at hdrops
      exact hdrops.trans (h'.drops _ b s (h.forth path b s hr hb))
    · rw [if_neg hb] at hdrops
      rwa [if_neg fun hb' => hb (h'.blocks hb')]
  · rw [← hfilter]
    exact h'.forth _ b s (h.forth path b s hr (h'.blocks hb)) hb
  · obtain ⟨hb, path', hr', rfl⟩ := h'.back path'' b s hr''
    obtain ⟨-, path, hr, rfl⟩ := h.back path' b s hr'
    exact ⟨hb, path, hr, hfilter path⟩
  · rw [h.ends path b s hr]
    constructor
    · rintro ⟨hb, hend⟩
      exact (h'.ends _ b s (h.forth path b s hr hb)).mp hend
    · rintro ⟨hb, hend⟩
      have hb' := h'.blocks hb
      exact ⟨hb', (h'.ends _ b s (h.forth path b s hr hb')).mpr ⟨hb, hend⟩⟩

theorem threads_refl (hf : f.Shaped) : Threads env s₀ f f := by
  have hfilter : ∀ path b s, Reach env f s₀ path b s →
      path.filter (fun x => x ∈ f.blocks) = path := by
    intro path b s hr
    induction hr with
    | entry => rfl
    | step hr _ ih =>
      rw [List.filter_cons_of_pos (by simpa using hr.mem_blocks hf.listed), ih]
  refine ⟨List.Subset.refl _, fun path b s hr => ?_, fun path b s hr _ => ?_,
    fun path b s hr => ⟨hr.mem_blocks hf.listed, path, hr, (hfilter path b s hr).symm⟩,
    fun path b s hr => ⟨fun h => ⟨hr.mem_blocks hf.listed, h⟩, And.right⟩⟩
  · rw [if_pos (hr.mem_blocks hf.listed)]
    exact .refl s _
  · rw [hfilter path b s hr]
    exact hr

/-- Step by step: a block that is left drops insns without effect and leads to where control went,
    a block that is not left has no effect and leads to one that is. -/
theorem threads_of_step (hblocks : f'.blocks ⊆ f.blocks) (hentry : f'.entry = f.entry)
    (hmem : f.entry ∈ f'.blocks) (leads : BlockId → BlockId) (hleads : ∀ b ∈ f'.blocks, leads b = b)
    (hkept : ∀ path b s, Reach env f s₀ path b s → b ∈ f'.blocks →
      Drops env s (f.block b).insns (f'.block b).insns ∧
        flow env (f'.block b) s = (flow env (f.block b) s).map leads)
    (hgone : ∀ path b s, Reach env f s₀ path b s → b ∉ f'.blocks →
      Drops env s (f.block b).insns [] ∧ flow env (f.block b) s = some (leads b) ∧
        leads b ∈ f'.blocks) :
    Threads env s₀ f f' := by
  have hforth : ∀ path b s, Reach env f s₀ path b s →
      Reach env f' s₀ (path.filter fun x => x ∈ f'.blocks) (leads b) s := by
    intro path b s hr
    induction hr with
    | entry =>
      rw [hleads _ hmem, ← hentry]
      exact .entry
    | @step path b c s hr hgo ih =>
      by_cases hb : b ∈ f'.blocks
      · obtain ⟨hdrops, hflow⟩ := hkept path b s hr hb
        rw [hleads b hb] at ih
        rw [List.filter_cons_of_pos (by simpa using hb), ← hdrops.execs_eq]
        refine ih.step ?_
        rw [Goes, hflow, show flow env (f.block b) s = some c from hgo, Option.map_some]
      · obtain ⟨hdrops, hflow, hto⟩ := hgone path b s hr hb
        obtain rfl : c = leads b := Option.some.inj (Eq.trans (Eq.symm hgo) hflow)
        rw [List.filter_cons_of_neg (by simpa using hb), ← hdrops.execs_eq, hleads _ hto]
        exact ih
  refine ⟨hblocks, fun path b s hr => ?_, fun path b s hr hb => ?_, fun path' b s hr => ?_,
    fun path b s hr => ?_⟩
  · split_ifs with hb
    · exact (hkept path b s hr hb).1
    · exact (hgone path b s hr hb).1
  · have h := hforth path b s hr
    rwa [hleads b hb] at h
  · induction hr with
    | entry =>
      rw [hentry]
      exact ⟨hmem, [], .entry, rfl⟩
    | @step path' b c s _ hgo ih =>
      obtain ⟨hb, path, hr, rfl⟩ := ih
      obtain ⟨hdrops, hflow⟩ := hkept path b s hr hb
      obtain ⟨d, hd, rfl⟩ := Option.map_eq_some_iff.mp (hflow.symm.trans hgo)
      have hstep : Reach env f s₀ (b :: path) d (execs env (f.block b).insns s) := hr.step hd
      have hpath : (b :: path).filter (fun x => x ∈ f'.blocks) =
          b :: path.filter fun x => x ∈ f'.blocks :=
        List.filter_cons_of_pos (by simpa using hb)
      rw [hdrops.execs_eq]
      by_cases hd' : d ∈ f'.blocks
      · rw [hleads d hd']
        exact ⟨hd', b :: path, hstep, hpath.symm⟩
      · -- the run goes through the block that is gone
        obtain ⟨hdrops', hflow', hto⟩ := hgone _ d _ hstep hd'
        have hskip := hstep.step hflow'
        rw [← hdrops'.execs_eq, execs_nil] at hskip
        refine ⟨hto, d :: b :: path, hskip, ?_⟩
        rw [List.filter_cons_of_neg (by simpa using hd'), hpath]
  · by_cases hb : b ∈ f'.blocks
    · rw [(hkept path b s hr hb).2, Option.map_eq_none_iff]
      exact ⟨fun h => ⟨hb, h⟩, And.right⟩
    · rw [(hgone path b s hr hb).2.1]
      constructor
      · intro h
        cases h
      · intro h
        exact absurd h.1 hb

/-! ### The passes -/

variable (env s₀) in
/-- What the passes need of a function, and keep. -/
structure Threadable (f : Func) : Prop extends f.Shaped where
  idle : Idle env s₀ f

/-- The blocks that are left keep their insns. -/
theorem Threads.idle (h : Threads env s₀ f f') (hidle : Idle env s₀ f)
    (hinsns : ∀ b ∈ f'.blocks, (f'.block b).insns = (f.block b).insns) : Idle env s₀ f' := by
  intro path' b s hr
  obtain ⟨hb, path, hr, -⟩ := h.back path' b s hr
  rw [hinsns b hb]
  exact hidle path b s hr

/-- An empty block is freed. -/
theorem Bypassed.threads {src dst : BlockId} (henv : Testz.FlagsEnv env)
    (h₀ : Testz.Flags s₀.ccs) (hf : f.Shaped) (h : Bypassed src dst f f') :
    Threads env s₀ f f' := by
  have hmem : ∀ b, b ∈ f'.blocks ↔ b ≠ src ∧ b ∈ f.blocks := fun b => by
    rw [h.blocks, hf.nodup.mem_erase_iff]
  refine threads_of_step (fun b hb => ((hmem b).mp hb).2) h.entry
    ((hmem _).mpr ⟨h.notEntry.symm, hf.listed.1⟩) (bypass src dst)
    (fun b hb => if_neg ((hmem b).mp hb).1) (fun path b s hr hb => ?_) fun path b s hr hb => ?_
  · have hne := ((hmem b).mp hb).1
    refine ⟨h.insns b hne ▸ .refl s _, ?_⟩
    rw [flow, flow, h.insns b hne]
    exact h.branch b env _ hne (hf.shape b (hr.mem_blocks hf.listed))
      (flags_execs henv (hr.flags henv h₀))
  · obtain rfl : b = src := by
      by_contra hne
      exact hb ((hmem b).mpr ⟨hne, hr.mem_blocks hf.listed⟩)
    have hto : bypass b dst b = dst := if_pos rfl
    rw [h.empty, hto]
    refine ⟨.nil, h.leads env _, (hmem dst).mpr ⟨h.ne, ?_⟩⟩
    exact (hf.listed.2 b dst (branch_mem (h.leads env s))).2

/-- The loop of `prune` over the blocks of a list. -/
theorem prune_loop (henv : Testz.FlagsEnv env) (h₀ : Testz.Flags s₀.ccs) :
    ∀ (l : List BlockId) (f : Func), l ⊆ f.blocks → l.Nodup → Threadable env s₀ f →
      ∃ n f', (∀ m, n ≤ m → l.foldlM (prune0 m) f = some f') ∧ Threads env s₀ f f' ∧
        Threadable env s₀ f'
  | [], f, _, _, hf =>
    ⟨0, f, fun _ _ => rfl, threads_refl hf.toShaped, hf⟩
  | b :: l, f, hsub, hnd, hf => by
    obtain ⟨hb, hl⟩ := List.cons_subset.mp hsub
    obtain ⟨hbl, hnd⟩ := List.nodup_cons.mp hnd
    obtain ⟨n, g, hprune, hg⟩ := prune0_spec hf.toShaped hb
    obtain ⟨hthreads, hready, hlg⟩ :
        Threads env s₀ f g ∧ Threadable env s₀ g ∧ l ⊆ g.blocks := by
      rcases hg with rfl | ⟨dst, hg⟩
      · exact ⟨threads_refl hf.toShaped, hf, hl⟩
      · have hthreads := hg.threads henv h₀ hf.toShaped
        refine ⟨hthreads, ⟨hg.shaped hf.toShaped, hthreads.idle hf.idle fun c hc => ?_⟩,
          fun c hc => ?_⟩
        · rw [hg.blocks, hf.nodup.mem_erase_iff] at hc
          exact hg.insns c hc.1
        · rw [hg.blocks, hf.nodup.mem_erase_iff]
          refine ⟨?_, hl hc⟩
          rintro rfl
          exact hbl hc
    obtain ⟨n', f', hloop, hthreads', hready'⟩ := prune_loop henv h₀ l g hlg hnd hready
    refine ⟨max n n', f', fun m hm => ?_, hthreads.trans hthreads', hready'⟩
    rw [List.foldlM_cons, hprune m (le_of_max_le_left hm)]
    exact hloop m (le_of_max_le_right hm)

theorem prune_threads (henv : Testz.FlagsEnv env) (h₀ : Testz.Flags s₀.ccs)
    (hf : Threadable env s₀ f) : ∃ n f', (∀ m, n ≤ m → prune m f = some f') ∧
      Threads env s₀ f f' ∧ Threadable env s₀ f' :=
  prune_loop henv h₀ f.blocks f (List.Subset.refl _) hf.nodup hf

/-- `nop0` takes insns without effect out of a block. -/
theorem nop0_threads (hf : Threadable env s₀ f) (b : BlockId) :
    Threads env s₀ f (f.setInsns b (nopInsns (f.block b).insns)) ∧
      Threadable env s₀ (f.setInsns b (nopInsns (f.block b).insns)) := by
  have hthreads : Threads env s₀ f (f.setInsns b (nopInsns (f.block b).insns)) := by
    refine threads_of_step (List.Subset.refl _) rfl hf.listed.1 id (fun _ _ => rfl)
      (fun path x s hr _ => ?_) fun path x s hr hx => absurd (hr.mem_blocks hf.listed) hx
    have hdrops : Drops env s (f.block x).insns
        ((f.setInsns b (nopInsns (f.block b).insns)).block x).insns := by
      rw [Func.insns_setInsns]
      split_ifs with hx
      · subst hx
        rw [nopInsns_eq]
        exact drops_dropRemovable (hf.idle path x s hr)
      · exact .refl s _
    refine ⟨hdrops, ?_⟩
    rw [flow_drops hdrops, Option.map_id]
    exact branch_congr (Func.control_setInsns ..) (Func.succs_setInsns ..)
  refine ⟨hthreads, ⟨⟨listed_setInsns hf.listed, hf.nodup, fun c hc => ?_, fun x hx => ?_⟩,
    fun path x s hr => ?_⟩⟩
  · exact hf.exit c (edge_setInsns.mp hc)
  · exact shape_congr (hf.shape x hx) (Func.control_setInsns ..) (Func.succs_setInsns ..)
  · rw [Func.insns_setInsns]
    split_ifs with hx
    · rw [nopInsns_eq]
      exact idle_dropRemovable
    · obtain ⟨-, path, hr, -⟩ := hthreads.back path x s hr
      exact hf.idle path x s hr

theorem nop_loop : ∀ (l : List BlockId) (st : Func × Bool), Threadable env s₀ st.1 →
    Threads env s₀ st.1 (l.foldl nop0 st).1 ∧ Threadable env s₀ (l.foldl nop0 st).1
  | [], st, hf => ⟨threads_refl hf.toShaped, hf⟩
  | b :: l, st, hf => by
    obtain ⟨hthreads, hready⟩ := nop0_threads hf b
    obtain ⟨hthreads', hready'⟩ := nop_loop l (nop0 st b) hready
    exact ⟨hthreads.trans hthreads', hready'⟩

theorem nop_threads (henv : Testz.FlagsEnv env) (h₀ : Testz.Flags s₀.ccs)
    (hf : Threadable env s₀ f) : ∃ n f', (∀ m, n ≤ m → nop m f = some f') ∧
      Threads env s₀ f f' ∧ Threadable env s₀ f' := by
  obtain ⟨hthreads, hready⟩ := nop_loop f.blocks (f, false) hf
  cases hneed : (f.blocks.foldl nop0 (f, false)).2 with
  | false =>
    refine ⟨0, _, fun m _ => ?_, hthreads, hready⟩
    rw [nop]
    dsimp only
    rw [hneed, if_neg Bool.false_ne_true]
  | true =>
    obtain ⟨n, f', hprune, hthreads', hready'⟩ := prune_threads henv h₀ hready
    refine ⟨n, f', fun m hm => ?_, hthreads.trans hthreads', hready'⟩
    rw [nop]
    dsimp only
    rw [hneed, if_pos rfl]
    exact hprune m hm

/-- A block that is visited stays as it is, and so does the exit block. -/
theorem core_foldl_unreach0 (vis : List BlockId) {b : BlockId} : ∀ (l : List BlockId) (f : Func),
    b = f.exit ∨ b ∈ vis → ((l.foldl (unreach0 vis) f).block b).core = (f.block b).core
  | [], _, _ => rfl
  | c :: l, f, hb => by
    have hexit := (swept_unreach0 vis f c).exit
    rw [List.foldl_cons, core_foldl_unreach0 vis l _ (hexit.symm ▸ hb), unreach0]
    split_ifs with hc
    · refine core_blockFree f ?_
      rintro rfl
      tauto
    · rfl

theorem unreach_threads (hf : Threadable env s₀ f) :
    Threads env s₀ f (unreach f) ∧ Threadable env s₀ (unreach f) := by
  have hmem := fun b => @mem_unreach f hf.listed b
  have hcore : ∀ b ∈ (unreach f).blocks, ((unreach f).block b).insns = (f.block b).insns ∧
      ((unreach f).block b).control = (f.block b).control ∧
      ((unreach f).block b).successors = (f.block b).successors := by
    intro b hb
    have h := core_foldl_unreach0 _ f.blocks f
      (((hmem b).mp hb).2.symm.imp_right (mem_vis hf.listed).mpr)
    simp only [Block.core, Prod.mk.injEq] at h
    exact h
  have hreached : ∀ path b s, Reach env f s₀ path b s → b ∈ (unreach f).blocks :=
    fun path b s hr => (hmem b).mpr ⟨hr.mem_blocks hf.listed, Or.inl hr.reaches⟩
  have hthreads : Threads env s₀ f (unreach f) := by
    refine threads_of_step (fun b hb => ((hmem b).mp hb).1) (swept_unreach f).entry
      (hreached _ _ _ .entry) id (fun _ _ => rfl) (fun path b s _ hb => ?_)
      fun path b s hr hb => absurd (hreached path b s hr) hb
    obtain ⟨hinsns, hctl, hsuccs⟩ := hcore b hb
    refine ⟨hinsns ▸ .refl s _, ?_⟩
    rw [flow, flow, hinsns, Option.map_id]
    exact branch_congr hctl hsuccs
  have hexit : ∀ c, ¬ (unreach f).Edge (unreach f).exit c := fun c hc => by
    rw [(swept_unreach f).exit] at hc
    exact hf.exit c ((edge_unreach_of hf.listed hf.exit).mp hc).1
  have hnodup : (unreach f).blocks.Nodup := List.nodup_iff_count_le_one.mpr fun b => by
    rw [(swept_unreach f).count]
    exact (Nat.sub_le ..).trans (List.nodup_iff_count_le_one.mp hf.nodup b)
  refine ⟨hthreads, ⟨⟨listed_unreach hf.listed hf.exit, hnodup, hexit, fun b hb => ?_⟩,
    hthreads.idle hf.idle fun b hb => (hcore b hb).1⟩⟩
  exact shape_congr (hf.shape b ((hmem b).mp hb).1) (hcore b hb).2.1 (hcore b hb).2.2

end

/-! ### Any number of passes, in any order -/

/-- The passes that thread jumps. -/
inductive OptPass
  | nop
  | prune
  | unreach

def OptPass.run (fuel : Nat) (f : Func) : OptPass → Option Func
  | nop => Ncc.nop fuel f
  | prune => Ncc.prune fuel f
  | unreach => some (Ncc.unreach f)

/-- One pass after the other. -/
def passes (fuel : Nat) (l : List OptPass) (f : Func) : Option Func :=
  l.foldlM (OptPass.run fuel) f

section
variable {env : Env} {s₀ : State} {f : Func}

theorem run_threads (henv : Testz.FlagsEnv env) (h₀ : Testz.Flags s₀.ccs)
    (hf : Threadable env s₀ f) (p : OptPass) : ∃ n f', (∀ m, n ≤ m → p.run m f = some f') ∧
      Threads env s₀ f f' ∧ Threadable env s₀ f' := by
  cases p with
  | nop => exact nop_threads henv h₀ hf
  | prune => exact prune_threads henv h₀ hf
  | unreach => exact ⟨0, unreach f, fun _ _ => rfl, unreach_threads hf⟩

theorem passes_threads (henv : Testz.FlagsEnv env) (h₀ : Testz.Flags s₀.ccs) :
    ∀ (l : List OptPass) (f : Func), Threadable env s₀ f →
      ∃ n f', (∀ m, n ≤ m → passes m l f = some f') ∧ Threads env s₀ f f'
  | [], f, hf => ⟨0, f, fun _ _ => rfl, threads_refl hf.toShaped⟩
  | p :: l, f, hf => by
    obtain ⟨n, g, hrun, hthreads, hready⟩ := run_threads henv h₀ hf p
    obtain ⟨n', f', hrest, hthreads'⟩ := passes_threads henv h₀ l g hready
    refine ⟨max n n', f', fun m hm => ?_, hthreads.trans hthreads'⟩
    rw [passes, List.foldlM_cons, hrun m (le_of_max_le_left hm)]
    exact hrest m (le_of_max_le_right hm)

end

/-- However often the passes run, each of them ends, and the function does what it did: control
    passes through the same blocks but for those that were freed, and the insns executed are the
    same but for no-ops and the copies that `nop` takes for no-ops. -/
theorem passes_thread (env : Env) (henv : Testz.FlagsEnv env) (f : Func) (hf : f.Shaped)
    (s₀ : State) (h₀ : Testz.Flags s₀.ccs) (hidle : Idle env s₀ f) (l : List OptPass) :
    ∃ n f', (∀ m, n ≤ m → passes m l f = some f') ∧ Threads env s₀ f f' :=
  passes_threads henv h₀ l f ⟨hf, hidle⟩

/-- Both arms of a branch lead into a cycle of empty blocks. -/
def cycleFunc : Func := edgesFunc 4 [(0, .z, 1), (0, .nz, 2), (1, .always, 2), (2, .always, 1)]

theorem edgesFunc_exit (n : Nat) (edges : List (BlockId × ConditionCode × BlockId)) :
    (edgesFunc n edges).exit = n - 1 := by
  induction edges using List.reverseRecOn with
  | nil => rfl
  | append_singleton edges e ih => rw [edgesFunc, List.foldl_concat]; exact ih

theorem shaped_edgesFunc {n : Nat} {edges : List (BlockId × ConditionCode × BlockId)}
    (hn : 0 < n) (hlt : ∀ e ∈ edges, e.1 < n - 1 ∧ e.2.2 < n)
    (hshape : ∀ b < n, Shape ((edgesFunc n edges).block b)) : (edgesFunc n edges).Shaped := by
  obtain ⟨-, hblocks⟩ := edgesFunc_entry n edges
  refine ⟨listed_edgesFunc hn fun e he => ⟨(hlt e he).1.trans_le (Nat.sub_le ..), (hlt e he).2⟩, ?_,
    fun c hc => ?_, fun b hb => ?_⟩
  · rw [hblocks]
    exact List.nodup_range
  · rw [edgesFunc_exit] at hc
    obtain ⟨e, he, hexit, -⟩ := (edge_edgesFunc n edges _ c).mp hc
    exact absurd hexit (hlt e he).1.ne
  · rw [hblocks, List.mem_range] at hb
    exact hshape b hb

theorem shaped_cycleFunc : cycleFunc.Shaped := by
  refine shaped_edgesFunc (by decide) (by decide) fun b hb => ?_
  interval_cases b
  · exact .branches rfl ⟨.z, 1, 0, 0⟩ ⟨.nz, 2, 0, 0⟩ rfl rfl rfl
  · exact .jumps rfl ⟨.always, 2, 0, 0⟩ rfl rfl
  · exact .jumps rfl ⟨.always, 1, 0, 0⟩ rfl rfl
  · exact .leaves rfl rfl

theorem passes_thread_cycle : ∃ n f', (∀ m, n ≤ m →
    passes m [.nop, .unreach, .prune, .nop] cycleFunc = some f') ∧
      Threads Testz.zeroEnv { (default : State) with ccs := Testz.zCodes true true } cycleFunc f' := by
  refine passes_thread Testz.zeroEnv Testz.flagsEnv_zeroEnv cycleFunc shaped_cycleFunc _
    (Testz.flags_zCodes true true) (fun path b s hr => ?_) _
  have hinsns : ∀ x, (cycleFunc.block x).insns = [] := fun x => by
    simp [cycleFunc, edgesFunc, blockAddSuccessor]
  rw [hinsns]
  trivial

/-- The insns executed in the blocks of a path (most recent first), other than I_NOPs. -/
def ran (f : Func) (path : List BlockId) : List Insn :=
  path.reverse.flatMap fun b => (f.block b).insns.filter fun insn => insn.op ≠ .nop

/-- `r = (ts) r; if (r == 0)`. -/
def copyFunc (ts : TypeBits) : Func :=
  (edgesFunc 4 [(0, .z, 1), (0, .nz, 2)]).setInsns 0
    [insnNew .move (operandReg ts 1) (operandReg .int 1),
      insnNew .cmp none (operandReg .int 1) (operandI .int 0 none)]

theorem shaped_copyFunc (ts : TypeBits) : (copyFunc ts).Shaped := by
  have hedges : (edgesFunc 4 [(0, .z, 1), (0, .nz, 2)]).Shaped := by
    refine shaped_edgesFunc (by decide) (by decide) fun b hb => ?_
    interval_cases b
    · exact .branches rfl ⟨.z, 1, 0, 0⟩ ⟨.nz, 2, 0, 0⟩ rfl rfl rfl
    · exact .leaves rfl rfl
    · exact .leaves rfl rfl
    · exact .leaves rfl rfl
  exact ⟨listed_setInsns hedges.listed, hedges.nodup, fun c hc => hedges.exit c (edge_setInsns.mp hc),
    fun b hb => shape_congr (hedges.shape b hb) (Func.control_setInsns ..) (Func.succs_setInsns ..)⟩

/-- What `nop` leaves of it. -/
def testFunc (ts : TypeBits) : Func :=
  ((((copyFunc ts).setInsns 0 [insnNew .cmp none (operandReg .int 1) (operandI .int 0 none)]
    ).setInsns 1 []).setInsns 2 []).setInsns 3 []

theorem nop_copyFunc (ts : TypeBits) (m : Nat) : nop m (copyFunc ts) = some (testFunc ts) := by
  have hcopy : nopInsns ((copyFunc ts).block 0).insns =
      [insnNew .cmp none (operandReg .int 1) (operandI .int 0 none)] := by
    rw [nopInsns_eq]
    rfl
  have hnil : nopInsns [] = [] := by
    rw [nopInsns_eq]
    rfl
  have hfold : (copyFunc ts).blocks.foldl nop0 (copyFunc ts, false) = (testFunc ts, true) := by
    show nop0 (nop0 (nop0 (nop0 (copyFunc ts, false) 0) 1) 2) 3 = _
    have h₀ : nop0 (copyFunc ts, false) 0 = ((copyFunc ts).setInsns 0
        [insnNew .cmp none (operandReg .int 1) (operandI .int 0 none)], false) := by
      rw [nop0]
      dsimp only
      rw [hcopy]
      rfl
    have hempty : ∀ (f : Func) (x : Bool) (b : BlockId), (f.block b).insns = [] →
        (f.block b).control = none → nop0 (f, x) b = (f.setInsns b [], true) := by
      intro f x b hinsns hctl
      have hblock : blockEmpty ((f.setInsns b []).block b) = true := by
        rw [blockEmpty, blockSwitchP, Func.insns_setInsns, Func.control_setInsns, if_pos rfl, hctl]
        rfl
      rw [nop0]
      dsimp only
      rw [hinsns, hnil, hblock, Bool.or_true]
    rw [h₀, hempty _ _ 1 rfl rfl, hempty _ _ 2 rfl rfl, hempty _ _ 3 rfl rfl]
    rfl
  have hstay : ∀ b, blockAlwaysSuccessor ((testFunc ts).block b) = none →
      prune0 m (testFunc ts) b = some (testFunc ts) := by
    intro b hb
    rw [prune0, hb]
    split_ifs <;> rfl
  rw [nop, hfold]
  show List.foldlM (prune0 m) (testFunc ts) [0, 1, 2, 3] = _
  rw [List.foldlM_cons, hstay 0 rfl, Option.bind_eq_bind, Option.bind_some, List.foldlM_cons,
    hstay 1 rfl, Option.bind_eq_bind, Option.bind_some, List.foldlM_cons, hstay 2 rfl,
    Option.bind_eq_bind, Option.bind_some, List.foldlM_cons, hstay 3 rfl]
  rfl

/-- 256, which is 0 as a char. -/
def wideState : State :=
  { (default : State) with regs := fun _ => 256, ccs := Testz.zCodes true true }

theorem flow_copyFunc : flow Testz.zeroEnv ((copyFunc .int).block 0) wideState = some 2 ∧
    flow Testz.zeroEnv ((copyFunc .char).block 0) wideState = some 1 := ⟨by decide, by decide⟩

theorem flow_testFunc (ts : TypeBits) :
    flow Testz.zeroEnv ((testFunc ts).block 0) wideState = some 2 := by
  cases ts <;> decide

/-- Control goes from the entry block to block 2. -/
theorem reach_testFunc {ts : TypeBits} {path : List BlockId} {b : BlockId} {s : State}
    (h : Reach Testz.zeroEnv (testFunc ts) wideState path b s) :
    path = [] ∧ b = 0 ∧ s = wideState ∨ path = [0] ∧ b = 2 := by
  induction h with
  | entry => exact .inl ⟨rfl, rfl, rfl⟩
  | @step path b c s _ hgo ih =>
    rcases ih with ⟨rfl, rfl, rfl⟩ | ⟨rfl, rfl⟩
    · exact .inr ⟨rfl, Option.some.inj (hgo.symm.trans (flow_testFunc ts))⟩
    · exact nomatch hgo

/-- The self-copy of an int leaves 256 as it is. -/
theorem idle_copyFunc : Idle Testz.zeroEnv wideState (copyFunc .int) := by
  intro path b s hr
  cases hr with
  | entry =>
    have hcopy : exec Testz.zeroEnv (insnNew .move (operandReg .int 1) (operandReg .int 1))
        wideState = wideState := by
      have hregs : Function.update wideState.regs 1 (fit .int (fit .int 256)) = wideState.regs :=
        Function.update_eq_self_iff.mpr (by decide)
      show ({ wideState with regs := _ } : State) = _
      exact congrArg (fun regs => { wideState with regs := regs }) hregs
    exact ⟨hcopy, trivial⟩
  | @step path c b s _ hgo =>
    have hedge : (copyFunc .int).Edge c b := branch_mem hgo
    obtain ⟨e, he, -, rfl⟩ := (edge_edgesFunc ..).mp (edge_setInsns.mp hedge)
    fin_cases he <;> trivial

/-- A self-copy without effect is an insn that is not executed any more, and one that truncates the
    register decides where control goes. -/
theorem not_passes_exact :
    (¬ ∀ (env : Env) (f : Func) (s₀ : State) (l : List OptPass), Testz.FlagsEnv env → f.Shaped →
      Testz.Flags s₀.ccs → Idle env s₀ f → ∃ n f', (∀ m, n ≤ m → passes m l f = some f') ∧
        ∀ path b s, Reach env f s₀ path b s → b ∈ f'.blocks →
          ∃ path' s', Reach env f' s₀ path' b s' ∧ ran f' path' = ran f path) ∧
    ¬ ∀ (env : Env) (f : Func) (s₀ : State) (l : List OptPass), Testz.FlagsEnv env → f.Shaped →
      Testz.Flags s₀.ccs → ∃ n f', (∀ m, n ≤ m → passes m l f = some f') ∧
        ∀ path b s, Reach env f s₀ path b s → b ∈ f'.blocks →
          ∃ path' s', Reach env f' s₀ path' b s' := by
  have hpasses : ∀ {ts n f'}, (∀ m, n ≤ m → passes m [.nop] (copyFunc ts) = some f') →
      f' = testFunc ts := by
    intro ts n f' h
    have hm := h n le_rfl
    rw [passes, List.foldlM_cons, OptPass.run, nop_copyFunc] at hm
    exact (Option.some.inj hm).symm
  have hstep : ∀ {ts b}, flow Testz.zeroEnv ((copyFunc ts).block 0) wideState = some b →
      Reach Testz.zeroEnv (copyFunc ts) wideState [0] b _ := fun h => Reach.entry.step h
  constructor
  · intro hall
    obtain ⟨n, f', hf', h⟩ := hall Testz.zeroEnv (copyFunc .int) wideState [.nop]
      Testz.flagsEnv_zeroEnv (shaped_copyFunc .int) (Testz.flags_zCodes true true) idle_copyFunc
    obtain rfl := hpasses hf'
    obtain ⟨path', s', hr, hran⟩ := h [0] 2 _ (hstep flow_copyFunc.1) (by decide)
    rcases reach_testFunc hr with ⟨-, hb, -⟩ | ⟨rfl, -⟩
    · exact absurd hb (by decide)
    · revert hran
      decide
  · intro hall
    obtain ⟨n, f', hf', h⟩ := hall Testz.zeroEnv (copyFunc .char) wideState [.nop]
      Testz.flagsEnv_zeroEnv (shaped_copyFunc .char) (Testz.flags_zCodes true true)
    obtain rfl := hpasses hf'
    obtain ⟨path', s', hr⟩ := h [0] 1 _ (hstep flow_copyFunc.2) (by decide)
    rcases reach_testFunc hr with ⟨-, hb, -⟩ | ⟨-, hb⟩
    · exact absurd hb (by decide)
    · exact absurd hb (by decide)

end Ncc
