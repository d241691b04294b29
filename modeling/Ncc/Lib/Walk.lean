import Mathlib

/-! Depth-first walks of a directed graph given by successor lists.

    The walk marks a node visited, calls `pre` on it, walks its successors in order and calls `post`.
    Fuel bounds the depth; as every nested call marks a new node, one more than the number of nodes
    is enough (`walk_visits`). `walk_induct` is the rule for what `pre` and `post` maintain: when
    `pre` runs on a node, it is the root or some successor of a node already visited, and `post` runs
    on visited nodes. -/

namespace Ncc

variable {ν σ : Type*} [DecidableEq ν]

/-- Walk from `b`, threading the visited nodes (most recent first) and a state. -/
def walk1 (succs : ν → List ν) (pre post : ν → σ → σ) : ℕ → ν → List ν × σ → List ν × σ
  | 0, _, x => x
  | n + 1, b, x =>
    if b ∈ x.1 then x
    else
      let y := (succs b).foldl (fun y c => walk1 succs pre post n c y) (b :: x.1, pre b x.2)
      (y.1, post b y.2)

section
variable {succs : ν → List ν} {pre post : ν → σ → σ}

/-- The visited nodes only grow. -/
theorem subset_walk1 : ∀ (n : ℕ) (b : ν) (x : List ν × σ),
    x.1 ⊆ (walk1 succs pre post n b x).1
  | 0, _, _ => List.Subset.refl _
  | n + 1, b, x => by
      unfold walk1
      split
      · exact List.Subset.refl _
      · have hfold : ∀ (l : List ν) (y : List ν × σ),
            y.1 ⊆ (l.foldl (fun y c => walk1 succs pre post n c y) y).1 := by
          intro l
          induction l with
          | nil => exact fun y => List.Subset.refl _
          | cons c l ih => exact fun y => List.Subset.trans (subset_walk1 n c y) (ih _)
        exact List.Subset.trans (List.subset_cons_self ..) (hfold _ (b :: x.1, pre b x.2))

/-- So they do along a list of nodes that are walked. -/
theorem subset_foldl_walk1 {n : ℕ} {l : List ν} {x : List ν × σ} :
    x.1 ⊆ (l.foldl (fun y c => walk1 succs pre post n c y) x).1 := by
  induction l generalizing x with
  | nil => exact List.Subset.refl _
  | cons c l ih => exact List.Subset.trans (subset_walk1 n c x) ih

/-- `b` may be walked next: it is the root, or a successor of a visited node. -/
def Called (succs : ν → List ν) (root : ν) (vis : List ν) (b : ν) : Prop :=
  b = root ∨ ∃ c ∈ vis, b ∈ succs c

/-- What `pre` maintains on fresh nodes that may be walked, and `post` maintains, the walk
    maintains. -/
theorem walk1_induct {root : ν} (P : List ν → σ → Prop)
    (hpre : ∀ vis st b, P vis st → b ∉ vis → Called succs root vis b → P (b :: vis) (pre b st))
    (hpost : ∀ vis st, ∀ b ∈ vis, P vis st → P vis (post b st)) :
    ∀ (n : ℕ) (b : ν) (x : List ν × σ), P x.1 x.2 → Called succs root x.1 b →
      P (walk1 succs pre post n b x).1 (walk1 succs pre post n b x).2
  | 0, _, _, hP, _ => hP
  | n + 1, b, x, hP, hb => by
      unfold walk1
      split
      · exact hP
      · rename_i hfresh
        have hfold : ∀ (l : List ν) (y : List ν × σ), (∀ c ∈ l, c ∈ succs b) → b ∈ y.1 →
            P y.1 y.2 → P (l.foldl (fun y c => walk1 succs pre post n c y) y).1
              (l.foldl (fun y c => walk1 succs pre post n c y) y).2 := by
          intro l
          induction l with
          | nil => exact fun y _ _ hy => hy
          | cons c l ih =>
            intro y hl hby hy
            refine ih _ (fun d hd => hl d (List.mem_cons_of_mem _ hd)) (subset_walk1 n c y hby) ?_
            exact walk1_induct P hpre hpost n c y hy (Or.inr ⟨b, hby, hl c (List.mem_cons_self ..)⟩)
        refine hpost _ _ _ ?_ (hfold _ _ (fun c hc => hc) (List.mem_cons_self ..)
          (hpre _ _ _ hP hfresh hb))
        exact subset_foldl_walk1 (List.mem_cons_self ..)

/-- With enough fuel the walk visits its start, and every successor of a node it adds. -/
theorem walk1_closed {nodes : List ν} (hnodes : ∀ c ∈ nodes, ∀ d ∈ succs c, d ∈ nodes) :
    ∀ (n : ℕ) (b : ν) (x : List ν × σ), b ∈ nodes →
      (nodes.filter (· ∉ x.1)).length < n →
      b ∈ (walk1 succs pre post n b x).1 ∧
        ∀ c ∈ (walk1 succs pre post n b x).1, c ∉ x.1 →
          ∀ d ∈ succs c, d ∈ (walk1 succs pre post n b x).1
  | 0, _, _, _, h => absurd h (Nat.not_lt_zero _)
  | n + 1, b, x, hb, h => by
      unfold walk1
      split
      · rename_i hvis
        exact ⟨hvis, fun c hc hx => absurd hc hx⟩
      · rename_i hfresh
        have hmono : ∀ vis vis' : List ν, vis ⊆ vis' →
            (nodes.filter (· ∉ vis')).length ≤ (nodes.filter (· ∉ vis)).length := by
          intro vis vis' hsub
          refine (List.monotone_filter_right nodes fun c hc => ?_).length_le
          simp only [decide_eq_true_eq] at hc ⊢
          exact fun hc' => hc (hsub hc')
        have hfuel : (nodes.filter (· ∉ b :: x.1)).length < n := by
          have hlt : (nodes.filter (· ∉ b :: x.1)).length < (nodes.filter (· ∉ x.1)).length := by
            have hsplit : nodes.filter (· ∉ b :: x.1) =
                (nodes.filter (· ∉ x.1)).filter (· ≠ b) := by
              rw [List.filter_filter]
              refine List.filter_congr fun c _ => ?_
              simp [not_or]
            rw [hsplit, List.length_filter_lt_length_iff_exists]
            exact ⟨b, List.mem_filter.mpr ⟨hb, by simpa using hfresh⟩, by simp⟩
          omega
        -- what walking a list of successors of `b` adds
        have hfold : ∀ (l : List ν) (y : List ν × σ), (∀ c ∈ l, c ∈ nodes) → b :: x.1 ⊆ y.1 →
            let z := l.foldl (fun y c => walk1 succs pre post n c y) y
            y.1 ⊆ z.1 ∧ (∀ c ∈ l, c ∈ z.1) ∧
              ∀ c ∈ z.1, c ∉ y.1 → ∀ d ∈ succs c, d ∈ z.1 := by
          intro l
          induction l with
          | nil => exact fun y _ _ => ⟨List.Subset.refl _, by simp, fun c hc hy => absurd hc hy⟩
          | cons c l ih =>
            intro y hl hsub
            obtain ⟨hc, hcl⟩ := walk1_closed hnodes n c y (hl c (List.mem_cons_self ..))
              (lt_of_le_of_lt (hmono _ _ hsub) hfuel)
            have hgrow := @subset_walk1 ν σ _ succs pre post n c y
            obtain ⟨hz, hlz, hclz⟩ := ih (walk1 succs pre post n c y)
              (fun d hd => hl d (List.mem_cons_of_mem _ hd)) (List.Subset.trans hsub hgrow)
            refine ⟨List.Subset.trans hgrow hz, ?_, ?_⟩
            · intro d hd
              rcases List.mem_cons.mp hd with rfl | hd
              · exact hz hc
              · exact hlz d hd
            · intro d hd hdy e he
              by_cases hdw : d ∈ (walk1 succs pre post n c y).1
              · exact hz (hcl d hdw hdy e he)
              · exact hclz d hd hdw e he
        obtain ⟨hz, hall, hcl⟩ := hfold (succs b) (b :: x.1, pre b x.2) (hnodes b hb)
          (List.Subset.refl _)
        refine ⟨hz (List.mem_cons_self ..), fun c hc hx d hd => ?_⟩
        by_cases hcb : c = b
        · subst hcb; exact hall d hd
        · exact hcl c hc (by simp [hcb, hx]) d hd

/-- The walk of a whole graph from its root. -/
def walk (succs : ν → List ν) (pre post : ν → σ → σ) (nodes : List ν) (root : ν) (st : σ) :
    List ν × σ :=
  walk1 succs pre post (nodes.length + 1) root ([], st)

theorem walk_induct {nodes : List ν} {root : ν} {st : σ} (P : List ν → σ → Prop) (h₀ : P [] st)
    (hpre : ∀ vis st b, P vis st → b ∉ vis → Called succs root vis b → P (b :: vis) (pre b st))
    (hpost : ∀ vis st, ∀ b ∈ vis, P vis st → P vis (post b st)) :
    P (walk succs pre post nodes root st).1 (walk succs pre post nodes root st).2 :=
  walk1_induct P hpre hpost _ _ _ h₀ (Or.inl rfl)

/-- The root is posted last. -/
theorem walk_root {nodes : List ν} {root : ν} {st : σ} :
    (walk succs pre post nodes root st).2 = post root ((succs root).foldl
      (fun y c => walk1 succs pre post nodes.length c y) ([root], pre root st)).2 := by
  rw [walk, walk1, if_neg List.not_mem_nil]

/-- Every node that can be reached from the root is visited. -/
theorem walk_visits {nodes : List ν} {root : ν} {st : σ} (hroot : root ∈ nodes)
    (hnodes : ∀ c ∈ nodes, ∀ d ∈ succs c, d ∈ nodes) {b : ν}
    (h : Relation.ReflTransGen (fun c d => d ∈ succs c) root b) :
    b ∈ (walk succs pre post nodes root st).1 := by
  obtain ⟨hvis, hcl⟩ := @walk1_closed ν σ _ succs pre post nodes hnodes (nodes.length + 1) root
    ([], st) hroot (Nat.lt_succ_of_le (List.length_filter_le _ _))
  induction h with
  | refl => exact hvis
  | tail _ hstep ih => exact hcl _ ih (by simp) _ hstep

end

end Ncc
