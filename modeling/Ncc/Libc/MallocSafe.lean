import Ncc.Libc.Malloc

/-! The allocator hands out good memory from an aligned break.

    `Inv` says what `malloc` and `free` maintain: the regions carved so far are disjoint and end below
    `lim`, and each is in use, on the free list of its bucket, or lost. `carve` is the step of the loop
    of `refill`, `take_spec` the end of `malloc`. -/

namespace Ncc.Libc

/-! ### Sizes -/

theorem toNat_bucketToSize {k : Nat} (hk : k < nrBuckets) : (bucketToSize k).toNat = 2 ^ (k + 5) := by
  have hlt : 2 ^ (k + 5) < 2 ^ 64 := Nat.pow_lt_pow_right (by decide) (by
    simp only [nrBuckets, log2Largest, log2Smallest] at hk
    omega)
  rw [bucketToSize, BitVec.toNat_shiftLeft, Nat.shiftLeft_eq, show (1 : Word).toNat = 1 from rfl,
    log2Smallest, one_mul, Nat.mod_eq_of_lt hlt]

theorem sbrk_zero (h : Heap) (grant : Bool) : (sbrk h grant 0).2 = h.brk := by simp [sbrk]

/-- What `refill` carves: whole pages, at most the largest region. -/
theorem refillCount_spec : ∀ k < nrBuckets, 1 ≤ (refillCount k).toNat ∧
    (refillCount k).toInt.toNat = (refillCount k).toNat ∧
    (refillCount k).toNat * (bucketToSize k).toNat % 4096 = 0 ∧
    (refillCount k).toNat * (bucketToSize k).toNat ≤ 2 ^ 30 ∧ 32 ≤ (bucketToSize k).toNat ∧
    (bucketToSize k).toNat % 8 = 0 ∧ (refillCount k).toNat < 2 ^ 31 ∧ refillCount k ≠ 0 := by
  decide

/-- What `refill` asks for: the rest of the page, and what it carves. -/
theorem refillAlloc_spec (brk : Word) {k : Nat} (hk : k < nrBuckets) : ∃ pad : Nat,
    (brk.toNat + pad) % 4096 = 0 ∧ pad < 4096 ∧
    (refillAlloc brk k).toInt = pad + (refillCount k).toNat * (bucketToSize k).toNat := by
  obtain ⟨-, -, -, hle, -, -, hlt, -⟩ := refillCount_spec k hk
  have hpad : (roundUp brk pageSize - brk).toNat = (4096 - brk.toNat % 4096) % 4096 := by
    have hb := brk.isLt
    have hpage : (4096 : Word).toNat = 4096 := rfl
    have hone : (4096 - 1 : Word).toNat = 4095 := rfl
    simp only [roundUp, pageSize, BitVec.toNat_sub, BitVec.toNat_mul, BitVec.toNat_udiv,
      BitVec.toNat_add, hpage, hone]
    omega
  refine ⟨(4096 - brk.toNat % 4096) % 4096, by omega, by omega, ?_⟩
  have h₁ : (((roundUp brk pageSize - brk).setWidth 32).signExtend 64).toNat =
      (4096 - brk.toNat % 4096) % 4096 := by
    rw [BitVec.signExtend_eq_setWidth_of_msb_false, BitVec.toNat_setWidth, BitVec.toNat_setWidth, hpad]
    · omega
    · rw [BitVec.msb_eq_false_iff_two_mul_lt, BitVec.toNat_setWidth, hpad]
      omega
  have h₂ : ((refillCount k).signExtend 64).toNat = (refillCount k).toNat := by
    rw [BitVec.signExtend_eq_setWidth_of_msb_false, BitVec.toNat_setWidth]
    · omega
    · rw [BitVec.msb_eq_false_iff_two_mul_lt]
      omega
  have hsum : (refillAlloc brk k).toNat = (4096 - brk.toNat % 4096) % 4096 +
      (refillCount k).toNat * (bucketToSize k).toNat := by
    simp only [refillAlloc, BitVec.toNat_setWidth, BitVec.toNat_add, BitVec.toNat_mul, h₁, h₂]
    omega
  rw [BitVec.toInt_eq_toNat_of_lt (by omega), hsum]
  push_cast
  rfl

/-! ### The invariant -/

/-- The header of a region reads the same in both memories. -/
def Region.SameHeader (m m' : Mem) (r : Region) : Prop := ∀ (x : Word) (j : Nat),
  r.base.toNat ≤ x.toNat → x.toNat + j ≤ r.base.toNat + 8 → loadWord m' x j = loadWord m x j

/-- The block is in use in a region of bucket `k`, and the header of the region says so. -/
structure Held (m : Mem) (carved : List Region) (b : Block) (k : Nat) : Prop where
  mem : ⟨b.ptr - offsetofData, k⟩ ∈ carved
  fits : b.bytes.toNat + 8 ≤ (bucketToSize k).toNat
  magic : loadWord m (b.ptr - offsetofData) 4 = regionMagic
  bucket : loadWord m (b.ptr - offsetofData + offsetofBucket) 4 = BitVec.ofNat 64 k

/-- The regions carved so far, the free lists and the blocks in use. -/
structure Inv (h : Heap) (live : List Block) (lim : Nat) (carved : List Region)
    (free : Nat → List Word) : Prop where
  low : h.start.toNat ≤ lim
  high : lim ≤ h.brk.toNat
  aligned : lim % 8 = 0
  within : ∀ r ∈ carved, r.bucket < nrBuckets ∧ h.start.toNat ≤ r.base.toNat ∧ r.stop ≤ lim ∧
    r.base.toNat % 8 = 0
  apart : carved.Pairwise Region.Apart
  lists : ∀ k, Chain 0 h.next (h.buckets k) (free k)
  freed : ∀ k, ∀ a ∈ free k, ⟨a, k⟩ ∈ carved
  held : ∀ b ∈ live, ∃ k, Held h.mem carved b k
  distinct : (live.map (·.ptr)).Nodup
  idle : ∀ b ∈ live, ∀ k, b.ptr - offsetofData ∉ free k

theorem Region.SameHeader.trans {m m' m'' : Mem} {r : Region} (h : r.SameHeader m m')
    (h' : r.SameHeader m' m'') : r.SameHeader m m'' :=
  fun x j hx hj => (h' x j hx hj).trans (h x j hx hj)

instance : Std.Symm Region.Apart := ⟨fun _ _ => Or.symm⟩

theorem Held.mono {m m' : Mem} {carved carved' : List Region} {b : Block} {k : Nat}
    (hb : Held m carved b k) (hsub : carved ⊆ carved')
    (hm : Region.SameHeader m m' ⟨b.ptr - offsetofData, k⟩)
    (hroom : (b.ptr - offsetofData).toNat + 8 < 2 ^ 64) : Held m' carved' b k := by
  have hoff : (b.ptr - offsetofData + offsetofBucket).toNat = (b.ptr - offsetofData).toNat + 4 :=
    toNat_add_of_le (n := 4) (by omega)
  refine ⟨hsub hb.mem, hb.fits, ?_, ?_⟩
  · rw [hm _ _ le_rfl (by simp), hb.magic]
  · rw [hm _ _ (by simp [hoff]) (by simp only; omega), hb.bucket]

section
variable {h : Heap} {live : List Block} {lim : Nat} {carved : List Region} {free : Nat → List Word}

namespace Inv

/-- Where a carved region lies. -/
theorem bounds (hi : Inv h live lim carved free) {r : Region} (hr : r ∈ carved) :
    32 ≤ r.size ∧ h.start.toNat ≤ r.base.toNat ∧ r.base.toNat + r.size ≤ h.brk.toNat ∧
      h.brk.toNat < 2 ^ 64 := by
  obtain ⟨hk, hlo, hhi, -⟩ := hi.within r hr
  obtain ⟨-, -, -, -, hsize, -⟩ := refillCount_spec r.bucket hk
  exact ⟨hsize, hlo, hhi.trans hi.high, h.brk.isLt⟩

theorem mapped (hi : Inv h live lim carved free) {r : Region} (hr : r ∈ carved) {a : Word} {n : Nat}
    (hlo : r.base.toNat ≤ a.toNat) (hhi : a.toNat + n ≤ r.stop) : h.Mapped a n := by
  obtain ⟨-, hl, hh, -⟩ := hi.bounds hr
  exact ⟨hl.trans hlo, hhi.trans hh⟩

/-- Two regions at one address are the same. -/
theorem eq_of_base (hi : Inv h live lim carved free) {r r' : Region} (hr : r ∈ carved)
    (hr' : r' ∈ carved) (hb : r.base = r'.base) : r = r' := by
  by_contra hne
  have ha := hi.apart.forall hr hr' hne
  obtain ⟨hs, -⟩ := hi.bounds hr
  obtain ⟨hs', -⟩ := hi.bounds hr'
  simp only [Region.Apart, Region.stop, hb] at ha
  omega

/-- A store in a region leaves the headers of the others. -/
theorem sameHeader_store (hi : Inv h live lim carved free) {q r : Region} (hq : q ∈ carved)
    (hr : r ∈ carved) {m : Mem} {a w : Word} {n : Nat} (hlo : q.base.toNat ≤ a.toNat)
    (hhi : a.toNat + n ≤ q.stop) (hne : r ≠ q ∨ q.base.toNat + 8 ≤ a.toNat) :
    r.SameHeader m (storeWord m a n w) := by
  intro x j hx hj
  obtain ⟨hs, -, hb, hlt⟩ := hi.bounds hq
  obtain ⟨hs', -, hb', -⟩ := hi.bounds hr
  unfold Region.stop at hhi
  refine loadWord_storeWord_apart (by omega) (by omega) ?_
  by_cases heq : r = q
  · subst heq
    have hdata := hne.resolve_left fun hn => hn rfl
    omega
  · have ha := hi.apart.forall hr hq heq
    unfold Region.Apart Region.stop at ha
    omega

end Inv

/-! ### Carving -/

/-- The first region of the bucket may be handed out; `l` is the rest of the free list. -/
structure Ready (h : Heap) (live : List Block) (carved : List Region) (k : Nat) (l : List Word) :
    Prop where
  mem : ⟨h.buckets k, k⟩ ∈ carved
  rest : Chain 0 h.next (h.next (h.buckets k)) l
  freed : ∀ a ∈ l, ⟨a, k⟩ ∈ carved
  unused : ∀ b ∈ live, b.ptr - offsetofData ≠ h.buckets k ∧ b.ptr - offsetofData ∉ l
  fresh : h.buckets k ∉ l

/-- The free lists after one of them has changed. -/
theorem lists_setBucket {k : Nat} {r : Word} {l : List Word} (hr : Chain 0 h.next r l)
    (hothers : ∀ j ≠ k, Chain 0 h.next (h.buckets j) (free j)) (j : Nat) :
    Chain 0 (h.setBucket k r).next ((h.setBucket k r).buckets j) (Function.update free k l j) := by
  by_cases hj : j = k
  · subst hj
    simp only [Heap.setBucket, Function.update_self]
    exact hr
  · simp only [Heap.setBucket, Function.update_of_ne hj]
    exact hothers j hj

theorem forall_update {P : Nat → Word → Prop} {k : Nat} {l : List Word} (hl : ∀ a ∈ l, P k a)
    (hothers : ∀ j ≠ k, ∀ a ∈ free j, P j a) (j : Nat) :
    ∀ a ∈ Function.update free k l j, P j a := by
  by_cases hj : j = k
  · subst hj
    rwa [Function.update_self]
  · rw [Function.update_of_ne hj]
    exact hothers j hj

/-- What the list of a region that is pushed holds. -/
theorem mem_push {a r : Word} {l : List Word} (h : a ∈ if r = 0 then [] else r :: l) :
    a = r ∨ a ∈ l := by
  split at h
  · cases h
  · exact List.mem_cons.mp h

/-- Nothing was carved at or above `lim`. -/
theorem Inv.uncarved (hi : Inv h live lim carved free) {new : Word} (hnew : lim ≤ new.toNat)
    (k : Nat) : ⟨new, k⟩ ∉ carved := by
  intro hk
  obtain ⟨hs, -⟩ := hi.bounds hk
  obtain ⟨-, -, hstop, -⟩ := hi.within _ hk
  simp only [Region.stop] at hstop
  omega

/-- One turn of the loop of `refill`: the region at `new` joins the bucket. -/
theorem carve (hi : Inv h live lim carved free) {new : Word} {k : Nat} (hk : k < nrBuckets)
    (hnew : new.toNat = lim) (hroom : lim + (bucketToSize k).toNat ≤ h.brk.toNat) :
    ∃ h', h.store new 8 (h.buckets k) = some h' ∧ h'.start = h.start ∧ h'.brk = h.brk ∧
      Inv (h'.setBucket k new) live (lim + (bucketToSize k).toNat) (⟨new, k⟩ :: carved)
        (Function.update free k (if new = 0 then [] else new :: free k)) ∧
      Ready (h'.setBucket k new) live (⟨new, k⟩ :: carved) k (free k) := by
  obtain ⟨-, -, -, -, hsize, halign, -⟩ := refillCount_spec k hk
  have hlt := h.brk.isLt
  have hlow := hi.low
  have hmapped : h.Mapped new 8 := ⟨by omega, by omega⟩
  have hfresh : ∀ j, ⟨new, j⟩ ∉ carved := hi.uncarved hnew.ge
  have hhdr : ∀ r ∈ carved, r.SameHeader h.mem (storeWord h.mem new 8 (h.buckets k)) := by
    intro r hr x j hx hj
    obtain ⟨hs, -, hb, -⟩ := hi.bounds hr
    obtain ⟨-, -, hstop, -⟩ := hi.within r hr
    unfold Region.stop at hstop
    exact loadWord_storeWord_apart (by omega) (by omega) (.inr (by omega))
  let h' : Heap := { h with mem := storeWord h.mem new 8 (h.buckets k) }
  have hlists : ∀ j, Chain 0 h'.next (h'.buckets j) (free j) :=
    fun j => (hi.lists j).congr fun a ha => hhdr _ (hi.freed j a ha) a 8 le_rfl le_rfl
  have hnext : h'.next new = h.buckets k := loadWord_storeWord_long ..
  have hunused : ∀ b ∈ live, b.ptr - offsetofData ≠ new := by
    intro b hb he
    obtain ⟨j, hj⟩ := hi.held b hb
    exact hfresh j (he ▸ hj.mem)
  refine ⟨h', if_pos hmapped, rfl, rfl, ?_, ?_⟩
  · refine ⟨hlow.trans (Nat.le_add_right ..), hroom, by have := hi.aligned; omega, ?_, ?_, ?_, ?_, ?_,
      hi.distinct, ?_⟩
    · intro r hr
      rcases List.mem_cons.mp hr with rfl | hr
      · exact ⟨hk, hnew ▸ hlow, by simp only [Region.stop, Region.size, hnew, le_refl],
          hnew ▸ hi.aligned⟩
      · obtain ⟨h₁, h₂, h₃, h₄⟩ := hi.within r hr
        exact ⟨h₁, h₂, by omega, h₄⟩
    · refine List.pairwise_cons.mpr ⟨fun r hr => .inr ?_, hi.apart⟩
      rw [hnew]
      exact (hi.within r hr).2.2.1
    · exact lists_setBucket (.push (hnext.symm ▸ hlists k)) fun j _ => hlists j
    · refine forall_update (fun a ha => ?_) fun j _ a ha => List.mem_cons_of_mem _ (hi.freed j a ha)
      rcases mem_push ha with rfl | ha
      · exact List.mem_cons_self ..
      · exact List.mem_cons_of_mem _ (hi.freed k a ha)
    · intro b hb
      obtain ⟨j, hj⟩ := hi.held b hb
      obtain ⟨hs, -, hbrk, -⟩ := hi.bounds hj.mem
      exact ⟨j, hj.mono (List.subset_cons_self ..) (hhdr _ hj.mem) (by simp only at hbrk; omega)⟩
    · intro b hb j hmem
      refine @forall_update free (fun _ a => b.ptr - offsetofData ≠ a) k _ (fun a ha => ?_)
        (fun j _ a ha he => hi.idle b hb j (he ▸ ha)) j _ hmem rfl
      rcases mem_push ha with rfl | ha
      · exact hunused b hb
      · exact fun he => hi.idle b hb k (he ▸ ha)
  · have hself : (h'.setBucket k new).buckets k = new := Function.update_self ..
    refine ⟨?_, ?_, fun a ha => List.mem_cons_of_mem _ (hi.freed k a ha), ?_, ?_⟩
    · rw [hself]
      exact List.mem_cons_self ..
    · rw [hself]
      exact hnext.symm ▸ hlists k
    · rw [hself]
      exact fun b hb => ⟨hunused b hb, hi.idle b hb k⟩
    · rw [hself]
      exact fun ha => hfresh k (hi.freed k new ha)

/-- The loop of `refill`. -/
theorem refillLoop_spec {k : Nat} (hk : k < nrBuckets) : ∀ (i : Nat) {h : Heap} {new : Word}
    {lim : Nat} {carved : List Region} {free : Nat → List Word}, Inv h live lim carved free →
    new.toNat = lim → lim + i * (bucketToSize k).toNat ≤ h.brk.toNat →
    ∃ h' carved' free', refillLoop k (bucketToSize k) i h new = some h' ∧ h'.start = h.start ∧
      h'.brk = h.brk ∧ Inv h' live (lim + i * (bucketToSize k).toNat) carved' free' ∧
      (i ≠ 0 ∨ (∃ l, Ready h live carved k l) → ∃ l, Ready h' live carved' k l) := by
  intro i
  induction i with
  | zero =>
    intro h new lim carved free hi _ _
    exact ⟨h, carved, free, rfl, rfl, rfl, by simpa using hi, fun hr => hr.resolve_left (by simp)⟩
  | succ i ih =>
    intro h new lim carved free hi hnew hroom
    have hlt := h.brk.isLt
    rw [Nat.succ_mul] at hroom
    obtain ⟨h₁, hstore, hstart₁, hbrk₁, hi₁, hready⟩ := carve hi hk hnew (by omega)
    have hnew₁ : (new + bucketToSize k).toNat = lim + (bucketToSize k).toNat := by
      rw [BitVec.toNat_add]
      omega
    obtain ⟨h₂, carved₂, free₂, hloop, hstart₂, hbrk₂, hi₂, hready₂⟩ := ih hi₁ hnew₁ (by
      simp only [Heap.setBucket, hbrk₁]
      omega)
    refine ⟨h₂, carved₂, free₂, ?_, hstart₂.trans hstart₁, hbrk₂.trans hbrk₁, ?_,
      fun _ => hready₂ (.inr ⟨_, hready⟩)⟩
    · rw [refillLoop, hstore]
      exact hloop
    · rw [Nat.succ_mul, Nat.add_comm (i * _), ← Nat.add_assoc]
      exact hi₂

/-- More room below the break changes nothing. -/
theorem Inv.grow (hi : Inv h live lim carved free) {brk : Word} (hbrk : h.brk.toNat ≤ brk.toNat) :
    Inv { h with brk := brk } live lim carved free :=
  { hi with high := hi.high.trans hbrk }

/-- The regions end below a higher limit too. -/
theorem Inv.raise (hi : Inv h live lim carved free) {lim' : Nat} (hle : lim ≤ lim')
    (hhigh : lim' ≤ h.brk.toNat) (halign : lim' % 8 = 0) : Inv h live lim' carved free :=
  { hi with
    low := hi.low.trans hle
    high := hhigh
    aligned := halign
    within := fun r hr => by
      obtain ⟨h₁, h₂, h₃, h₄⟩ := hi.within r hr
      exact ⟨h₁, h₂, h₃.trans hle, h₄⟩ }

/-- `refill` adds regions to the bucket, or the system grants nothing. -/
theorem refill_spec (hi : Inv h live h.brk.toNat carved free) (grant : Bool) {k : Nat}
    (hk : k < nrBuckets) : ∃ h' n carved' free', refill h grant k = some (h', n) ∧
      h'.start = h.start ∧ Inv h' live h'.brk.toNat carved' free' ∧
      (n ≠ 0 → ∃ l, Ready h' live carved' k l) := by
  obtain ⟨hpos, hint, hpages, -, hsize, -, -, hne⟩ := refillCount_spec k hk
  obtain ⟨pad, hround, -, halloc⟩ := refillAlloc_spec h.brk hk
  have hinc : (refillAlloc h.brk k).toInt ≠ 0 := by
    have : 0 < (refillCount k).toNat * (bucketToSize k).toNat := Nat.mul_pos hpos (by omega)
    omega
  unfold refill
  dsimp only
  rw [sbrk_zero]
  by_cases hgrant : grant ∧ 0 ≤ (h.brk.toNat : Int) + (refillAlloc h.brk k).toInt ∧
      (h.brk.toNat : Int) + (refillAlloc h.brk k).toInt < 2 ^ 64
  · have hroom := hgrant.2.2
    rw [halloc] at hroom
    have hbrk : (BitVec.ofInt 64 (h.brk.toNat + (refillAlloc h.brk k).toInt) : Word).toNat =
        h.brk.toNat + pad + (refillCount k).toNat * (bucketToSize k).toNat := by
      rw [BitVec.toNat_ofInt, halloc]
      omega
    have hle : h.brk.toNat ≤ h.brk.toNat + pad + (refillCount k).toNat * (bucketToSize k).toNat := by
      omega
    have hnew : h.brk ≠ -1 := by
      intro he
      have hmax : h.brk.toNat = 2 ^ 64 - 1 := by rw [he]; rfl
      have : 0 < (refillCount k).toNat * (bucketToSize k).toNat := Nat.mul_pos hpos (by omega)
      omega
    rw [sbrk, if_neg hinc, if_pos hgrant]
    dsimp only
    rw [if_neg hnew, hint]
    obtain ⟨h', carved', free', hloop, hstart, hbrk', hi', hready⟩ :=
      refillLoop_spec hk (refillCount k).toNat (hi.grow (hle.trans hbrk.ge)) rfl (by
        dsimp only
        omega)
    refine ⟨h', refillCount k, carved', free', ?_, hstart, ?_, fun _ => hready (.inl (by omega))⟩
    · rw [hloop]
      rfl
    · rw [hbrk', hbrk]
      refine hi'.raise (by omega) (by rw [hbrk', hbrk]) ?_
      omega
  · rw [sbrk, if_neg hinc, if_neg hgrant]
    exact ⟨h, 0, carved, free, rfl, rfl, hi, fun h0 => absurd rfl h0⟩

/-! ### The calls -/

/-- A region in use keeps its block when another region's header, or data, is written. -/
theorem Held.store (hi : Inv h live lim carved free) {b : Block} {k : Nat}
    (hb : Held h.mem carved b k) {m : Mem}
    (hm : Region.SameHeader h.mem m ⟨b.ptr - offsetofData, k⟩) : Held m carved b k := by
  obtain ⟨hs, -, hbrk, hlt⟩ := hi.bounds hb.mem
  exact hb.mono (List.Subset.refl _) hm (by simp only at hbrk; omega)

/-- Handing out the first region of the bucket. -/
theorem take_spec (hi : Inv h live lim carved free) {k : Nat} {l : List Word}
    (hr : Ready h live carved k l) {bytes : Word}
    (hfits : bytes.toNat + 8 ≤ (bucketToSize k).toNat) :
    ∃ h' r, take h k = some (h', r + offsetofData) ∧ h'.start = h.start ∧ h'.brk = h.brk ∧
      r + offsetofData ≠ 0 ∧
      Inv h' (⟨r + offsetofData, bytes⟩ :: live) lim carved (Function.update free k l) := by
  obtain ⟨hmem, hrest, hfreed, hunused, hfresh⟩ := hr
  generalize hrk : h.buckets k = r at hmem hrest hunused hfresh
  obtain ⟨hs, -, hbrk, hlt⟩ := hi.bounds hmem
  obtain ⟨hk, -⟩ := hi.within _ hmem
  dsimp only at hbrk hk
  let m₁ := storeWord h.mem (r + offsetofBucket) 4 (BitVec.ofNat 64 k)
  let m₂ := storeWord m₁ r 4 regionMagic
  have hoff : (r + offsetofBucket).toNat = r.toNat + 4 := toNat_add_of_le (n := 4) (by omega)
  have hdata : (r + offsetofData).toNat = r.toNat + 8 := toNat_add_of_le (n := 8) (by omega)
  have hbase : r + offsetofData - offsetofData = r := BitVec.add_sub_cancel ..
  have hhdr : ∀ q ∈ carved, q ≠ ⟨r, k⟩ → q.SameHeader h.mem m₂ := by
    intro q hq hne
    have h₁ : q.SameHeader h.mem m₁ :=
      hi.sameHeader_store hmem hq (by simp only; omega) (by simp only [Region.stop]; omega) (.inl hne)
    exact h₁.trans
      (hi.sameHeader_store hmem hq le_rfl (by simp only [Region.stop]; omega) (.inl hne))
  have hne : ∀ {j : Nat} {a : Word}, a ≠ r → (⟨a, j⟩ : Region) ≠ ⟨r, k⟩ :=
    fun ha he => ha (congrArg Region.base he)
  have hnotfree : ∀ j ≠ k, r ∉ free j := by
    intro j hj ha
    exact hj (congrArg Region.bucket (hi.eq_of_base (hi.freed j r ha) hmem rfl))
  let h' : Heap := { h with mem := m₂ }
  refine ⟨h'.setBucket k (h.next r), r, ?_, rfl, rfl, ?_, ?_⟩
  · have hmapped : ∀ (a : Word) (n : Nat), r.toNat ≤ a.toNat → a.toNat + n ≤ r.toNat + 8 →
        h.Mapped a n :=
      fun a n hlo hhi => hi.mapped hmem hlo (by simp only [Region.stop]; omega)
    have hload : h.load r 8 = some (h.next r) := if_pos (hmapped r 8 le_rfl le_rfl)
    have hstore₁ : (h.setBucket k (h.next r)).store (r + offsetofBucket) 4 (BitVec.ofNat 64 k) =
        some { h.setBucket k (h.next r) with mem := m₁ } :=
      if_pos (hmapped _ 4 (by omega) (by omega))
    have hstore₂ : Heap.store { h.setBucket k (h.next r) with mem := m₁ } r 4 regionMagic =
        some (h'.setBucket k (h.next r)) :=
      if_pos (hmapped r 4 le_rfl (by omega))
    simp only [take, hrk, hload, hstore₁, hstore₂, Option.bind_eq_bind, Option.bind_some,
      Option.pure_def]
  · intro h0
    rw [h0] at hdata
    simp at hdata
  · have hlists : ∀ j ≠ k, Chain 0 h'.next (h'.buckets j) (free j) := by
      intro j hj
      refine (hi.lists j).congr fun a ha => ?_
      have har : a ≠ r := fun he => hnotfree j hj (he ▸ ha)
      exact hhdr _ (hi.freed j a ha) (hne har) a 8 le_rfl le_rfl
    have hchain : Chain 0 h'.next (h.next r) l := by
      refine hrest.congr fun a ha => ?_
      have har : a ≠ r := fun he => hfresh (he ▸ ha)
      exact hhdr _ (hfreed a ha) (hne har) a 8 le_rfl le_rfl
    refine ⟨hi.low, hi.high, hi.aligned, hi.within, hi.apart, lists_setBucket hchain hlists,
      forall_update hfreed fun j _ => hi.freed j, ?_, ?_, ?_⟩
    · intro b hb
      rcases List.mem_cons.mp hb with rfl | hb
      · refine ⟨k, by rwa [hbase], hfits, ?_, ?_⟩
        · rw [hbase]
          exact loadWord_storeWord_int _ _ (by decide)
        · have hword : (BitVec.ofNat 64 k).toNat = k := by
            rw [BitVec.toNat_ofNat]
            exact Nat.mod_eq_of_lt (hk.trans (by decide))
          have hint : k < 2 ^ 32 := hk.trans (by decide)
          have hkeep : loadWord m₂ (r + offsetofBucket) 4 = loadWord m₁ (r + offsetofBucket) 4 :=
            loadWord_storeWord_apart (by omega) (by omega) (.inl (by omega))
          rw [hbase]
          exact hkeep.trans (loadWord_storeWord_int _ _ (by omega))
      · obtain ⟨j, hj⟩ := hi.held b hb
        exact ⟨j, hj.store hi (hhdr _ hj.mem (hne (hunused b hb).1))⟩
    · refine List.nodup_cons.mpr ⟨fun hp => ?_, hi.distinct⟩
      obtain ⟨b, hb, hbp⟩ := List.mem_map.mp hp
      dsimp only at hbp
      exact (hunused b hb).1 (by rw [hbp, hbase])
    · intro b hb j hfree
      refine @forall_update free (fun _ a => b.ptr - offsetofData ≠ a) k l ?_ ?_ j _ hfree rfl
      · rcases List.mem_cons.mp hb with rfl | hb
        · rw [hbase]
          exact fun a ha he => hfresh (he ▸ ha)
        · exact fun a ha he => (hunused b hb).2 (he ▸ ha)
      · rcases List.mem_cons.mp hb with rfl | hb
        · rw [hbase]
          exact fun j hj a ha he => hnotfree j hj (he ▸ ha)
        · exact fun j _ a ha he => hi.idle b hb j (he ▸ ha)

/-- A bucket that is not empty has a region to hand out. -/
theorem Inv.ready (hi : Inv h live lim carved free) {k : Nat} (hk : h.buckets k ≠ 0) :
    ∃ l, Ready h live carved k l := by
  obtain ⟨l, hl, hrest⟩ := (hi.lists k).pop hk
  have hnodup := (hi.lists k).nodup
  have hfree : ∀ a ∈ h.buckets k :: l, a ∈ free k := fun a ha => hl ▸ ha
  rw [hl, List.nodup_cons] at hnodup
  refine ⟨l, hi.freed k _ (hfree _ (List.mem_cons_self ..)), hrest,
    fun a ha => hi.freed k a (hfree a (List.mem_cons_of_mem _ ha)), fun b hb => ⟨fun he => ?_, ?_⟩,
    hnodup.1⟩
  · exact hi.idle b hb k (hfree _ (he ▸ List.mem_cons_self ..))
  · exact fun ha => hi.idle b hb k (hfree _ (List.mem_cons_of_mem _ ha))

/-- `malloc` of a size that does not wrap returns null or a new block. -/
theorem malloc_spec (hi : Inv h live h.brk.toNat carved free) (grant : Bool) {bytes : Word}
    (hbytes : bytes.toNat + 8 < 2 ^ 64) : ∃ h' ptr carved' free',
      malloc h grant bytes = some (h', ptr) ∧ h'.start = h.start ∧
      Inv h' (if ptr = 0 then live else ⟨ptr, bytes⟩ :: live) h'.brk.toNat carved' free' := by
  have hsum : (bytes + offsetofData).toNat = bytes.toNat + 8 := toNat_add_of_le (n := 8) hbytes
  unfold malloc
  dsimp only
  split
  · exact ⟨h, 0, carved, free, rfl, rfl, by simpa using hi⟩
  · rename_i k hfind
    have hk : k < nrBuckets := List.mem_range.mp (List.mem_of_find?_eq_some hfind)
    have hfits : bytes.toNat + 8 ≤ (bucketToSize k).toNat := by
      have hle := List.find?_some hfind
      rw [decide_eq_true_eq, BitVec.le_def, hsum] at hle
      exact hle
    split
    · obtain ⟨h₁, n, carved₁, free₁, hrefill, hstart₁, hi₁, hready⟩ := refill_spec hi grant hk
      rw [hrefill]
      dsimp only [Option.bind_eq_bind, Option.bind_some]
      split
      · exact ⟨h₁, 0, carved₁, free₁, rfl, hstart₁, by simpa using hi₁⟩
      · rename_i hn
        obtain ⟨l, hr⟩ := hready hn
        obtain ⟨h₂, r, htake, hstart₂, hbrk₂, hne, hi₂⟩ := take_spec hi₁ hr hfits
        refine ⟨h₂, _, carved₁, Function.update free₁ k l, htake, hstart₂.trans hstart₁, ?_⟩
        rw [if_neg hne, hbrk₂]
        exact hi₂
    · rename_i hfree
      obtain ⟨l, hr⟩ := hi.ready hfree
      obtain ⟨h₂, r, htake, hstart₂, hbrk₂, hne, hi₂⟩ := take_spec hi hr hfits
      refine ⟨h₂, _, carved, Function.update free k l, htake, hstart₂, ?_⟩
      rw [if_neg hne, hbrk₂]
      exact hi₂

/-- `free` of a block in use puts its region back in the bucket it came from. -/
theorem free_spec (hi : Inv h live lim carved free) {b : Block} (hb : b ∈ live) :
    ∃ h' free', Libc.free h b.ptr = some h' ∧ h'.start = h.start ∧ h'.brk = h.brk ∧
      Inv h' (live.filter (·.ptr ≠ b.ptr)) lim carved free' := by
  obtain ⟨k, hheld⟩ := hi.held b hb
  obtain ⟨hmem, -, hmagic, hbucket⟩ := id hheld
  generalize hr : b.ptr - offsetofData = r at hmem hmagic hbucket
  obtain ⟨hs, -, hbrk, hlt⟩ := hi.bounds hmem
  obtain ⟨hk, -⟩ := hi.within _ hmem
  dsimp only at hbrk hk
  have hoff : (r + offsetofBucket).toNat = r.toNat + 4 := toNat_add_of_le (n := 4) (by omega)
  have hword : (BitVec.ofNat 64 k).toNat = k := by
    rw [BitVec.toNat_ofNat]
    exact Nat.mod_eq_of_lt (hk.trans (by decide))
  have hmapped : ∀ (a : Word) (n : Nat), r.toNat ≤ a.toNat → a.toNat + n ≤ r.toNat + 8 →
      h.Mapped a n :=
    fun a n hlo hhi => hi.mapped hmem hlo (by simp only [Region.stop]; omega)
  let h' : Heap := { h with mem := storeWord h.mem r 8 (h.buckets k) }
  have hhdr : ∀ {a : Word} {j : Nat}, ⟨a, j⟩ ∈ carved → a ≠ r →
      Region.SameHeader h.mem h'.mem ⟨a, j⟩ := by
    intro a j ha hne
    exact hi.sameHeader_store hmem ha le_rfl (by simp only [Region.stop]; omega)
      (.inl fun he => hne (congrArg Region.base he))
  have hnotfree : ∀ j, r ∉ free j := hr ▸ hi.idle b hb
  have hlists : ∀ j, Chain 0 h'.next (h'.buckets j) (free j) := by
    intro j
    refine (hi.lists j).congr fun a ha => ?_
    have har : a ≠ r := fun he => hnotfree j (he ▸ ha)
    exact hhdr (hi.freed j a ha) har a 8 le_rfl le_rfl
  have hnext : h'.next r = h.buckets k := loadWord_storeWord_long ..
  -- another block in use is in another region
  have hother : ∀ c ∈ live, c.ptr ≠ b.ptr → c.ptr - offsetofData ≠ r := by
    intro c _ hne he
    rw [← hr] at he
    exact hne (BitVec.sub_left_inj _ |>.mp he)
  refine ⟨h'.setBucket k r, Function.update free k (if r = 0 then [] else r :: free k), ?_, rfl, rfl,
    ?_⟩
  · have hload₁ : h.load r 4 = some regionMagic := by
      rw [Heap.load, if_pos (hmapped r 4 le_rfl (by omega)), hmagic]
    have hload₂ : h.load (r + offsetofBucket) 4 = some (BitVec.ofNat 64 k) := by
      rw [Heap.load, if_pos (hmapped _ 4 (by omega) (by omega)), hbucket]
    have hstore : h.store r 8 (h.buckets k) = some h' := if_pos (hmapped r 8 le_rfl le_rfl)
    simp only [Libc.free, hr, hload₁, hload₂, hword, hstore, hk, if_true, Option.bind_eq_bind,
      Option.bind_some, Option.pure_def]
  · refine ⟨hi.low, hi.high, hi.aligned, hi.within, hi.apart,
      lists_setBucket (.push (hnext.symm ▸ hlists k)) fun j _ => hlists j,
      forall_update (fun a ha => ?_) fun j _ => hi.freed j, ?_, ?_, ?_⟩
    · rcases mem_push ha with rfl | ha
      · exact hmem
      · exact hi.freed k a ha
    · intro c hc
      obtain ⟨hc, hne⟩ := List.mem_filter.mp hc
      obtain ⟨j, hj⟩ := hi.held c hc
      exact ⟨j, hj.store hi (hhdr hj.mem (hother c hc (of_decide_eq_true hne)))⟩
    · exact hi.distinct.sublist (List.filter_sublist.map _)
    · intro c hc j hfree
      obtain ⟨hc, hne⟩ := List.mem_filter.mp hc
      refine @forall_update free (fun _ a => c.ptr - offsetofData ≠ a) k _ (fun a ha => ?_)
        (fun j _ a ha he => hi.idle c hc j (he ▸ ha)) j _ hfree rfl
      rcases mem_push ha with rfl | ha
      · exact hother c hc (of_decide_eq_true hne)
      · exact fun he => hi.idle c hc k (he ▸ ha)

/-- Writing inside a block in use disturbs nothing. -/
theorem write_spec (hi : Inv h live lim carved free) {b : Block} (hb : b ∈ live) {addr : Word}
    (hlo : b.ptr.toNat ≤ addr.toNat) (hhi : addr.toNat < b.ptr.toNat + b.bytes.toNat) (byte : Word) :
    ∃ h', h.store addr 1 byte = some h' ∧ h'.start = h.start ∧ h'.brk = h.brk ∧
      Inv h' live lim carved free := by
  obtain ⟨k, hheld⟩ := hi.held b hb
  obtain ⟨hmem, hfits, -, -⟩ := id hheld
  obtain ⟨hs, -, hbrk, hlt⟩ := hi.bounds hmem
  dsimp only at hbrk
  have hptr : b.ptr.toNat = (b.ptr - offsetofData).toNat + 8 := by
    rw [← toNat_add_of_le (a := b.ptr - offsetofData) (n := 8) (by omega)]
    exact congrArg BitVec.toNat (BitVec.sub_add_cancel ..).symm
  have hstop : addr.toNat + 1 ≤ (⟨b.ptr - offsetofData, k⟩ : Region).stop := by
    simp only [Region.stop, Region.size]
    omega
  have hhdr : ∀ r ∈ carved, r.SameHeader h.mem (storeWord h.mem addr 1 byte) := fun r hr =>
    hi.sameHeader_store hmem hr (by simp only; omega) hstop (.inr (by simp only; omega))
  refine ⟨_, if_pos (hi.mapped hmem (by simp only; omega) hstop), rfl, rfl, hi.low, hi.high,
    hi.aligned, hi.within, hi.apart, fun j => ?_, hi.freed, fun c hc => ?_, hi.distinct, hi.idle⟩
  · exact (hi.lists j).congr fun a ha => hhdr _ (hi.freed j a ha) a 8 le_rfl le_rfl
  · obtain ⟨j, hj⟩ := hi.held c hc
    exact ⟨j, hj.store hi (hhdr _ hj.mem)⟩

/-! ### What the invariant promises -/

theorem Inv.ptr_toNat (hi : Inv h live lim carved free) {b : Block} {k : Nat}
    (hb : Held h.mem carved b k) : b.ptr.toNat = (b.ptr - offsetofData).toNat + 8 := by
  obtain ⟨hs, -, hbrk, hlt⟩ := hi.bounds hb.mem
  dsimp only at hbrk
  rw [← toNat_add_of_le (a := b.ptr - offsetofData) (n := 8) (by omega)]
  exact congrArg BitVec.toNat (BitVec.sub_add_cancel ..).symm

/-- The header of a block in use names its region. -/
theorem Inv.region_eq (hi : Inv h live lim carved free) {b : Block} {k : Nat}
    (hb : Held h.mem carved b k) : b.region h.mem = ⟨b.ptr - offsetofData, k⟩ := by
  have hk : k < nrBuckets := (hi.within _ hb.mem).1
  rw [Block.region, hb.bucket, BitVec.toNat_ofNat, Nat.mod_eq_of_lt (hk.trans (by decide))]

end

/-- The regions of a program are among those carved, each once. -/
theorem Inv.regions_spec {s : Session} {lim : Nat} {carved : List Region} {free : Nat → List Word}
    (hi : Inv s.heap s.live lim carved free) :
    (∀ r ∈ s.regions free, r ∈ carved) ∧ (s.regions free).Nodup := by
  have hlive : ∀ b ∈ s.live, b.region s.heap.mem ∈ carved ∧
      (b.region s.heap.mem).base = b.ptr - offsetofData := by
    intro b hb
    obtain ⟨k, hk⟩ := hi.held b hb
    exact ⟨hi.region_eq hk ▸ hk.mem, rfl⟩
  refine ⟨fun r hr => ?_, ?_⟩
  · rcases List.mem_append.mp hr with hr | hr
    · obtain ⟨b, hb, rfl⟩ := List.mem_map.mp hr
      exact (hlive b hb).1
    · obtain ⟨k, -, hr⟩ := List.mem_flatMap.mp hr
      obtain ⟨a, ha, rfl⟩ := List.mem_map.mp hr
      exact hi.freed k a ha
  · refine List.nodup_append'.mpr ⟨?_, ?_, ?_⟩
    · refine List.Nodup.map_on (fun b hb c hc he => ?_) (List.Nodup.of_map _ hi.distinct)
      have hp : b.ptr = c.ptr := (BitVec.sub_left_inj _).mp (congrArg Region.base he)
      exact List.inj_on_of_nodup_map hi.distinct hb hc hp
    · refine List.nodup_flatMap.mpr ⟨fun k _ => ?_, ?_⟩
      · exact (hi.lists k).nodup.map fun a b he => congrArg Region.base he
      · refine List.nodup_range.imp fun hne r hr hr' => ?_
        obtain ⟨a, -, rfl⟩ := List.mem_map.mp hr
        obtain ⟨a', -, he⟩ := List.mem_map.mp hr'
        exact hne (congrArg Region.bucket he).symm
    · intro r hr hr'
      obtain ⟨b, hb, rfl⟩ := List.mem_map.mp hr
      obtain ⟨k, -, hr'⟩ := List.mem_flatMap.mp hr'
      obtain ⟨a, ha, he⟩ := List.mem_map.mp hr'
      have hbase : a = b.ptr - offsetofData := congrArg Region.base he
      exact hi.idle b hb k (hbase ▸ ha)

theorem Inv.safe {s : Session} {lim : Nat} {carved : List Region} {free : Nat → List Word}
    (hi : Inv s.heap s.live lim carved free) : s.Safe free := by
  obtain ⟨hsub, hnodup⟩ := hi.regions_spec
  refine ⟨fun b hb => ?_, fun b hb => ?_, fun r hr => ?_, ?_, fun k _ => ⟨hi.lists k,
    (hi.lists k).nodup⟩⟩
  · obtain ⟨k, hk⟩ := hi.held b hb
    obtain ⟨-, -, -, halign⟩ := hi.within _ hk.mem
    have hptr := hi.ptr_toNat hk
    dsimp only at halign
    omega
  · obtain ⟨k, hk⟩ := hi.held b hb
    rw [hi.region_eq hk]
    exact hk.fits
  · obtain ⟨-, hlo, hhi, -⟩ := hi.bounds (hsub r hr)
    exact ⟨hlo, hhi⟩
  · exact hnodup.pairwise_of_forall_ne fun r hr r' hr' hne =>
      hi.apart.forall (hsub r hr) (hsub r' hr') hne

/-! ### Runs -/

/-- The size does not wrap when the header is added to it, and null is not freed. -/
def Call.Sane : Call → Prop
  | .malloc _ bytes => bytes.toNat + 8 < 2 ^ 64
  | .free ptr => ptr ≠ 0
  | .write _ _ => True

/-- A call that is permitted and sane completes and maintains the invariant. -/
theorem step_spec {s : Session} {carved : List Region} {free : Nat → List Word}
    (hi : Inv s.heap s.live s.heap.brk.toNat carved free) {c : Call} (hc : s.Permits c)
    (hs : c.Sane) : ∃ s' carved' free', s.step c = some s' ∧
      Inv s'.heap s'.live s'.heap.brk.toNat carved' free' := by
  cases c with
  | malloc grant bytes =>
    obtain ⟨h', ptr, carved', free', hm, -, hi'⟩ := malloc_spec hi grant hs
    refine ⟨⟨h', if ptr = 0 then s.live else ⟨ptr, bytes⟩ :: s.live⟩, carved', free', ?_, hi'⟩
    simp only [Session.step, hm, Option.bind_eq_bind, Option.bind_some, Option.pure_def]
  | free ptr =>
    obtain ⟨b, hb, rfl⟩ := hc.resolve_left hs
    obtain ⟨h', free', hf, -, hbrk, hi'⟩ := free_spec hi hb
    refine ⟨⟨h', _⟩, carved, free', ?_, hbrk ▸ hi'⟩
    simp only [Session.step, hf, Option.bind_eq_bind, Option.bind_some, Option.pure_def]
  | write addr byte =>
    obtain ⟨b, hb, hlo, hhi⟩ := hc
    obtain ⟨h', hw, -, hbrk, hi'⟩ := write_spec hi hb hlo hhi byte
    refine ⟨⟨h', _⟩, carved, free, ?_, hbrk ▸ hi'⟩
    simp only [Session.step, hw, Option.bind_eq_bind, Option.bind_some, Option.pure_def]

theorem inv_initial {start : Word} (mem : Mem) (halign : start.toNat % 8 = 0) :
    Inv (Session.initial start mem).heap [] start.toNat [] fun _ => [] :=
  ⟨le_rfl, le_rfl, halign, by simp, .nil, fun _ => rfl, by simp, by simp, by simp, by simp⟩

theorem run_inv {start : Word} {mem : Mem} (halign : start.toNat % 8 = 0) {s : Session}
    (hrun : Session.Run Call.Sane (.initial start mem) s) :
    ∃ carved free, Inv s.heap s.live s.heap.brk.toNat carved free := by
  induction hrun with
  | start => exact ⟨[], _, inv_initial mem halign⟩
  | call _ hpermits hsane hdone ih =>
    obtain ⟨carved, free, hi⟩ := ih
    obtain ⟨s', carved', free', hstep, hi'⟩ := step_spec hi hpermits hsane
    obtain rfl : s' = _ := Option.some.inj (hstep.symm.trans hdone)
    exact ⟨carved', free', hi'⟩

/-- From a break that is a multiple of 8, in every run that neither asks for a size that wraps nor
    frees null, the allocator never hands out bad memory and every call completes. -/
theorem malloc_safe {start : Word} {mem : Mem} (halign : start.toNat % 8 = 0) {s : Session}
    (hrun : Session.Run Call.Sane (.initial start mem) s) : s.Good Call.Sane := by
  obtain ⟨carved, free, hi⟩ := run_inv halign hrun
  refine ⟨⟨free, hi.safe⟩, fun c hpermits hsane => ?_⟩
  obtain ⟨s', -, -, hstep, -⟩ := step_spec hi hpermits hsane
  exact ⟨s', hstep, fun hc => absurd (hc ▸ hsane) (fun h => h rfl)⟩

/-- One request from a page boundary. -/
theorem malloc_safe_page : ∃ s, (Session.initial 4096 fun _ => 0).step (.malloc true 5000) = some s ∧
    s.live = [⟨4104, 5000⟩] ∧ s.Good Call.Sane := by
  have hlive : ((Session.initial 4096 fun _ => 0).step (.malloc true 5000)).map (·.live) =
      some [⟨4104, 5000⟩] := by decide
  obtain ⟨s, hs, hl⟩ := Option.map_eq_some_iff.mp hlive
  have hsane : (Call.malloc true 5000).Sane := by
    unfold Call.Sane
    decide
  exact ⟨s, hs, hl, malloc_safe (by decide) (.call (c := .malloc true 5000) .start trivial hsane hs)⟩

/-! ### What goes wrong elsewhere -/

/-- `free` looks for the header of null below address 0. -/
theorem free_null (h : Heap) (hbrk : h.brk.toNat ≤ 2 ^ 64 - 8) : Libc.free h 0 = none := by
  have hbase : (0 - offsetofData).toNat = 2 ^ 64 - 8 := rfl
  have hload : h.load (0 - offsetofData) 4 = none := by
    refine if_neg fun hm => ?_
    have hhi := hm.2
    omega
  simp only [Libc.free, hload, Option.bind_eq_bind, Option.bind_none]

/-- A size that wraps gets what a request for nothing gets. -/
theorem malloc_wraps (h : Heap) (grant : Bool) {bytes : Word} (hb : 2 ^ 64 ≤ bytes.toNat + 8) :
    malloc h grant bytes = malloc h grant 0 := by
  have hsmall : ∀ w : Word, w.toNat ≤ 8 → (List.range nrBuckets).find?
      (fun bucket => decide (w ≤ bucketToSize bucket)) = some 0 := by
    intro w hw
    refine List.find?_range_eq_some.mpr ⟨?_, by decide, by omega⟩
    rw [decide_eq_true_eq, BitVec.le_def, toNat_bucketToSize (by decide)]
    omega
  have hlt := bytes.isLt
  have hsum : (bytes + offsetofData).toNat ≤ 8 := by
    rw [BitVec.toNat_add, show offsetofData.toNat = 8 from rfl]
    omega
  unfold malloc
  dsimp only
  rw [hsmall _ hsum, hsmall (0 + offsetofData) (by decide)]

/-- The bucket after the loop of `refill`. -/
theorem refillLoop_buckets {k : Nat} {size : Word} : ∀ (i : Nat) {h h' : Heap} {new : Word},
    refillLoop k size (i + 1) h new = some h' → h'.buckets k = new + BitVec.ofNat 64 i * size := by
  intro i
  induction i with
  | zero =>
    intro h h' new hloop
    obtain ⟨h₁, -, hdone⟩ := Option.bind_eq_some_iff.mp hloop
    obtain rfl := Option.some.inj hdone
    simp [Heap.setBucket]
  | succ i ih =>
    intro h h' new hloop
    obtain ⟨h₁, -, hrest⟩ := Option.bind_eq_some_iff.mp hloop
    rw [ih hrest, BitVec.ofNat_add, BitVec.add_mul, BitVec.add_assoc, BitVec.add_comm size]
    simp

/-- The first region that is handed out lies a whole number of regions above the old break. -/
theorem refill_first {h h' : Heap} {grant : Bool} {k : Nat} {n : BitVec 32} (hk : k < nrBuckets)
    (hr : refill h grant k = some (h', n)) (hn : n ≠ 0) :
    ∃ i, h'.buckets k = h.brk + BitVec.ofNat 64 i * bucketToSize k := by
  obtain ⟨hpos, hint, -⟩ := refillCount_spec k hk
  unfold refill at hr
  dsimp only at hr
  rw [sbrk_zero] at hr
  split at hr
  · exact absurd (congrArg Prod.snd (Option.some.inj hr)).symm hn
  · rename_i hgrant
    have hnew : (sbrk h grant (refillAlloc h.brk k).toInt).2 = h.brk := by
      unfold sbrk at hgrant ⊢
      split_ifs at hgrant ⊢ <;> first | rfl | exact absurd rfl hgrant
    obtain ⟨h₁, hloop, hr⟩ := Option.bind_eq_some_iff.mp hr
    obtain rfl : h₁ = h' := congrArg Prod.fst (Option.some.inj hr)
    obtain ⟨i, hi⟩ := Nat.exists_eq_add_of_le' (hint ▸ hpos)
    rw [hi, hnew] at hloop
    exact ⟨i, refillLoop_buckets i hloop⟩

/-- The first block is as far from a multiple of 8 as the initial break. -/
theorem malloc_first {start : Word} {mem : Mem} {grant : Bool} {bytes ptr : Word} {h' : Heap}
    (hm : malloc (Session.initial start mem).heap grant bytes = some (h', ptr)) (hne : ptr ≠ 0) :
    ptr.toNat % 8 = start.toNat % 8 := by
  unfold malloc at hm
  dsimp only at hm
  split at hm
  · exact absurd (congrArg Prod.snd (Option.some.inj hm)).symm hne
  · rename_i k hfind
    have hk : k < nrBuckets := List.mem_range.mp (List.mem_of_find?_eq_some hfind)
    rw [if_pos (show (Session.initial start mem).heap.buckets k = 0 from rfl)] at hm
    obtain ⟨⟨h₁, n⟩, hrefill, hm⟩ := Option.bind_eq_some_iff.mp hm
    dsimp only at hm
    split at hm
    · exact absurd (congrArg Prod.snd (Option.some.inj hm)).symm hne
    · rename_i hn
      obtain ⟨r, hr⟩ := refill_first hk hrefill hn
      have hptr : ptr = h₁.buckets k + offsetofData := by
        obtain ⟨_, -, hm⟩ := Option.bind_eq_some_iff.mp hm
        obtain ⟨_, -, hm⟩ := Option.bind_eq_some_iff.mp hm
        obtain ⟨_, -, hm⟩ := Option.bind_eq_some_iff.mp hm
        exact (congrArg Prod.snd (Option.some.inj hm)).symm
      obtain ⟨-, -, -, -, -, hsize, -⟩ := refillCount_spec k hk
      have hmul : (BitVec.ofNat 64 r * bucketToSize k).toNat % 8 = 0 := by
        rw [BitVec.toNat_mul, Nat.mod_mod_of_dvd _ (by decide), Nat.mul_mod, hsize]
        rfl
      rw [hptr, hr, BitVec.toNat_add, BitVec.toNat_add, show offsetofData.toNat = 8 from rfl]
      show ((start.toNat + _) % 2 ^ 64 + 8) % 2 ^ 64 % 8 = _
      omega

/-- The allocator faults on `free(null)`. -/
theorem malloc_unsafe : ¬ ∀ (start : Word) (mem : Mem) (s : Session),
    Session.Run (fun _ => True) (.initial start mem) s → s.Good fun _ => True := by
  intro hall
  obtain ⟨s', hstep, -⟩ := (hall 4096 (fun _ => 0) _ .start).2 (.free 0) (.inl rfl) trivial
  have hfault := free_null (Session.initial 4096 fun _ => 0).heap (by decide)
  rw [Session.step, hfault] at hstep
  cases hstep

end Ncc.Libc
