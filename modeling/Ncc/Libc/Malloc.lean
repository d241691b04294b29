import Ncc.Memory
import Ncc.Lib.Chain

/-! `libc/malloc.c`: the allocator of the library.

    A region of bucket `b` is `BUCKET_TO_SIZE(b)` bytes. Its first 8 bytes are the header: the link to
    the next free region of the bucket while it is free, and the pair of `magic` and `bucket` while it
    is in use. The heap is what lies between the initial break and the break; an access outside it
    faults, which is `none`. Whether the system grants a move of the break is up to the environment. -/

namespace Ncc.Libc

def pageSize : Word := 4096

/-- `ROUND_UP` on a `uintptr_t`. -/
def roundUp (a b : Word) : Word := (a + (b - 1)) / b * b

def log2Smallest : Nat := 5

def log2Largest : Nat := 30

def nrBuckets : Nat := log2Largest - log2Smallest + 1

/-- `BUCKET_TO_SIZE`. -/
def bucketToSize (b : Nat) : Word := (1 : Word) <<< (b + log2Smallest)

def regionMagic : Word := 0x4B696E67

/-- `offsetof(struct region, bucket)`. -/
def offsetofBucket : Word := 4

/-- `offsetof(struct region, data)`. -/
def offsetofData : Word := 8

/-- The allocator's memory; `start` is the break the program began with. -/
structure Heap where
  start : Word
  brk : Word
  mem : Mem
  buckets : Nat → Word

namespace Heap

/-- The `n` bytes at `a` belong to the heap. -/
def Mapped (h : Heap) (a : Word) (n : Nat) : Prop :=
  h.start.toNat ≤ a.toNat ∧ a.toNat + n ≤ h.brk.toNat

instance (h : Heap) (a : Word) (n : Nat) : Decidable (h.Mapped a n) :=
  inferInstanceAs (Decidable (_ ∧ _))

/-- Read `n` bytes. -/
def load (h : Heap) (a : Word) (n : Nat) : Option Word :=
  if h.Mapped a n then some (loadWord h.mem a n) else none

/-- Write `n` bytes. -/
def store (h : Heap) (a : Word) (n : Nat) (w : Word) : Option Heap :=
  if h.Mapped a n then some { h with mem := storeWord h.mem a n w } else none

/-- `buckets[bucket] = r`. -/
def setBucket (h : Heap) (bucket : Nat) (r : Word) : Heap :=
  { h with buckets := Function.update h.buckets bucket r }

/-- The `next_free` of a region. -/
def next (h : Heap) (r : Word) : Word := loadWord h.mem r 8

end Heap

/-- `sbrk`: the break moves by `inc` and its old value is returned, or it stays and `(void *) -1` is
    returned. -/
def sbrk (h : Heap) (grant : Bool) (inc : Int) : Heap × Word :=
  if inc = 0 then (h, h.brk)
  else if grant ∧ 0 ≤ (h.brk.toNat : Int) + inc ∧ (h.brk.toNat : Int) + inc < 2 ^ 64 then
    ({ h with brk := BitVec.ofInt 64 (h.brk.toNat + inc) }, h.brk)
  else (h, -1)

/-- The loop of `refill`, with `i` turns to go. -/
def refillLoop (bucket : Nat) (size : Word) : Nat → Heap → Word → Option Heap
  | 0, h, _ => some h
  | i + 1, h, new => do
    let h ← h.store new 8 (h.buckets bucket)
    refillLoop bucket size i (h.setBucket bucket new) (new + size)

/-- The regions `refill` carves from one grant. -/
def refillCount (bucket : Nat) : BitVec 32 :=
  let size := bucketToSize bucket
  if size < pageSize then (pageSize / size).setWidth 32 else 1

/-- What `refill` asks `sbrk` for; `alloc` is an `int`. -/
def refillAlloc (brk : Word) (bucket : Nat) : BitVec 32 :=
  let alloc : BitVec 32 := (roundUp brk pageSize - brk).setWidth 32
  (alloc.signExtend 64 + (refillCount bucket).signExtend 64 * bucketToSize bucket).setWidth 32

/-- `refill`: the number of regions that were added to the bucket. -/
def refill (h : Heap) (grant : Bool) (bucket : Nat) : Option (Heap × BitVec 32) :=
  let brk := (sbrk h grant 0).2
  let n := refillCount bucket
  let (h, new) := sbrk h grant (refillAlloc brk bucket).toInt
  if new = -1 then some (h, 0)
  else do
    let h ← refillLoop bucket (bucketToSize bucket) n.toInt.toNat h new
    return (h, n)

/-- The end of `malloc`, with a region in the bucket. -/
def take (h : Heap) (bucket : Nat) : Option (Heap × Word) := do
  let r := h.buckets bucket
  let next ← h.load r 8
  let h := h.setBucket bucket next
  let h ← h.store (r + offsetofBucket) 4 (BitVec.ofNat 64 bucket)
  let h ← h.store r 4 regionMagic
  return (h, r + offsetofData)

/-- `malloc`. -/
def malloc (h : Heap) (grant : Bool) (bytes : Word) : Option (Heap × Word) :=
  let bytes := bytes + offsetofData
  match (List.range nrBuckets).find? fun bucket => decide (bytes ≤ bucketToSize bucket) with
  | none => some (h, 0)
  | some bucket =>
    if h.buckets bucket = 0 then do
      let (h, n) ← refill h grant bucket
      if n = 0 then some (h, 0) else take h bucket
    else take h bucket

/-- `free`; an index outside `buckets` faults too. -/
def free (h : Heap) (ptr : Word) : Option Heap := do
  let r := ptr - offsetofData
  let magic ← h.load r 4
  if magic = regionMagic then do
    let bucket ← h.load (r + offsetofBucket) 4
    if bucket.toNat < nrBuckets then do
      let h ← h.store r 8 (h.buckets bucket.toNat)
      return h.setBucket bucket.toNat r
    else none
  else some h

/-! ### A program that allocates -/

/-- An allocation in use: what `malloc` returned and what it was asked for. -/
structure Block where
  ptr : Word
  bytes : Word
  deriving DecidableEq

/-- A program between two calls. -/
structure Session where
  heap : Heap
  live : List Block

/-- What a program does with the heap: it calls `malloc` and `free`, and writes to what it was
    given. -/
inductive Call where
  | malloc (grant : Bool) (bytes : Word)
  | free (ptr : Word)
  | write (addr : Word) (byte : Word)
  deriving DecidableEq

namespace Session

/-- A program that has not allocated yet. -/
def initial (start : Word) (mem : Mem) : Session := ⟨⟨start, start, mem, fun _ => 0⟩, []⟩

/-- One call; `none` when it faults. -/
def step (s : Session) : Call → Option Session
  | .malloc grant bytes => do
    let (h, ptr) ← Libc.malloc s.heap grant bytes
    return ⟨h, if ptr = 0 then s.live else ⟨ptr, bytes⟩ :: s.live⟩
  | .free ptr => do
    let h ← Libc.free s.heap ptr
    return ⟨h, s.live.filter (·.ptr ≠ ptr)⟩
  | .write addr byte => do
    let h ← s.heap.store addr 1 byte
    return ⟨h, s.live⟩

/-- The program frees null or a pointer it was given and has not freed, and writes only inside what
    it asked for. -/
def Permits (s : Session) : Call → Prop
  | .malloc _ _ => True
  | .free ptr => ptr = 0 ∨ ∃ b ∈ s.live, b.ptr = ptr
  | .write addr _ => ∃ b ∈ s.live,
      b.ptr.toNat ≤ addr.toNat ∧ addr.toNat < b.ptr.toNat + b.bytes.toNat

/-- The calls of a run are permitted, and meet `ok`. -/
inductive Run (ok : Call → Prop) (s₀ : Session) : Session → Prop
  | start : Run ok s₀ s₀
  | call {s s' : Session} {c : Call} (before : Run ok s₀ s) (permits : s.Permits c) (meets : ok c)
      (done : s.step c = some s') : Run ok s₀ s'

end Session

/-! ### What the allocator promises -/

/-- A region of memory, and the bucket it belongs to. -/
structure Region where
  base : Word
  bucket : Nat
  deriving DecidableEq

namespace Region

def size (r : Region) : Nat := (bucketToSize r.bucket).toNat

def stop (r : Region) : Nat := r.base.toNat + r.size

/-- Two regions share no byte. -/
def Apart (r r' : Region) : Prop := r.stop ≤ r'.base.toNat ∨ r'.stop ≤ r.base.toNat

end Region

/-- The region of a block in use, by its header. -/
def Block.region (m : Mem) (b : Block) : Region :=
  ⟨b.ptr - offsetofData, (loadWord m (b.ptr - offsetofData + offsetofBucket) 4).toNat⟩

namespace Session

/-- The regions in use and the free ones. -/
def regions (s : Session) (free : Nat → List Word) : List Region :=
  s.live.map (Block.region s.heap.mem) ++
    (List.range nrBuckets).flatMap fun k => (free k).map (⟨·, k⟩)

/-- Every block in use is aligned and as large as it was asked for; the regions are disjoint and below
    the break; `free` are the free lists, which are acyclic. -/
structure Safe (s : Session) (free : Nat → List Word) : Prop where
  aligned : ∀ b ∈ s.live, 8 ∣ b.ptr.toNat
  usable : ∀ b ∈ s.live, b.bytes.toNat + 8 ≤ (b.region s.heap.mem).size
  below : ∀ r ∈ s.regions free, s.heap.start.toNat ≤ r.base.toNat ∧ r.stop ≤ s.heap.brk.toNat
  apart : (s.regions free).Pairwise Region.Apart
  lists : ∀ k < nrBuckets, Chain 0 s.heap.next (s.heap.buckets k) (free k) ∧ (free k).Nodup

/-- The heap is safe, and the calls that may come next complete; freeing null does nothing. -/
def Good (ok : Call → Prop) (s : Session) : Prop :=
  (∃ free, s.Safe free) ∧
    ∀ c, s.Permits c → ok c → ∃ s', s.step c = some s' ∧ (c = .free 0 → s' = s)

end Session

end Ncc.Libc
