import BeEasy.CVerif.Arena
import BeEasy.CVerif.Bytes
import BeEasy.CVerif.EventLoop

/-!
# Curl — StaticPool

The allocator `curl/curl-static.c` hands to libcurl: a static array and an
index into it, `malloc` as an index increment, `free` as nothing. A pointer
into the pool is its offset from `curl_memory_pool`; `none` is NULL.

`size_t` is `BitVec 64`, so the capacity test of `static_malloc` adds modulo
`2 ^ 64` as the C test does. The abstract side is `CVerif.Arena`, whose
requests are natural numbers: `refines_call` says that the pool is an arena
as long as no size arithmetic wraps.
-/

namespace BeEasy.Curl

open CVerif

def CURL_MEMORY_POOL_SIZE : Nat := 1024 * 1024

/-- The two statics. `curlMemoryPool` is memory by offset from the pool's
start; the pool itself is the offsets below `CURL_MEMORY_POOL_SIZE`. -/
structure Pool where
  memoryPoolIndex : BitVec 64
  curlMemoryPool : Nat → Byte

/-- A NUL-terminated string of the caller: its bytes before the NUL, and
that the object with its NUL fits in the address space. -/
structure CString where
  bytes : List Byte
  fits : bytes.length + 1 < 2 ^ 64

/-- `n` bytes stored from offset `dst` on (`memcpy` and `memset`). -/
def store (mem : Nat → Byte) (dst n : Nat) (bytes : Nat → Byte) : Nat → Byte :=
  fun i => if dst ≤ i ∧ i < dst + n then bytes (i - dst) else mem i

/-! ## The entry points -/

def staticMalloc (p : Pool) (size : BitVec 64) : Option Nat × Pool :=
  if (p.memoryPoolIndex + size).toNat > CURL_MEMORY_POOL_SIZE then
    (none, p)
  else
    (some p.memoryPoolIndex.toNat, { p with memoryPoolIndex := p.memoryPoolIndex + size })

def staticFree (p : Pool) (_ptr : Option Nat) : Pool := p

/-- `static_realloc`: a new block and `size` bytes copied from the old
pointer on. Where the two ranges overlap C leaves the copy undefined; here
it takes the old bytes. -/
def staticRealloc (p : Pool) (ptr : Option Nat) (size : BitVec 64) : Option Nat × Pool :=
  match staticMalloc p size, ptr with
  | (some newptr, q), some old =>
      (some newptr, { q with
        curlMemoryPool :=
          store q.curlMemoryPool newptr size.toNat (fun k => q.curlMemoryPool (old + k)) })
  | (newptr, q), _ => (newptr, q)

/-- `static_strup`: the string and its NUL, copied. -/
def staticStrup (p : Pool) (str : CString) : Option Nat × Pool :=
  let len : BitVec 64 := BitVec.ofNat 64 str.bytes.length + 1#64
  match staticMalloc p len with
  | (some newStr, q) =>
      (some newStr, { q with
        curlMemoryPool :=
          store q.curlMemoryPool newStr len.toNat (fun k => str.bytes.getD k 0) })
  | (none, q) => (none, q)

/-- `static_calloc`: `nmemb * size` is a `size_t` product. -/
def staticCalloc (p : Pool) (nmemb size : BitVec 64) : Option Nat × Pool :=
  let totalSize := nmemb * size
  match staticMalloc p totalSize with
  | (some mem, q) =>
      (some mem, { q with
        curlMemoryPool := store q.curlMemoryPool mem totalSize.toNat (fun _ => 0) })
  | (none, q) => (none, q)

def resetMemoryPool (p : Pool) : Pool where
  memoryPoolIndex := 0
  curlMemoryPool := store p.curlMemoryPool 0 CURL_MEMORY_POOL_SIZE (fun _ => 0)

/-! ## Runs of calls -/

/-- One call to the allocator with its arguments. -/
inductive Call where
  | malloc (size : BitVec 64)
  | calloc (nmemb size : BitVec 64)
  | realloc (ptr : Option Nat) (size : BitVec 64)
  | strup (str : CString)
  | free (ptr : Option Nat)
  | reset

/-- The pointer a call returns (NULL for the `void` ones) and the pool after. -/
def Pool.call (p : Pool) : Call → Option Nat × Pool
  | .malloc size => staticMalloc p size
  | .calloc nmemb size => staticCalloc p nmemb size
  | .realloc ptr size => staticRealloc p ptr size
  | .strup str => staticStrup p str
  | .free ptr => (none, staticFree p ptr)
  | .reset => (none, resetMemoryPool p)

/-- The bytes a call asks for, as a mathematical integer. -/
def Call.request : Call → Nat
  | .malloc size => size.toNat
  | .calloc nmemb size => nmemb.toNat * size.toNat
  | .realloc _ size => size.toNat
  | .strup str => str.bytes.length + 1
  | .free _ => 0
  | .reset => 0

/-- The pool together with the blocks returned since the last reset. -/
structure PoolRun where
  pool : Pool
  blocks : List Block

/-- The program's start: zeroed statics and nothing given out. -/
def PoolRun.init : PoolRun := ⟨⟨0, fun _ => 0⟩, []⟩

def PoolRun.step (r : PoolRun) (c : Call) : PoolRun where
  pool := (r.pool.call c).2
  blocks := match c, (r.pool.call c).1 with
    | .reset, _ => []
    | c, some ptr => ⟨ptr, c.request⟩ :: r.blocks
    | _, none => r.blocks

/-- What a caller may rely on after one call. -/
structure CallSound (r : PoolRun) (c : Call) : Prop where
  /-- A returned block lies inside the pool, ... -/
  inside : ∀ ptr, (r.pool.call c).1 = some ptr → ptr + c.request ≤ CURL_MEMORY_POOL_SIZE
  /-- ... apart from every block returned since the last reset. -/
  fresh : ∀ ptr, (r.pool.call c).1 = some ptr →
    ∀ b ∈ r.blocks, Disjoint (Block.mk ptr c.request).range b.range
  capacity : (r.pool.call c).2.memoryPoolIndex.toNat ≤ CURL_MEMORY_POOL_SIZE
  monotone : c ≠ .reset →
    r.pool.memoryPoolIndex.toNat ≤ (r.pool.call c).2.memoryPoolIndex.toNat
  /-- A call that returns NULL changes nothing. -/
  failure : c ≠ .reset → (r.pool.call c).1 = none → (r.pool.call c).2 = r.pool

/-- No size arithmetic of the call wraps around `2 ^ 64`, except for a
`calloc` product whose wrapped value is refused for its size anyway. -/
def NoWrap (p : Pool) : Call → Prop
  | .malloc size => p.memoryPoolIndex.toNat + size.toNat < 2 ^ 64
  | .calloc nmemb size =>
      p.memoryPoolIndex.toNat + (nmemb * size).toNat < 2 ^ 64 ∧
        (nmemb.toNat * size.toNat < 2 ^ 64 ∨
          CURL_MEMORY_POOL_SIZE < p.memoryPoolIndex.toNat + (nmemb * size).toNat)
  | .realloc _ size => p.memoryPoolIndex.toNat + size.toNat < 2 ^ 64
  | .strup str => p.memoryPoolIndex.toNat + (str.bytes.length + 1) < 2 ^ 64
  | .free _ => True
  | .reset => True

/-! ## One allocation -/

theorem staticMalloc_fits {p : Pool} {size : BitVec 64}
    (h : (p.memoryPoolIndex + size).toNat ≤ CURL_MEMORY_POOL_SIZE) :
    staticMalloc p size
      = (some p.memoryPoolIndex.toNat, { p with memoryPoolIndex := p.memoryPoolIndex + size }) :=
  if_neg (by omega)

theorem staticMalloc_full {p : Pool} {size : BitVec 64}
    (h : CURL_MEMORY_POOL_SIZE < (p.memoryPoolIndex + size).toNat) :
    staticMalloc p size = (none, p) := if_pos h

theorem staticMalloc_null (p : Pool) (size : BitVec 64)
    (h : (staticMalloc p size).1 = none) : (staticMalloc p size).2 = p := by
  by_cases hfits : (p.memoryPoolIndex + size).toNat ≤ CURL_MEMORY_POOL_SIZE
  · rw [staticMalloc_fits hfits] at h
    cases h
  · rw [staticMalloc_full (Nat.lt_of_not_le hfits)]

/-- The size a call passes to `static_malloc`, for the calls that do. -/
def Call.mallocSize : Call → Option (BitVec 64)
  | .malloc size => some size
  | .calloc nmemb size => some (nmemb * size)
  | .realloc _ size => some size
  | .strup str => some (BitVec.ofNat 64 str.bytes.length + 1#64)
  | .free _ => none
  | .reset => none

/-- **One spec for the four allocating calls**: the pointer and the index
are those of the `static_malloc` inside, and a refused call changes nothing. -/
theorem call_of_mallocSize {p : Pool} {c : Call} {t : BitVec 64} (hc : c.mallocSize = some t) :
    (p.call c).1 = (staticMalloc p t).1 ∧
    (p.call c).2.memoryPoolIndex = (staticMalloc p t).2.memoryPoolIndex ∧
    ((p.call c).1 = none → (p.call c).2 = p) := by
  have hnull : (staticMalloc p t).1 = none → (staticMalloc p t).2 = p := staticMalloc_null p t
  cases c with
  | malloc size =>
      cases hc
      exact ⟨rfl, rfl, hnull⟩
  | calloc nmemb size =>
      cases hc
      simp only [Pool.call, staticCalloc]
      rcases hm : staticMalloc p (nmemb * size) with ⟨mem | mem, q⟩
      · exact ⟨rfl, rfl, by simpa only [hm] using hnull⟩
      · exact ⟨rfl, rfl, nofun⟩
  | realloc ptr size =>
      cases hc
      simp only [Pool.call, staticRealloc]
      rcases hm : staticMalloc p t with ⟨newptr | newptr, q⟩
      · exact ⟨rfl, rfl, by simpa only [hm] using hnull⟩
      · cases ptr with
        | none => exact ⟨rfl, rfl, nofun⟩
        | some old => exact ⟨rfl, rfl, nofun⟩
  | strup str =>
      cases hc
      simp only [Pool.call, staticStrup]
      rcases hm : staticMalloc p (BitVec.ofNat 64 str.bytes.length + 1#64)
        with ⟨newStr | newStr, q⟩
      · exact ⟨rfl, rfl, by simpa only [hm] using hnull⟩
      · exact ⟨rfl, rfl, nofun⟩
  | free ptr => cases hc
  | reset => cases hc

/-- That size is the request, reduced to `size_t`. -/
theorem mallocSize_eq {c : Call} {t : BitVec 64} (hc : c.mallocSize = some t) :
    t.toNat = c.request % 2 ^ 64 := by
  cases c with
  | malloc size => cases hc; exact (Nat.mod_eq_of_lt t.isLt).symm
  | calloc nmemb size => cases hc; exact BitVec.toNat_mul nmemb size
  | realloc ptr size => cases hc; exact (Nat.mod_eq_of_lt t.isLt).symm
  | strup str =>
      cases hc
      simp only [Call.request, BitVec.toNat_add, BitVec.toNat_ofNat]
      omega
  | free ptr => cases hc
  | reset => cases hc

/-- The wrap-around condition in terms of the size `static_malloc` sees:
the index sum does not wrap, and that size is the request unless the call
is refused. -/
theorem noWrap_iff {p : Pool} {c : Call} {t : BitVec 64} (hc : c.mallocSize = some t) :
    NoWrap p c ↔ p.memoryPoolIndex.toNat + t.toNat < 2 ^ 64 ∧
      (c.request = t.toNat ∨ CURL_MEMORY_POOL_SIZE < p.memoryPoolIndex.toNat + t.toNat) := by
  have ht := mallocSize_eq hc
  cases c with
  | malloc size => cases hc; simp [NoWrap, Call.request]
  | realloc ptr size => cases hc; simp [NoWrap, Call.request]
  | calloc nmemb size =>
      cases hc
      have hwrap : nmemb.toNat * size.toNat < 2 ^ 64
          ↔ nmemb.toNat * size.toNat = (nmemb * size).toNat := by
        simp only [Call.request] at ht
        omega
      simp only [NoWrap, Call.request, hwrap]
  | strup str =>
      cases hc
      have hfits := str.fits
      simp only [Call.request] at ht
      rw [Nat.mod_eq_of_lt hfits] at ht
      simp only [NoWrap, Call.request, ht, true_or, and_true]
  | free ptr => cases hc
  | reset => cases hc

/-! ## The pool is an arena -/

/-- The pool at this point of the run holds exactly this arena. -/
structure Refines (r : PoolRun) (a : Arena CURL_MEMORY_POOL_SIZE) : Prop where
  index : r.pool.memoryPoolIndex.toNat = a.used
  blocks : r.blocks = a.blocks

theorem refines_init : Refines PoolRun.init (Arena.empty CURL_MEMORY_POOL_SIZE) := ⟨rfl, rfl⟩

/-- `c` gives out nothing: it is `static_free` or `reset_memory_pool`. -/
theorem mallocSize_none {c : Call} (hc : c.mallocSize = none) :
    (∃ ptr, c = .free ptr) ∨ c = .reset := by
  cases c with
  | free ptr => exact .inl ⟨ptr, rfl⟩
  | reset => exact .inr rfl
  | malloc size => cases hc
  | calloc nmemb size => cases hc
  | realloc ptr size => cases hc
  | strup str => cases hc

/-- The index sum as the machine computes it: exact, or wrapped to
something below the index. -/
theorem index_add_toNat (i t : BitVec 64) :
    (i + t).toNat = i.toNat + t.toNat ∧ i.toNat + t.toNat < 2 ^ 64 ∨
    (i + t).toNat < i.toNat ∧ 2 ^ 64 ≤ i.toNat + t.toNat := by
  have hi := i.isLt
  have ht := t.isLt
  rw [BitVec.toNat_add]
  omega

/-- **One call**: on a pool that is an arena, a call is sound exactly when
its size arithmetic does not wrap. -/
theorem callSound_iff {r : PoolRun} {a : Arena CURL_MEMORY_POOL_SIZE} (hr : Refines r a)
    (c : Call) : CallSound r c ↔ NoWrap r.pool c := by
  have hused : r.pool.memoryPoolIndex.toNat ≤ CURL_MEMORY_POOL_SIZE := hr.index ▸ a.used_le
  have hpool : CURL_MEMORY_POOL_SIZE < 2 ^ 64 := by decide
  cases hc : c.mallocSize with
  | none =>
      rcases mallocSize_none hc with ⟨ptr, rfl⟩ | rfl
      · refine iff_of_true ⟨?_, ?_, hused, fun _ => Nat.le_refl _, fun _ _ => rfl⟩ trivial <;>
          exact fun _ h => by cases h
      · refine iff_of_true ⟨?_, ?_, Nat.zero_le _, fun h => absurd rfl h, fun h => absurd rfl h⟩
          trivial <;> exact fun _ h => by cases h
  | some t =>
      obtain ⟨hptr, hindex, hnull⟩ := call_of_mallocSize (p := r.pool) hc
      have hsize := mallocSize_eq hc
      have hsum := index_add_toNat r.pool.memoryPoolIndex t
      rw [noWrap_iff hc]
      by_cases hfits : (r.pool.memoryPoolIndex + t).toNat ≤ CURL_MEMORY_POOL_SIZE
      · rw [staticMalloc_fits hfits] at hptr hindex
        constructor
        · intro hsound
          -- a block inside the pool is too small for the sum to have wrapped
          have := hsound.inside _ hptr
          omega
        · rintro ⟨hnowrap, hreq⟩
          -- the call is not refused, so it is for the size `static_malloc` sees
          have hreq : c.request = t.toNat := by omega
          refine ⟨?_, ?_, ?_, ?_, fun _ => hnull⟩
          · intro ptr h
            cases hptr.symm.trans h
            omega
          · intro ptr h b hb
            cases hptr.symm.trans h
            rw [hr.index]
            exact a.next_disjoint _ b (hr.blocks ▸ hb)
          · rw [hindex]
            exact hfits
          · intro _
            rw [hindex]
            show _ ≤ (r.pool.memoryPoolIndex + t).toNat
            omega
      · have hfull := Nat.lt_of_not_le hfits
        rw [staticMalloc_full hfull] at hptr hindex
        refine iff_of_true ⟨?_, ?_, ?_, ?_, fun _ => hnull⟩ (by omega)
        · intro ptr h
          cases hptr.symm.trans h
        · intro ptr h
          cases hptr.symm.trans h
        · rw [hindex]
          exact hused
        · intro _
          rw [hindex]

/-- The blocks after an allocating call: one more, unless it returned NULL. -/
theorem step_blocks {r : PoolRun} {c : Call} {t : BitVec 64} (hc : c.mallocSize = some t) :
    (r.step c).blocks = match (r.pool.call c).1 with
      | some ptr => ⟨ptr, c.request⟩ :: r.blocks
      | none => r.blocks := by
  cases c with
  | reset => cases hc
  | free ptr => cases hc
  | malloc size => simp only [PoolRun.step]; split <;> simp_all
  | calloc nmemb size => simp only [PoolRun.step]; split <;> simp_all
  | realloc ptr size => simp only [PoolRun.step]; split <;> simp_all
  | strup str => simp only [PoolRun.step]; split <;> simp_all

/-- **The refinement**: a call that does not wrap takes the pool from one
arena to another. -/
theorem refines_call {r : PoolRun} {a : Arena CURL_MEMORY_POOL_SIZE} (hr : Refines r a)
    {c : Call} (hnowrap : NoWrap r.pool c) : ∃ a', Refines (r.step c) a' := by
  cases hc : c.mallocSize with
  | none =>
      rcases mallocSize_none hc with ⟨ptr, rfl⟩ | rfl
      · exact ⟨a, hr.index, hr.blocks⟩
      · exact ⟨Arena.empty _, rfl, rfl⟩
  | some t =>
      have hsound := (callSound_iff hr c).mpr hnowrap
      obtain ⟨hptr, hindex, hnull⟩ := call_of_mallocSize (p := r.pool) hc
      have hblocks := step_blocks (r := r) hc
      by_cases hfits : (r.pool.memoryPoolIndex + t).toNat ≤ CURL_MEMORY_POOL_SIZE
      · rw [staticMalloc_fits hfits] at hptr hindex
        have hinside : a.used + c.request ≤ CURL_MEMORY_POOL_SIZE :=
          hr.index ▸ hsound.inside _ hptr
        have hsize := mallocSize_eq hc
        have hsum := index_add_toNat r.pool.memoryPoolIndex t
        have hpool : CURL_MEMORY_POOL_SIZE < 2 ^ 64 := by decide
        have hidx := hr.index
        refine ⟨a.alloc c.request hinside, ?_, ?_⟩
        · show (r.pool.call c).2.memoryPoolIndex.toNat = a.used + c.request
          rw [hindex]
          show (r.pool.memoryPoolIndex + t).toNat = _
          omega
        · rw [hblocks, hptr, hr.blocks]
          show ⟨r.pool.memoryPoolIndex.toNat, c.request⟩ :: a.blocks = _
          rw [hidx]
          rfl
      · rw [staticMalloc_full (Nat.lt_of_not_le hfits)] at hptr
        refine ⟨a, ?_, ?_⟩
        · show (r.pool.call c).2.memoryPoolIndex.toNat = a.used
          rw [hnull hptr]
          exact hr.index
        · rw [hblocks, hptr]
          exact hr.blocks

/-! ## Whole runs -/

/-- **The pool over any sequence of calls**: every call is sound (blocks
inside the pool and apart from each other, the index within the pool and
never moving back, nothing changed by a refusal) exactly when no call's
size arithmetic wraps. -/
theorem pool_sound_iff (cs : List Call) :
    EveryStep PoolRun.step CallSound PoolRun.init cs
      ↔ EveryStep PoolRun.step (fun r c => NoWrap r.pool c) PoolRun.init cs :=
  everyStep_congr (I := fun r => ∃ a, Refines r a)
    (fun _ _ ⟨_, hr⟩ hnowrap => refines_call hr hnowrap)
    (fun _ c ⟨_, hr⟩ => callSound_iff hr c) ⟨_, refines_init⟩ cs

/-- Sixteen bytes given out, a request for `2 ^ 64 - 8` passes the capacity
test: the sum wraps to 8. -/
theorem pool_unsound_on_wrap :
    ¬ EveryStep PoolRun.step CallSound PoolRun.init
      [.malloc 16#64, .malloc 0xFFFFFFFFFFFFFFF8#64] := by
  rintro ⟨-, hwrap, -⟩
  have hinside := hwrap.inside 16 rfl
  revert hinside
  decide

end BeEasy.Curl
