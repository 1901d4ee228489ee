import BeEasy.Curl.StaticPool

/-!
# Curl — Realloc

What `static_realloc` copies. The pool keeps no sizes, so `memcpy` copies as
many bytes as the new block has: growing a block reads past the old one, and
where that one is the last given out, the bytes read are the new block itself.
-/

namespace BeEasy.Curl

open CVerif

/-- The `memcpy` of `static_realloc`, by what it reads and what it writes. -/
def reallocMemcpy (p : Pool) (ptr : Option Nat) (size : BitVec 64) : Option (Block × Block) :=
  match (staticMalloc p size).1, ptr with
  | some newptr, some old => some (⟨old, size.toNat⟩, ⟨newptr, size.toNat⟩)
  | _, _ => none

/-- The pool and the blocks given out after these calls. -/
def PoolRun.ofCalls (cs : List Call) : PoolRun := cs.foldl PoolRun.step PoolRun.init

/-- What a caller may rely on when `static_realloc` is to make the block `b`
one of `m` bytes. -/
structure ReallocSound (r : PoolRun) (b : Block) (m : BitVec 64) : Prop where
  null : (staticRealloc r.pool (some b.start) m).1 = none →
    (staticRealloc r.pool (some b.start) m).2 = r.pool
  inside : ∀ ptr, (staticRealloc r.pool (some b.start) m).1 = some ptr →
    ptr + m.toNat ≤ CURL_MEMORY_POOL_SIZE
  fresh : ∀ ptr, (staticRealloc r.pool (some b.start) m).1 = some ptr →
    ∀ b' ∈ r.blocks, Disjoint (Block.mk ptr m.toNat).range b'.range
  /-- What fits of the old block is in the new one. -/
  copied : ∀ ptr, (staticRealloc r.pool (some b.start) m).1 = some ptr →
    ∀ k < min b.size m.toNat,
      (staticRealloc r.pool (some b.start) m).2.curlMemoryPool (ptr + k)
        = r.pool.curlMemoryPool (b.start + k)
  others : ∀ ptr, (staticRealloc r.pool (some b.start) m).1 = some ptr →
    ∀ b' ∈ r.blocks, b' ≠ b → ∀ i ∈ b'.range,
      (staticRealloc r.pool (some b.start) m).2.curlMemoryPool i = r.pool.curlMemoryPool i
  source : ∀ read written, reallocMemcpy r.pool (some b.start) m = some (read, written) →
    read.range ⊆ b.range
  apart : ∀ read written, reallocMemcpy r.pool (some b.start) m = some (read, written) →
    Disjoint read.range written.range

/-- The capacity test of `static_malloc` refuses `m` bytes. -/
def Refused (p : Pool) (m : BitVec 64) : Prop :=
  CURL_MEMORY_POOL_SIZE < (p.memoryPoolIndex + m).toNat

/-- The `m` bytes from the index on are bytes of the pool, and of no block. -/
def Unused (r : PoolRun) (m : BitVec 64) : Prop :=
  r.pool.memoryPoolIndex.toNat + m.toNat ≤ CURL_MEMORY_POOL_SIZE ∧
    ∀ b ∈ r.blocks, Disjoint (Block.mk r.pool.memoryPoolIndex.toNat m.toNat).range b.range

section Reallocs

variable {p : Pool} {r : PoolRun} {b : Block} {m : BitVec 64}

theorem store_outside {mem bytes : Nat → Byte} {dst n i : Nat}
    (h : i ∉ (Block.mk dst n).range) : store mem dst n bytes i = mem i := if_neg h

theorem store_inside {mem bytes : Nat → Byte} {dst n k : Nat} (h : k < n) :
    store mem dst n bytes (dst + k) = bytes k := by
  unfold store
  rw [if_pos (by omega), Nat.add_sub_cancel_left]

/-- A refused call returns NULL and copies nothing. -/
theorem staticRealloc_refused (h : Refused p m) (ptr : Option Nat) :
    staticRealloc p ptr m = (none, p) ∧ reallocMemcpy p ptr m = none := by
  unfold staticRealloc reallocMemcpy
  rw [staticMalloc_full h]
  exact ⟨rfl, rfl⟩

/-- Any other returns the bytes from the index on, and copies into them. -/
theorem staticRealloc_fits (h : ¬Refused p m) (old : Nat) :
    staticRealloc p (some old) m = (some p.memoryPoolIndex.toNat,
        { memoryPoolIndex := p.memoryPoolIndex + m
          curlMemoryPool := store p.curlMemoryPool p.memoryPoolIndex.toNat m.toNat
            fun k => p.curlMemoryPool (old + k) }) ∧
      reallocMemcpy p (some old) m
        = some (⟨old, m.toNat⟩, ⟨p.memoryPoolIndex.toNat, m.toNat⟩) := by
  unfold staticRealloc reallocMemcpy
  rw [staticMalloc_fits (Nat.le_of_not_lt h)]
  exact ⟨rfl, rfl⟩

/-- A block holds the bytes of a longer one only if those are none. -/
theorem range_subset_iff (start n m : Nat) :
    (Block.mk start m).range ⊆ (Block.mk start n).range ↔ m ≤ n := by
  constructor
  · intro h
    by_contra hlt
    have hlast := @h (start + n) ⟨Nat.le_add_right _ _, by show _ < start + m; omega⟩
    exact Nat.lt_irrefl _ hlast.2
  · intro h i hi
    exact ⟨hi.1, Nat.lt_of_lt_of_le hi.2 (Nat.add_le_add_left h start)⟩

/-- **One reallocation** is as it should be exactly when it is refused, or
does not grow the block and gets bytes that are in no other use. -/
theorem reallocSound_iff (hb : b ∈ r.blocks) :
    ReallocSound r b m ↔ Refused r.pool m ∨ m.toNat ≤ b.size ∧ Unused r m := by
  by_cases hrefused : Refused r.pool m
  · obtain ⟨hnull, hnone⟩ := staticRealloc_refused hrefused (some b.start)
    refine iff_of_true ?_ (.inl hrefused)
    constructor <;> simp [hnull, hnone]
  · obtain ⟨hsome, hcopy⟩ := staticRealloc_fits hrefused b.start
    rw [or_iff_right hrefused]
    constructor
    · intro h
      refine ⟨(range_subset_iff b.start b.size m.toNat).mp (h.source _ _ hcopy), ?_, ?_⟩
      · exact h.inside _ (by rw [hsome])
      · exact h.fresh _ (by rw [hsome])
    · intro ⟨hsize, hinside, hfresh⟩
      have hread := (range_subset_iff b.start b.size m.toNat).mpr hsize
      constructor
      · simp [hsome]
      · intro ptr hptr
        cases (congrArg Prod.fst hsome).symm.trans hptr
        exact hinside
      · intro ptr hptr
        cases (congrArg Prod.fst hsome).symm.trans hptr
        exact hfresh
      · intro ptr hptr k hk
        cases (congrArg Prod.fst hsome).symm.trans hptr
        simp only [hsome]
        rw [store_inside (Nat.lt_of_lt_of_le hk (Nat.min_le_right _ _))]
      · intro ptr hptr b' hb' _ i hi
        simp only [hsome]
        rw [store_outside fun hnew => Set.disjoint_left.mp (hfresh b' hb') hnew hi]
      · intro read written hmem
        cases hcopy.symm.trans hmem
        exact hread
      · intro read written hmem
        cases hcopy.symm.trans hmem
        exact (hfresh b hb).symm.mono_left hread

/-- In an arena whatever is not refused is unused. -/
theorem Refines.unused {a : Arena CURL_MEMORY_POOL_SIZE} (hr : Refines r a) (hb : b ∈ r.blocks)
    (hsize : m.toNat ≤ b.size) (h : ¬Refused r.pool m) : Unused r m := by
  have hindex := hr.index
  have hbelow := a.below b (hr.blocks ▸ hb)
  have hsum := index_add_toNat r.pool.memoryPoolIndex m
  have hused := a.used_le
  have hpool : CURL_MEMORY_POOL_SIZE + CURL_MEMORY_POOL_SIZE < 2 ^ 64 := by decide
  unfold Refused at h
  refine ⟨by omega, fun b' hb' => ?_⟩
  rw [hindex]
  exact a.next_disjoint _ b' (hr.blocks ▸ hb')

end Reallocs

/-- **`static_realloc` of any block after any calls** does what it should
exactly when it is refused, or does not grow the block and gets bytes that
are in no other use; as long as no size arithmetic has wrapped, the second
is no more than not to grow the block. -/
theorem realloc_sound_iff (cs : List Call) {b : Block} (hb : b ∈ (PoolRun.ofCalls cs).blocks)
    (m : BitVec 64) :
    (ReallocSound (PoolRun.ofCalls cs) b m ↔
      Refused (PoolRun.ofCalls cs).pool m ∨
        m.toNat ≤ b.size ∧ Unused (PoolRun.ofCalls cs) m) ∧
    (EveryStep PoolRun.step (fun r c => NoWrap r.pool c) PoolRun.init cs →
      (ReallocSound (PoolRun.ofCalls cs) b m ↔
        Refused (PoolRun.ofCalls cs).pool m ∨ m.toNat ≤ b.size)) := by
  refine ⟨reallocSound_iff hb, fun hnowrap => ?_⟩
  obtain ⟨a, hr⟩ : ∃ a, Refines (PoolRun.ofCalls cs) a :=
    everyStep_keeps (I := fun r => ∃ a, Refines r a)
      (fun _ _ ⟨_, hr⟩ hc => refines_call hr hc) ⟨_, refines_init⟩ hnowrap
  rw [reallocSound_iff hb]
  constructor
  · exact Or.imp_right And.left
  · intro h
    by_cases hrefused : Refused (PoolRun.ofCalls cs).pool m
    · exact .inl hrefused
    · have hsize := h.resolve_left hrefused
      exact .inr ⟨hsize, hr.unused hb hsize hrefused⟩

/-- Eight bytes are made four. -/
theorem realloc_sound_iff_shrink :
    ReallocSound (PoolRun.ofCalls [.malloc 8#64]) ⟨0, 8⟩ 4#64 :=
  ((realloc_sound_iff [.malloc 8#64] List.mem_cons_self 4#64).2
    ⟨(by decide : 0 + 8 < 2 ^ 64), trivial⟩).mpr (.inr (by decide))

/-- Made sixteen, they are copied with the first half of the new block,
which is written at the same time. -/
theorem realloc_grows :
    ¬ReallocSound (PoolRun.ofCalls [.malloc 8#64]) ⟨0, 8⟩ 16#64 := by
  intro h
  have hread := h.source ⟨0, 16⟩ ⟨8, 16⟩ rfl
  exact absurd (hread ⟨Nat.zero_le _, (by decide : 8 < 16)⟩).2 (by decide)

end BeEasy.Curl
