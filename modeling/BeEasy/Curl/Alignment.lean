import BeEasy.Curl.Realloc

/-!
# Curl — Alignment

Where in the pool the blocks begin. `static_malloc` rounds nothing, so the
next block begins where the sizes of all blocks before it add up to, and is
aligned exactly when they add up to a multiple of 8.
-/

namespace BeEasy.Curl

open CVerif

/-- The calls whose blocks may hold any object; `static_strup` gives out
strings. -/
def Call.anyObject : Call → Bool
  | .malloc _ => true
  | .calloc _ _ => true
  | .realloc _ _ => true
  | _ => false

/-- The pointer of a call, with the pool at address `base`, is a multiple of 8. -/
def CallAligned (base : Nat) (r : PoolRun) (c : Call) : Prop :=
  c.anyObject = true → ∀ ptr, (r.pool.call c).1 = some ptr → 8 ∣ base + ptr

/-- The sizes of the blocks given out since the last reset, added up. -/
def PoolRun.total (r : PoolRun) : Nat := (r.blocks.map Block.size).sum

/-- A call for an object that is not refused comes when the sizes so far add
up to a multiple of 8. -/
def TotalAligned (r : PoolRun) (c : Call) : Prop :=
  c.anyObject = true → ∀ t, c.mallocSize = some t → ¬Refused r.pool t → 8 ∣ r.total

/-- The index is the sum of the sizes, in 64 bits. -/
def IndexIsTotal (r : PoolRun) : Prop := r.pool.memoryPoolIndex.toNat = r.total % 2 ^ 64

section Steps

variable {r : PoolRun} {c : Call} {t : BitVec 64} {base : Nat}

/-- The pointer of an allocating call is the index, unless it is refused. -/
theorem call_pointer (hc : c.mallocSize = some t) :
    (r.pool.call c).1
      = if CURL_MEMORY_POOL_SIZE < (r.pool.memoryPoolIndex + t).toNat then none
        else some r.pool.memoryPoolIndex.toNat := by
  rw [(call_of_mallocSize hc).1]
  unfold staticMalloc
  split <;> rfl

theorem indexIsTotal_step (h : IndexIsTotal r) : IndexIsTotal (r.step c) := by
  cases hc : c.mallocSize with
  | none =>
      rcases mallocSize_none hc with ⟨ptr, rfl⟩ | rfl
      · exact h
      · rfl
  | some t =>
      obtain ⟨-, hindex, hnull⟩ := call_of_mallocSize (p := r.pool) hc
      have hptr := call_pointer (r := r) hc
      have hblocks := step_blocks (r := r) hc
      by_cases hrefused : CURL_MEMORY_POOL_SIZE < (r.pool.memoryPoolIndex + t).toNat
      · rw [if_pos hrefused] at hptr
        rw [hptr] at hblocks
        have hpool : (r.step c).pool = r.pool := hnull hptr
        rw [IndexIsTotal, PoolRun.total, hpool, hblocks]
        exact h
      · rw [if_neg hrefused] at hptr
        rw [hptr] at hblocks
        rw [staticMalloc_fits (Nat.le_of_not_lt hrefused)] at hindex
        have hnext : (r.step c).pool.memoryPoolIndex = r.pool.memoryPoolIndex + t := hindex
        -- the size is the request in 64 bits, and sums do not care
        rw [IndexIsTotal, PoolRun.total, hnext, hblocks, BitVec.toNat_add, mallocSize_eq hc, h,
          PoolRun.total, List.map_cons, List.sum_cons, ← Nat.add_mod, Nat.add_comm]

/-- **One call** gives an aligned pointer exactly when the sizes so far add
up to a multiple of 8. -/
theorem callAligned_iff (hbase : 8 ∣ base) (h : IndexIsTotal r) :
    CallAligned base r c ↔ TotalAligned r c := by
  have hindex : 8 ∣ base + r.pool.memoryPoolIndex.toNat ↔ 8 ∣ r.total := by
    rw [Nat.dvd_add_right hbase, h, Nat.dvd_mod_iff (by decide : 8 ∣ 2 ^ 64)]
  refine imp_congr_right fun hobject => ?_
  cases hc : c.mallocSize with
  | none => rcases mallocSize_none hc with ⟨ptr, rfl⟩ | rfl <;> cases hobject
  | some t =>
      rw [call_pointer hc, ← hindex]
      by_cases hrefused : CURL_MEMORY_POOL_SIZE < (r.pool.memoryPoolIndex + t).toNat
      · rw [if_pos hrefused]
        refine iff_of_true nofun fun t' ht' hfits => ?_
        cases ht'
        exact absurd hrefused hfits
      · rw [if_neg hrefused]
        constructor
        · intro haligned t' ht' hfits
          exact haligned _ rfl
        · intro htotal ptr hptr
          cases hptr
          exact htotal t rfl hrefused

end Steps

/-- **Every pointer for an object is aligned exactly when, at each such call
that is not refused, the sizes given out so far add up to a multiple of 8.** -/
theorem pointers_aligned_iff {base : Nat} (hbase : 8 ∣ base) (cs : List Call) :
    EveryStep PoolRun.step (CallAligned base) PoolRun.init cs ↔
      EveryStep PoolRun.step TotalAligned PoolRun.init cs :=
  everyStep_congr (fun _ _ h _ => indexIsTotal_step h) (fun _ _ h => callAligned_iff hbase h)
    (rfl : IndexIsTotal PoolRun.init) cs

/-- Two blocks of eight bytes. -/
theorem pointers_aligned_iff_eights :
    EveryStep PoolRun.step (CallAligned 4096) PoolRun.init [.malloc 8#64, .calloc 2#64 4#64] := by
  refine (pointers_aligned_iff (by decide) _).mpr ⟨?_, ?_, trivial⟩
  · intro _ t _ _
    exact Nat.dvd_zero 8
  · intro _ t _ _
    exact (by decide : 8 ∣ 8)

/-- Behind a string of one byte the next block is not aligned. -/
theorem pointer_behind_string :
    ¬EveryStep PoolRun.step (CallAligned 4096) PoolRun.init
      [.strup ⟨[65], by decide⟩, .malloc 8#64] := by
  intro ⟨_, haligned, _⟩
  exact absurd (haligned rfl 2 rfl) (by decide)

end BeEasy.Curl
