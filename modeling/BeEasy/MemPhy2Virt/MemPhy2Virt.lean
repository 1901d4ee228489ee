import BeEasy.CVerif.Bytes
import BeEasy.CVerif.Pages

/-!
# MemPhy2Virt — registers through /dev/mem

`memPhy2Virt.c`: `_memMap` maps the pages that hold a physical address,
`_memUnmap` undoes it, and `showRegValue`, `readReg` and `writeReg` access
words of 4 bytes in between. Each of the three asks for a single byte.

The functions are modelled with what they do to the address space, in order
(`Event`); what they print is left out. The kernel's answers are an argument
(`Kernel`).
-/

namespace BeEasy.MemPhy2Virt

open CVerif

abbrev ULong := BitVec 64

def PAGE_SIZE : ULong := 0x1000
def PAGE_SIZE_MASK : ULong := 0xfffffffffffff000

/-- What a program does to its address space. An access is one of 4 bytes. -/
inductive Event where
  | mmap (offset length base : ULong)
  | read (addr : ULong)
  | write (addr : ULong) (value : BitVec 32)
  | munmap (base length : ULong)
  deriving DecidableEq

/-- Whether `/dev/mem` opens, where `mmap` puts a length at an offset, whether
`munmap` succeeds, and the words in memory. A mapping begins at a page other
than the first and does not run past the last. -/
structure Kernel where
  opens : Bool
  mmap : ULong → ULong → Option ULong
  munmap : ULong → ULong → Bool
  word : ULong → BitVec 32
  aligned : ∀ length offset base, mmap length offset = some base → 0x1000 ∣ base.toNat
  nonzero : ∀ length offset base, mmap length offset = some base → base ≠ 0
  within : ∀ length offset base, mmap length offset = some base →
    base.toNat + length.toNat ≤ 2 ^ 64

/-! ## The functions -/

/-- What `_memMap` leaves: the pointer it returns, the two variables of the
caller, and what it did. -/
structure Mapped where
  virtAddr : ULong
  pageDiff : ULong
  sizeInPage : ULong
  trace : List Event

/-- The page of `phyAddr`, the offset in it, and the size in whole pages. -/
def phyAddrInPage (phyAddr : ULong) : ULong := phyAddr &&& PAGE_SIZE_MASK

def pageDiff (phyAddr : ULong) : ULong := phyAddr - phyAddrInPage phyAddr

def sizeInPage (phyAddr size : ULong) : ULong :=
  ((size + pageDiff phyAddr - 1) &&& PAGE_SIZE_MASK) + PAGE_SIZE

/-- `_memMap`, with 0 for NULL and for variables not yet set. -/
def memMap (os : Kernel) (phyAddr size : ULong) : Mapped :=
  if size = 0 then ⟨0, 0, 0, []⟩
  else if os.opens = false then ⟨0, 0, 0, []⟩
  else
    let pageDiff := pageDiff phyAddr
    let sizeInPage := sizeInPage phyAddr size
    match os.mmap sizeInPage (phyAddrInPage phyAddr) with
    | none => ⟨0, pageDiff, sizeInPage, []⟩
    | some addr =>
        ⟨addr + pageDiff, pageDiff, sizeInPage,
          [.mmap (phyAddrInPage phyAddr) sizeInPage addr]⟩

/-- `_memUnmap`: what it returns and what it did. -/
def memUnmap (os : Kernel) (virtAddr pageDiff sizeInPage : ULong) : Int × List Event :=
  let virtAddrBase := virtAddr - pageDiff
  (if os.munmap virtAddrBase sizeInPage then 0 else -1, [.munmap virtAddrBase sizeInPage])

/-- The loop of `showRegValue`, for so many more words. -/
def showWords (tmpAddr : ULong) : Nat → List Event
  | 0 => []
  | len + 1 => .read tmpAddr :: showWords (tmpAddr + 4) len

/-- Map one byte at `phyAddr`, access memory, and unmap. -/
def withMapping (os : Kernel) (phyAddr : ULong) (access : ULong → List Event) :
    Int × List Event :=
  let mapped := memMap os phyAddr 1
  if mapped.virtAddr = 0 then (-1, mapped.trace)
  else
    let (ret, events) := memUnmap os mapped.virtAddr mapped.pageDiff mapped.sizeInPage
    (if ret < 0 then -1 else 0, mapped.trace ++ access mapped.virtAddr ++ events)

/-- `showRegValue(phyAddr, len)`. -/
def showRegValue (os : Kernel) (phyAddr : ULong) (len : BitVec 32) : Int × List Event :=
  withMapping os phyAddr fun virtAddr => showWords virtAddr len.toNat

/-- `readReg(phyAddr, &value)`, with what it leaves in `value`. -/
def readReg (os : Kernel) (phyAddr : ULong) (value : BitVec 32) :
    Int × BitVec 32 × List Event :=
  let virtAddr := (memMap os phyAddr 1).virtAddr
  let (ret, events) := withMapping os phyAddr fun virtAddr => [.read virtAddr]
  (ret, if virtAddr = 0 then value else os.word virtAddr, events)

/-- `writeReg(phyAddr, value)`. -/
def writeReg (os : Kernel) (phyAddr : ULong) (value : BitVec 32) : Int × List Event :=
  withMapping os phyAddr fun virtAddr => [.write virtAddr value]

/-! ## What they are for -/

/-- The 4 bytes at `addr` are among the `length` from `base` on. -/
def Inside (base length addr : ULong) : Prop := (addr - base).toNat + 4 ≤ length.toNat

/-- Every access is inside the range that is mapped at the time. -/
def AccessesMapped : Option (ULong × ULong) → List Event → Prop
  | _, [] => True
  | _, .mmap _ length base :: events => AccessesMapped (some (base, length)) events
  | _, .munmap _ _ :: events => AccessesMapped none events
  | none, .read _ :: _ => False
  | none, .write _ _ :: _ => False
  | some (base, length), .read addr :: events =>
      Inside base length addr ∧ AccessesMapped (some (base, length)) events
  | some (base, length), .write addr _ :: events =>
      Inside base length addr ∧ AccessesMapped (some (base, length)) events

/-- Both the device and the page of `phyAddr` can be had. -/
def Kernel.Maps (os : Kernel) (phyAddr : ULong) : Prop :=
  os.opens = true ∧ os.mmap PAGE_SIZE (phyAddrInPage phyAddr) ≠ none

/-- `size` bytes from `phyAddr` on are mapped with the fewest pages, the
pointer is to the first of them, and unmapping takes back what was mapped. -/
structure MapsLeast (os : Kernel) (phyAddr size offset length base : ULong) : Prop where
  mapped : (memMap os phyAddr size).trace = [.mmap offset length base]
  sizeInPage : (memMap os phyAddr size).sizeInPage = length
  pages : 0x1000 ∣ offset.toNat ∧ 0x1000 ∣ length.toNat ∧ 0x1000 ∣ base.toNat
  covers : offset.toNat ≤ phyAddr.toNat ∧
    phyAddr.toNat + size.toNat ≤ offset.toNat + length.toNat
  least : ∀ b l, 0x1000 ∣ b → 0x1000 ∣ l → b ≤ phyAddr.toNat →
    phyAddr.toNat + size.toNat ≤ b + l →
    length.toNat ≤ l ∧ b ≤ offset.toNat ∧ offset.toNat + length.toNat ≤ b + l
  pointer : (memMap os phyAddr size).virtAddr.toNat
    = base.toNat + (phyAddr.toNat - offset.toNat)
  undone : (memUnmap os (memMap os phyAddr size).virtAddr (memMap os phyAddr size).pageDiff
    (memMap os phyAddr size).sizeInPage).2 = [.munmap base length]

/-! ## Rounding -/

section Rounding

variable {os : Kernel} {phyAddr size base : ULong}

theorem mask_bits : ∀ i : Fin 64, PAGE_SIZE_MASK.getLsbD i = decide (12 ≤ i.val) := by
  decide

/-- The mask clears the offset in the page. -/
theorem and_mask (x : ULong) : x &&& PAGE_SIZE_MASK = x >>> 12 <<< 12 := by
  apply BitVec.eq_of_getLsbD_eq
  intro i hi
  have hbit := mask_bits ⟨i, hi⟩
  rw [BitVec.getLsbD_and, hbit, BitVec.getLsbD_shiftLeft, BitVec.getLsbD_ushiftRight]
  by_cases h : 12 ≤ i
  · simp [hi, h, Nat.not_lt.mpr h]
  · simp [h, Nat.lt_of_not_le h]

theorem toNat_phyAddrInPage (x : ULong) :
    (phyAddrInPage x).toNat = pageStart 0x1000 x.toNat := by
  have hx := x.isLt
  unfold phyAddrInPage pageStart
  rw [and_mask, BitVec.toNat_shiftLeft, BitVec.toNat_ushiftRight, Nat.shiftLeft_eq,
    Nat.shiftRight_eq_div_pow]
  omega

theorem toNat_pageDiff (x : ULong) : (pageDiff x).toNat = x.toNat % 0x1000 := by
  have hx := x.isLt
  unfold pageDiff
  rw [BitVec.toNat_sub, toNat_phyAddrInPage]
  unfold pageStart
  omega

/-- The size rounded as `_memMap` does, when the sums stay below 2^64. -/
theorem toNat_sizeInPage (hsize : size ≠ 0)
    (hbound : size.toNat + phyAddr.toNat % 0x1000 + 0x1000 ≤ 2 ^ 64) :
    (sizeInPage phyAddr size).toNat = pageSpan 0x1000 phyAddr.toNat size.toNat := by
  have hpos : size.toNat ≠ 0 := fun h => hsize (BitVec.eq_of_toNat_eq h)
  have hlast : (size + pageDiff phyAddr - 1).toNat
      = size.toNat + phyAddr.toNat % 0x1000 - 1 := by
    rw [BitVec.toNat_sub, BitVec.toNat_add, toNat_pageDiff]
    show (2 ^ 64 - 1 + (size.toNat + phyAddr.toNat % 0x1000) % 2 ^ 64) % 2 ^ 64 = _
    omega
  have hmask : ((size + pageDiff phyAddr - 1) &&& PAGE_SIZE_MASK).toNat
      = pageStart 0x1000 (size.toNat + phyAddr.toNat % 0x1000 - 1) := by
    rw [← hlast]
    exact toNat_phyAddrInPage _
  unfold sizeInPage
  rw [BitVec.toNat_add, hmask]
  show (pageStart 0x1000 (size.toNat + phyAddr.toNat % 0x1000 - 1) + 0x1000) % 2 ^ 64 = _
  unfold pageStart pageSpan
  omega

/-! ## _memMap -/

theorem memMap_mapped (hsize : size ≠ 0) (hopens : os.opens = true)
    (hmmap : os.mmap (sizeInPage phyAddr size) (phyAddrInPage phyAddr) = some base) :
    memMap os phyAddr size =
      ⟨base + pageDiff phyAddr, pageDiff phyAddr, sizeInPage phyAddr size,
        [.mmap (phyAddrInPage phyAddr) (sizeInPage phyAddr size) base]⟩ := by
  unfold memMap
  rw [if_neg hsize, if_neg (by rw [hopens]; decide)]
  simp only [hmmap]

/-- A call that returns a pointer has mapped. -/
theorem mmap_of_memMap (h : (memMap os phyAddr size).virtAddr ≠ 0) :
    os.opens = true ∧
      ∃ base, os.mmap (sizeInPage phyAddr size) (phyAddrInPage phyAddr) = some base := by
  unfold memMap at h
  by_cases hsize : size = 0
  · rw [if_pos hsize] at h
    exact absurd rfl h
  cases hopens : os.opens with
  | false =>
      rw [if_neg hsize, if_pos hopens] at h
      exact absurd rfl h
  | true =>
      rw [if_neg hsize, if_neg (by rw [hopens]; decide)] at h
      cases hmmap : os.mmap (sizeInPage phyAddr size) (phyAddrInPage phyAddr) with
      | none =>
          simp only [hmmap] at h
          exact absurd rfl h
      | some base => exact ⟨rfl, base, rfl⟩

/-- The offset in the page is inside the mapping, so the sum does not wrap. -/
theorem toNat_virtAddr (hbase : base.toNat + (sizeInPage phyAddr size).toNat ≤ 2 ^ 64)
    (hspan : 0x1000 ≤ (sizeInPage phyAddr size).toNat) :
    (base + pageDiff phyAddr).toNat = base.toNat + phyAddr.toNat % 0x1000 := by
  rw [BitVec.toNat_add, toNat_pageDiff]
  omega

/-- **The fewest pages are mapped**, and unmapped again. -/
theorem memMap_least (hsize : 0 < size.toNat)
    (hbound : phyAddr.toNat + size.toNat + PAGE_SIZE.toNat ≤ 2 ^ 64)
    (hok : (memMap os phyAddr size).virtAddr ≠ 0) :
    ∃ offset length base, MapsLeast os phyAddr size offset length base := by
  have hsize' : size ≠ 0 := by
    intro hzero
    rw [hzero] at hsize
    exact absurd hsize (Nat.lt_irrefl 0)
  have hmod : phyAddr.toNat % 0x1000 ≤ phyAddr.toNat := Nat.mod_le _ _
  have hlength : (sizeInPage phyAddr size).toNat = pageSpan 0x1000 phyAddr.toNat size.toNat := by
    apply toNat_sizeInPage hsize'
    have hpage : PAGE_SIZE.toNat = 0x1000 := rfl
    omega
  have hoffset := toNat_phyAddrInPage phyAddr
  have hsplit := pageStart_add_mod 0x1000 phyAddr.toNat
  obtain ⟨hopens, base, hmmap⟩ := mmap_of_memMap hok
  have hrun := memMap_mapped hsize' hopens hmmap
  have hspan : 0x1000 ≤ (sizeInPage phyAddr size).toNat := by
    rw [hlength]
    exact Nat.le_add_left _ _
  refine ⟨phyAddrInPage phyAddr, sizeInPage phyAddr size, base, ?_, ?_, ?_, ?_, ?_, ?_, ?_⟩
  · rw [hrun]
  · rw [hrun]
  · rw [hoffset, hlength]
    exact ⟨dvd_pageStart _ _, dvd_pageSpan _ _ _, os.aligned _ _ _ hmmap⟩
  · rw [hoffset, hlength]
    exact ⟨pageStart_le _ _, pageSpan_covers (by decide)⟩
  · intro b l hb hl hstart hend
    rw [hoffset, hlength]
    have hfirst := le_pageStart hb hstart
    have hlast := pageSpan_le hsize (Nat.dvd_add hb hl) hend
    omega
  · rw [hrun, hoffset]
    show (base + pageDiff phyAddr).toNat = _
    rw [toNat_virtAddr (os.within _ _ _ hmmap) hspan]
    omega
  · rw [hrun]
    show [Event.munmap (base + pageDiff phyAddr - pageDiff phyAddr) _] = _
    rw [BitVec.add_sub_cancel]

end Rounding

/-- A kernel that puts every mapping at 0x10000, as far as it fits there. -/
def lowKernel : Kernel where
  opens := true
  mmap length _ := if 0x10000 + length.toNat ≤ 2 ^ 64 then some 0x10000 else none
  munmap _ _ := true
  word _ := 0
  aligned length offset base h := by
    by_cases hfit : 0x10000 + length.toNat ≤ 2 ^ 64
    · rw [if_pos hfit] at h
      cases h
      decide
    · rw [if_neg hfit] at h
      cases h
  nonzero length offset base h := by
    by_cases hfit : 0x10000 + length.toNat ≤ 2 ^ 64
    · rw [if_pos hfit] at h
      cases h
      decide
    · rw [if_neg hfit] at h
      cases h
  within length offset base h := by
    by_cases hfit : 0x10000 + length.toNat ≤ 2 ^ 64
    · rw [if_pos hfit] at h
      cases h
      exact hfit
    · rw [if_neg hfit] at h
      cases h

/-- Two bytes at the end of a page and the start of the next. -/
theorem memMap_least_twoPages :
    ∃ offset length base, MapsLeast lowKernel 0x1FFF 2 offset length base :=
  memMap_least (by decide) (by decide) (by decide)

/-! ## The accesses -/

section Accesses

variable {os : Kernel} {phyAddr base length : ULong} {events : List Event}

theorem inside_offset {off : Nat} (hoff : off < 2 ^ 64) :
    Inside base length (base + BitVec.ofNat 64 off) ↔ off + 4 ≤ length.toNat := by
  have hsub : base + BitVec.ofNat 64 off - base = BitVec.ofNat 64 off := by
    rw [BitVec.add_comm, BitVec.add_sub_cancel]
  unfold Inside
  rw [hsub, BitVec.toNat_ofNat, Nat.mod_eq_of_lt hoff]

/-- The words from an offset on. -/
theorem accessesMapped_showWords {off n : Nat} (hoff : off + 4 * n < 2 ^ 64) :
    AccessesMapped (some (base, length))
        (showWords (base + BitVec.ofNat 64 off) n ++ events) ↔
      (n = 0 ∨ off + 4 * n ≤ length.toNat) ∧ AccessesMapped (some (base, length)) events := by
  induction n generalizing off with
  | zero => simp [showWords]
  | succ n ih =>
      have hnext : base + BitVec.ofNat 64 off + 4 = base + BitVec.ofNat 64 (off + 4) := by
        rw [BitVec.add_assoc, BitVec.ofNat_add]
        rfl
      rw [showWords, List.cons_append, AccessesMapped, inside_offset (by omega), hnext,
        ih (by omega)]
      constructor
      · rintro ⟨hfirst, hrest, hevents⟩
        exact ⟨by omega, hevents⟩
      · rintro ⟨hall, hevents⟩
        exact ⟨by omega, by omega, hevents⟩

/-- One byte takes one page. -/
theorem sizeInPage_one (phyAddr : ULong) : sizeInPage phyAddr 1 = PAGE_SIZE := by
  apply BitVec.eq_of_toNat_eq
  have hlt : phyAddr.toNat % 0x1000 < 0x1000 := Nat.mod_lt _ (by decide)
  have hone : (1 : ULong).toNat = 1 := rfl
  rw [toNat_sizeInPage (by decide) (by omega)]
  unfold pageSpan
  show (1 + phyAddr.toNat % 0x1000 - 1) / 0x1000 * 0x1000 + 0x1000 = 0x1000
  omega

theorem memMap_one (hopens : os.opens = true)
    (hmmap : os.mmap PAGE_SIZE (phyAddrInPage phyAddr) = some base) :
    memMap os phyAddr 1 =
      ⟨base + pageDiff phyAddr, pageDiff phyAddr, PAGE_SIZE,
        [.mmap (phyAddrInPage phyAddr) PAGE_SIZE base]⟩ := by
  have hpage := sizeInPage_one phyAddr
  rw [memMap_mapped (by decide) hopens (hpage ▸ hmmap), hpage]

/-- The pointer into a mapping is none that is NULL. -/
theorem virtAddr_ne_zero (hmmap : os.mmap PAGE_SIZE (phyAddrInPage phyAddr) = some base) :
    base + pageDiff phyAddr ≠ 0 := by
  intro hzero
  have hpage := sizeInPage_one phyAddr
  have hwithin := os.within _ _ _ hmmap
  have hvirt : (base + pageDiff phyAddr).toNat = base.toNat + phyAddr.toNat % 0x1000 :=
    toNat_virtAddr (by rwa [hpage]) (by rw [hpage]; decide)
  rw [hzero] at hvirt
  apply os.nonzero _ _ _ hmmap
  apply BitVec.eq_of_toNat_eq
  have hnull : (0 : ULong).toNat = 0 := rfl
  omega

/-- Where the page is mapped, the accesses happen and are judged by it. -/
theorem accessesMapped_withMapping {access : ULong → List Event} (hopens : os.opens = true)
    (hmmap : os.mmap PAGE_SIZE (phyAddrInPage phyAddr) = some base) :
    AccessesMapped none (withMapping os phyAddr access).2 ↔
      AccessesMapped (some (base, PAGE_SIZE))
        (access (base + pageDiff phyAddr) ++ [.munmap base PAGE_SIZE]) := by
  have hbase : base + pageDiff phyAddr - pageDiff phyAddr = base := BitVec.add_sub_cancel _ _
  unfold withMapping
  rw [memMap_one hopens hmmap, if_neg (virtAddr_ne_zero hmmap)]
  simp only [memUnmap, hbase, List.cons_append, List.nil_append]
  rfl

/-- Where it is not, nothing happens. -/
theorem withMapping_unmapped {access : ULong → List Event} (h : ¬os.Maps phyAddr) :
    (withMapping os phyAddr access).2 = [] := by
  have hpage := sizeInPage_one phyAddr
  have hnull : memMap os phyAddr 1 = ⟨0, 0, 0, []⟩ ∨
      memMap os phyAddr 1 = ⟨0, pageDiff phyAddr, PAGE_SIZE, []⟩ := by
    unfold memMap
    rw [if_neg (by decide), hpage]
    cases hopens : os.opens with
    | false => exact .inl (if_pos rfl)
    | true =>
        have hnone : os.mmap PAGE_SIZE (phyAddrInPage phyAddr) = none :=
          not_not.mp fun hne => h ⟨hopens, hne⟩
        right
        rw [if_neg (by decide)]
        simp only [hnone]
  unfold withMapping
  rcases hnull with hnull | hnull
  · rw [hnull]
    rfl
  · rw [hnull]
    rfl

/-- An access of several words, from the pointer on. -/
theorem accessesMapped_words_iff {access : ULong → List Event} {n : Nat} (hn : n < 2 ^ 32)
    (haccess : ∀ base length off events, off + 4 * n < 2 ^ 64 →
      (AccessesMapped (some (base, length)) (access (base + BitVec.ofNat 64 off) ++ events) ↔
        (n = 0 ∨ off + 4 * n ≤ length.toNat) ∧
          AccessesMapped (some (base, length)) events)) :
    AccessesMapped none (withMapping os phyAddr access).2 ↔
      ¬os.Maps phyAddr ∨ n = 0 ∨ phyAddr.toNat % 0x1000 + 4 * n ≤ PAGE_SIZE.toNat := by
  by_cases hmaps : os.Maps phyAddr
  · obtain ⟨hopens, hmmap⟩ := hmaps
    obtain ⟨base, hbase⟩ := Option.ne_none_iff_exists'.mp hmmap
    have hlt : phyAddr.toNat % 0x1000 < 0x1000 := Nat.mod_lt _ (by decide)
    have hoff : pageDiff phyAddr = BitVec.ofNat 64 (phyAddr.toNat % 0x1000) := by
      apply BitVec.eq_of_toNat_eq
      rw [toNat_pageDiff, BitVec.toNat_ofNat]
      exact (Nat.mod_eq_of_lt (by omega)).symm
    have hunmap : AccessesMapped (some (base, PAGE_SIZE)) [.munmap base PAGE_SIZE] := trivial
    rw [accessesMapped_withMapping hopens hbase, hoff, haccess _ _ _ _ (by omega),
      and_iff_left hunmap, or_iff_right (not_not_intro ⟨hopens, hmmap⟩)]
  · rw [withMapping_unmapped hmaps]
    exact iff_of_true trivial (.inl hmaps)

/-- An access of one word. -/
theorem accessesMapped_word_iff {access : ULong → Event}
    (haccess : ∀ base length addr events,
      AccessesMapped (some (base, length)) (access addr :: events) ↔
        Inside base length addr ∧ AccessesMapped (some (base, length)) events) :
    AccessesMapped none (withMapping os phyAddr fun addr => [access addr]).2 ↔
      ¬os.Maps phyAddr ∨ phyAddr.toNat % 0x1000 + 4 ≤ PAGE_SIZE.toNat := by
  have hwords : AccessesMapped none (withMapping os phyAddr fun addr => [access addr]).2 ↔
      ¬os.Maps phyAddr ∨ 1 = 0 ∨ phyAddr.toNat % 0x1000 + 4 * 1 ≤ PAGE_SIZE.toNat := by
    apply accessesMapped_words_iff (by decide)
    intro base length off events hoff
    rw [List.singleton_append, haccess, inside_offset (by omega)]
    simp
  rw [hwords, or_iff_right (by decide : ¬1 = 0)]

end Accesses

/-- **When the accesses are mapped**: nothing is mapped at all, or all of
them are in the page of the first byte. -/
theorem accesses_mapped_iff (os : Kernel) (phyAddr : ULong) (len value : BitVec 32) :
    (AccessesMapped none (showRegValue os phyAddr len).2 ↔
      ¬os.Maps phyAddr ∨ len = 0 ∨ phyAddr.toNat % 0x1000 + 4 * len.toNat ≤ PAGE_SIZE.toNat) ∧
    (AccessesMapped none (readReg os phyAddr value).2.2 ↔
      ¬os.Maps phyAddr ∨ phyAddr.toNat % 0x1000 + 4 ≤ PAGE_SIZE.toNat) ∧
    (AccessesMapped none (writeReg os phyAddr value).2 ↔
      ¬os.Maps phyAddr ∨ phyAddr.toNat % 0x1000 + 4 ≤ PAGE_SIZE.toNat) := by
  refine ⟨?_, ?_, ?_⟩
  · have hlen : len = 0 ↔ len.toNat = 0 :=
      ⟨fun h => h ▸ rfl, fun h => BitVec.eq_of_toNat_eq h⟩
    rw [hlen]
    exact accessesMapped_words_iff len.isLt fun _ _ _ _ hoff => accessesMapped_showWords hoff
  · exact accessesMapped_word_iff fun _ _ _ _ => .rfl
  · exact accessesMapped_word_iff fun _ _ _ _ => .rfl

/-- The second of two words is in the page behind the one mapped, and so are
two bytes of a word at the end of a page. -/
theorem accesses_leave_page :
    ¬AccessesMapped none (showRegValue lowKernel 0x1FFC 2).2 ∧
      ¬AccessesMapped none (readReg lowKernel 0x1FFE 0).2.2 ∧
      ¬AccessesMapped none (writeReg lowKernel 0x1FFE 0).2 := by
  have htwo : (showRegValue lowKernel 0x1FFC 2).2 =
      [.mmap 0x1000 0x1000 0x10000, .read 0x10FFC, .read 0x11000, .munmap 0x10000 0x1000] := by
    decide
  have hread : (readReg lowKernel 0x1FFE 0).2.2 =
      [.mmap 0x1000 0x1000 0x10000, .read 0x10FFE, .munmap 0x10000 0x1000] := by
    decide
  have hwrite : (writeReg lowKernel 0x1FFE 0).2 =
      [.mmap 0x1000 0x1000 0x10000, .write 0x10FFE 0, .munmap 0x10000 0x1000] := by
    decide
  rw [htwo, hread, hwrite]
  refine ⟨?_, ?_, ?_⟩
  · rintro ⟨-, hsecond, -⟩
    exact absurd hsecond (by unfold Inside; decide)
  · rintro ⟨hfirst, -⟩
    exact absurd hfirst (by unfold Inside; decide)
  · rintro ⟨hfirst, -⟩
    exact absurd hfirst (by unfold Inside; decide)

end BeEasy.MemPhy2Virt
