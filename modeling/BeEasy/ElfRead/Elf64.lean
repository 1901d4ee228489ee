import BeEasy.CVerif.Mapping
import Mathlib.Tactic.MkIffOfInductiveProp

/-!
# ElfRead — elf64

`main` of `elf64.c`: it maps a file, tests whether it is an executable, and
prints its entry point, its sections and its segments. Where these are is
what the file says, and `main` goes there. A `.uuid` section is copied into an
array of 64 bytes as long as the file says it is.

The first tests are made on the mapping's first page, where zeros follow a
short file. Every later read is a read of the file, with the fault that
`Mapping` has for one outside it.
-/

namespace BeEasy

open CVerif

namespace ElfRead

/-! ## `elf.h` -/

namespace Ehdr
def eType : Member := ⟨16, 2⟩
def eEntry : Member := ⟨24, 8⟩
def ePhoff : Member := ⟨32, 8⟩
def eShoff : Member := ⟨40, 8⟩
def ePhnum : Member := ⟨56, 2⟩
def eShnum : Member := ⟨60, 2⟩
def eShstrndx : Member := ⟨62, 2⟩
end Ehdr

namespace Shdr
def size : Nat := 64
def shName : Member := ⟨0, 4⟩
def shAddr : Member := ⟨16, 8⟩
def shOffset : Member := ⟨24, 8⟩
def shSize : Member := ⟨32, 8⟩
end Shdr

namespace Phdr
def size : Nat := 56
def pType : Member := ⟨0, 4⟩
def pOffset : Member := ⟨8, 8⟩
def pVaddr : Member := ⟨16, 8⟩
end Phdr

def etExec : Nat := 2

def ptLoad : Nat := 1
def ptDynamic : Nat := 2
def ptInterp : Nat := 3
def ptNote : Nat := 4
def ptPhdr : Nat := 6

/-! ## main -/

/-- What is printed about an executable, line by line. -/
inductive Line where
  | entryPoint (addr : Nat)
  | sectionHeader (name : List Byte) (addr offset size : Nat)
  | uuidFound (offset size : Nat)
  /-- The array; where it has no NUL, more is printed than it has. -/
  | uuid (bytes : List Byte)
  | textSegment (vaddr : Nat)
  | dataSegment (vaddr : Nat)
  | interpreter (path : List Byte)
  | noteSegment (vaddr : Nat)
  | dynamicSegment (vaddr : Nat)
  | phdrSegment (vaddr : Nat)

inductive Outcome where
  | rejected
  | printed (lines : List Line)

/-- `mem[0] != 0x7f && strcmp(&mem[1], "ELF")`. -/
def notElf (mem : List Byte) : Bool :=
  mem.head? ≠ some 0x7f && stringAt (mem.drop 1) ≠ [69, 76, 70]

/-- What passes both tests: the magic, and `e_type`. -/
def accepts (host : Host) (f : Mapping) : Bool :=
  let mem := f.content ++ List.replicate 64 0
  !notElf mem && host.load ((mem.drop Ehdr.eType.offset).take Ehdr.eType.size) = etExec

/-- `char uuid[64]`. -/
structure Uuid where
  bytes : List Byte
  length_eq : bytes.length = 64

def Uuid.zeros : Uuid := ⟨List.replicate 64 0, rfl⟩

/-- `memcpy(uuid, bs, size)`. -/
def Uuid.memcpy (uuid : Uuid) (bs : List Byte) : Except Fault Uuid :=
  if h : bs.length ≤ 64 then
    have hlen : (bs ++ uuid.bytes.drop bs.length).length = 64 := by
      rw [List.length_append, List.length_drop, uuid.length_eq]
      omega
    .ok ⟨_, hlen⟩
  else .error .outOfBounds

/-- `strncmp(name, ".uuid", strlen(".uuid")) == 0`. -/
def isUuid (name : List Byte) : Bool := name.take 5 = [46, 117, 117, 105, 100]

/-- The body of the loop over the sections. -/
def printSection (host : Host) (f : Mapping) (stringTable shdr : Nat) (uuid : Uuid) :
    Except Fault (List Line × Uuid) := do
  let shName ← f.field host shdr Shdr.shName
  let name ← f.string (stringTable + shName)
  let addr ← f.field host shdr Shdr.shAddr
  let offset ← f.field host shdr Shdr.shOffset
  let size ← f.field host shdr Shdr.shSize
  let line := .sectionHeader name addr offset size
  if isUuid name then do
    let bytes ← f.read offset size
    let uuid ← uuid.memcpy bytes
    return ([line, .uuidFound offset size, .uuid uuid.bytes], uuid)
  else return ([line], uuid)

/-- The loop over the sections with these indices. -/
def printSections (host : Host) (f : Mapping) (stringTable shdr : Nat) :
    List Nat → Uuid → Except Fault (List Line)
  | [], _ => return []
  | i :: is, uuid => do
      let (lines, uuid) ← printSection host f stringTable (shdr + Shdr.size * i) uuid
      return lines ++ (← printSections host f stringTable shdr is uuid)

/-- The `switch` over the type of a segment. -/
def printSegment (host : Host) (f : Mapping) (phdr : Nat) : Except Fault (List Line) := do
  let pType ← f.field host phdr Phdr.pType
  if pType = ptLoad then do
    let offset ← f.field host phdr Phdr.pOffset
    let vaddr ← f.field host phdr Phdr.pVaddr
    return [if offset = 0 then .textSegment vaddr else .dataSegment vaddr]
  else if pType = ptInterp then do
    let offset ← f.field host phdr Phdr.pOffset
    let interp ← f.string offset
    return [.interpreter interp]
  else if pType = ptNote then return [.noteSegment (← f.field host phdr Phdr.pVaddr)]
  else if pType = ptDynamic then return [.dynamicSegment (← f.field host phdr Phdr.pVaddr)]
  else if pType = ptPhdr then return [.phdrSegment (← f.field host phdr Phdr.pVaddr)]
  else return []

/-- The loop over the segments with these indices. -/
def printSegments (host : Host) (f : Mapping) (phdr : Nat) : List Nat → Except Fault (List Line)
  | [] => return []
  | i :: is => do
      let lines ← printSegment host f (phdr + Phdr.size * i)
      return lines ++ (← printSegments host f phdr is)

/-- All that is printed of a file that passes the tests. -/
def printElf (host : Host) (f : Mapping) : Except Fault (List Line) := do
  let phdr ← f.field host 0 Ehdr.ePhoff
  let shdr ← f.field host 0 Ehdr.eShoff
  let entry ← f.field host 0 Ehdr.eEntry
  let shstrndx ← f.field host 0 Ehdr.eShstrndx
  let stringTable ← f.field host (shdr + Shdr.size * shstrndx) Shdr.shOffset
  let shnum ← f.field host 0 Ehdr.eShnum
  -- the section with index 0 is left out
  let sections ← printSections host f stringTable shdr (List.range' 1 (shnum - 1)) .zeros
  let phnum ← f.field host 0 Ehdr.ePhnum
  let segments ← printSegments host f phdr (List.range phnum)
  return .entryPoint entry :: (sections ++ segments)

/-- `main` on a file that can be opened. -/
def main (host : Host) (f : Mapping) : Except Fault Outcome := do
  -- `mmap` fails on an empty file
  if f.content = [] then return .rejected
  else if accepts host f then return .printed (← printElf host f)
  else return .rejected

/-! ## Files with everything inside -/

/-- What the loop reads of a section is in the file, and its UUID in the array. -/
structure SectionInside (host : Host) (f : Mapping) (stringTable shdr : Nat) : Prop where
  header : f.Inside shdr 40
  name : f.HasString (stringTable + f.value host shdr Shdr.shName)
  uuid : isUuid (f.stringValue (stringTable + f.value host shdr Shdr.shName)) →
    f.Inside (f.value host shdr Shdr.shOffset) (f.value host shdr Shdr.shSize) ∧
      f.value host shdr Shdr.shSize ≤ 64

/-- What the `switch` reads of a segment is in the file. -/
@[mk_iff segmentInside_iff]
structure SegmentInside (host : Host) (f : Mapping) (phdr : Nat) : Prop where
  type : f.Inside phdr 4
  interp : f.value host phdr Phdr.pType = ptInterp →
    f.Inside phdr 16 ∧ f.HasString (f.value host phdr Phdr.pOffset)
  address : f.value host phdr Phdr.pType ∈ [ptLoad, ptNote, ptDynamic, ptPhdr] →
    f.Inside phdr 24

namespace Ehdr

/-- The header of the section with this index. -/
def shdr (host : Host) (f : Mapping) (i : Nat) : Nat :=
  f.value host 0 eShoff + Shdr.size * i

def phdr (host : Host) (f : Mapping) (i : Nat) : Nat :=
  f.value host 0 ePhoff + Phdr.size * i

/-- The header of the section the names are in. -/
def strtab (host : Host) (f : Mapping) : Nat := shdr host f (f.value host 0 eShstrndx)

end Ehdr

/-- The headers and what they point to are in the file. -/
structure ElfInside (host : Host) (f : Mapping) : Prop where
  header : 64 ≤ f.content.length
  strtab : f.Inside (Ehdr.strtab host f + Shdr.shOffset.offset) Shdr.shOffset.size
  sections : ∀ i, 1 ≤ i → i < f.value host 0 Ehdr.eShnum →
    SectionInside host f (f.value host (Ehdr.strtab host f) Shdr.shOffset) (Ehdr.shdr host f i)
  segments : ∀ i, i < f.value host 0 Ehdr.ePhnum → SegmentInside host f (Ehdr.phdr host f i)

section Walk

variable (host : Host) (f : Mapping) (stringTable shdr phdr : Nat) (uuid : Uuid) (is : List Nat)

theorem safe_memcpy_iff (bs : List Byte) : Safe (uuid.memcpy bs) ↔ bs.length ≤ 64 := by
  constructor
  · intro h
    by_contra hlong
    rw [Uuid.memcpy, dif_neg hlong] at h
    exact safe_error _ h
  · intro h
    rw [Uuid.memcpy, dif_pos h]
    exact safe_ok _

/-- The UUID of a section is copied safely. -/
theorem safe_uuid_iff (offset size : Nat) :
    f.Inside offset size ∧ Safe (uuid.memcpy (f.bytes offset size))
      ↔ f.Inside offset size ∧ size ≤ 64 := by
  rw [safe_memcpy_iff]
  refine and_congr_right fun h => ?_
  rw [Mapping.length_bytes h]

/-- **A section is printed safely exactly when it is inside**, whatever was
copied before. -/
theorem safe_printSection_iff :
    Safe (printSection host f stringTable shdr uuid)
      ↔ SectionInside host f stringTable shdr := by
  simp only [printSection, Mapping.safe_field_bind, Mapping.safe_string_bind]
  constructor
  · intro ⟨hfirst, hname, _, _, hlast, hcopy⟩
    refine ⟨hfirst.join hlast (by decide) (by decide) (by decide), hname, fun huuid => ?_⟩
    rw [if_pos huuid, Mapping.safe_read_bind, safe_bind_pure_iff] at hcopy
    exact (safe_uuid_iff f uuid _ _).mp hcopy
  · intro ⟨header, hname, hcopy⟩
    refine ⟨header.part (by decide), hname, header.part (by decide), header.part (by decide),
      header.part (by decide), ?_⟩
    split
    case isTrue huuid =>
        rw [Mapping.safe_read_bind, safe_bind_pure_iff]
        exact (safe_uuid_iff f uuid _ _).mpr (hcopy huuid)
    case isFalse => exact safe_pure _

theorem safe_printSections_iff :
    Safe (printSections host f stringTable shdr is uuid)
      ↔ ∀ i ∈ is, SectionInside host f stringTable (shdr + Shdr.size * i) := by
  induction is generalizing uuid with
  | nil => exact iff_of_true (safe_pure _) nofun
  | cons i is ih =>
      rw [printSections, safe_bind_iff, List.forall_mem_cons, ← safe_printSection_iff _ _ _ _ uuid]
      -- the rest is safe whatever the array has become
      simp only [safe_bind_pure_iff, ih]
      exact exists_and_right

/-- **A segment is printed safely exactly when it is inside.** -/
theorem safe_printSegment_iff :
    Safe (printSegment host f phdr) ↔ SegmentInside host f phdr := by
  rw [printSegment, Mapping.safe_field_bind, segmentInside_iff]
  refine and_congr_right fun htype => ?_
  have hvaddr : f.Inside (phdr + 16) 8 ↔ f.Inside phdr 24 :=
    ⟨fun h => htype.join h (by decide) (by decide) (by decide), fun h => h.part (by decide)⟩
  have haddress (line : Nat → Line) :
      Safe (do return [line (← f.field host phdr Phdr.pVaddr)]) ↔ f.Inside phdr 24 := by
    rw [safe_bind_pure_iff, ← hvaddr]
    exact Mapping.safe_field_iff
  by_cases hinterp : f.value host phdr Phdr.pType = ptInterp
  · rw [hinterp, if_neg (by decide), if_pos rfl, Mapping.safe_field_bind,
      Mapping.safe_string_bind]
    constructor
    · intro ⟨hoffset, hstring, _⟩
      have hjoin := htype.join hoffset (by decide) (by decide) (by decide)
      exact ⟨fun _ => ⟨hjoin, hstring⟩, fun h => absurd h (by decide)⟩
    · intro ⟨h, _⟩
      obtain ⟨hoffset, hstring⟩ := h rfl
      exact ⟨hoffset.part (by decide), hstring, safe_pure _⟩
  · rw [if_neg hinterp, and_iff_right (absurd · hinterp)]
    simp only [List.mem_cons, List.not_mem_nil]
    refine safe_ite_or_iff ?_ (safe_ite_or_iff (haddress _) (safe_ite_or_iff (haddress _)
      (safe_ite_or_iff (haddress _) ?_)))
    · rw [Mapping.safe_field_bind, Mapping.safe_field_bind]
      exact ⟨fun ⟨_, h, _⟩ => hvaddr.mp h,
        fun h => ⟨h.part (by decide), h.part (by decide), safe_pure _⟩⟩
    · exact iff_of_true (safe_pure _) False.elim

theorem safe_printSegments_iff :
    Safe (printSegments host f phdr is)
      ↔ ∀ i ∈ is, SegmentInside host f (phdr + Phdr.size * i) := by
  induction is with
  | nil => exact iff_of_true (safe_pure _) nofun
  | cons i is ih =>
      rw [printSegments, safe_bind_iff, List.forall_mem_cons, ← safe_printSegment_iff]
      simp only [safe_bind_pure_iff, ih]
      exact exists_and_right

end Walk

section Main

variable (host : Host) (f : Mapping)

/-- **The walk is safe exactly when all it goes to is inside.** -/
theorem safe_printElf_iff : Safe (printElf host f) ↔ ElfInside host f := by
  have hindex (n i : Nat) : i ∈ List.range' 1 (n - 1) ↔ 1 ≤ i ∧ i < n := by
    rw [List.mem_range'_1]
    omega
  simp only [printElf, Mapping.safe_field_bind]
  rw [safe_bind_iff]
  simp only [Mapping.safe_field_bind, safe_bind_pure_iff, safe_printSegments_iff]
  constructor
  · intro ⟨_, _, _, hlast, hstrtab, _, lines, hlines, _, hsegments⟩
    have hsections := (safe_printSections_iff ..).mp ⟨lines, hlines⟩
    refine ⟨(Mapping.inside_iff (by decide)).mp hlast, hstrtab, fun i hi hlt => ?_, fun i hi => ?_⟩
    · exact hsections i ((hindex _ i).mpr ⟨hi, hlt⟩)
    · exact hsegments i (List.mem_range.mpr hi)
  · intro ⟨hlength, hstrtab, hsections, hsegments⟩
    have header : f.Inside 0 64 := .inr (by rwa [Nat.zero_mod, Nat.zero_add])
    have hindexed : ∀ i ∈ List.range' 1 (f.value host 0 Ehdr.eShnum - 1), SectionInside host f
        (f.value host (Ehdr.strtab host f) Shdr.shOffset) (Ehdr.shdr host f i) := by
      intro i hi
      obtain ⟨hpos, hlt⟩ := (hindex _ i).mp hi
      exact hsections i hpos hlt
    obtain ⟨lines, hlines⟩ := (safe_printSections_iff _ _ _ _ .zeros _).mpr hindexed
    exact ⟨header.part (by decide), header.part (by decide), header.part (by decide),
      header.part (by decide), hstrtab, header.part (by decide), lines, hlines,
      header.part (by decide), fun i hi => hsegments i (List.mem_range.mp hi)⟩

/-- An empty file would not pass the tests either. -/
theorem accepts_nil (h : f.content = []) : accepts host f = false := by
  rw [accepts, h]
  rfl

/-- **`main` stays inside the file and the array exactly when it rejects the
file or all of it is inside.** -/
theorem elf64_safe_iff : Safe (main host f) ↔ accepts host f = false ∨ ElfInside host f := by
  rw [← safe_printElf_iff]
  by_cases hnil : f.content = []
  · rw [main, if_pos hnil]
    exact iff_of_true (safe_pure _) (.inl (accepts_nil host f hnil))
  · rw [main, if_neg hnil]
    by_cases h : accepts host f = true
    · rw [if_pos h, safe_bind_pure_iff, h]
      exact (or_iff_right nofun).symm
    · rw [if_neg h]
      exact iff_of_true (safe_pure _) (.inl (Bool.eq_false_of_not_eq_true h))

end Main

-- an executable of nothing but its header, which has no sections and no segments
example : main .little ⟨[0x7f, 69, 76, 70] ++ List.replicate 12 0 ++ [2, 0]
    ++ List.replicate 46 0, by decide⟩ = .ok (.printed [.entryPoint 0]) := rfl

/-- An executable cut off behind its header, which says that the section
headers begin there. -/
def cutOff : Mapping where
  content := [0x7f, 69, 76, 70] ++ List.replicate 12 0 ++ [2, 0] ++ List.replicate 22 0
    ++ [64, 0, 0, 0, 0, 0, 0, 0] ++ List.replicate 16 0
  fits := by decide

/-- It is accepted, and the first section header is read behind its end. -/
theorem cut_off_read_outside : ¬Safe (main .little cutOff) := by
  have hfault : main .little cutOff = .error .outOfBounds := rfl
  rw [hfault]
  exact safe_error _

end ElfRead

end BeEasy
