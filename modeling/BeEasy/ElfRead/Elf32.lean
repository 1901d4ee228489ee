import BeEasy.ElfRead.Elf64

/-!
# ElfRead — elf32bit

`main` of `elf32bit.c`, the same walk over smaller structures, without the
UUID; and what the tests that both programs begin with accept. They are meant
to find the four bytes of the magic and `ET_EXEC`. The first one rejects a
file only if the byte 0x7f is missing and the string behind it is not `ELF`
either, so it lets pass what has one of the two. A genuine file has the first,
and never the second: no NUL stands behind its magic.
-/

namespace BeEasy

open CVerif

namespace ElfRead

/-! ## The switch -/

/-- The `switch` of both programs, over the members that it reads. -/
def printSegmentAs (pType pOffset pVaddr : Member) (host : Host) (f : Mapping) (phdr : Nat) :
    Except Fault (List Line) := do
  let type ← f.field host phdr pType
  if type = ptLoad then do
    let offset ← f.field host phdr pOffset
    let vaddr ← f.field host phdr pVaddr
    return [if offset = 0 then .textSegment vaddr else .dataSegment vaddr]
  else if type = ptInterp then do
    let offset ← f.field host phdr pOffset
    let interp ← f.string offset
    return [.interpreter interp]
  else if type = ptNote then return [.noteSegment (← f.field host phdr pVaddr)]
  else if type = ptDynamic then return [.dynamicSegment (← f.field host phdr pVaddr)]
  else if type = ptPhdr then return [.phdrSegment (← f.field host phdr pVaddr)]
  else return []

theorem printSegment_eq :
    printSegment = printSegmentAs Phdr.pType Phdr.pOffset Phdr.pVaddr := rfl

namespace Elf32

/-! ## `elf.h` -/

namespace Ehdr
def eType : Member := ⟨16, 2⟩
def eEntry : Member := ⟨24, 4⟩
def ePhoff : Member := ⟨28, 4⟩
def eShoff : Member := ⟨32, 4⟩
def ePhnum : Member := ⟨44, 2⟩
def eShnum : Member := ⟨48, 2⟩
def eShstrndx : Member := ⟨50, 2⟩
end Ehdr

namespace Shdr
def size : Nat := 40
def shName : Member := ⟨0, 4⟩
def shAddr : Member := ⟨12, 4⟩
def shOffset : Member := ⟨16, 4⟩
end Shdr

namespace Phdr
def size : Nat := 32
def pType : Member := ⟨0, 4⟩
def pOffset : Member := ⟨4, 4⟩
def pVaddr : Member := ⟨8, 4⟩
end Phdr

/-! ## main -/

/-- What is printed, line by line. The lines about segments are those of
`elf64.c`. -/
inductive Line where
  | entryPoint (addr : Nat)
  | sectionHeader (name : List Byte) (addr : Nat)
  | segment (line : ElfRead.Line)

inductive Outcome where
  | rejected
  | printed (lines : List Line)

/-- The tests, with the `e_type` of this header. -/
def accepts (host : Host) (f : Mapping) : Bool :=
  let mem := f.content ++ List.replicate 64 0
  !notElf mem && host.load ((mem.drop Ehdr.eType.offset).take Ehdr.eType.size) = etExec

/-- The loop over the sections with these indices. -/
def printSections (host : Host) (f : Mapping) (stringTable shdr : Nat) :
    List Nat → Except Fault (List Line)
  | [] => return []
  | i :: is => do
      let shName ← f.field host (shdr + Shdr.size * i) Shdr.shName
      let name ← f.string (stringTable + shName)
      let addr ← f.field host (shdr + Shdr.size * i) Shdr.shAddr
      return .sectionHeader name addr :: (← printSections host f stringTable shdr is)

/-- The `switch` over the type of a segment. -/
def printSegment (host : Host) (f : Mapping) (phdr : Nat) : Except Fault (List Line) := do
  let lines ← printSegmentAs Phdr.pType Phdr.pOffset Phdr.pVaddr host f phdr
  return lines.map .segment

/-- The loop over the segments with these indices. -/
def printSegments (host : Host) (f : Mapping) (phdr : Nat) : List Nat → Except Fault (List Line)
  | [] => return []
  | i :: is => do
      let lines ← printSegment host f (phdr + Phdr.size * i)
      return lines ++ (← printSegments host f phdr is)

/-- All that is printed of a file that passes the tests. -/
def printElf (host : Host) (f : Mapping) : Except Fault (List Line) := do
  let phdr ← f.field host 0 Ehdr.ePhoff
  let shdr ← f.field host 0 Ehdr.eShoff
  let entry ← f.field host 0 Ehdr.eEntry
  let shstrndx ← f.field host 0 Ehdr.eShstrndx
  let stringTable ← f.field host (shdr + Shdr.size * shstrndx) Shdr.shOffset
  let shnum ← f.field host 0 Ehdr.eShnum
  -- the section with index 0 is left out
  let sections ← printSections host f stringTable shdr (List.range' 1 (shnum - 1))
  let phnum ← f.field host 0 Ehdr.ePhnum
  let segments ← printSegments host f phdr (List.range phnum)
  return .entryPoint entry :: (sections ++ segments)

/-- `main` on a file that can be opened. -/
def main (host : Host) (f : Mapping) : Except Fault Outcome := do
  -- `mmap` fails on an empty file
  if f.content = [] then return .rejected
  else if accepts host f then return .printed (← printElf host f)
  else return .rejected

-- an executable of nothing but its header, which has no sections and no segments
example : main .little ⟨[0x7f, 69, 76, 70] ++ List.replicate 12 0 ++ [2, 0]
    ++ List.replicate 34 0, by decide⟩ = .ok (.printed [.entryPoint 0]) := rfl

/-- `e_type` is where it is in the larger header. -/
theorem accepts_eq : accepts = ElfRead.accepts := rfl

end Elf32

/-! ## What the tests accept -/

/-- 0x7f, and the letters `ELF`. -/
def magic : List Byte := [0x7f, 69, 76, 70]

/-- The file starts with the magic, and says that it is an executable. -/
structure Executable (host : Host) (f : Mapping) : Prop where
  magic : magic <+: f.content
  type : f.value host 0 Ehdr.eType = etExec

/-- A program prints what is to be printed of executables, and rejects every
other file. -/
structure Decides {Outcome : Type} (host : Host) (f : Mapping) (main printed : Except Fault Outcome)
    (rejected : Outcome) : Prop where
  executable : Executable host f → main = printed
  other : ¬Executable host f → main = .ok rejected

/-- The file is no executable by its type, starts with the magic, or has neither
the byte 0x7f nor the string `ELF` behind the first byte. -/
def TellsMagic (host : Host) (f : Mapping) : Prop :=
  f.value host 0 Ehdr.eType ≠ etExec ∨ magic <+: f.content ∨
    f.content.head? ≠ some 0x7f ∧ ¬[69, 76, 70, 0] <+: f.content.drop 1

section Magic

variable {host : Host} {f : Mapping}

/-- On a file that holds the header, the tests are the two comparisons and
`e_type`. -/
theorem accepts_iff (hlen : 52 ≤ f.content.length) :
    accepts host f = true ↔
      (f.content.head? = some 0x7f ∨ [69, 76, 70, 0] <+: f.content.drop 1) ∧
        f.value host 0 Ehdr.eType = etExec := by
  have hne : f.content ≠ [] := List.ne_nil_of_length_pos (by omega)
  have htail : 4 ≤ (f.content.drop 1).length := by
    rw [List.length_drop]
    omega
  have hhead : (f.content ++ List.replicate 64 0).head? = f.content.head? := by
    obtain ⟨b, rest, hcontent⟩ := List.exists_cons_of_ne_nil hne
    rw [hcontent]
    rfl
  have hstring : stringAt ((f.content ++ List.replicate 64 0).drop 1) = [69, 76, 70] ↔
      [69, 76, 70, 0] <+: f.content.drop 1 := by
    rw [List.drop_append_of_le_length (by omega),
      stringAt_eq_iff (by decide) (by rw [List.length_append]; exact Nat.lt_add_right _ htail)]
    exact ⟨fun h => List.prefix_of_prefix_length_le h (List.prefix_append _ _) htail,
      fun h => h.trans (List.prefix_append _ _)⟩
  have htype : ((f.content ++ List.replicate 64 0).drop 16).take 2 = f.bytes 16 2 := by
    rw [List.drop_append_of_le_length (by omega),
      List.take_append_of_le_length (by rw [List.length_drop]; omega)]
    rfl
  have hload : host.load (((f.content ++ List.replicate 64 0).drop Ehdr.eType.offset).take
      Ehdr.eType.size) = f.value host 0 Ehdr.eType := congrArg host.load htype
  simp only [accepts, notElf, hhead, hload, Bool.and_eq_true, Bool.not_eq_true',
    Bool.and_eq_false_iff, decide_eq_true_eq, decide_eq_false_iff_not, not_not, hstring]

/-- The magic is its first byte and the other three. -/
theorem head_of_magic (h : magic <+: f.content) : f.content.head? = some 0x7f := by
  obtain ⟨rest, hrest⟩ := h
  rw [← hrest]
  rfl

/-- A program that prints what passes the tests decides rightly when nothing
else than executables passes them. -/
theorem decides_iff_tellsMagic {Outcome : Type} {main printed : Except Fault Outcome}
    {rejected : Outcome} (hlen : 52 ≤ f.content.length)
    (hmain : main = if accepts host f then printed else .ok rejected)
    (hdiffer : printed ≠ .ok rejected) :
    Decides host f main printed rejected ↔ TellsMagic host f := by
  constructor
  · intro h
    by_contra hnot
    obtain ⟨htype, hmagic, htests⟩ : f.value host 0 Ehdr.eType = etExec ∧ ¬magic <+: f.content ∧
        (f.content.head? = some 0x7f ∨ [69, 76, 70, 0] <+: f.content.drop 1) := by
      simpa only [TellsMagic, not_or, not_and_or, not_not, ne_eq] using hnot
    have haccepts := (accepts_iff hlen).mpr ⟨htests, htype⟩
    rw [if_pos haccepts] at hmain
    exact hdiffer (hmain.symm.trans (h.other fun hexec => hmagic hexec.magic))
  · intro h
    constructor
    · intro hexec
      have haccepts := (accepts_iff hlen).mpr ⟨.inl (head_of_magic hexec.magic), hexec.type⟩
      rw [hmain, if_pos haccepts]
    · intro hother
      have hrejects : ¬accepts host f = true := by
        intro haccepts
        obtain ⟨htests, htype⟩ := (accepts_iff hlen).mp haccepts
        rcases h with hnot | hmagic | ⟨hbyte, hstring⟩
        · exact hnot htype
        · exact hother ⟨hmagic, htype⟩
        · exact htests.elim hbyte hstring
      rw [hmain, if_neg hrejects]

theorem main_eq (host : Host) (hne : f.content ≠ []) :
    main host f = if accepts host f then .printed <$> printElf host f else .ok .rejected :=
  if_neg hne

theorem Elf32.main_eq (host : Host) (hne : f.content ≠ []) :
    Elf32.main host f =
      if ElfRead.accepts host f then .printed <$> Elf32.printElf host f else .ok .rejected := by
  rw [← accepts_eq]
  exact if_neg hne

end Magic

/-- **The programs tell executables from other files exactly when the file
is none by its type, starts with the magic, or has neither the byte nor the
string that are looked for.** -/
theorem decides_iff (host : Host) (f : Mapping) :
    (64 ≤ f.content.length →
      (Decides host f (main host f) (.printed <$> printElf host f) .rejected
        ↔ TellsMagic host f))
    ∧ (52 ≤ f.content.length →
      (Decides host f (Elf32.main host f) (.printed <$> Elf32.printElf host f) .rejected
        ↔ TellsMagic host f)) := by
  constructor
  · intro hlen
    refine decides_iff_tellsMagic (by omega) (main_eq host ?_) ?_
    · exact List.ne_nil_of_length_pos (by omega)
    · cases printElf host f <;> nofun
  · intro hlen
    refine decides_iff_tellsMagic hlen (Elf32.main_eq host ?_) ?_
    · exact List.ne_nil_of_length_pos (by omega)
    · cases Elf32.printElf host f <;> nofun

/-- The byte 0x7f, no letters behind it, and the type of an executable. -/
def noLetters : Mapping where
  content := 0x7f :: List.replicate 15 0 ++ [2, 0] ++ List.replicate 46 0
  fits := by decide

theorem noLetters_not_executable : ¬Executable .little noLetters :=
  fun h => absurd h.magic (by decide)

/-- Both programs print its entry point. -/
theorem noLetters_printed :
    ¬Decides .little noLetters (main .little noLetters)
        (.printed <$> printElf .little noLetters) .rejected
      ∧ ¬Decides .little noLetters (Elf32.main .little noLetters)
        (.printed <$> Elf32.printElf .little noLetters) .rejected := by
  have h64 : main .little noLetters = .ok (.printed [.entryPoint 0]) := rfl
  have h32 : Elf32.main .little noLetters = .ok (.printed [.entryPoint 0]) := rfl
  refine ⟨fun h => ?_, fun h => ?_⟩
  · cases h64.symm.trans (h.other noLetters_not_executable)
  · cases h32.symm.trans (h.other noLetters_not_executable)

theorem decides_noLetters :
    Decides .little noLetters (main .little noLetters)
        (.printed <$> printElf .little noLetters) .rejected
      ↔ TellsMagic .little noLetters :=
  (decides_iff .little noLetters).1 (by decide)

end ElfRead

end BeEasy
