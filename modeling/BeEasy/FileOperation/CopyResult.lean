import BeEasy.FileOperation.CopyOnDisk
import BeEasy.FileOperation.WriteFile

/-!
# FileOperation — Copy result

What the two copies leave on the disk, by what they return. `copy_file` opens
the destination first, which empties it: if the source then cannot be opened,
or is the same file, what was there is lost. And behind its loop nothing
looks at what `fflush` and `fclose` return, as nothing looks at the `write`
of `write_file`.
-/

namespace BeEasy.FileOperation

open CVerif

/-! ## A result of 0 -/

/-- `copy_file` returns 0 only with the bytes of the source in the destination. -/
def CopyRight (disk : Disk) (dst src : Path) (o : Outcomes) : Prop :=
  ∀ n, (copyFile disk dst src o n).2 = some 0 →
    (copyFile disk dst src o n).1.bytes dst = disk.bytes src

/-- When the loop is left at the end of the source, the flush and the close
can write all that the stream still holds, and the source was not emptied as
the destination. -/
def CopyStored (disk : Disk) (dst src : Path) (o : Outcomes) : Prop :=
  ∀ s, openFiles disk dst src o.opening = .ok s →
    ∀ n t, after (copyFilePass o.closing) s o.evs n = .running t → t.eof = true →
      (disk.lookup dst = disk.lookup src → disk.bytes src = []) ∧
        t.fdst.buffer.length ≤ o.closing.fflush + o.closing.fclose

section Results

variable {disk : Disk} {dst src : Path} {o : Outcomes} {s t : Files} {n : Nat}

/-- What a call has done once its loop has returned. -/
theorem copyFile_returned {r : Int} (hopen : openFiles disk dst src o.opening = .ok s)
    (hrun : after (copyFilePass o.closing) s o.evs n = .returned t r) :
    copyFile disk dst src o n = (t.disk, some r) := by
  rw [copyFile, hopen]
  simp only [hrun]

/-- A result of 0 is that of a pass at the end of the source. -/
theorem copyFile_zero (hzero : (copyFile disk dst src o n).2 = some 0) :
    ∃ s m t, openFiles disk dst src o.opening = .ok s ∧
      after (copyFilePass o.closing) s o.evs m = .running t ∧ t.eof = true ∧
      (copyFile disk dst src o n).1
        = ((t.flush o.closing.fflush).close o.closing.fclose).disk := by
  cases hopen : openFiles disk dst src o.opening with
  | error disk' =>
      rw [copyFile, hopen] at hzero
      cases hzero
  | ok s =>
      cases hrun : after (copyFilePass o.closing) s o.evs n with
      | running t =>
          rw [copyFile, hopen] at hzero
          simp [hrun] at hzero
      | faulted f =>
          rw [copyFile, hopen] at hzero
          simp [hrun] at hzero
      | returned t r =>
          rw [copyFile_returned hopen hrun] at hzero ⊢
          obtain ⟨m, u, hu, hpass⟩ := after_returned hrun
          have hspec := copyFilePass_spec o.closing u (o.evs m)
          rw [hpass] at hspec
          cases hspec with
          | done heof => exact ⟨s, m, u, rfl, hu, heof, rfl⟩
          | cutShort _ _ => cases hzero

/-- **When the copy is right**: if all that the stream held is written. -/
theorem copyRight_iff : CopyRight disk dst src o ↔ CopyStored disk dst src o := by
  constructor
  · intro hright s hopen n t hrun heof
    have hopened := openFiles_opened hopen
    have hlast : after (copyFilePass o.closing) s o.evs (n + 1)
        = .returned ((t.flush o.closing.fflush).close o.closing.fclose) 0 := by
      rw [after_succ hrun, copyFilePass, heof]
      rfl
    have hreturned := copyFile_returned hopen hlast
    have hbytes := hright (n + 1) (by rw [hreturned])
    rw [hreturned] at hbytes
    exact (Between.closed_iff hopened (between_after hopened hrun) heof).mp hbytes
  · intro hstored n hzero
    obtain ⟨s, m, t, hopen, hrun, heof, hdisk⟩ := copyFile_zero hzero
    have hopened := openFiles_opened hopen
    rw [hdisk]
    exact (Between.closed_iff hopened (between_after hopened hrun) heof).mpr
      (hstored s hopen m t hrun heof)

end Results

/-- **Both copies return 0 only for a whole destination exactly when nothing
they do not look at goes wrong.** -/
theorem copies_right_iff (disk : Disk) (dst src : Path) (o : Outcomes) (disk' : Disk)
    (rd : Descriptor disk') (file : Path) (opens : Bool) (evs : Nat → WriteEvent) :
    (CopyRight disk dst src o ↔ CopyStored disk dst src o) ∧
      (WriteRight disk' rd file opens evs ↔ NothingLost disk' rd file opens evs) :=
  ⟨copyRight_iff, writeRight_iff⟩

/-- A disk whose one file `a` has one byte. -/
def oneByteDisk : Disk where
  place path := some (if path = [97] then 0 else 1)
  entry p := if p = 0 then some 0 else none
  content _ := [65]
  nextIno := 1
  entry_lt := by
    intro p i h
    by_cases hp : p = 0
    · rw [if_pos hp] at h
      cases h
      exact Nat.zero_lt_one
    · rw [if_neg hp] at h
      cases h

/-- Every open succeeds and every call does all it can, but the streams and
descriptors that are written have no room on the disk. -/
def diskFull : Outcomes where
  opening := ⟨true, true⟩
  evs _ := ⟨⟨none, TEMPBUF_SIZE⟩, 0⟩
  closing := ⟨0, 0⟩

/-- Copied onto a full disk, the byte is in neither `b`, and both results are 0. -/
theorem copies_wrong : ¬ CopyRight oneByteDisk [98] [97] diskFull ∧
    ¬ WriteRight oneByteDisk ⟨0, 0, Nat.zero_lt_one⟩ [98] true (fun _ => ⟨some 1, 0⟩) := by
  constructor
  · intro hright
    have hbytes := hright 2 (by decide)
    revert hbytes
    decide
  · intro hright
    have hbytes := hright 2 (by decide)
    revert hbytes
    decide

/-! ## A failure, and a file copied to itself -/

/-- A call that cannot open its source leaves the disk as it was. -/
def FailureKeeps (disk : Disk) (dst src : Path) (o : Outcomes) : Prop :=
  ∀ disk', openFiles disk dst src o.opening = .error disk' →
    ∀ n, (copyFile disk dst src o n).1 = disk

/-- A file copied to itself keeps its bytes. -/
def SelfKeeps (disk : Disk) (path : Path) (o : Outcomes) : Prop :=
  ∀ n, (copyFile disk path path o n).1.bytes path = disk.bytes path

/-- The destination cannot be opened, the source can be behind it, or the
destination is a file that is empty anyway. -/
def NothingToUndo (disk : Disk) (dst src : Path) (opening : Opening) : Prop :=
  (opening.fdst = false ∨ disk.place dst = none) ∨
    (opening.fsrc = true ∧ (disk.place src = disk.place dst ∨ (disk.lookup src).isSome)) ∨
    ((disk.lookup dst).isSome ∧ disk.bytes dst = [])

section Failures

variable {disk disk' : Disk} {dst src path : Path} {o : Outcomes} {i : Ino} {n : Nat}

theorem openWrite_none_iff {succeeds : Bool} :
    disk.openWrite dst succeeds = none ↔ succeeds = false ∨ disk.place dst = none := by
  unfold Disk.openWrite
  cases succeeds with
  | false => simp
  | true =>
      cases hp : disk.place dst with
      | none => simp
      | some p => cases he : disk.entry p <;> simp [he]

/-- What opening the destination did is found whether the source opens or not. -/
theorem openWrite_kept_iff {succeeds : Bool} (h : disk.openWrite dst succeeds = some (i, disk')) :
    disk' = disk ↔ (disk.lookup dst).isSome ∧ disk.bytes dst = [] := by
  rcases Disk.openWrite_cases h with ⟨hlookup, rfl⟩ | ⟨p, hp, he, rfl, rfl⟩
  · rw [Disk.store_eq_self_iff, Disk.bytes_of_lookup hlookup, hlookup]
    exact ⟨fun hempty => ⟨rfl, hempty⟩, fun h => h.2⟩
  · have hmissing : disk.lookup dst = none := by rw [Disk.lookup, hp, Option.bind_some, he]
    rw [hmissing]
    refine iff_of_false (fun heq => ?_) fun h => absurd h.1 Bool.false_ne_true
    exact absurd (congrArg Disk.nextIno heq) (Nat.succ_ne_self _)

theorem openRead_none_iff {succeeds : Bool}
    (h : disk.openWrite dst o.opening.fdst = some (i, disk')) :
    disk'.openRead src succeeds = none ↔
      ¬ (succeeds = true ∧ (disk.place src = disk.place dst ∨ (disk.lookup src).isSome)) := by
  have hsome : (disk'.lookup src).isSome ↔
      disk.place src = disk.place dst ∨ (disk.lookup src).isSome := by
    rcases Disk.openWrite_cases h with ⟨hlookup, rfl⟩ | ⟨p, hp, he, rfl, rfl⟩
    · rw [Disk.store_lookup]
      refine ⟨.inr, fun h => h.elim (fun hplace => ?_) id⟩
      rw [Disk.lookup, hplace, ← Disk.lookup, hlookup]
      rfl
    · rw [Disk.lookup_create, hp]
      by_cases hplace : disk.place src = some p
      · simp [hplace]
      · simp [hplace]
  rw [← hsome]
  unfold Disk.openRead
  cases succeeds <;> simp [Option.isNone_iff_eq_none]

/-- Behind the open of the destination only the source can fail, and the disk
is then as that open left it. -/
theorem openFiles_error_iff {d : Disk}
    (hw : disk.openWrite dst o.opening.fdst = some (i, disk')) :
    openFiles disk dst src o.opening = .error d ↔
      disk'.openRead src o.opening.fsrc = none ∧ d = disk' := by
  rw [openFiles, hw]
  cases hr : disk'.openRead src o.opening.fsrc with
  | none =>
      simp only [hr, Except.error.injEq]
      exact ⟨fun h => ⟨trivial, h.symm⟩, fun h => h.2.symm⟩
  | some j => simp [hr]

theorem copyFile_failed {d : Disk} (hopen : openFiles disk dst src o.opening = .error d) (n : Nat) :
    (copyFile disk dst src o n).1 = d := by
  rw [copyFile, hopen]

/-- What a failure keeps is decided by what the first open did. -/
theorem failureKeeps_iff :
    FailureKeeps disk dst src o ↔ NothingToUndo disk dst src o.opening := by
  cases hw : disk.openWrite dst o.opening.fdst with
  | none =>
      refine iff_of_true (fun d hopen n => ?_) (.inl (openWrite_none_iff.mp hw))
      rw [copyFile_failed hopen]
      rw [openFiles, hw] at hopen
      cases hopen
      rfl
  | some opened =>
      obtain ⟨i, disk'⟩ := opened
      have hopens : ¬ (o.opening.fdst = false ∨ disk.place dst = none) := by
        rw [← openWrite_none_iff, hw]
        nofun
      rw [NothingToUndo, or_iff_right hopens, ← openWrite_kept_iff hw]
      by_cases hr : disk'.openRead src o.opening.fsrc = none
      · have hopen := (openFiles_error_iff hw).mpr ⟨hr, rfl⟩
        rw [or_iff_right ((openRead_none_iff hw).mp hr)]
        constructor
        · intro hkeeps
          exact (copyFile_failed hopen 0).symm.trans (hkeeps disk' hopen 0)
        · intro hsame d hopen' n
          cases hopen.symm.trans hopen'
          exact (copyFile_failed hopen n).trans hsame
      · have hread := not_not.mp (mt (openRead_none_iff hw).mpr hr)
        refine iff_of_true (fun d hopen => ?_) (.inl hread)
        exact absurd ((openFiles_error_iff hw).mp hopen).1 hr

/-- A file copied to itself is empty from its opening on. -/
theorem copyFile_self (hw : disk.openWrite path o.opening.fdst = some (i, disk')) (n : Nat) :
    (copyFile disk path path o n).1.bytes path = [] := by
  cases hopen : openFiles disk path path o.opening with
  | error d =>
      obtain ⟨-, rfl⟩ := (openFiles_error_iff hw).mp hopen
      obtain ⟨hlookup, hempty⟩ := Disk.openWrite_self hw
      rw [copyFile_failed hopen, Disk.bytes_of_lookup hlookup, hempty]
  | ok s =>
      have hopened := openFiles_opened hopen
      have hsame : s.src = s.fdst.ino := hopened.source.elim (·.1) fun h => absurd rfl h.2.1
      obtain ⟨hcontent, hbuffer⟩ := hopened.empty
      have hbytes : s.disk.bytes path = [] := by
        rw [Disk.bytes_of_lookup hopened.lookup, hcontent]
      unfold copyFile
      cases hrun : after (copyFilePass o.closing) s o.evs n with
      | running t =>
          simp only [hopen, hrun]
          rw [← hbytes, ← ((between_after hopened hrun).same hsame).1]
      | returned t r =>
          obtain ⟨m, u, hu, hpass⟩ := after_returned hrun
          have hbetween := between_after hopened hu
          obtain ⟨hdisk, hfdst⟩ := hbetween.same hsame
          have hlast := copyFilePass_same_returned
            (by rw [hdisk, hbetween.source, hsame, hcontent]) (by rw [hfdst, hbuffer]) hpass
          simp only [hopen, hrun]
          rw [← hbytes, ← hdisk, ← hlast]
      | faulted f =>
          simp only [hopen, hrun]
          exact hbytes

theorem selfKeeps_iff :
    SelfKeeps disk path o ↔ o.opening.fdst = false ∨ disk.bytes path = [] := by
  cases hw : disk.openWrite path o.opening.fdst with
  | none =>
      refine iff_of_true (fun n => ?_) ((openWrite_none_iff.mp hw).imp id fun hplace => ?_)
      · rw [copyFile, openFiles, hw]
      · exact Disk.bytes_of_missing (by rw [Disk.lookup, hplace, Option.bind_none])
  | some opened =>
      have hopens : ¬ o.opening.fdst = false := by
        intro hfails
        rw [openWrite_none_iff.mpr (.inl hfails)] at hw
        cases hw
      rw [or_iff_right hopens]
      constructor
      · intro hkeeps
        rw [← hkeeps 0, copyFile_self hw]
      · intro hempty n
        rw [copyFile_self hw, hempty]

end Failures

/-- **A failure leaves the disk as it was exactly when opening the destination
did nothing to it, and a file survives being copied to itself exactly when
it has nothing to lose.** -/
theorem copy_undone_iff (disk : Disk) (dst src path : Path) (o : Outcomes) :
    (FailureKeeps disk dst src o ↔ NothingToUndo disk dst src o.opening) ∧
      (SelfKeeps disk path o ↔ o.opening.fdst = false ∨ disk.bytes path = []) :=
  ⟨failureKeeps_iff, selfKeeps_iff⟩

/-- With no `b` to copy, `a` is emptied; copied to itself it is as well. -/
theorem copy_not_undone : ¬ FailureKeeps oneByteDisk [97] [98] diskFull ∧
    ¬ SelfKeeps oneByteDisk [97] diskFull := by
  constructor
  · intro hkeeps
    have hbytes := congrArg (fun disk => disk.bytes [97]) (hkeeps _ rfl 0)
    revert hbytes
    decide
  · intro hkeeps
    have hbytes := hkeeps 0
    revert hbytes
    decide

end BeEasy.FileOperation
