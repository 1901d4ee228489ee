import BeEasy.CVerif.EventLoop
import BeEasy.CVerif.Stdio

/-!
# FileOperation — Copy file

`copy_file` of `file_operation/file.c`: its copy loop, pass by pass. What a
pass meets (how the read ends, how many bytes the write can store) is an
event. A result of 0 means that the stream to the destination has taken the
whole source, which is not yet the file; whether there is a result at all is
decided by how the source ends, because the loop asks `feof` and nothing else.
-/

namespace BeEasy.FileOperation

open CVerif

/-- `sizeof(tempbuf)`. -/
def TEMPBUF_SIZE : Nat := 4096

/-- The source stream, and the bytes that the stream to the destination took. -/
structure CopyState where
  fsrc : InStream
  fdst : List Byte

/-- The outcomes of a pass: an `fread` error, and how many bytes `fwrite` can
store. -/
structure CopyEvent where
  fread : Option Nat
  fwrite : Nat

/-- Both files are open and nothing is copied. -/
def CopyState.start (content : List Byte) : CopyState := ⟨InStream.ofContent content, []⟩

/-- One pass of `while (!feof(fsrc))`. Behind the loop `ret` is still 0; the
results of `fflush` and `fclose` are not looked at. -/
def copyPass (s : CopyState) (ev : CopyEvent) : Progress CopyState Int Fault :=
  if s.fsrc.eof then .returned s 0
  else
    let (tempbuf, fsrc) := s.fsrc.fread (TEMPBUF_SIZE - 1) ev.fread
    let readBytes := tempbuf.length
    let written := tempbuf.take ev.fwrite
    let s : CopyState := ⟨fsrc, s.fdst ++ written⟩
    if written.length ≠ readBytes then .returned s (-1) else .running s

/-! ## What a pass does -/

section Passes

variable {s t : CopyState} {ev : CopyEvent}

/-- Everything a pass can do. -/
inductive Pass (s : CopyState) (ev : CopyEvent) : Progress CopyState Int Fault → Prop
  | done (heof : s.fsrc.eof = true) : Pass s ev (.returned s 0)
  | copied (heof : s.fsrc.eof = false)
      (hfits : (s.fsrc.fread (TEMPBUF_SIZE - 1) ev.fread).1.length ≤ ev.fwrite) :
      Pass s ev (.running ⟨(s.fsrc.fread (TEMPBUF_SIZE - 1) ev.fread).2,
        s.fdst ++ (s.fsrc.fread (TEMPBUF_SIZE - 1) ev.fread).1⟩)
  | cutShort {fdst} (heof : s.fsrc.eof = false)
      (hshort : ev.fwrite < (s.fsrc.fread (TEMPBUF_SIZE - 1) ev.fread).1.length) :
      Pass s ev (.returned ⟨(s.fsrc.fread (TEMPBUF_SIZE - 1) ev.fread).2, fdst⟩ (-1))

/-- **What one pass of the copy loop does.** -/
theorem copyPass_spec (s : CopyState) (ev : CopyEvent) : Pass s ev (copyPass s ev) := by
  unfold copyPass
  cases heof : s.fsrc.eof with
  | true => exact .done heof
  | false =>
      by_cases hfits : (s.fsrc.fread (TEMPBUF_SIZE - 1) ev.fread).1.length ≤ ev.fwrite
      · have hall := List.take_of_length_le hfits
        simp only [Bool.false_eq_true, if_false, hall, ne_eq, not_true_eq_false]
        exact .copied heof hfits
      · have hshort : ((s.fsrc.fread (TEMPBUF_SIZE - 1) ev.fread).1.take ev.fwrite).length
            ≠ (s.fsrc.fread (TEMPBUF_SIZE - 1) ev.fread).1.length := by
          rw [List.length_take]
          omega
        simp only [Bool.false_eq_true, if_false, if_pos hshort]
        exact .cutShort heof (Nat.lt_of_not_le hfits)

end Passes

/-! ## What a result means -/

/-- The stream to the destination has taken what was read so far, and the whole
source once the result is 0. -/
def Copied (content : List Byte) : Progress CopyState Int Fault → Prop
  | .running s => s.fsrc.Valid ∧ s.fsrc.content = content ∧ s.fdst = content.take s.fsrc.pos
  | .returned s r => r = 0 ∧ s.fdst = content ∨ r = -1
  | .faulted _ => False

theorem Copied.pass {content : List Byte} {s : CopyState} (h : Copied content (.running s))
    (ev : CopyEvent) : Copied content (copyPass s ev) := by
  obtain ⟨hvalid, hcontent, hfdst⟩ := h
  have hspec := copyPass_spec s ev
  generalize copyPass s ev = p at hspec
  cases hspec with
  | done heof =>
      left
      rw [hfdst, hvalid.atEnd heof, hcontent, List.take_length]
      exact ⟨rfl, rfl⟩
  | copied heof hfits =>
      refine ⟨hvalid.fread _ _, (InStream.fread_content ..).trans hcontent, ?_⟩
      rw [hfdst, ← hcontent]
      exact s.fsrc.take_fread _ _
  | cutShort heof hshort => exact .inr rfl

theorem copied_start (content : List Byte) : Copied content (.running (CopyState.start content)) :=
  ⟨InStream.valid_ofContent content, rfl, rfl⟩

/-! ## When there is one -/

/-- A pass over a source that ends this way. -/
def copyTurn (ending : Ending) (s : CopyState) (ev : CopyEvent) : Progress CopyState Int Fault :=
  copyPass s { ev with fread := ending.outcome s.fsrc (TEMPBUF_SIZE - 1) }

/-- The loop ends, and after a read error the result is negative. -/
def CopyEnds (content : List Byte) (ending : Ending) (evs : Nat → CopyEvent) : Prop :=
  ∃ n t r, after (copyTurn ending) (CopyState.start content) evs n = .returned t r ∧
    (ending = .readError → r < 0)

/-- What the pass number `i` reads. -/
def chunkAt (content : List Byte) (i : Nat) : List Byte :=
  (content.drop (i * (TEMPBUF_SIZE - 1))).take (TEMPBUF_SIZE - 1)

/-- After `n` passes over a source that ends in an error. -/
def CopyState.afterPasses (content : List Byte) (n : Nat) : CopyState where
  fsrc := ⟨content, min (n * (TEMPBUF_SIZE - 1)) content.length, false⟩
  fdst := content.take (n * (TEMPBUF_SIZE - 1))

section Endings

variable {content : List Byte} {evs : Nat → CopyEvent} {n : Nat}

/-- A loop that is no longer running has returned. -/
theorem copyTurn_returned {ending : Ending}
    (hout : ∀ t, after (copyTurn ending) (CopyState.start content) evs n ≠ .running t) :
    ∃ t r, after (copyTurn ending) (CopyState.start content) evs n = .returned t r := by
  have hcopied : Copied content (after (copyTurn ending) (CopyState.start content) evs n) :=
    after_invariant (fun s ev h => Copied.pass h _) (copied_start content) evs n
  cases h : after (copyTurn ending) (CopyState.start content) evs n with
  | running t => exact absurd h (hout t)
  | returned t r => exact ⟨t, r, rfl⟩
  | faulted f =>
      rw [h] at hcopied
      exact hcopied.elim

/-- Every pass over a source that ends brings its end nearer. -/
theorem copy_ends_endOfFile (content : List Byte) (evs : Nat → CopyEvent) :
    CopyEnds content .endOfFile evs := by
  have lowers : ∀ (s : CopyState) (ev : CopyEvent) (t : CopyState), True → True →
      copyTurn .endOfFile s ev = .running t → True →
      t.fsrc.reads (TEMPBUF_SIZE - 1) < s.fsrc.reads (TEMPBUF_SIZE - 1) := by
    intro s ev t _ _ ht _
    have hspec := copyPass_spec s { ev with fread := none }
    have ht : copyPass s { ev with fread := none } = .running t := ht
    rw [ht] at hspec
    cases hspec with
    | copied heof hfits =>
        have hreads := InStream.reads_fread (show 0 < TEMPBUF_SIZE - 1 by decide) heof
        exact Nat.lt_of_succ_le (Nat.le_of_eq hreads)
  obtain ⟨n, hout⟩ := after_leaves lowers (CopyState.start content) evs (fun _ => trivial)
  obtain ⟨t, r, hreturned⟩ := copyTurn_returned (fun t ht => hout t ht trivial)
  exact ⟨n, t, r, hreturned, nofun⟩

/-- A read on a source that ends in an error. -/
theorem fread_afterPasses (content : List Byte) (n : Nat) :
    let s := CopyState.afterPasses content n
    s.fsrc.fread (TEMPBUF_SIZE - 1) (Ending.readError.outcome s.fsrc (TEMPBUF_SIZE - 1))
      = (chunkAt content n, (CopyState.afterPasses content (n + 1)).fsrc) := by
  intro s
  let read := s.fsrc.fread (TEMPBUF_SIZE - 1)
    (Ending.readError.outcome s.fsrc (TEMPBUF_SIZE - 1))
  have hbytes : read.1 = chunkAt content n := by
    refine (Ending.fread_bytes .readError (by decide)).trans (congrArg (List.take _) ?_)
    exact List.drop_eq_drop_iff.mpr (by simp [s, CopyState.afterPasses])
  have hcontent : read.2.content = content := InStream.fread_content ..
  have heof : read.2.eof = false := Ending.readError_eof
  have hpos : read.2.pos = min ((n + 1) * (TEMPBUF_SIZE - 1)) content.length := by
    have hpos : read.2.pos = min (n * (TEMPBUF_SIZE - 1)) content.length + read.1.length :=
      InStream.fread_pos ..
    rw [hpos, hbytes, chunkAt, List.length_take, List.length_drop]
    simp only [TEMPBUF_SIZE]
    omega
  calc read = (read.1, ⟨read.2.content, read.2.pos, read.2.eof⟩) := rfl
    _ = _ := by
      rw [hbytes, hcontent, hpos, heof]
      rfl

theorem fdst_afterPasses (content : List Byte) (n : Nat) :
    (CopyState.afterPasses content n).fdst ++ chunkAt content n
      = (CopyState.afterPasses content (n + 1)).fdst := by
  show content.take _ ++ _ = content.take ((n + 1) * (TEMPBUF_SIZE - 1))
  rw [Nat.succ_mul, List.take_add, chunkAt]

/-- The pass after them stores its chunk and goes on, or cannot and returns. -/
theorem copyTurn_afterPasses (content : List Byte) (n : Nat) (ev : CopyEvent) :
    ((chunkAt content n).length ≤ ev.fwrite →
      copyTurn .readError (CopyState.afterPasses content n) ev
        = .running (CopyState.afterPasses content (n + 1))) ∧
    (ev.fwrite < (chunkAt content n).length →
      ∃ t, copyTurn .readError (CopyState.afterPasses content n) ev = .returned t (-1)) := by
  have hread := fread_afterPasses content n
  have hspec := copyPass_spec (CopyState.afterPasses content n) { ev with
    fread := Ending.readError.outcome (CopyState.afterPasses content n).fsrc (TEMPBUF_SIZE - 1) }
  rw [← copyTurn] at hspec
  generalize copyTurn .readError (CopyState.afterPasses content n) ev = p at hspec
  cases hspec with
  | done heof => cases heof
  | copied heof hfits =>
      simp only [hread] at hfits ⊢
      refine ⟨fun _ => ?_, fun hshort => absurd hfits (Nat.not_le_of_lt hshort)⟩
      rw [fdst_afterPasses]
  | cutShort heof hshort =>
      simp only [hread] at hshort ⊢
      exact ⟨fun hfits => absurd hfits (Nat.not_le_of_lt hshort), fun _ => ⟨_, rfl⟩⟩

/-- While the writes can store what is read, the loop goes on, behind the
error as before it. -/
theorem copy_goesOn (hfits : ∀ i < n, (chunkAt content i).length ≤ (evs i).fwrite) :
    after (copyTurn .readError) (CopyState.start content) evs n
      = .running (CopyState.afterPasses content n) := by
  induction n with
  | zero =>
      rw [after, CopyState.afterPasses, CopyState.start, Nat.zero_mul, Nat.zero_min]
      rfl
  | succ n ih =>
      have hn := ih fun i hi => hfits i (Nat.lt_succ_of_lt hi)
      rw [after_succ hn]
      exact (copyTurn_afterPasses content n (evs n)).1 (hfits n (Nat.lt_succ_self n))

/-- **After a read error the loop ends exactly when a write comes short.** -/
theorem copy_ends_readError_iff (content : List Byte) (evs : Nat → CopyEvent) :
    CopyEnds content .readError evs ↔ ∃ i, (evs i).fwrite < (chunkAt content i).length := by
  constructor
  · intro ⟨n, t, r, hreturned, _⟩
    by_contra hall
    have hfits : ∀ i < n, (chunkAt content i).length ≤ (evs i).fwrite := by
      intro i _
      exact Nat.le_of_not_lt fun hshort => hall ⟨i, hshort⟩
    cases hreturned.symm.trans (copy_goesOn hfits)
  · intro hex
    -- the first write that comes short ends the loop
    obtain ⟨i, hshort, hfirst⟩ := Nat.findX hex
    have hrun : after (copyTurn .readError) (CopyState.start content) evs i
        = .running (CopyState.afterPasses content i) :=
      copy_goesOn fun j hj => Nat.le_of_not_lt (hfirst j hj)
    obtain ⟨t, hreturned⟩ := (copyTurn_afterPasses content i (evs i)).2 hshort
    exact ⟨i + 1, t, -1, (after_succ hrun).trans hreturned, fun _ => by decide⟩

end Endings

end BeEasy.FileOperation
