import BeEasy.CVerif.Disk
import BeEasy.FileOperation.CopyFile

/-!
# FileOperation — Copy on disk

All of `copy_file`: the two `fopen`s with what the first does to the disk,
the loop on the files they opened, and the flush and close at its end. The
destination is a stream that holds bytes back, and the source is read as it
is at the moment, so the two may be one file.

Between two different files the loop is that of `copyPass`, which knows of
the destination only what its stream took (`copyFilePass_running`).
-/

namespace BeEasy.FileOperation

open CVerif

/-- The files between two passes: `src` is read at `pos`, `fdst` written. -/
structure Files where
  disk : Disk
  src : Ino
  pos : Nat
  eof : Bool
  fdst : Disk.OutStream

def Files.fsrc (s : Files) : InStream := ⟨s.disk.content s.src, s.pos, s.eof⟩

/-- Whether the two `fopen`s succeed where they could. -/
structure Opening where
  fdst : Bool
  fsrc : Bool

/-- The outcomes of a pass, with how much the stream writes of what it holds. -/
structure FilesEvent extends CopyEvent where
  drained : Nat

/-- How much `fflush` and `fclose` can still write. -/
structure Closing where
  fflush : Nat
  fclose : Nat

/-- `fclose(fdst)`, after which the stream is gone. -/
def Files.close (s : Files) (fclose : Nat) : Files :=
  let (disk, fdst) := s.disk.drain s.fdst fclose
  { s with disk, fdst }

/-- `fflush(fdst)`. -/
def Files.flush (s : Files) (fflush : Nat) : Files := s.close fflush

/-- One pass of `while (!feof(fsrc))`, and what is behind the loop. -/
def copyFilePass (closing : Closing) (s : Files) (ev : FilesEvent) : Progress Files Int Fault :=
  if s.eof then .returned ((s.flush closing.fflush).close closing.fclose) 0
  else
    let (tempbuf, fsrc) := s.fsrc.fread (TEMPBUF_SIZE - 1) ev.fread
    let readBytes := tempbuf.length
    let (writeBytes, disk, fdst) := s.disk.fwrite s.fdst tempbuf ev.fwrite ev.drained
    let s : Files := { s with disk, fdst, pos := fsrc.pos, eof := fsrc.eof }
    if writeBytes ≠ readBytes then .returned (s.close closing.fclose) (-1) else .running s

/-- `copy_file` up to its loop, or the disk it leaves with the result -1. -/
def openFiles (disk : Disk) (dst src : Path) (opening : Opening) : Except Disk Files :=
  match disk.openWrite dst opening.fdst with
  | none => .error disk
  | some (fdst, disk) =>
      match disk.openRead src opening.fsrc with
      | none => .error disk
      | some fsrc => .ok ⟨disk, fsrc, 0, false, ⟨fdst, []⟩⟩

/-- Everything outside the program that a call meets. -/
structure Outcomes where
  opening : Opening
  evs : Nat → FilesEvent
  closing : Closing

/-- `copy_file(dst, src)` after `n` passes of its loop, by the disk then and
the result once there is one. -/
def copyFile (disk : Disk) (dst src : Path) (o : Outcomes) (n : Nat) : Disk × Option Int :=
  match openFiles disk dst src o.opening with
  | .error disk => (disk, some (-1))
  | .ok s =>
      match after (copyFilePass o.closing) s o.evs n with
      | .running t => (t.disk, none)
      | .returned t r => (t.disk, some r)
      | .faulted _ => (s.disk, none)

/-! ## One pass -/

/-- The files once the bytes of a read went into the stream. -/
def Files.copied (s : Files) (read : List Byte × InStream) (drained : Nat) : Files :=
  let (disk, fdst) := s.disk.drain { s.fdst with buffer := s.fdst.buffer ++ read.1 } drained
  { s with disk, fdst, pos := read.2.pos, eof := read.2.eof }

/-- Everything a pass can do. -/
inductive FilesPass (closing : Closing) (s : Files) (ev : FilesEvent) :
    Progress Files Int Fault → Prop
  | done (heof : s.eof = true) :
      FilesPass closing s ev (.returned ((s.flush closing.fflush).close closing.fclose) 0)
  | copied (heof : s.eof = false)
      (hfits : (s.fsrc.fread (TEMPBUF_SIZE - 1) ev.fread).1.length ≤ ev.fwrite) :
      FilesPass closing s ev
        (.running (s.copied (s.fsrc.fread (TEMPBUF_SIZE - 1) ev.fread) ev.drained))
  | cutShort {t} (heof : s.eof = false)
      (hshort : ev.fwrite < (s.fsrc.fread (TEMPBUF_SIZE - 1) ev.fread).1.length) :
      FilesPass closing s ev (.returned t (-1))

theorem copyFilePass_more (closing : Closing) {s : Files} (ev : FilesEvent) (heof : s.eof = false) :
    let read := s.fsrc.fread (TEMPBUF_SIZE - 1) ev.fread
    let t := s.copied (read.1.take ev.fwrite, read.2) ev.drained
    copyFilePass closing s ev = if (read.1.take ev.fwrite).length ≠ read.1.length then
      .returned (t.close closing.fclose) (-1) else .running t := by
  unfold copyFilePass
  rw [heof]
  rfl

/-- **What one pass does to the files.** -/
theorem copyFilePass_spec (closing : Closing) (s : Files) (ev : FilesEvent) :
    FilesPass closing s ev (copyFilePass closing s ev) := by
  cases heof : s.eof with
  | true =>
      rw [copyFilePass, heof]
      exact .done heof
  | false =>
      rw [copyFilePass_more closing ev heof]
      by_cases hfits : (s.fsrc.fread (TEMPBUF_SIZE - 1) ev.fread).1.length ≤ ev.fwrite
      · rw [List.take_of_length_le hfits, if_neg (not_not_intro rfl)]
        exact .copied heof hfits
      · rw [if_pos]
        · exact .cutShort heof (Nat.lt_of_not_le hfits)
        · rw [List.length_take]
          omega

/-- What `copyPass` knows of the files. -/
def Files.toCopyState (s : Files) : CopyState := ⟨s.fsrc, s.disk.taken s.fdst⟩

section Passes

variable {closing : Closing} {s t : Files} {ev : FilesEvent}

/-- **Between two files the loop is `copyPass`.** -/
theorem copyFilePass_running (hapart : s.src ≠ s.fdst.ino)
    (hpass : copyFilePass closing s ev = .running t) :
    t.src = s.src ∧ t.fdst.ino = s.fdst.ino ∧
      copyPass s.toCopyState ev.toCopyEvent = .running t.toCopyState := by
  have hspec := copyFilePass_spec closing s ev
  rw [hpass] at hspec
  cases hspec with
  | copied heof hfits =>
      refine ⟨rfl, rfl, ?_⟩
      let read := s.fsrc.fread (TEMPBUF_SIZE - 1) ev.fread
      let t := s.copied read ev.drained
      have hsrc : t.fsrc = read.2 := by
        have hkept : t.disk.content s.src = s.disk.content s.src :=
          Disk.store_content_ne _ _ _ hapart
        have hread : read.2.content = s.disk.content s.src := InStream.fread_content ..
        show InStream.mk (t.disk.content s.src) read.2.pos read.2.eof = read.2
        rw [hkept, ← hread]
      have hdst : t.disk.taken t.fdst = s.disk.taken s.fdst ++ read.1 :=
        Disk.taken_drain.trans (List.append_assoc ..).symm
      have hpass := copyPass_spec s.toCopyState ev.toCopyEvent
      generalize copyPass s.toCopyState ev.toCopyEvent = p at hpass
      cases hpass with
      | done heof' => cases heof.symm.trans heof'
      | cutShort _ hshort => exact absurd hfits (Nat.not_le_of_lt hshort)
      | copied _ _ =>
          show Progress.running (CopyState.mk read.2 (s.disk.taken s.fdst ++ read.1))
            = .running (CopyState.mk t.fsrc (t.disk.taken t.fdst))
          rw [hsrc, hdst]

/-- An empty source is read as nothing. -/
theorem fread_empty (hempty : s.disk.content s.src = []) :
    (s.fsrc.fread (TEMPBUF_SIZE - 1) ev.fread).1 = [] := by
  cases ev.fread <;> simp [InStream.fread, Files.fsrc, hempty]

/-- Nothing passes between a file and itself, once it is emptied. -/
theorem copyFilePass_same (hempty : s.disk.content s.src = [])
    (hbuffer : s.fdst.buffer = []) (hpass : copyFilePass closing s ev = .running t) :
    t.src = s.src ∧ t.fdst = s.fdst ∧ t.disk = s.disk := by
  have hspec := copyFilePass_spec closing s ev
  rw [hpass] at hspec
  cases hspec with
  | copied heof hfits =>
      have hnone : (s.fsrc.fread (TEMPBUF_SIZE - 1) ev.fread).1 = [] := fread_empty hempty
      have hall : { s.fdst with buffer := s.fdst.buffer ++
          (s.fsrc.fread (TEMPBUF_SIZE - 1) ev.fread).1 } = s.fdst := by
        rw [hnone, List.append_nil]
      have hdrain := @Disk.drain_nil s.disk s.fdst ev.drained hbuffer
      exact ⟨rfl, (congrArg (fun out => (s.disk.drain out ev.drained).2) hall).trans
          (congrArg Prod.snd hdrain),
        (congrArg (fun out => (s.disk.drain out ev.drained).1) hall).trans
          (congrArg Prod.fst hdrain)⟩

/-- A stream that holds nothing back has nothing to write. -/
theorem Files.close_nil (hbuffer : s.fdst.buffer = []) (n : Nat) : s.close n = s := by
  rw [Files.close, Disk.drain_nil hbuffer]

/-- Nor does the last pass do anything to it. -/
theorem copyFilePass_same_returned (hempty : s.disk.content s.src = [])
    (hbuffer : s.fdst.buffer = []) {r : Int} (hpass : copyFilePass closing s ev = .returned t r) :
    t.disk = s.disk := by
  have hspec := copyFilePass_spec closing s ev
  rw [hpass] at hspec
  cases hspec with
  | done heof => rw [Files.flush, Files.close_nil hbuffer, Files.close_nil hbuffer]
  | cutShort heof hshort =>
      rw [fread_empty hempty] at hshort
      exact absurd hshort (Nat.not_lt_zero _)

end Passes

/-! ## The files that were opened -/

/-- What `openFiles` hands to the loop: an empty destination, and a source
that is the destination or has all its bytes. -/
structure Opened (disk : Disk) (dst src : Path) (s : Files) : Prop where
  lookup : s.disk.lookup dst = some s.fdst.ino
  start : s.pos = 0 ∧ s.eof = false
  empty : s.disk.content s.fdst.ino = [] ∧ s.fdst.buffer = []
  source : s.src = s.fdst.ino ∧ disk.lookup dst = disk.lookup src ∨
    s.src ≠ s.fdst.ino ∧ disk.lookup dst ≠ disk.lookup src ∧
      s.disk.content s.src = disk.bytes src

/-- What the loop keeps of the files it began with. -/
structure Between (s₀ s : Files) : Prop where
  ino : s.fdst.ino = s₀.fdst.ino
  lookup : ∀ path, s.disk.lookup path = s₀.disk.lookup path
  source : s.src = s₀.src
  same : s₀.src = s₀.fdst.ino → s.disk = s₀.disk ∧ s.fdst = s₀.fdst
  apart : s₀.src ≠ s₀.fdst.ino → Copied (s₀.disk.content s₀.src) (.running s.toCopyState)

section Runs

variable {disk : Disk} {dst src : Path} {opening : Opening} {closing : Closing} {s₀ s t : Files}
  {ev : FilesEvent} {evs : Nat → FilesEvent} {n : Nat}

theorem openFiles_opened (h : openFiles disk dst src opening = .ok s) :
    Opened disk dst src s := by
  unfold openFiles at h
  cases hw : disk.openWrite dst opening.fdst with
  | none => simp [hw] at h
  | some opened =>
      obtain ⟨i, disk'⟩ := opened
      simp only [hw] at h
      cases hr : disk'.openRead src opening.fsrc with
      | none => simp [hr] at h
      | some j =>
          simp only [hr, Except.ok.injEq] at h
          subst h
          obtain ⟨hlookup, hempty⟩ := Disk.openWrite_self hw
          have hj : disk'.lookup src = some j := by
            unfold Disk.openRead at hr
            split at hr
            · exact hr
            · cases hr
          exact ⟨hlookup, ⟨rfl, rfl⟩, ⟨hempty, rfl⟩, Disk.openWrite_other hw hj⟩

theorem Opened.between (h : Opened disk dst src s) : Between s s where
  ino := rfl
  lookup _ := rfl
  source := rfl
  same _ := ⟨rfl, rfl⟩
  apart _ := by
    obtain ⟨hempty, hbuffer⟩ := h.empty
    obtain ⟨hpos, heof⟩ := h.start
    have hstart : s.toCopyState = CopyState.start (s.disk.content s.src) := by
      rw [Files.toCopyState, Files.fsrc, Disk.taken, hempty, hbuffer, hpos, heof]
      rfl
    rw [hstart]
    exact copied_start _

theorem Between.pass (hstart : s₀.src = s₀.fdst.ino → s₀.disk.content s₀.src = [] ∧
      s₀.fdst.buffer = []) (h : Between s₀ s) (hpass : copyFilePass closing s ev = .running t) :
    Between s₀ t := by
  have hkept : t.fdst.ino = s.fdst.ino ∧ t.disk.lookup = s.disk.lookup ∧ t.src = s.src := by
    have hspec := copyFilePass_spec closing s ev
    rw [hpass] at hspec
    cases hspec with
    | copied heof hfits => exact ⟨rfl, rfl, rfl⟩
  obtain ⟨hino, hlookup, hsource⟩ := hkept
  refine ⟨hino.trans h.ino, fun path => ?_, hsource.trans h.source, ?_, ?_⟩
  · rw [hlookup]
    exact h.lookup path
  · intro hsame
    obtain ⟨hdisk, hfdst⟩ := h.same hsame
    obtain ⟨hempty, hbuffer⟩ := hstart hsame
    obtain ⟨-, hfdst', hdisk'⟩ :=
      copyFilePass_same (by rw [hdisk, h.source, hempty]) (by rw [hfdst, hbuffer]) hpass
    exact ⟨hdisk'.trans hdisk, hfdst'.trans hfdst⟩
  · intro hapart
    obtain ⟨-, -, hcopy⟩ := copyFilePass_running (by rw [h.source, h.ino]; exact hapart) hpass
    exact hcopy ▸ (h.apart hapart).pass ev.toCopyEvent

/-- **Every pass keeps to the files that were opened.** -/
theorem between_after (hopen : Opened disk dst src s)
    (h : after (copyFilePass closing) s evs n = .running t) : Between s t := by
  have hstart : s.src = s.fdst.ino → s.disk.content s.src = [] ∧ s.fdst.buffer = [] := by
    intro hsame
    exact ⟨by rw [hsame, hopen.empty.1], hopen.empty.2⟩
  exact after_running_keeps (fun u ev t hu ht => hu.pass hstart ht) hopen.between h

/-- **What is in the destination when the loop is left at the end of the
source**: all of it exactly when the source was not the destination, unless
it was empty, and the stream's last bytes are written. -/
theorem Between.closed_iff (hopen : Opened disk dst src s₀) (h : Between s₀ s)
    (heof : s.eof = true) :
    ((s.flush closing.fflush).close closing.fclose).disk.bytes dst = disk.bytes src ↔
      (disk.lookup dst = disk.lookup src → disk.bytes src = []) ∧
        s.fdst.buffer.length ≤ closing.fflush + closing.fclose := by
  have hlookup : ((s.flush closing.fflush).close closing.fclose).disk.lookup dst
      = some s.fdst.ino := by
    show s.disk.lookup dst = _
    rw [h.lookup, hopen.lookup, h.ino]
  rw [Disk.bytes_of_lookup hlookup]
  have hdrain := @Disk.drain_drain_eq_taken_iff s.disk s.fdst closing.fclose closing.fflush
  rcases hopen.source with ⟨hsame, hfile⟩ | ⟨hapart, hfile, hsource⟩
  · -- nothing went through the loop, and the file stays empty
    obtain ⟨hdisk, hfdst⟩ := h.same hsame
    obtain ⟨hempty, hbuffer⟩ := hopen.empty
    have htaken : s.disk.taken s.fdst = [] := by
      rw [Disk.taken, hdisk, hfdst, hempty, hbuffer]
      rfl
    have hnone : s.fdst.buffer.length ≤ closing.fflush + closing.fclose := by
      rw [hfdst, hbuffer]
      exact Nat.zero_le _
    have hleft : ((s.flush closing.fflush).close closing.fclose).disk.content s.fdst.ino = [] :=
      (hdrain.mpr hnone).trans htaken
    rw [hleft]
    constructor
    · intro hsrc
      exact ⟨fun _ => hsrc.symm, hnone⟩
    · intro h
      exact (h.1 hfile).symm
  · obtain ⟨hvalid, hcontent, htaken⟩ := h.apart hapart
    have hall : s.disk.taken s.fdst = disk.bytes src := by
      have hend : s.toCopyState.fsrc.pos = s.toCopyState.fsrc.content.length := hvalid.atEnd heof
      rw [hend, hcontent, List.take_length] at htaken
      exact htaken.trans hsource
    rw [hall] at hdrain
    constructor
    · intro heq
      exact ⟨fun hnot => absurd hnot hfile, hdrain.mp heq⟩
    · intro h
      exact hdrain.mpr h.2

end Runs

end BeEasy.FileOperation
