import BeEasy.CVerif.Disk
import BeEasy.CVerif.EventLoop

/-!
# FileOperation — Write file

`write_file` of `file_operation/file.c`: it copies what is left to read of a
descriptor into a file, round by round. A read that fails ends the loop like
the end of the source does, and what a `write` returns is not looked at, so
the result is 0 whenever the file could be opened.
-/

namespace BeEasy.FileOperation

open CVerif

/-- `sizeof(buf)`. -/
def BUF_SIZE : Nat := 1024

/-- A file that is open: there is one, and `pos` is where it is read next. -/
structure Descriptor (disk : Disk) where
  ino : Ino
  pos : Nat
  ino_lt : ino < disk.nextIno

/-- The two files of the loop: `rd` is read at `pos`, `fw` written. -/
structure WriteState where
  disk : Disk
  rd : Ino
  pos : Nat
  fw : Ino

/-- The outcomes of a round: how many bytes `read` finds ready, or its error,
and how many `write` stores. -/
structure WriteEvent where
  read : Option Nat
  write : Nat

/-- What is left to read. -/
def WriteState.rest (s : WriteState) : List Byte := (s.disk.content s.rd).drop s.pos

/-- What `read(rd, buf, 1024)` delivers: nothing only at the end. -/
def WriteState.buf (s : WriteState) (ev : WriteEvent) : List Byte :=
  match ev.read with
  | none => []
  | some ready => s.rest.take (min (max 1 ready) BUF_SIZE)

/-- One round of `while ((ret = read(rd, buf, 1024)) > 0)`. -/
def writeFileTurn (s : WriteState) (ev : WriteEvent) : Progress WriteState Int Fault :=
  let buf := s.buf ev
  if buf = [] then .returned s 0
  else .running { s with
    disk := s.disk.store s.fw (s.disk.content s.fw ++ buf.take ev.write)
    pos := s.pos + buf.length }

/-- `write_file(rd, file)` after `n` rounds of its loop, by the disk then and
the result once there is one. -/
def writeFile (disk : Disk) (rd : Descriptor disk) (file : Path) (opens : Bool)
    (evs : Nat → WriteEvent) (n : Nat) : Disk × Option Int :=
  match disk.openWrite file opens with
  | none => (disk, some (-1))
  | some (fw, opened) =>
      match after writeFileTurn ⟨opened, rd.ino, rd.pos, fw⟩ evs n with
      | .running t => (t.disk, none)
      | .returned t r => (t.disk, some r)
      | .faulted _ => (opened, none)

/-! ## A round -/

/-- Nothing is lost in a round: the read fails only at the end, and the write
stores all that was read. -/
structure Stores (s : WriteState) (ev : WriteEvent) : Prop where
  read : ev.read = none → s.rest = []
  write : (s.buf ev).length ≤ ev.write

/-- The file has `content` up to what is left to read, and all of it at the end. -/
def Whole (content : List Byte) : Progress WriteState Int Fault → Prop
  | .running s => s.disk.content s.fw ++ s.rest = content
  | .returned s _ => s.disk.content s.fw = content
  | .faulted _ => False

section Rounds

variable {content : List Byte} {s t : WriteState} {ev : WriteEvent} {evs : Nat → WriteEvent}
  {n : Nat}

/-- What is read is the start of what is left. -/
theorem buf_append (s : WriteState) (ev : WriteEvent) :
    s.buf ev ++ s.rest.drop (s.buf ev).length = s.rest := by
  apply List.prefix_iff_eq_append.mp
  unfold WriteState.buf
  cases ev.read with
  | none => exact List.nil_prefix
  | some ready => exact List.take_prefix _ _

theorem buf_eq_nil_iff : s.buf ev = [] ↔ ev.read = none ∨ s.rest = [] := by
  unfold WriteState.buf
  cases ev.read with
  | none => simp
  | some ready =>
      have hpos : min (max 1 ready) BUF_SIZE ≠ 0 := by
        simp only [BUF_SIZE]
        omega
      simp [List.take_eq_nil_iff, hpos]

/-- Between two files a round moves what is left to read on. -/
theorem rest_stored (hapart : s.rd ≠ s.fw) (bs : List Byte) (n : Nat) :
    WriteState.rest { s with disk := s.disk.store s.fw bs, pos := s.pos + n }
      = s.rest.drop n := by
  show ((s.disk.store s.fw bs).content s.rd).drop (s.pos + n) = (_ : List Byte).drop n
  rw [Disk.store_content_ne _ _ _ hapart, WriteState.rest, List.drop_drop]

/-- What both files hold never grows beyond the source. -/
structure Bounded (content : List Byte) (s : WriteState) : Prop where
  apart : s.rd ≠ s.fw
  length : (s.disk.content s.fw).length + s.rest.length ≤ content.length

theorem Bounded.turn (h : Bounded content s) (hturn : writeFileTurn s ev = .running t) :
    Bounded content t := by
  unfold writeFileTurn at hturn
  by_cases hnil : s.buf ev = []
  · simp [hnil] at hturn
  · simp only [if_neg hnil, Progress.running.injEq] at hturn
    subst hturn
    have hlen := h.length
    have hall := congrArg List.length (buf_append s ev)
    refine ⟨h.apart, ?_⟩
    rw [rest_stored h.apart, Disk.store_content_self, List.length_append, List.length_take]
    rw [List.length_append] at hall
    omega

/-- **A round keeps the whole exactly when nothing is lost in it.** -/
theorem whole_turn_iff (h : Bounded content s) :
    Whole content (writeFileTurn s ev) ↔ Whole content (.running s) ∧ Stores s ev := by
  have hlen := h.length
  have hbuf := buf_append s ev
  unfold writeFileTurn
  by_cases hnil : s.buf ev = []
  · simp only [if_pos hnil, Whole]
    constructor
    · intro hwhole
      have hrest : s.rest = [] := by
        rw [hwhole] at hlen
        exact List.eq_nil_of_length_eq_zero (by omega)
      refine ⟨by rw [hwhole, hrest, List.append_nil], fun _ => hrest, ?_⟩
      rw [hnil]
      exact Nat.zero_le _
    · intro ⟨hwhole, hstores⟩
      have hrest : s.rest = [] := (buf_eq_nil_iff.mp hnil).elim hstores.read id
      rwa [hrest, List.append_nil] at hwhole
  · simp only [if_neg hnil, Whole]
    rw [rest_stored h.apart, Disk.store_content_self, List.append_assoc]
    constructor
    · intro hwhole
      have hall := congrArg List.length hbuf
      have htotal := congrArg List.length hwhole
      simp only [List.length_append, List.length_take] at hall htotal
      have hwrite : (s.buf ev).length ≤ ev.write := by omega
      rw [List.take_of_length_le hwrite, hbuf] at hwhole
      exact ⟨hwhole, fun hread => absurd (buf_eq_nil_iff.mpr (.inl hread)) hnil, hwrite⟩
    · intro ⟨hwhole, hstores⟩
      rw [List.take_of_length_le hstores.write, hbuf]
      exact hwhole

end Rounds

/-! ## The whole call -/

/-- `write_file` returns 0 only with what was left to read in the file. -/
def WriteRight (disk : Disk) (rd : Descriptor disk) (file : Path) (opens : Bool)
    (evs : Nat → WriteEvent) : Prop :=
  ∀ n, (writeFile disk rd file opens evs n).2 = some 0 →
    (writeFile disk rd file opens evs n).1.bytes file = (disk.content rd.ino).drop rd.pos

/-- The file is not the source, unless nothing is left to read of that, and no
round loses anything. -/
def NothingLost (disk : Disk) (rd : Descriptor disk) (file : Path) (opens : Bool)
    (evs : Nat → WriteEvent) : Prop :=
  ∀ fw opened, disk.openWrite file opens = some (fw, opened) →
    (disk.lookup file = some rd.ino → (disk.content rd.ino).drop rd.pos = []) ∧
      ∀ n s, after writeFileTurn ⟨opened, rd.ino, rd.pos, fw⟩ evs n = .running s →
        Stores s (evs n)

section Calls

variable {disk : Disk} {rd : Descriptor disk} {file : Path} {opens : Bool}
  {evs : Nat → WriteEvent} {n : Nat} {s : WriteState}

/-- The loop stays with its two files and returns nothing but 0. -/
theorem kept_after (s : WriteState) (evs : Nat → WriteEvent) (n : Nat) :
    ∃ t, (after writeFileTurn s evs n = .running t ∨ after writeFileTurn s evs n = .returned t 0) ∧
      t.rd = s.rd ∧ t.fw = s.fw ∧ t.disk.lookup = s.disk.lookup := by
  let Kept : Progress WriteState Int Fault → Prop := fun p => ∃ t, (p = .running t ∨
    p = .returned t 0) ∧ t.rd = s.rd ∧ t.fw = s.fw ∧ t.disk.lookup = s.disk.lookup
  refine after_invariant (J := Kept) ?_ ⟨s, .inl rfl, rfl, rfl, rfl⟩ evs n
  intro u ev ⟨t, hrun, hkept⟩
  cases hrun.resolve_right nofun
  unfold writeFileTurn
  by_cases hnil : u.buf ev = []
  · simp only [if_pos hnil]
    exact ⟨u, .inr rfl, hkept⟩
  · simp only [if_neg hnil]
    exact ⟨_, .inl rfl, hkept⟩

/-- Between two files every round reads something, so the loop ends. -/
theorem writeFile_ends (evs : Nat → WriteEvent) (hapart : s.rd ≠ s.fw) :
    ∃ n, ∀ t, after writeFileTurn s evs n ≠ .running t := by
  have lowers : ∀ (u : WriteState) (ev : WriteEvent) (t : WriteState), u.rd ≠ u.fw → True →
      writeFileTurn u ev = .running t → t.rd ≠ t.fw → t.rest.length < u.rest.length := by
    intro u ev t hu _ hturn _
    unfold writeFileTurn at hturn
    by_cases hnil : u.buf ev = []
    · simp [hnil] at hturn
    · simp only [if_neg hnil, Progress.running.injEq] at hturn
      subst hturn
      have hpos := List.length_pos_iff.mpr hnil
      have hall := congrArg List.length (buf_append u ev)
      rw [List.length_append, List.length_drop] at hall
      rw [rest_stored hu, List.length_drop]
      omega
  obtain ⟨n, hout⟩ := after_leaves lowers s evs (fun _ => trivial)
  refine ⟨n, fun t ht => hout t ht ?_⟩
  obtain ⟨u, hu, hrd, hfw, -⟩ := kept_after s evs n
  rw [ht] at hu
  cases hu.resolve_right nofun
  rw [hrd, hfw]
  exact hapart

/-- A file and itself, once it is emptied: nothing is left to read. -/
theorem writeFile_same (hempty : s.rest = []) (evs : Nat → WriteEvent) (n : Nat) :
    after writeFileTurn s evs n = .running s ∨ after writeFileTurn s evs n = .returned s 0 := by
  let Still : Progress WriteState Int Fault → Prop := fun p => p = .running s ∨ p = .returned s 0
  refine after_invariant (J := Still) ?_ (.inl rfl) evs n
  intro u ev hu
  cases hu.resolve_right nofun
  right
  unfold writeFileTurn
  rw [if_pos (buf_eq_nil_iff.mpr (.inr hempty))]

/-- Every way the loop from `s` can end leaves `content` in the file. -/
def EndsWith (content : List Byte) (s : WriteState) (evs : Nat → WriteEvent) : Prop :=
  ∀ n t r, after writeFileTurn s evs n = .returned t r → t.disk.content t.fw = content

theorem endsWith_same (hempty : s.rest = []) (content : List Byte) (evs : Nat → WriteEvent) :
    EndsWith content s evs ↔ s.disk.content s.fw = content := by
  constructor
  · intro hends
    have hfirst : after writeFileTurn s evs 1 = .returned s 0 := by
      show writeFileTurn s (evs 0) = _
      unfold writeFileTurn
      rw [if_pos (buf_eq_nil_iff.mpr (.inr hempty))]
    exact hends 1 s 0 hfirst
  · intro hcontent n t r hrun
    rcases writeFile_same hempty evs n with h | h
    · cases hrun.symm.trans h
    · cases hrun.symm.trans h
      exact hcontent

theorem endsWith_apart {content : List Byte} (hbounded : Bounded content s)
    (hwhole : Whole content (.running s)) (evs : Nat → WriteEvent) :
    EndsWith content s evs ↔
      ∀ n t, after writeFileTurn s evs n = .running t → Stores t (evs n) := by
  have hall : ∀ n, Whole content (after writeFileTurn s evs n) ↔ Whole content (.running s) ∧
      ∀ m < n, ∀ t, after writeFileTurn s evs m = .running t → Stores t (evs m) :=
    after_iff (fun u ev t hu ht => Bounded.turn hu ht) (fun u ev hu => whole_turn_iff hu)
      hbounded evs
  constructor
  · intro hends m u hm
    obtain ⟨n, hout⟩ := writeFile_ends evs hbounded.apart
    have hlt : m < n := by
      by_contra hle
      exact hout u ((after_stopped hout (Nat.le_of_not_lt hle)).symm.trans hm)
    obtain ⟨t, hrun, -⟩ := kept_after s evs n
    have hrun := hrun.resolve_left (hout t)
    have hlast : Whole content (after writeFileTurn s evs n) := by
      rw [hrun]
      exact hends n t 0 hrun
    exact ((hall n).mp hlast).2 m hlt u hm
  · intro hstores n t r hrun
    have hlast := (hall n).mpr ⟨hwhole, fun m _ u hu => hstores m u hu⟩
    rwa [hrun] at hlast

/-- What the call leaves in its file, once it has returned. -/
theorem writeFile_returned {opened : Disk} {fw : Ino}
    (hopen : disk.openWrite file opens = some (fw, opened)) {t : WriteState} {r : Int}
    (hrun : after writeFileTurn ⟨opened, rd.ino, rd.pos, fw⟩ evs n = .returned t r) :
    (writeFile disk rd file opens evs n).2 = some 0 ∧
      (writeFile disk rd file opens evs n).1.bytes file = t.disk.content t.fw := by
  obtain ⟨u, hu, -, hfw, hlookup⟩ := kept_after ⟨opened, rd.ino, rd.pos, fw⟩ evs n
  rw [hrun] at hu
  cases hu.resolve_left nofun
  rw [writeFile, hopen]
  simp only [hrun]
  refine ⟨trivial, Disk.bytes_of_lookup ?_⟩
  rw [hlookup, hfw]
  exact (Disk.openWrite_self hopen).1

theorem writeRight_opened {opened : Disk} {fw : Ino}
    (hopen : disk.openWrite file opens = some (fw, opened)) :
    WriteRight disk rd file opens evs ↔
      EndsWith ((disk.content rd.ino).drop rd.pos) ⟨opened, rd.ino, rd.pos, fw⟩ evs := by
  constructor
  · intro hright n t r hrun
    obtain ⟨hzero, hbytes⟩ := writeFile_returned hopen hrun
    rw [← hbytes, hright n hzero]
  · intro hends n hzero
    obtain ⟨t, hrun | hrun, -⟩ := kept_after ⟨opened, rd.ino, rd.pos, fw⟩ evs n
    · rw [writeFile, hopen] at hzero
      simp [hrun] at hzero
    · rw [(writeFile_returned hopen hrun).2, hends n t 0 hrun]

theorem nothingLost_opened {opened : Disk} {fw : Ino}
    (hopen : disk.openWrite file opens = some (fw, opened)) :
    NothingLost disk rd file opens evs ↔
      (disk.lookup file = some rd.ino → (disk.content rd.ino).drop rd.pos = []) ∧
        ∀ n t, after writeFileTurn ⟨opened, rd.ino, rd.pos, fw⟩ evs n = .running t →
          Stores t (evs n) := by
  constructor
  · intro h
    exact h fw opened hopen
  · intro h fw' opened' heq
    cases hopen.symm.trans heq
    exact h

/-- The source was emptied before it is read, so no round moves anything. -/
theorem writeRight_same {opened : Disk} (hopen : disk.openWrite file opens = some (rd.ino, opened))
    (hfile : disk.lookup file = some rd.ino) :
    WriteRight disk rd file opens evs ↔ NothingLost disk rd file opens evs := by
  have hempty := (Disk.openWrite_self hopen).2
  let s : WriteState := ⟨opened, rd.ino, rd.pos, rd.ino⟩
  have hrest : s.rest = [] := by
    show (opened.content rd.ino).drop rd.pos = []
    rw [hempty, List.drop_nil]
  rw [writeRight_opened hopen, nothingLost_opened hopen, endsWith_same hrest, hempty]
  constructor
  · intro hsrc
    refine ⟨fun _ => hsrc.symm, fun n t ht => ?_⟩
    rcases writeFile_same hrest evs n with h | h
    · cases ht.symm.trans h
      refine ⟨fun _ => hrest, ?_⟩
      rw [buf_eq_nil_iff.mpr (.inr hrest)]
      exact Nat.zero_le _
    · cases ht.symm.trans h
  · intro ⟨hsrc, _⟩
    exact (hsrc hfile).symm

/-- Between two files all that counts is what the rounds lose. -/
theorem writeRight_apart {opened : Disk} {fw : Ino}
    (hopen : disk.openWrite file opens = some (fw, opened)) (hapart : rd.ino ≠ fw)
    (hfile : disk.lookup file ≠ some rd.ino)
    (hsource : opened.content rd.ino = disk.content rd.ino) :
    WriteRight disk rd file opens evs ↔ NothingLost disk rd file opens evs := by
  have hempty := (Disk.openWrite_self hopen).2
  let s : WriteState := ⟨opened, rd.ino, rd.pos, fw⟩
  have hsrc : s.rest = (disk.content rd.ino).drop rd.pos := by
    rw [WriteState.rest, hsource]
  have hwhole : Whole ((disk.content rd.ino).drop rd.pos) (.running s) := by
    show opened.content fw ++ s.rest = _
    rw [hempty, hsrc, List.nil_append]
  have hbounded : Bounded ((disk.content rd.ino).drop rd.pos) s := by
    refine ⟨hapart, ?_⟩
    show (opened.content fw).length + s.rest.length ≤ _
    rw [hempty, hsrc]
    exact Nat.le_of_eq (Nat.zero_add _)
  rw [writeRight_opened hopen, nothingLost_opened hopen, endsWith_apart hbounded hwhole]
  exact (and_iff_right (absurd · hfile)).symm

/-- **When the file is right**: if no round loses anything. -/
theorem writeRight_iff :
    WriteRight disk rd file opens evs ↔ NothingLost disk rd file opens evs := by
  cases hopen : disk.openWrite file opens with
  | none =>
      refine iff_of_true (fun n hzero => ?_) fun fw opened h => ?_
      · rw [writeFile, hopen] at hzero
        cases hzero
      · rw [hopen] at h
        cases h
  | some result =>
      obtain ⟨fw, opened⟩ := result
      rcases Disk.openWrite_open hopen rd.ino_lt with
        ⟨rfl, hfile⟩ | ⟨hapart, hfile, hsource⟩
      · exact writeRight_same hopen hfile
      · exact writeRight_apart hopen hapart hfile hsource

end Calls

end BeEasy.FileOperation
