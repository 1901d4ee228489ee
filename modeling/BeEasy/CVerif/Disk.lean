import BeEasy.CVerif.FileSystem
import BeEasy.CVerif.Stdio
import Mathlib.Data.List.TakeDrop

/-!
# CVerif — Disk

Regular files behind the calls that open and write them. A path leads to a
place, links followed; a place names a file or nothing yet; a file is an
inode with its bytes. So two paths are one file when they lead to one place,
or to two places of one inode.

Whether an open that could succeed does is an argument, and so is how much
of what it holds back a stream writes when: the caller of the model chooses
them.
-/

namespace CVerif

/-- A directory and a name in it. -/
abbrev Place := Nat

/-- The files by path, and the inode number the next new file gets. -/
structure Disk where
  place : Path → Option Place
  entry : Place → Option Ino
  content : Ino → List Byte
  nextIno : Ino
  entry_lt : ∀ p i, entry p = some i → i < nextIno

namespace Disk

/-- The file a path leads to. -/
def lookup (disk : Disk) (path : Path) : Option Ino := (disk.place path).bind disk.entry

/-- Its bytes; a file that is missing has none. -/
def bytes (disk : Disk) (path : Path) : List Byte := ((disk.lookup path).map disk.content).getD []

/-- The disk with these bytes in a file. -/
def store (disk : Disk) (i : Ino) (bs : List Byte) : Disk :=
  { disk with content := fun j => if j = i then bs else disk.content j }

/-- The disk with a new empty file at a place. -/
def create (disk : Disk) (p : Place) : Disk where
  place := disk.place
  entry q := if q = p then some disk.nextIno else disk.entry q
  content j := if j = disk.nextIno then [] else disk.content j
  nextIno := disk.nextIno + 1
  entry_lt := by
    intro q i h
    by_cases hq : q = p
    · rw [if_pos hq] at h
      cases h
      exact Nat.lt_succ_self _
    · rw [if_neg hq] at h
      exact Nat.lt_succ_of_lt (disk.entry_lt q i h)

/-- `fopen(path, "wb")`, and `open` with `O_CREAT | O_WRONLY | O_TRUNC`: what
is there is emptied, and what is not there is created. -/
def openWrite (disk : Disk) (path : Path) (succeeds : Bool) : Option (Ino × Disk) :=
  match succeeds, disk.place path with
  | true, some p =>
      match disk.entry p with
      | some i => some (i, disk.store i [])
      | none => some (disk.nextIno, disk.create p)
  | _, _ => none

/-- `fopen(path, "rb")`. -/
def openRead (disk : Disk) (path : Path) (succeeds : Bool) : Option Ino :=
  if succeeds then disk.lookup path else none

section Stored

variable (disk : Disk) (i : Ino) (bs : List Byte)

@[simp] theorem store_lookup (path : Path) : (disk.store i bs).lookup path = disk.lookup path := rfl

@[simp] theorem store_content_self : (disk.store i bs).content i = bs := if_pos rfl

theorem store_content_ne {j : Ino} (h : j ≠ i) : (disk.store i bs).content j = disk.content j :=
  if_neg h

/-- Storing what is there changes nothing, and storing anything else does. -/
theorem store_eq_self_iff : disk.store i bs = disk ↔ disk.content i = bs := by
  constructor
  · intro h
    rw [← store_content_self disk i bs, h]
  · rintro rfl
    have hcontent : (disk.store i (disk.content i)).content = disk.content := by
      funext j
      by_cases hj : j = i
      · subst hj
        exact store_content_self ..
      · exact store_content_ne _ _ _ hj
    exact congrArg (fun content => Disk.mk disk.place disk.entry content disk.nextIno disk.entry_lt)
      hcontent

end Stored

section Opened

variable {disk disk' : Disk} {path : Path} {i : Ino}

theorem bytes_of_lookup (h : disk.lookup path = some i) : disk.bytes path = disk.content i := by
  rw [bytes, h]
  rfl

theorem bytes_of_missing (h : disk.lookup path = none) : disk.bytes path = [] := by
  rw [bytes, h]
  rfl

/-- What an open for writing does, by what was there. -/
theorem openWrite_cases {succeeds : Bool} (h : disk.openWrite path succeeds = some (i, disk')) :
    (disk.lookup path = some i ∧ disk' = disk.store i []) ∨
      ∃ p, disk.place path = some p ∧ disk.entry p = none ∧ i = disk.nextIno ∧
        disk' = disk.create p := by
  unfold openWrite at h
  cases hok : succeeds with
  | false => simp [hok] at h
  | true =>
      cases hp : disk.place path with
      | none => simp [hok, hp] at h
      | some p =>
          cases he : disk.entry p with
          | none =>
              simp only [hok, hp, he, Option.some.injEq, Prod.mk.injEq] at h
              exact .inr ⟨p, rfl, he, h.1.symm, h.2.symm⟩
          | some j =>
              simp only [hok, hp, he, Option.some.injEq, Prod.mk.injEq] at h
              obtain ⟨rfl, rfl⟩ := h
              exact .inl ⟨by rw [lookup, hp, Option.bind_some, he], rfl⟩

theorem lookup_create {p : Place} (q : Path) : (disk.create p).lookup q =
    if disk.place q = some p then some disk.nextIno else disk.lookup q := by
  show (disk.place q).bind _ = _
  cases hq : disk.place q with
  | none => rw [if_neg nofun, lookup, hq]; rfl
  | some r =>
      rw [Option.bind_some, lookup, hq, Option.bind_some]
      by_cases hr : r = p
      · rw [if_pos (congrArg some hr)]
        exact if_pos hr
      · rw [if_neg fun heq => hr (Option.some.inj heq)]
        exact if_neg hr

/-- **After an open for writing the path leads to the file, and it is empty.** -/
theorem openWrite_self {succeeds : Bool} (h : disk.openWrite path succeeds = some (i, disk')) :
    disk'.lookup path = some i ∧ disk'.content i = [] := by
  rcases openWrite_cases h with ⟨hlookup, rfl⟩ | ⟨p, hp, -, rfl, rfl⟩
  · exact ⟨hlookup, store_content_self ..⟩
  · exact ⟨by rw [lookup_create, if_pos hp], if_pos rfl⟩

/-- Any other path leads there too if it leads to what the path led to, and
else to what it led to before. -/
theorem openWrite_other {succeeds : Bool} (h : disk.openWrite path succeeds = some (i, disk'))
    {q : Path} {j : Ino} (hq : disk'.lookup q = some j) :
    j = i ∧ disk.lookup path = disk.lookup q ∨
      j ≠ i ∧ disk.lookup path ≠ disk.lookup q ∧ disk'.content j = disk.bytes q := by
  rcases openWrite_cases h with ⟨hlookup, rfl⟩ | ⟨p, hp, he, rfl, rfl⟩
  · rw [store_lookup] at hq
    rw [hlookup, hq]
    by_cases hj : j = i
    · exact .inl ⟨hj, by rw [hj]⟩
    · refine .inr ⟨hj, fun heq => hj (Option.some.inj heq).symm, ?_⟩
      rw [store_content_ne _ _ _ hj, bytes_of_lookup hq]
  · have hmissing : disk.lookup path = none := by rw [lookup, hp, Option.bind_some, he]
    rw [lookup_create] at hq
    by_cases hplace : disk.place q = some p
    · rw [if_pos hplace] at hq
      refine .inl ⟨(Option.some.inj hq).symm, ?_⟩
      rw [lookup, lookup, hp, hplace]
    · rw [if_neg hplace] at hq
      obtain ⟨r, -, hr⟩ := Option.bind_eq_some_iff.mp hq
      have hlt := disk.entry_lt r j hr
      refine .inr ⟨Nat.ne_of_lt hlt, by rw [hmissing, hq]; nofun, ?_⟩
      rw [bytes_of_lookup hq]
      exact if_neg (Nat.ne_of_lt hlt)

/-- A file that was open already is the one opened, or keeps its bytes. -/
theorem openWrite_open {succeeds : Bool} (h : disk.openWrite path succeeds = some (i, disk'))
    {j : Ino} (hj : j < disk.nextIno) :
    j = i ∧ disk.lookup path = some j ∨
      j ≠ i ∧ disk.lookup path ≠ some j ∧ disk'.content j = disk.content j := by
  rcases openWrite_cases h with ⟨hlookup, rfl⟩ | ⟨p, hp, he, rfl, rfl⟩
  · rw [hlookup]
    by_cases hji : j = i
    · exact .inl ⟨hji, by rw [hji]⟩
    · exact .inr ⟨hji, fun heq => hji (Option.some.inj heq).symm, store_content_ne _ _ _ hji⟩
  · have hne := Nat.ne_of_lt hj
    refine .inr ⟨hne, ?_, if_neg hne⟩
    rw [lookup, hp, Option.bind_some, he]
    nofun

end Opened

/-! ## Streams open for writing -/

/-- The file of a stream, and the bytes the stream holds back. -/
structure OutStream where
  ino : Ino
  buffer : List Byte

/-- The stream writes up to `n` of the bytes it holds back. -/
def drain (disk : Disk) (out : OutStream) (n : Nat) : Disk × OutStream :=
  (disk.store out.ino (disk.content out.ino ++ out.buffer.take n),
    { out with buffer := out.buffer.drop n })

/-- `fwrite(bs, 1, size, fp)`: the stream takes up to `accepted` of the bytes,
which is the result, and writes up to `drained` of all it then holds. -/
def fwrite (disk : Disk) (out : OutStream) (bs : List Byte) (accepted drained : Nat) :
    Nat × Disk × OutStream :=
  ((bs.take accepted).length,
    disk.drain { out with buffer := out.buffer ++ bs.take accepted } drained)

/-- All that a stream took: what its file holds and what it holds back. -/
def taken (disk : Disk) (out : OutStream) : List Byte := disk.content out.ino ++ out.buffer

section Streams

variable {disk : Disk} {out : OutStream} {n : Nat}

@[simp] theorem drain_ino : (disk.drain out n).2.ino = out.ino := rfl

theorem drain_content_self : (disk.drain out n).1.content out.ino
    = disk.content out.ino ++ out.buffer.take n := store_content_self ..

/-- Writing what is held back changes nothing about all that was taken. -/
@[simp] theorem taken_drain : (disk.drain out n).1.taken (disk.drain out n).2
    = disk.taken out := by
  rw [taken, drain_ino, drain_content_self, taken, List.append_assoc]
  exact congrArg _ (List.take_append_drop n out.buffer)

theorem drain_nil (h : out.buffer = []) : disk.drain out n = (disk, out) := by
  have hstore : disk.store out.ino (disk.content out.ino ++ out.buffer.take n) = disk := by
    rw [store_eq_self_iff, h, List.take_nil, List.append_nil]
  have hbuffer : out.buffer.drop n = out.buffer := by rw [h, List.drop_nil]
  rw [drain, hstore, hbuffer]

/-- **What a flush and the close after it leave in the file**: all that was
taken exactly when they can write what was held back. -/
theorem drain_drain_eq_taken_iff {m : Nat} :
    ((disk.drain out m).1.drain (disk.drain out m).2 n).1.content out.ino = disk.taken out ↔
      out.buffer.length ≤ m + n := by
  have hboth : ((disk.drain out m).1.drain (disk.drain out m).2 n).1.content out.ino
      = disk.content out.ino ++ out.buffer.take (m + n) := by
    rw [show out.ino = (disk.drain out m).2.ino from rfl, drain_content_self, drain_ino,
      drain_content_self, List.append_assoc, List.take_add]
    rfl
  rw [hboth, taken, List.append_cancel_left_eq, List.take_eq_self_iff]

end Streams

end Disk

end CVerif
