import BeEasy.CVerif.Memory

/-!
# CVerif — Stdio

Input streams as `fread` and `feof` see them, and output files as a
sequence of appends. The outcome of a call that may fail is an argument:
the caller of the model chooses it, so a theorem for every outcome covers
every failure.
-/

namespace CVerif

/-- A stream open for reading: the file's bytes, how many were consumed,
and the end-of-file indicator. -/
structure InStream where
  content : List Byte
  pos : Nat
  eof : Bool

/-- A freshly opened (or rewound) stream. -/
def InStream.ofContent (content : List Byte) : InStream := ⟨content, 0, false⟩

/-- `fread(buf, 1, size, fp)`: the bytes delivered and the stream after.
Without an error the call is short only at the end of the file, and that
is what sets the indicator. With the error `some n` it delivers at most
`n` bytes, fewer than asked, and leaves the indicator alone. -/
def InStream.fread (s : InStream) (size : Nat) : Option Nat → List Byte × InStream
  | none =>
      let bs := (s.content.drop s.pos).take size
      (bs, { s with pos := s.pos + bs.length, eof := s.eof || decide (bs.length < size) })
  | some n =>
      let bs := (s.content.drop s.pos).take (min n (size - 1))
      (bs, { s with pos := s.pos + bs.length })

/-- The position is inside the file, and at its end once `feof` is true. -/
structure InStream.Valid (s : InStream) : Prop where
  inside : s.pos ≤ s.content.length
  atEnd : s.eof = true → s.pos = s.content.length

theorem InStream.valid_ofContent (content : List Byte) : (ofContent content).Valid :=
  ⟨Nat.zero_le _, fun h => by cases h⟩

section Fread

variable (s : InStream) (size : Nat) (err : Option Nat)

@[simp] theorem InStream.fread_content : (s.fread size err).2.content = s.content := by
  cases err <;> rfl

@[simp] theorem InStream.fread_pos :
    (s.fread size err).2.pos = s.pos + (s.fread size err).1.length := by
  cases err <;> rfl

theorem InStream.fread_length_le : (s.fread size err).1.length ≤ size := by
  cases err with
  | none => simp only [fread, List.length_take]; omega
  | some n => simp only [fread, List.length_take]; omega

/-- What was read so far, together with this read, is what is read now. -/
theorem InStream.take_fread :
    s.content.take s.pos ++ (s.fread size err).1 = s.content.take (s.fread size err).2.pos := by
  have split : ∀ k, s.content.take s.pos ++ (s.content.drop s.pos).take k
      = s.content.take (s.pos + ((s.content.drop s.pos).take k).length) := by
    intro k
    rw [List.take_add, List.length_take, List.take_eq_take_min (i := k)]
  rw [fread_pos]
  cases err with
  | none => exact split _
  | some n => exact split _

theorem InStream.Valid.fread {s : InStream} (h : s.Valid) (size : Nat) (err : Option Nat) :
    (s.fread size err).2.Valid := by
  have hin := h.inside
  have hend := h.atEnd
  cases err with
  | none =>
      constructor
      · simp only [InStream.fread, List.length_take, List.length_drop]
        omega
      · simp only [InStream.fread, List.length_take, List.length_drop, Bool.or_eq_true,
          decide_eq_true_eq]
        rintro (he | hshort)
        · have := hend he
          omega
        · omega
  | some n =>
      constructor
      · simp only [InStream.fread, List.length_take, List.length_drop]
        omega
      · simp only [InStream.fread, List.length_take, List.length_drop]
        intro he
        have := hend he
        omega

/-- How many reads of `size` bytes are left until `feof`: the one that comes
short is one of them, even when it delivers nothing. -/
def InStream.reads (s : InStream) (size : Nat) : Nat :=
  if s.eof then 0 else (s.content.length - s.pos) / size + 1

theorem InStream.reads_fread {s : InStream} {size : Nat} (hsize : 0 < size)
    (heof : s.eof = false) : (s.fread size none).2.reads size + 1 = s.reads size := by
  have hlen : ((s.content.drop s.pos).take size).length = min size (s.content.length - s.pos) := by
    rw [List.length_take, List.length_drop]
  -- a full read leaves the indicator alone, even when it ends at the end of the file
  by_cases hfull : size ≤ s.content.length - s.pos
  · have hmore : (s.fread size none).2.eof = false := by
      simp only [fread, heof, hlen, Bool.false_or, decide_eq_false_iff_not]
      omega
    have hstep : s.content.length - s.pos = (s.content.length - (s.pos + size)) + size := by omega
    rw [reads, hmore, reads, heof, fread_pos, fread_content]
    simp only [Bool.false_eq_true, if_false, fread, hlen, Nat.min_eq_left hfull]
    rw [hstep, Nat.add_div_right _ hsize]
  · have hend : (s.fread size none).2.eof = true := by
      simp only [fread, heof, hlen, Bool.false_or, decide_eq_true_eq]
      omega
    have hnone : (s.content.length - s.pos) / size = 0 := Nat.div_eq_of_lt (by omega)
    rw [reads, hend, reads, heof]
    simp [hnone]

end Fread

/-! ## Streams that end in an error -/

/-- What comes behind the last byte a stream can deliver. -/
inductive Ending where
  /-- The end of the file. -/
  | endOfFile
  /-- An error that stays. -/
  | readError
  deriving DecidableEq

/-- How `fread` ends on such a stream: the error shows in every call that
asks for more than is left. -/
def Ending.outcome (ending : Ending) (s : InStream) (size : Nat) : Option Nat :=
  match ending with
  | .endOfFile => none
  | .readError => if s.content.length - s.pos < size then some size else none

section Endings

variable {s : InStream} {size : Nat}

/-- Either way the call delivers what is left, up to what it asks for. -/
theorem Ending.fread_bytes (ending : Ending) (hsize : 0 < size) :
    (s.fread size (ending.outcome s size)).1 = (s.content.drop s.pos).take size := by
  cases ending with
  | endOfFile => rfl
  | readError =>
      rw [Ending.outcome]
      by_cases hshort : s.content.length - s.pos < size
      · rw [if_pos hshort, InStream.fread, List.take_of_length_le, List.take_of_length_le]
        · rw [List.length_drop]
          omega
        · rw [List.length_drop]
          omega
      · rw [if_neg hshort]
        rfl

/-- **An error never sets the end-of-file indicator.** -/
theorem Ending.readError_eof : (s.fread size (Ending.readError.outcome s size)).2.eof = s.eof := by
  rw [Ending.outcome]
  by_cases hshort : s.content.length - s.pos < size
  · rw [if_pos hshort]
    rfl
  · have hfull : ¬ ((s.content.drop s.pos).take size).length < size := by
      rw [List.length_take, List.length_drop]
      omega
    rw [if_neg hshort]
    show (s.eof || decide (((s.content.drop s.pos).take size).length < size)) = s.eof
    rw [decide_eq_false hfull, Bool.or_false]

end Endings

end CVerif
