import BeEasy.CVerif.Scanf

/-!
# CVerif — Lines

Text read line by line with `fgets`. A line comes with its newline, if the
buffer has room for both; else it comes in pieces, and all of them but the
last, and the end of a text without a final newline, have none.
-/

namespace CVerif

/-- The bytes `fgets` takes: at most `n`, and none behind a newline. -/
def piece : Nat → List Byte → List Byte
  | 0, _ => []
  | _ + 1, [] => []
  | n + 1, b :: input => if b = newline then [b] else b :: piece n input

/-- `fgets` into a buffer of `size` bytes: the string and what is left of the
input, or a null pointer at its end. -/
def fgets (size : Nat) (input : List Byte) : Option (List Byte × List Byte) :=
  if input = [] then none
  else
    let str := piece (size - 1) input
    some (str, input.drop str.length)

/-- Text without its newlines. -/
def unbroken (text : List Byte) : List Byte := text.filter fun b => b ≠ newline

section Pieces

variable {n : Nat} {input line : List Byte}

theorem piece_begins (n : Nat) (input : List Byte) : piece n input <+: input := by
  induction input generalizing n with
  | nil => cases n <;> exact List.nil_prefix
  | cons b input ih =>
      cases n with
      | zero => exact List.nil_prefix
      | succ n =>
          rw [piece]
          split
          · exact List.cons_prefix_cons.mpr ⟨rfl, List.nil_prefix⟩
          · exact List.cons_prefix_cons.mpr ⟨rfl, ih n⟩

theorem length_piece_le (n : Nat) (input : List Byte) : (piece n input).length ≤ n := by
  induction input generalizing n with
  | nil => cases n <;> exact Nat.zero_le _
  | cons b input ih =>
      cases n with
      | zero => exact Nat.le_refl _
      | succ n =>
          rw [piece]
          split
          · exact Nat.succ_le_succ (Nat.zero_le n)
          · exact Nat.succ_le_succ (ih n)

/-- A piece ends with the newline it has, if any. -/
theorem newline_notMem_dropLast (n : Nat) (input : List Byte) :
    newline ∉ (piece n input).dropLast := by
  induction input generalizing n with
  | nil => cases n <;> exact List.not_mem_nil
  | cons b input ih =>
      cases n with
      | zero => exact List.not_mem_nil
      | succ n =>
          rw [piece]
          split
          · exact List.not_mem_nil
          case isFalse hb =>
              cases hrest : piece n input with
              | nil => exact List.not_mem_nil
              | cons c rest =>
                  have hih := ih n
                  rw [hrest] at hih
                  rw [List.dropLast_cons_cons]
                  exact List.not_mem_cons_of_ne_of_not_mem (Ne.symm hb) hih

/-- A line that there is room for comes with its newline. -/
theorem piece_line (h : newline ∉ line) (hlen : line.length < n) (rest : List Byte) :
    piece n (line ++ newline :: rest) = line ++ [newline] := by
  induction line generalizing n with
  | nil =>
      cases n with
      | zero => cases hlen
      | succ n => exact if_pos rfl
  | cons b line ih =>
      cases n with
      | zero => cases hlen
      | succ n =>
          obtain ⟨hb, hline⟩ := List.ne_and_not_mem_of_not_mem_cons h
          rw [List.cons_append, piece, if_neg (Ne.symm hb),
            ih hline (Nat.lt_of_succ_lt_succ hlen)]
          rfl

/-- Where no newline is in reach, as many bytes come as there is room for. -/
theorem piece_open (h : newline ∉ input.take n) : piece n input = input.take n := by
  induction input generalizing n with
  | nil => cases n <;> rfl
  | cons b input ih =>
      cases n with
      | zero => rfl
      | succ n =>
          rw [List.take_succ_cons] at h ⊢
          obtain ⟨hb, hrest⟩ := List.ne_and_not_mem_of_not_mem_cons h
          rw [piece, if_neg (Ne.symm hb), ih hrest]

/-- `fgets` takes something, unless the input is at its end. -/
theorem fgets_some {size : Nat} (hsize : 2 ≤ size) (hne : input ≠ []) :
    ∃ str rest, fgets size input = some (str, rest) ∧ str = piece (size - 1) input ∧
      str ≠ [] ∧ str ++ rest = input := by
  obtain ⟨after, hafter⟩ := piece_begins (size - 1) input
  refine ⟨_, _, if_neg hne, rfl, ?_, ?_⟩
  · obtain ⟨b, input', rfl⟩ := List.exists_cons_of_ne_nil hne
    obtain ⟨n, hn⟩ := Nat.exists_eq_add_of_le' (show 1 ≤ size - 1 by omega)
    rw [hn, piece]
    split <;> exact List.cons_ne_nil _ _
  · exact List.prefix_iff_eq_append.mp (piece_begins _ _)

theorem unbroken_append (text text' : List Byte) :
    unbroken (text ++ text') = unbroken text ++ unbroken text' := List.filter_append _ _

theorem unbroken_of_notMem (h : newline ∉ line) : unbroken line = line := by
  apply List.filter_eq_self.mpr
  intro b hb
  exact decide_eq_true fun hnl => h (hnl ▸ hb)

theorem unbroken_line (h : newline ∉ line) : unbroken (line ++ [newline]) = line := by
  rw [unbroken_append, unbroken_of_notMem h]
  exact List.append_nil line

/-- Of a piece, all but its last byte is there without newlines. -/
theorem length_piece_le_unbroken (n : Nat) (input : List Byte) :
    (piece n input).length ≤ (unbroken (piece n input)).length + 1 := by
  by_cases hnil : piece n input = []
  · rw [hnil]
    exact Nat.zero_le _
  · have hsplit := List.dropLast_concat_getLast hnil
    have hinit := unbroken_of_notMem (newline_notMem_dropLast n input)
    have hunbroken : (unbroken (piece n input)).length
        = (piece n input).dropLast.length + (unbroken [(piece n input).getLast hnil]).length := by
      rw [← congrArg unbroken hsplit, unbroken_append, hinit, List.length_append]
    rw [List.length_dropLast] at hunbroken
    omega

end Pieces

end CVerif
