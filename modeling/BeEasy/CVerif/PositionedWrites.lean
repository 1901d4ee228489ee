import BeEasy.CVerif.Bytes
import Mathlib.Data.List.TakeDrop

/-!
# CVerif — PositionedWrites

Bytes written to a file at a position. What is compared is always with the
bytes the file is to have in the end, `goal`: a write that agrees with them
cannot lead away from them, however far the file has got, so writes that all
agree may come in any order.
-/

namespace CVerif

/-- The file after `new` was written at `pos`. What lies between its end and
`pos` becomes zero; a write of no bytes does nothing. -/
def writeAt (bs : List Byte) (pos : Nat) (new : List Byte) : List Byte :=
  if new = [] then bs
  else bs.take pos ++ List.replicate (pos - bs.length) 0 ++ new ++ bs.drop (pos + new.length)

/-- The bytes of `goal` from `pos` on begin with these. -/
def AgreesAt (goal : List Byte) (pos : Nat) (bs : List Byte) : Prop :=
  ∀ i, i < bs.length → goal[pos + i]? = bs[i]?

/-- A file that is to become `goal` has its first `n` bytes, and not more
bytes than it. -/
structure Towards (goal : List Byte) (n : Nat) (bs : List Byte) : Prop where
  start : ∀ i, i < n → bs[i]? = goal[i]?
  length : bs.length ≤ goal.length

section Writes

variable {goal bs new : List Byte} {pos n i : Nat}

@[simp] theorem writeAt_nil : writeAt bs pos [] = bs := if_pos rfl

theorem writeAt_end : writeAt bs bs.length new = bs ++ new := by
  by_cases hnew : new = []
  · rw [hnew, writeAt_nil, List.append_nil]
  · rw [writeAt, if_neg hnew, List.take_length, Nat.sub_self, List.replicate_zero,
      List.append_nil, List.drop_eq_nil_of_le (by omega), List.append_nil]

theorem length_writeAt (h : new ≠ []) :
    (writeAt bs pos new).length = max bs.length (pos + new.length) := by
  rw [writeAt, if_neg h]
  simp only [List.length_append, List.length_take, List.length_replicate, List.length_drop]
  omega

theorem getElem?_writeAt_before (h : i < pos) (hlt : i < bs.length) :
    (writeAt bs pos new)[i]? = bs[i]? := by
  by_cases hnew : new = []
  · rw [hnew, writeAt_nil]
  · have htake : i < (bs.take pos).length := by
      rw [List.length_take]
      omega
    rw [writeAt, if_neg hnew, List.append_assoc, List.append_assoc,
      List.getElem?_append_left htake, List.getElem?_take_of_lt h]

theorem getElem?_writeAt_within (h : i < new.length) :
    (writeAt bs pos new)[pos + i]? = new[i]? := by
  have hnew : new ≠ [] := List.ne_nil_of_length_pos (by omega)
  have hfront : (bs.take pos ++ List.replicate (pos - bs.length) 0).length = pos := by
    rw [List.length_append, List.length_take, List.length_replicate]
    omega
  rw [writeAt, if_neg hnew, List.append_assoc, List.getElem?_append_right (by omega), hfront,
    Nat.add_sub_cancel_left, List.getElem?_append_left h]

theorem getElem?_writeAt_behind (h : pos + new.length ≤ i) :
    (writeAt bs pos new)[i]? = bs[i]? := by
  by_cases hnew : new = []
  · rw [hnew, writeAt_nil]
  · have hfront : (bs.take pos ++ List.replicate (pos - bs.length) 0 ++ new).length
        = pos + new.length := by
      rw [List.length_append, List.length_append, List.length_take, List.length_replicate]
      omega
    rw [writeAt, if_neg hnew, List.getElem?_append_right (by omega), hfront,
      List.getElem?_drop, Nat.add_sub_cancel' h]

theorem AgreesAt.take (h : AgreesAt goal pos bs) : AgreesAt goal pos (bs.take n) := by
  intro i hi
  rw [List.length_take] at hi
  rw [List.getElem?_take_of_lt (by omega)]
  exact h i (by omega)

theorem AgreesAt.drop (h : AgreesAt goal pos bs) :
    AgreesAt goal (pos + (bs.take n).length) (bs.drop n) := by
  intro i hi
  rw [List.length_drop] at hi
  have hn : n ≤ bs.length := by omega
  rw [List.length_take, Nat.min_eq_left hn, List.getElem?_drop, Nat.add_assoc]
  exact h (n + i) (by omega)

theorem agreesAt_drop (goal : List Byte) (n : Nat) : AgreesAt goal n (goal.drop n) := by
  intro i _
  rw [List.getElem?_drop]

/-- Bytes that agree lie within the file that is to come. -/
theorem AgreesAt.length_le (h : AgreesAt goal pos bs) (hbs : bs ≠ []) :
    pos + bs.length ≤ goal.length := by
  have hpos : 0 < bs.length := List.length_pos_iff.mpr hbs
  have hlast : goal[pos + (bs.length - 1)]? = bs[bs.length - 1]? := h _ (by omega)
  rw [List.getElem?_eq_getElem (l := bs) (by omega)] at hlast
  have hlt := (List.getElem?_eq_some_iff.mp hlast).1
  omega

/-- **A write that agrees leads nowhere else.** -/
theorem Towards.write (h : Towards goal n bs) (hn : n ≤ goal.length)
    (hagree : AgreesAt goal pos new) : Towards goal n (writeAt bs pos new) := by
  by_cases hnew : new = []
  · rw [hnew, writeAt_nil]
    exact h
  constructor
  · intro i hi
    rcases Nat.lt_or_ge i pos with hbefore | hpos
    · have hlt : i < bs.length := by
        have hsome := h.start i hi
        rw [List.getElem?_eq_getElem (Nat.lt_of_lt_of_le hi hn)] at hsome
        exact (List.getElem?_eq_some_iff.mp hsome).1
      rw [getElem?_writeAt_before hbefore hlt]
      exact h.start i hi
    · rcases Nat.lt_or_ge i (pos + new.length) with hwithin | hbehind
      · obtain ⟨j, rfl⟩ := Nat.exists_eq_add_of_le hpos
        rw [getElem?_writeAt_within (by omega), hagree j (by omega)]
      · rw [getElem?_writeAt_behind hbehind]
        exact h.start i hi
  · rw [length_writeAt hnew]
    exact Nat.max_le.mpr ⟨h.length, hagree.length_le hnew⟩

theorem towards_take : Towards goal n (goal.take n) where
  start _ hi := List.getElem?_take_of_lt hi
  length := List.length_take_le' n goal

theorem Towards.eq (h : Towards goal goal.length bs) : bs = goal := by
  apply List.ext_getElem?
  intro i
  rcases Nat.lt_or_ge i goal.length with hlt | hge
  · exact h.start i hlt
  · rw [List.getElem?_eq_none hge, List.getElem?_eq_none (Nat.le_trans h.length hge)]

/-- The rest of the bytes, written behind the first `n`, completes the file. -/
theorem Towards.write_rest (h : Towards goal n bs) (hn : n ≤ goal.length) :
    writeAt bs n (goal.drop n) = goal := by
  apply Towards.eq
  have hall := h.write hn (agreesAt_drop goal n)
  refine ⟨fun i hi => ?_, hall.length⟩
  rcases Nat.lt_or_ge i n with hlt | hge
  · exact hall.start i hlt
  · obtain ⟨j, rfl⟩ := Nat.exists_eq_add_of_le hge
    rw [getElem?_writeAt_within (by rw [List.length_drop]; omega), List.getElem?_drop]

/-- **A write into a finished file leaves it exactly when it agrees.** -/
theorem writeAt_eq_self_iff : writeAt goal pos new = goal ↔ AgreesAt goal pos new := by
  constructor
  · intro heq i hi
    have hwithin : (writeAt goal pos new)[pos + i]? = new[i]? := getElem?_writeAt_within hi
    rw [← hwithin, heq]
  · intro hagree
    have hdone : Towards goal goal.length goal := ⟨fun _ _ => rfl, Nat.le_refl _⟩
    exact (hdone.write (Nat.le_refl _) hagree).eq

end Writes

end CVerif
