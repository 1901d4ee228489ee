import BeEasy.CVerif.PositionedWrites
import BeEasy.FileTransmit.ReceiverPass

/-!
# FileTransmit — Receiver exit

What the receiver's streams leave in the output file once the process has
ended. Up to then the file holds what its own stream has written out, since
`fopen` emptied it and the forgotten streams write nothing before the end.
Then `exit` writes out every stream that is still open: each at its own
position, in an order the library chooses, and as much as it can.

Two names may lead to one file, and which do is a parameter (`lead`).
-/

namespace BeEasy.FileTransmit

open CVerif

section Exit

variable {ν : Type} [DecidableEq ν] (lead : List Byte → ν)

/-- The forgotten streams, and what the file in question holds. -/
structure AtExit where
  streams : List OutFile
  bytes : List Byte

/-- Stream `i` writes out up to `n` of what it holds back. -/
def AtExit.step (target : ν) (e : AtExit) : Nat × Nat → AtExit
  | (i, n) =>
      match e.streams[i]? with
      | none => e
      | some file =>
          { streams := e.streams.set i (file.drain n)
            bytes := if lead file.name = target
              then writeAt e.bytes file.stored.length (file.buffer.take n) else e.bytes }

def AtExit.run (target : ν) (e : AtExit) (steps : List (Nat × Nat)) : AtExit :=
  steps.foldl (AtExit.step lead target) e

/-- What is in the file of `own` after `exit`, which writes `last` of what the
stream itself holds back, and forgotten ones before and after. -/
def exitFile (forgotten : List OutFile) (own : OutFile) (last : Nat)
    (before after : List (Nat × Nat)) : List Byte :=
  let target := lead own.name
  let e := AtExit.run lead target ⟨forgotten, own.stored⟩ before
  let bytes := writeAt e.bytes own.stored.length (own.buffer.take last)
  (AtExit.run lead target ⟨e.streams, bytes⟩ after).bytes

namespace RecvState

variable (s : RecvState)

/-- Whatever `exit` does with the forgotten streams, these bytes are in the
output file afterwards. Where no file is open, there are none. -/
def Leaves (last : Nat) (bytes : List Byte) : Prop :=
  match s.fp with
  | none => bytes = []
  | some own => ∀ before after, exitFile lead s.forgotten own last before after = bytes

/-- The stream of the output file holds back at most so many bytes. -/
def HoldsAtMost (n : Nat) : Prop := ∀ own, s.fp = some own → own.buffer.length ≤ n

/-- A forgotten stream of the output file holds back only what is there
anyway. -/
def Undisturbed : Prop :=
  ∀ own, s.fp = some own → ∀ file ∈ s.forgotten, lead file.name = lead own.name →
    AgreesAt own.content file.stored.length file.buffer

end RecvState

/-- The streams that lead to the file hold back only what `goal` has there,
and the file is on its way to it. -/
structure AtExit.Heads (target : ν) (goal : List Byte) (n : Nat) (e : AtExit) : Prop where
  agree : ∀ file ∈ e.streams, lead file.name = target →
    AgreesAt goal file.stored.length file.buffer
  towards : Towards goal n e.bytes

variable {lead} {target : ν} {goal : List Byte} {n last : Nat} {e : AtExit}
  {steps : List (Nat × Nat)} {forgotten : List OutFile} {own : OutFile}

theorem AtExit.Heads.step (h : e.Heads lead target goal n) (hn : n ≤ goal.length)
    (move : Nat × Nat) : (AtExit.step lead target e move).Heads lead target goal n := by
  obtain ⟨i, k⟩ := move
  cases hget : e.streams[i]? with
  | none => simpa only [AtExit.step, hget] using h
  | some file =>
      have hmem : file ∈ e.streams := List.mem_of_getElem? hget
      constructor
      · intro other hother hlead
        simp only [AtExit.step, hget] at hother
        rcases List.mem_or_eq_of_mem_set hother with hold | rfl
        · exact h.agree other hold hlead
        · have hdrained := (h.agree file hmem hlead).drop (n := k)
          rwa [← List.length_append] at hdrained
      · simp only [AtExit.step, hget]
        by_cases hlead : lead file.name = target
        · rw [if_pos hlead]
          exact h.towards.write hn (h.agree file hmem hlead).take
        · rw [if_neg hlead]
          exact h.towards

theorem AtExit.Heads.run (h : e.Heads lead target goal n) (hn : n ≤ goal.length)
    (steps : List (Nat × Nat)) : (AtExit.run lead target e steps).Heads lead target goal n := by
  induction steps generalizing e with
  | nil => exact h
  | cons move steps ih => exact ih (h.step hn move)

/-- **What `exit` leaves does not depend on what it does first** exactly when
the stream itself writes the bytes in question, and the forgotten ones agree
with them. -/
theorem exitFile_eq_iff :
    (∀ before after, exitFile lead forgotten own last before after = goal) ↔
      own.stored ++ own.buffer.take last = goal ∧
        ∀ file ∈ forgotten, lead file.name = lead own.name →
          AgreesAt goal file.stored.length file.buffer := by
  constructor
  · intro hall
    have hown : own.stored ++ own.buffer.take last = goal := by
      rw [← hall [] [], ← writeAt_end]
      rfl
    refine ⟨hown, fun file hmem hlead => ?_⟩
    -- the forgotten stream goes last
    obtain ⟨i, hget⟩ := List.mem_iff_getElem?.mp hmem
    have hlast := hall [] [(i, file.buffer.length)]
    simp only [exitFile, AtExit.run, List.foldl_nil, List.foldl_cons, AtExit.step, hget,
      if_pos hlead, List.take_length, writeAt_end, hown] at hlast
    exact writeAt_eq_self_iff.mp hlast
  · rintro ⟨hown, hagree⟩ before after
    have hlen : own.stored.length ≤ goal.length := by
      rw [← hown, List.length_append]
      exact Nat.le_add_right _ _
    have hstored : goal.take own.stored.length = own.stored := by
      rw [← hown, List.take_left]
    have hrest : goal.drop own.stored.length = own.buffer.take last := by
      rw [← hown, List.drop_left]
    have hstart : Towards goal own.stored.length own.stored := by
      have htake := @towards_take goal own.stored.length
      rwa [hstored] at htake
    have hheads : AtExit.Heads lead (lead own.name) goal own.stored.length
        ⟨forgotten, own.stored⟩ := ⟨hagree, hstart⟩
    have hbefore := hheads.run hlen before
    have hdone : writeAt (AtExit.run lead (lead own.name) ⟨forgotten, own.stored⟩ before).bytes
        own.stored.length (own.buffer.take last) = goal := by
      rw [← hrest]
      exact hbefore.towards.write_rest hlen
    have hfinished : AtExit.Heads lead (lead own.name) goal goal.length
        ⟨(AtExit.run lead (lead own.name) ⟨forgotten, own.stored⟩ before).streams, goal⟩ :=
      ⟨hbefore.agree, fun _ _ => rfl, Nat.le_refl _⟩
    rw [exitFile, hdone]
    exact (hfinished.run (Nat.le_refl _) after).towards.eq

/-! ## The states of a run -/

variable {s : RecvState} {bytes : List Byte}

theorem leaves_none (hfp : s.fp = none) : s.Leaves lead last bytes ↔ bytes = [] := by
  rw [RecvState.Leaves, hfp]

theorem leaves_some (hfp : s.fp = some own) : s.Leaves lead last bytes ↔
    own.stored ++ own.buffer.take last = bytes ∧ ∀ file ∈ s.forgotten,
      lead file.name = lead own.name → AgreesAt bytes file.stored.length file.buffer := by
  rw [RecvState.Leaves, hfp]
  exact exitFile_eq_iff

theorem holdsAtMost_some (hfp : s.fp = some own) {m : Nat} :
    s.HoldsAtMost m ↔ own.buffer.length ≤ m := by
  simp [RecvState.HoldsAtMost, hfp]

omit [DecidableEq ν] in
theorem undisturbed_some (hfp : s.fp = some own) : s.Undisturbed lead ↔
    ∀ file ∈ s.forgotten, lead file.name = lead own.name →
      AgreesAt own.content file.stored.length file.buffer := by
  simp [RecvState.Undisturbed, hfp]

/-- **All that the stream took is in the file** exactly when it writes out all
it holds back and no forgotten stream writes anything else. -/
theorem leaves_output_iff :
    s.Leaves lead last s.output ↔ s.HoldsAtMost last ∧ s.Undisturbed lead := by
  cases hfp : s.fp with
  | none => simp [leaves_none hfp, RecvState.output, RecvState.HoldsAtMost,
      RecvState.Undisturbed, hfp]
  | some own =>
      have hout : s.output = own.stored ++ own.buffer := by rw [RecvState.output, hfp]; rfl
      rw [leaves_some hfp, holdsAtMost_some hfp, undisturbed_some hfp, hout]
      rw [List.append_cancel_left_eq, List.take_eq_self_iff]
      rfl

/-- A close writes what `exit` would have written. -/
theorem leaves_quit_iff : (s.quit n).Leaves lead 0 bytes ↔ s.Leaves lead n bytes := by
  cases hfp : s.fp with
  | none =>
      have hquit : (s.quit n).fp = none := by rw [RecvState.quit, hfp]; rfl
      rw [leaves_none hfp, leaves_none hquit]
  | some own =>
      have hquit : (s.quit n).fp = some (own.drain n) := by rw [RecvState.quit, hfp]; rfl
      rw [leaves_some hfp, leaves_some hquit, List.take_zero, List.append_nil]
      rfl

theorem flushFile_holdsAtMost_iff {ok : Bool} {flushed m : Nat} :
    (flushFile s ok flushed).state.HoldsAtMost m ↔ ok = true ∨ s.HoldsAtMost (flushed + m) := by
  cases hfp : s.fp with
  | none => simp [flushFile, RecvState.HoldsAtMost, hfp]
  | some own =>
      have hflush : (flushFile s ok flushed).state.fp
          = some (own.drain (if ok then own.buffer.length else flushed)) := by
        simp only [flushFile, hfp]
      rw [holdsAtMost_some hflush, holdsAtMost_some hfp]
      cases ok with
      | true => simp [OutFile.drain]
      | false =>
          simp only [OutFile.drain, List.length_drop, Bool.false_eq_true, if_false, false_or]
          omega

omit [DecidableEq ν] in
theorem flushFile_undisturbed_iff {ok : Bool} {flushed : Nat} :
    (flushFile s ok flushed).state.Undisturbed lead ↔ s.Undisturbed lead := by
  cases hfp : s.fp with
  | none => simp [flushFile, RecvState.Undisturbed, hfp]
  | some own =>
      have hflush : (flushFile s ok flushed).state.fp
          = some (own.drain (if ok then own.buffer.length else flushed)) := by
        simp only [flushFile, hfp]
      have hforgotten : (flushFile s ok flushed).state.forgotten = s.forgotten := by
        simp only [flushFile, hfp]
      rw [undisturbed_some hflush, undisturbed_some hfp, hforgotten, OutFile.drain_content,
        OutFile.drain_name]

/-- What a flush leaves for the close: all, if it succeeded. -/
theorem flushFile_leaves_iff {frame : EthernetFrame} {ok : Bool} {flushed : Nat} :
    (flushFile { s with frame } ok flushed).state.Leaves lead n s.output ↔
      (ok = true ∨ s.HoldsAtMost (flushed + n)) ∧ s.Undisturbed lead := by
  have hout : s.output = (flushFile { s with frame } ok flushed).state.output :=
    (flushFile_output { s with frame } ok flushed).symm
  rw [hout, leaves_output_iff, flushFile_holdsAtMost_iff, flushFile_undisturbed_iff]
  rfl

/-- The first part of a list and nothing of the rest. -/
theorem take_append_eq_left_iff {xs ys : List Byte} {m : Nat} :
    (xs ++ ys).take m = xs ↔ xs.length ≤ m ∧ (ys = [] ∨ m = xs.length) := by
  constructor
  · intro heq
    have hlen := congrArg List.length heq
    rw [List.length_take, List.length_append] at hlen
    refine ⟨by omega, ?_⟩
    by_cases hys : ys = []
    · exact .inl hys
    · have hpos : 0 < ys.length := List.length_pos_iff.mpr hys
      exact .inr (by omega)
  · rintro ⟨hle, rfl | rfl⟩
    · rw [List.append_nil, List.take_of_length_le hle]
    · exact List.take_left

/-- **A write that was cut short leaves the file as it was** exactly when all
that was held before is written out and none of the new bytes. -/
theorem leaves_append_iff {frame : EthernetFrame} {drained : Nat} (hfp : s.fp = some own) :
    (RecvState.append { s with frame } own bytes drained).Leaves lead n s.output ↔
      own.buffer.length ≤ drained + n ∧ (bytes = [] ∨ drained + n = own.buffer.length) ∧
        s.Undisturbed lead := by
  have hout : s.output = own.stored ++ own.buffer := by rw [RecvState.output, hfp]; rfl
  have happend : (RecvState.append { s with frame } own bytes drained).fp
      = some (own.fwrite bytes drained) := rfl
  have hwritten : (own.fwrite bytes drained).stored ++ (own.fwrite bytes drained).buffer.take n
      = own.stored ++ (own.buffer ++ bytes).take (drained + n) := by
    rw [List.take_add, ← List.append_assoc]
    rfl
  rw [leaves_some happend, undisturbed_some hfp, hwritten, hout, List.append_cancel_left_eq,
    take_append_eq_left_iff, and_assoc]
  rfl

end Exit

end BeEasy.FileTransmit
