import Mathlib.Logic.Function.Basic

/-!
# CVerif — AppendStreams

Streams opened with `fopen(name, "a")`. Every stream given out keeps its
number, so a use of one that was closed is a fault and not an absence. A
stream holds back what is printed to it until the library writes it out; what
it writes goes to the end of its file. `fclose` writes out the rest, and at
the end of the process `exit` does so for every stream, in an order of its
own.

How much of a text a print takes, how much is then written out and how much
a write that fails loses are arguments: the caller of the model chooses them.
-/

namespace CVerif

/-- The file a stream writes to, whether it is still open, and what it holds
back. -/
structure AppendStream (ν : Type) where
  file : ν
  isOpen : Bool
  held : List Char

/-- The streams by number, and what the files hold. -/
structure AppendStreams (ν : Type) where
  streams : List (AppendStream ν)
  files : ν → List Char

/-- A stream was used after `fclose`, which C leaves undefined. -/
inductive StreamFault where
  | closed
  deriving DecidableEq

/-- What becomes of a print: so much of its text is taken, so much of all
that is then held is written out, and so much of the rest is lost. -/
structure PrintOutcome where
  taken : Nat
  written : Nat
  lost : Nat

/-- All of the text is taken and nothing is lost. -/
def PrintOutcome.Whole (outcome : PrintOutcome) (text : List Char) : Prop :=
  text.length ≤ outcome.taken ∧ outcome.lost = 0

namespace AppendStreams

variable {ν : Type} {s t : AppendStreams ν} {fp : Nat} {file : ν} {text : List Char}

/-- The streams, and the number of the new one. -/
def fopen (s : AppendStreams ν) (file : ν) : AppendStreams ν × Nat :=
  ({ s with streams := s.streams ++ [⟨file, true, []⟩] }, s.streams.length)

/-- Stream `fp` is open on this file. -/
def IsOpen (s : AppendStreams ν) (fp : Nat) (file : ν) : Prop :=
  ∃ held, s.streams[fp]? = some ⟨file, true, held⟩

/-- Stream `fp` was open on this file and is closed. -/
def IsClosed (s : AppendStreams ν) (fp : Nat) (file : ν) : Prop :=
  s.streams[fp]? = some ⟨file, false, []⟩

/-- Stream `fp` is of this file, open or closed. -/
def IsOn (s : AppendStreams ν) (fp : Nat) (file : ν) : Prop :=
  ∃ stream, s.streams[fp]? = some stream ∧ stream.file = file

/-- What stream `fp` holds back. -/
def held (s : AppendStreams ν) (fp : Nat) : List Char :=
  ((s.streams[fp]?).map AppendStream.held).getD []

/-- What the file comes to once stream `fp` is written out. -/
def due (s : AppendStreams ν) (file : ν) (fp : Nat) : List Char := s.files file ++ s.held fp

/-- No stream of this file holds anything back. -/
def Quiet (s : AppendStreams ν) (file : ν) : Prop :=
  ∀ stream ∈ s.streams, stream.file = file → stream.held = []

/-- No stream of this file but `fp` holds anything back. -/
def Alone (s : AppendStreams ν) (fp : Nat) (file : ν) : Prop :=
  ∀ k stream, k ≠ fp → s.streams[k]? = some stream → stream.file = file → stream.held = []

/-- From `s` to `t` stream `fp` took a text, and no other stream was used. -/
structure Takes (s t : AppendStreams ν) (fp : Nat) (file : ν) (text : List Char) : Prop where
  due : t.due file fp = s.due file fp ++ text
  others : ∀ k, k ≠ fp → t.streams[k]? = s.streams[k]?

theorem held_of_get {stream : AppendStream ν} (h : s.streams[fp]? = some stream) :
    s.held fp = stream.held := by
  rw [held, h]
  rfl

theorem IsOpen.isOn (h : s.IsOpen fp file) : s.IsOn fp file := by
  obtain ⟨held, hget⟩ := h
  exact ⟨_, hget, rfl⟩

theorem IsClosed.isOn (h : s.IsClosed fp file) : s.IsOn fp file := ⟨_, h, rfl⟩

theorem IsClosed.not_isOpen {file' : ν} (h : s.IsClosed fp file) : ¬ s.IsOpen fp file' := by
  rintro ⟨held, hopen⟩
  rw [IsClosed, hopen] at h
  cases h

theorem Takes.refl (s : AppendStreams ν) : s.Takes s fp file [] :=
  ⟨(List.append_nil _).symm, fun _ _ => rfl⟩

theorem Takes.trans {u : AppendStreams ν} {more : List Char} (h : s.Takes t fp file text)
    (h' : t.Takes u fp file more) : s.Takes u fp file (text ++ more) := by
  constructor
  · rw [h'.due, h.due, List.append_assoc]
  · intro k hk
    rw [h'.others k hk, h.others k hk]

theorem Takes.alone_iff (h : s.Takes t fp file text) : t.Alone fp file ↔ s.Alone fp file := by
  constructor <;> intro halone k stream hk hget
  · exact halone k stream hk ((h.others k hk).trans hget)
  · exact halone k stream hk ((h.others k hk).symm.trans hget)

theorem isOpen_fopen : (s.fopen file).1.IsOpen (s.fopen file).2 file :=
  ⟨[], List.getElem?_concat_length⟩

/-- A stream just opened holds nothing back. -/
theorem due_fopen : (s.fopen file).1.due file (s.fopen file).2 = s.files file := by
  have hget : (s.fopen file).1.streams[(s.fopen file).2]? = some ⟨file, true, []⟩ :=
    List.getElem?_concat_length
  have hheld : (s.fopen file).1.held (s.fopen file).2 = [] := held_of_get hget
  rw [due, hheld, List.append_nil]
  rfl

theorem alone_fopen_iff : (s.fopen file).1.Alone (s.fopen file).2 file ↔ s.Quiet file := by
  constructor
  · intro halone stream hstream hfile
    obtain ⟨k, hk, hget⟩ := List.mem_iff_getElem.mp hstream
    refine halone k stream (Nat.ne_of_lt hk) ?_ hfile
    show (s.streams ++ _)[k]? = _
    rw [List.getElem?_append_left hk, List.getElem?_eq_getElem hk, hget]
  · intro hquiet k stream hk hget hfile
    have hlt : k < s.streams.length := by
      have hlt' : k < (s.streams ++ [_]).length := (List.getElem?_eq_some_iff.mp hget).1
      rw [List.length_append, List.length_singleton] at hlt'
      exact Nat.lt_of_le_of_ne (Nat.le_of_lt_succ hlt') hk
    have hold : s.streams[k]? = some stream := (List.getElem?_append_left hlt).symm.trans hget
    exact hquiet stream (List.mem_of_getElem? hold) hfile

variable [DecidableEq ν]

/-- Stream `fp`, which now stands as given, writes out the first `written` of
what it holds, and the next `lost` are lost. -/
def spill (s : AppendStreams ν) (fp : Nat) (stream : AppendStream ν) (written lost : Nat) :
    AppendStreams ν where
  streams := s.streams.set fp { stream with held := stream.held.drop (written + lost) }
  files := Function.update s.files stream.file
    (s.files stream.file ++ stream.held.take written)

def fprintf (s : AppendStreams ν) (fp : Nat) (text : List Char) (outcome : PrintOutcome) :
    Except StreamFault (AppendStreams ν) :=
  match s.streams[fp]? with
  | some ⟨file, true, held⟩ =>
      .ok (s.spill fp ⟨file, true, held ++ text.take outcome.taken⟩ outcome.written outcome.lost)
  | _ => .error .closed

/-- The last `lost` of what the stream holds are not written. -/
def fclose (s : AppendStreams ν) (fp : Nat) (lost : Nat) :
    Except StreamFault (AppendStreams ν) :=
  match s.streams[fp]? with
  | some ⟨file, true, held⟩ => .ok (s.spill fp ⟨file, false, held⟩ (held.length - lost) lost)
  | _ => .error .closed

/-- Stream `k` writes out all it holds; a closed one holds nothing. -/
def flush (s : AppendStreams ν) (k : Nat) : AppendStreams ν :=
  match s.streams[k]? with
  | some stream => s.spill k stream stream.held.length 0
  | none => s

/-- The end of the process: the streams are written out in this order. -/
def exit (s : AppendStreams ν) (order : List Nat) : AppendStreams ν := order.foldl flush s

/-- Every stream is in the order. -/
def Covers (s : AppendStreams ν) (order : List Nat) : Prop :=
  ∀ k, k < s.streams.length → k ∈ order

section Spilled

variable {stream stream' : AppendStream ν} {written lost : Nat}
  (hget : s.streams[fp]? = some stream)
include hget

theorem spill_get_self : (s.spill fp stream' written lost).streams[fp]?
    = some { stream' with held := stream'.held.drop (written + lost) } :=
  List.getElem?_set_self (List.getElem?_eq_some_iff.mp hget).1

omit hget in
theorem spill_get_ne {k : Nat} (hk : k ≠ fp) :
    (s.spill fp stream' written lost).streams[k]? = s.streams[k]? :=
  List.getElem?_set_ne hk.symm

/-- What is written out and what stays back are, together, what was held. -/
theorem spill_due (hfile : stream'.file = file) :
    (s.spill fp stream' written 0).due file fp = s.files file ++ stream'.held := by
  have hheld : (s.spill fp stream' written 0).held fp = stream'.held.drop written :=
    held_of_get (spill_get_self hget)
  have hwritten : (s.spill fp stream' written 0).files file
      = s.files file ++ stream'.held.take written := by
    rw [← hfile]
    exact Function.update_self ..
  rw [due, hheld, hwritten, List.append_assoc, List.take_append_drop]

end Spilled

/-- **A print to an open stream** succeeds, and if nothing is lost the stream
took the text. -/
theorem IsOpen.fprintf (h : s.IsOpen fp file) (text : List Char) (outcome : PrintOutcome) :
    ∃ t, s.fprintf fp text outcome = .ok t ∧ t.IsOpen fp file
      ∧ (outcome.Whole text → s.Takes t fp file text) := by
  obtain ⟨held, hget⟩ := h
  refine ⟨_, by rw [AppendStreams.fprintf, hget], ⟨_, spill_get_self hget⟩, ?_⟩
  rintro ⟨htaken, hlost⟩
  refine ⟨?_, fun k hk => spill_get_ne hk⟩
  rw [hlost, spill_due hget rfl, List.take_of_length_le htaken, due, held_of_get hget,
    List.append_assoc]

/-- **A close of an open stream** succeeds, and if nothing is lost all that
was due is in the file. -/
theorem IsOpen.fclose (h : s.IsOpen fp file) (lost : Nat) :
    ∃ t, s.fclose fp lost = .ok t ∧ t.IsClosed fp file
      ∧ (lost = 0 → s.Takes t fp file []) := by
  obtain ⟨held, hget⟩ := h
  refine ⟨_, by rw [AppendStreams.fclose, hget], ?_, ?_⟩
  · have hnone : held.drop (held.length - lost + lost) = [] :=
      List.drop_eq_nil_of_le (by omega)
    rw [IsClosed, spill_get_self hget, hnone]
  · rintro rfl
    refine ⟨?_, fun k hk => spill_get_ne hk⟩
    rw [spill_due hget rfl, due, held_of_get hget, List.append_nil]

theorem IsClosed.fprintf {outcome : PrintOutcome} (h : s.IsClosed fp file) :
    s.fprintf fp text outcome = .error .closed := by
  rw [AppendStreams.fprintf, show s.streams[fp]? = _ from h]

theorem IsClosed.fclose {lost : Nat} (h : s.IsClosed fp file) :
    s.fclose fp lost = .error .closed := by
  rw [AppendStreams.fclose, show s.streams[fp]? = _ from h]

/-! ## The end of the process -/

section Ended

variable {k : Nat} {stream : AppendStream ν}

theorem flush_of_get (h : s.streams[k]? = some stream) :
    s.flush k = s.spill k stream stream.held.length 0 := by
  rw [flush, h]

theorem flush_of_none (h : s.streams[k]? = none) : s.flush k = s := by
  rw [flush, h]

theorem flush_files (h : s.streams[k]? = some stream) :
    (s.flush k).files stream.file = s.files stream.file ++ stream.held := by
  rw [flush_of_get h]
  refine (Function.update_self ..).trans ?_
  rw [List.take_length]

theorem flush_files_ne (h : s.streams[k]? = some stream) (hfile : stream.file ≠ file) :
    (s.flush k).files file = s.files file := by
  rw [flush_of_get h]
  exact Function.update_of_ne hfile.symm ..

theorem flush_get_ne {j : Nat} (h : j ≠ k) : (s.flush k).streams[j]? = s.streams[j]? := by
  cases hget : s.streams[k]? with
  | none => rw [flush_of_none hget]
  | some stream =>
      rw [flush_of_get hget]
      exact spill_get_ne h

/-- What is written out is no longer held. -/
theorem flush_get_self (h : s.streams[k]? = some stream) :
    (s.flush k).streams[k]? = some { stream with held := [] } := by
  rw [flush_of_get h, spill_get_self h, Nat.add_zero, List.drop_length]

theorem flush_held_self : (s.flush k).held k = [] := by
  cases hget : s.streams[k]? with
  | none =>
      rw [flush_of_none hget, held, hget]
      rfl
  | some stream => exact held_of_get (flush_get_self hget)

theorem flush_held_ne {j : Nat} (h : j ≠ k) : (s.flush k).held j = s.held j := by
  rw [held, flush_get_ne h]
  rfl

/-- A file only grows. -/
theorem flush_prefix : s.files file <+: (s.flush k).files file := by
  cases hget : s.streams[k]? with
  | none => exact ⟨[], by rw [flush_of_none hget, List.append_nil]⟩
  | some stream =>
      by_cases hfile : stream.file = file
      · subst hfile
        rw [flush_files hget]
        exact List.prefix_append ..
      · exact ⟨[], by rw [flush_files_ne hget hfile, List.append_nil]⟩

theorem exit_prefix {order : List Nat} : s.files file <+: (s.exit order).files file := by
  induction order generalizing s with
  | nil => exact List.prefix_rfl
  | cons k order ih => exact flush_prefix.trans ih

/-- A stream written out keeps to its file, ... -/
theorem IsOn.flush (h : s.IsOn fp file) : (s.flush k).IsOn fp file := by
  obtain ⟨stream, hget, hfile⟩ := h
  by_cases hk : fp = k
  · subst hk
    exact ⟨_, flush_get_self hget, hfile⟩
  · exact ⟨stream, (flush_get_ne hk).trans hget, hfile⟩

/-- ... holds nothing back that it did not hold, ... -/
theorem Alone.flush (h : s.Alone fp file) : (s.flush k).Alone fp file := by
  intro j stream hj hget hfile
  by_cases hk : j = k
  · subst hk
    rw [← held_of_get hget]
    exact flush_held_self
  · exact h j stream hj ((flush_get_ne hk).symm.trans hget) hfile

/-- ... and adds nothing to a file of which another holds all that is due. -/
theorem Alone.flush_due (h : s.Alone fp file) (hon : s.IsOn fp file) :
    (s.flush k).due file fp = s.due file fp := by
  obtain ⟨stream, hget, hfile⟩ := hon
  by_cases hk : fp = k
  · subst hk hfile
    rw [due, flush_files hget, flush_held_self, List.append_nil, due, held_of_get hget]
  · rw [due, flush_held_ne hk, due]
    cases hother : s.streams[k]? with
    | none => rw [flush_of_none hother]
    | some other =>
        by_cases hsame : other.file = file
        · have hnone := h k other (Ne.symm hk) hother hsame
          subst hsame
          rw [flush_files hother, hnone, List.append_nil]
        · rw [flush_files_ne hother hsame]

theorem exit_held {order : List Nat} (h : fp ∈ order ∨ s.held fp = []) :
    (s.exit order).held fp = [] := by
  induction order generalizing s with
  | nil => exact h.resolve_left List.not_mem_nil
  | cons k order ih =>
      refine ih ?_
      by_cases hk : fp = k
      · subst hk
        exact .inr flush_held_self
      · rw [flush_held_ne hk]
        exact h.imp_left fun hmem => (List.mem_cons.mp hmem).resolve_left hk

theorem Alone.exit_due {order : List Nat} (h : s.Alone fp file) (hon : s.IsOn fp file) :
    (s.exit order).due file fp = s.due file fp := by
  induction order generalizing s with
  | nil => rfl
  | cons k order ih => exact (ih h.flush hon.flush).trans (h.flush_due hon)

/-- **A file of which one stream holds all that is due** ends up with that,
whatever the order. -/
theorem Alone.exit_files {order : List Nat} (h : s.Alone fp file) (hon : s.IsOn fp file)
    (hcovers : s.Covers order) : (s.exit order).files file = s.due file fp := by
  have hdue : (s.exit order).due file fp = s.due file fp := h.exit_due hon
  obtain ⟨stream, hget, -⟩ := hon
  have hmem : fp ∈ order := hcovers fp (List.getElem?_eq_some_iff.mp hget).1
  rw [← hdue, due, exit_held (.inl hmem), List.append_nil]

/-- A file of which another stream holds something back ends up with more
than that. -/
theorem exit_files_longer {order : List Nat} (hon : s.IsOn fp file) (hk : k ≠ fp)
    (hget : s.streams[k]? = some stream) (hfile : stream.file = file) (hheld : stream.held ≠ []) :
    (s.due file fp).length < ((s.exit (k :: fp :: order)).files file).length := by
  obtain ⟨own, hown, hownfile⟩ := hon
  have hboth : ((s.flush k).flush fp).files file = s.files file ++ stream.held ++ own.held := by
    have hlater : (s.flush k).streams[fp]? = some own := (flush_get_ne hk.symm).trans hown
    subst hownfile
    rw [flush_files hlater, ← hfile, flush_files hget]
  have hprefix : ((s.flush k).flush fp).files file
      <+: (s.exit (k :: fp :: order)).files file := exit_prefix
  have hpos : 0 < stream.held.length := List.length_pos_iff.mpr hheld
  refine Nat.lt_of_lt_of_le ?_ hprefix.length_le
  rw [hboth, due, held_of_get hown]
  simp only [List.length_append]
  omega

end Ended

end AppendStreams

end CVerif
