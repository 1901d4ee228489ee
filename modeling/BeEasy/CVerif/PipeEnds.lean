import Mathlib.Data.List.Basic

/-!
# CVerif — PipeEnds

The descriptors through which a process holds the ends of one pipe, with
`close` and `dup2` on them. What another descriptor refers to is left out:
one that is not in the table is closed or not the pipe's.
-/

namespace CVerif

inductive PipeEnd where
  | read
  | write
  deriving DecidableEq

/-- A process's descriptors of the pipe. -/
abbrev Fds := List (Nat × PipeEnd)

namespace Fds

def close (fds : Fds) (fd : Nat) : Fds := fds.filter (·.1 ≠ fd)

/-- `dup2(old, new)`, without effect where they are the same. -/
def dup2 (fds : Fds) (old new : Nat) : Fds :=
  if old = new then fds
  else
    match fds.lookup old with
    | some e => (new, e) :: fds.close new
    | none => fds

/-- The process holds this end. -/
def Holds (fds : Fds) (e : PipeEnd) : Prop := e ∈ fds.map Prod.snd

instance (fds : Fds) (e : PipeEnd) : Decidable (fds.Holds e) :=
  inferInstanceAs (Decidable (_ ∈ _))

theorem holds_of_lookup {fds : Fds} {fd : Nat} {e : PipeEnd} (h : fds.lookup fd = some e) :
    fds.Holds e := by
  obtain ⟨l₁, l₂, heq, -⟩ := List.lookup_eq_some_iff.mp h
  have hmem : (fd, e) ∈ fds := by
    rw [heq]
    exact List.mem_append_right l₁ List.mem_cons_self
  exact List.mem_map_of_mem (f := Prod.snd) hmem

end Fds

/-- A call that changes the descriptors. -/
inductive FdCall where
  | close (fd : Nat)
  | dup2 (old new : Nat)

def FdCall.apply (fds : Fds) : FdCall → Fds
  | .close fd => fds.close fd
  | .dup2 old new => fds.dup2 old new

/-- What is left of the ends of a pipe after one is closed and the other
moved to `std`: that one, unless it was there already and is closed too. -/
theorem redirect {own other std : Nat} {e : PipeEnd} {fds : Fds}
    (h : fds.close other = [(own, e)]) :
    [FdCall.close other, .dup2 own std, .close own].foldl FdCall.apply fds
      = if own = std then [] else [(std, e)] := by
  show ((fds.close other).dup2 own std).close own = _
  rw [h]
  by_cases heq : own = std
  · subst heq
    simp [Fds.dup2, Fds.close]
  · simp [Fds.dup2, Fds.close, heq, Ne.symm heq]

end CVerif
