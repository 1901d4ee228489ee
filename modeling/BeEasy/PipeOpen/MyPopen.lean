import BeEasy.CVerif.PipeEnds
import Mathlib.Logic.Relation

/-!
# PipeOpen — MyPopen

`mypopen` of `popen_iml.c`, the command it starts and the pipe between
them, as one transition system. The parent waits for the child before it
returns the stream, so nobody reads what the child writes, and in mode `w`
nobody has closed the end the child waits on.

Whether `pipe`, `fork`, `execvp` and `fdopen` succeed is open, and so is how
many bytes a `read` or an unfinished `write` moves. The parent has no other
child, and no signal ends its `wait`.
-/

namespace BeEasy.PipeOpen

open CVerif

def STDIN_FILENO : Nat := 0
def STDOUT_FILENO : Nat := 1

/-- What a command does with its standard streams: it writes to its output,
so many bytes in each call, and exits; or it reads its input to the end of
file and exits. -/
inductive Command where
  | writer (writes : List Nat)
  | reader

/-- A call of `mypopen`, the pipe it gets (`pipefd`, and how much it holds),
and the size up to which a write is atomic. -/
structure Setting where
  type : Char
  command : Command
  capacity : Nat
  pipeBuf : Nat
  readFd : Nat
  writeFd : Nat
  distinct : readFd ≠ writeFd

/-- What the parent does next. -/
inductive Parent where
  | check
  | pipe
  | fork
  | wait
  | close
  | fdopen
  | returned (fp : Option Nat)
  deriving DecidableEq

inductive Child where
  | unborn
  /-- The calls that are left before `execvp`. -/
  | setup (calls : List FdCall)
  | running (command : Command)
  /-- In the middle of a write that is not atomic. -/
  | writing (left : Nat) (rest : List Nat)
  | exited
  /-- `execvp` failed, and `mypopen` returned `NULL` in the child. -/
  | returned

structure World where
  parent : Parent
  child : Child
  parentFds : Fds
  childFds : Fds
  /-- The bytes in the pipe. -/
  buffered : Nat

def World.start : World := ⟨.check, .unborn, [], [], 0⟩

namespace Setting

variable (c : Setting)

/-- Both ends of the new pipe. -/
def pipefd : Fds := [(c.readFd, .read), (c.writeFd, .write)]

def setup : List FdCall :=
  if c.type = 'r' then
    [.close c.readFd, .dup2 c.writeFd STDOUT_FILENO, .close c.writeFd]
  else
    [.close c.writeFd, .dup2 c.readFd STDIN_FILENO, .close c.readFd]

/-- What the command has of the pipe. -/
def childFds : Fds := c.setup.foldl FdCall.apply c.pipefd

end Setting

inductive Action where
  /-- The parent's next call; `ok` if it does not fail. -/
  | parent (ok : Bool)
  /-- The child's next call; `ok` if an `execvp` does not fail, `k` bytes
  moved by a `read` or an unfinished `write`. -/
  | child (ok : Bool) (k : Nat)

namespace World

variable (c : Setting) (s : World)

def Held (e : PipeEnd) : Prop := s.parentFds.Holds e ∨ s.childFds.Holds e

instance (e : PipeEnd) : Decidable (s.Held e) := inferInstanceAs (Decidable (_ ∨ _))

/-- The child is gone, and its descriptors with it. -/
def exit : World := { s with child := .exited, childFds := [] }

/-- One call of the parent; `wait` is none while the child runs. -/
def parentTurn (ok : Bool) : Option World :=
  match s.parent with
  | .check =>
      if c.type ≠ 'r' ∧ c.type ≠ 'w' then some { s with parent := .returned none }
      else some { s with parent := .pipe }
  | .pipe =>
      if ok then some { s with parent := .fork, parentFds := c.pipefd }
      else some { s with parent := .returned none }
  | .fork =>
      if ok then some { s with parent := .wait, child := .setup c.setup, childFds := s.parentFds }
      else some { s with parent := .returned none }
  | .wait =>
      match s.child with
      | .exited => some { s with parent := .close }
      | _ => none
  | .close =>
      let fd := if c.type = 'r' then c.writeFd else c.readFd
      some { s with parent := .fdopen, parentFds := s.parentFds.close fd }
  | .fdopen =>
      let fd := if c.type = 'r' then c.readFd else c.writeFd
      some { s with parent := .returned (if ok then some fd else none) }
  | .returned _ => none

/-- A `write` of `n` bytes on the child's standard output: one that is atomic
waits until all of it fits. Where the output is not the pipe it does not
block, and where nobody can read, `SIGPIPE` ends the child. -/
def writeTurn (n : Nat) (rest : List Nat) : Option World :=
  if s.childFds.lookup STDOUT_FILENO = some .write then
    if ¬ s.Held .read then some s.exit
    else if n ≤ c.pipeBuf then
      if s.buffered + n ≤ c.capacity then
        some { s with child := .running (.writer rest), buffered := s.buffered + n }
      else none
    else some { s with child := .writing n rest }
  else some { s with child := .running (.writer rest) }

/-- More of a write that is not atomic. -/
def writeMore (left : Nat) (rest : List Nat) (k : Nat) : Option World :=
  if left = 0 then some { s with child := .running (.writer rest) }
  else if ¬ s.Held .read then some s.exit
  else if 0 < k ∧ k ≤ left ∧ s.buffered + k ≤ c.capacity then
    some { s with child := .writing (left - k) rest, buffered := s.buffered + k }
  else none

/-- A `read` on the child's standard input: end of file is when the pipe is
empty and nobody can write. -/
def readTurn (k : Nat) : Option World :=
  if s.childFds.lookup STDIN_FILENO = some .read then
    if 0 < s.buffered then
      if 0 < k ∧ k ≤ s.buffered then some { s with buffered := s.buffered - k } else none
    else if ¬ s.Held .write then some s.exit
    else none
  else some s.exit

def childTurn (ok : Bool) (k : Nat) : Option World :=
  match s.child with
  | .setup (call :: calls) =>
      some { s with child := .setup calls, childFds := call.apply s.childFds }
  | .setup [] => some { s with child := if ok then .running c.command else .returned }
  | .running (.writer (n :: rest)) => s.writeTurn c n rest
  | .running (.writer []) => some s.exit
  | .running .reader => s.readTurn k
  | .writing left rest => s.writeMore c left rest k
  | .unborn | .exited | .returned => none

def step : Action → Option World
  | .parent ok => s.parentTurn c ok
  | .child ok k => s.childTurn c ok k

/-! ## Deadlock -/

/-- Only the parent holds this end of the pipe. -/
def OnlyParent (e : PipeEnd) : Prop := s.parentFds.Holds e ∧ ¬ s.childFds.Holds e

instance (e : PipeEnd) : Decidable (s.OnlyParent e) := inferInstanceAs (Decidable (_ ∧ _))

/-- The child is blocked on the pipe, in a write that finds no room or a read
that finds nothing, and the other end is the parent's alone. -/
def ChildBlocked : Prop :=
  match s.child with
  | .running (.writer (n :: _)) =>
      s.childFds.lookup STDOUT_FILENO = some .write ∧ n ≤ c.pipeBuf
        ∧ c.capacity < s.buffered + n ∧ s.OnlyParent .read
  | .writing left _ => left ≠ 0 ∧ c.capacity ≤ s.buffered ∧ s.OnlyParent .read
  | .running .reader =>
      s.childFds.lookup STDIN_FILENO = some .read ∧ s.buffered = 0 ∧ s.OnlyParent .write
  | _ => False

def Deadlock : Prop := s.parent = .wait ∧ s.ChildBlocked c

end World

def Step (c : Setting) (s t : World) : Prop := ∃ a, s.step c a = some t

def Reachable (c : Setting) (s : World) : Prop := Relation.ReflTransGen (Step c) World.start s

end BeEasy.PipeOpen
