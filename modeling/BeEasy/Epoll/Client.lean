import BeEasy.CVerif.EventLoop
import BeEasy.CVerif.Lines
import BeEasy.CVerif.Memory

/-!
# Epoll — Client

`send_and_recv` of `epoll_client.c`: one turn for each `select`, which says
whether the connection or the standard input can be read. What the server
sent is put into `recv` and shown; a line typed in is put into `send`, loses
its last character and goes to the server.

The two buffers are cleared before they are used, so nothing in them outlives
a turn. A write to the connection sends all its bytes.
-/

namespace BeEasy.EpollClient

open CVerif

def MAXLINE : Nat := 1024

/-- The bytes of a successful `read`. -/
structure Chunk where
  bytes : List Byte
  nonempty : 1 ≤ bytes.length
  fits : bytes.length ≤ MAXLINE

/-- What `read` on the connection answers. -/
inductive Received where
  | chunk (c : Chunk)
  | closed
  | error

/-- What `select` answers: it fails, or names the descriptors that can be read,
the connection with what is read from it. -/
inductive Event where
  | failed
  | ready (conn : Option Received) (input : Bool)

/-- What goes to the standard output, call by call. -/
inductive Output where
  | selectError
  | getFromServer
  | recvOk
  | recvError
  /-- `write(STDOUT_FILENO, ..)`. -/
  | written (bytes : List Byte)
  /-- `printf("\n")`. -/
  | newline
  | ended
  | bye
  /-- `Client send : %s`. -/
  | clientSend (str : List Byte)
  deriving DecidableEq

inductive Exit where
  | selectError
  | recvOk
  | recvError
  | ended
  | bye
  deriving DecidableEq

structure ClientState where
  /-- What is left of the input. -/
  input : List Byte
  /-- What was written to the connection. -/
  sent : List Byte := []
  stdout : List Output := []
  /-- What the reads from the connection got. -/
  received : List (List Byte) := []

inductive Buffer where
  | recv
  | send
  deriving DecidableEq

/-- An access outside one of the buffers, and the state before it. -/
structure Violation where
  buffer : Buffer
  state : ClientState

def ClientState.print (s : ClientState) (outputs : List Output) : ClientState :=
  { s with stdout := s.stdout ++ outputs }

/-! ## The buffers -/

/-- `recv` with these bytes read into it: what `write` puts out. -/
def showRecv (bytes : List Byte) : Except Fault (List Byte) := do
  let recv ← writeBytes (List.replicate MAXLINE 0) 0 bytes
  let lens := (← readString recv).length
  let recv ← writeBytes recv lens [0]
  readBytes recv 0 MAXLINE

/-- `send` with this string read into it, without the last character. -/
def cutLast (str : List Byte) : Except Fault (List Byte) := do
  let send ← writeBytes (List.replicate MAXLINE 0) 0 (str ++ [0])
  let lens := (← readString send).length
  -- there is no `send[lens-1]` in front of an empty string
  if lens = 0 then .error .outOfBounds
  else readString (← writeBytes send (lens - 1) [0])

/-! ## The loop -/

/-- The part of a turn for the connection. -/
def onConnection (s : ClientState) : Option Received → Progress ClientState Exit Violation
  | none => .running s
  | some .closed => .returned (s.print [.getFromServer, .recvOk]) .recvOk
  | some .error => .returned (s.print [.getFromServer, .recvError]) .recvError
  | some (.chunk c) =>
      let s := { s.print [.getFromServer] with received := s.received ++ [c.bytes] }
      match showRecv c.bytes with
      | .error _ => .faulted ⟨.recv, s⟩
      | .ok recv => .running (s.print [.written recv, .newline])

/-- The part of a turn for the standard input. -/
def onInput (s : ClientState) : Progress ClientState Exit Violation :=
  match fgets MAXLINE s.input with
  | none => .returned (s.print [.ended]) .ended
  | some (str, rest) =>
      let s := { s with input := rest }
      match cutLast str with
      | .error _ => .faulted ⟨.send, s⟩
      | .ok send =>
          if send = [113] then .returned (s.print [.bye]) .bye
          else .running { s.print [.clientSend send] with sent := s.sent ++ send }

/-- One turn of `send_and_recv`. -/
def sendAndRecvTurn (s : ClientState) : Event → Progress ClientState Exit Violation
  | .failed => .returned (s.print [.selectError]) .selectError
  | .ready conn input =>
      match onConnection s conn with
      | .running s => if input then onInput s else .running s
      | stopped => stopped

/-- `send_and_recv` begins, with this to be typed in. -/
def ClientState.init (input : List Byte) : ClientState where
  input := input

/-! ## What the buffers hold -/

section Buffers

variable {bytes str : List Byte}

/-- What is shown of what was read: all of the buffer, and only if there is a
NUL in it. -/
theorem showRecv_eq (h : bytes.length ≤ MAXLINE) :
    showRecv bytes =
      if bytes.length < MAXLINE ∨ (0 : Byte) ∈ bytes then
        .ok (bytes ++ List.replicate (MAXLINE - bytes.length) 0)
      else .error .outOfBounds := by
  have hlen : (bytes ++ List.replicate (MAXLINE - bytes.length) 0).length = MAXLINE := by
    rw [List.length_append, List.length_replicate]
    omega
  rw [showRecv, writeBytes_zeros h]
  generalize hrecv : bytes ++ List.replicate (MAXLINE - bytes.length) 0 = recv at hlen ⊢
  show (readString recv >>= _) = _
  have hnul : (0 : Byte) ∈ recv ↔ bytes.length < MAXLINE ∨ (0 : Byte) ∈ bytes := by
    rw [← hrecv, List.mem_append, List.mem_replicate, or_comm, and_iff_left rfl]
    exact or_congr_left (by omega)
  by_cases hmem : (0 : Byte) ∈ recv
  · rw [if_pos (hnul.mp hmem), readString, if_pos hmem]
    show (writeBytes recv (stringAt recv).length [0] >>= _) = _
    rw [writeBytes_nul hmem]
    show readBytes recv 0 MAXLINE = _
    rw [readBytes_ok (by omega), List.drop_zero, ← hlen, List.take_length]
  · rw [if_neg (hnul.not.mp hmem), readString, if_neg hmem]
    rfl

/-- A string that was typed in loses its last character, whatever that is. -/
theorem cutLast_eq (hne : str ≠ []) (hnul : (0 : Byte) ∉ str) (hlen : str.length < MAXLINE) :
    cutLast str = .ok str.dropLast := by
  have hroom : (str ++ [0]).length ≤ MAXLINE := by
    rw [List.length_append]
    exact hlen
  have hnul' : (0 : Byte) ∉ str.dropLast := fun h => hnul (List.dropLast_subset str h)
  have hsplit := List.dropLast_concat_getLast hne
  have hpos := List.length_pos_iff.mpr hne
  have hlast : str.length - 1 = str.dropLast.length := List.length_dropLast.symm
  rw [cutLast, writeBytes_zeros hroom]
  generalize List.replicate (MAXLINE - (str ++ [0]).length) (0 : Byte) = zeros
  show (readString (str ++ [0] ++ zeros) >>= _) = _
  rw [List.append_assoc, (readString_append_iff hnul).mpr rfl]
  show (if str.length = 0 then _ else writeBytes (str ++ ([0] ++ zeros)) (str.length - 1) [0] >>= _)
    = _
  rw [if_neg (by omega), hlast]
  have hsend : str ++ ([0] ++ zeros) = str.dropLast ++ ([str.getLast hne] ++ ([0] ++ zeros)) :=
    (congrArg (· ++ ([0] ++ zeros)) hsplit.symm).trans (List.append_assoc _ _ _)
  have hwrite : writeBytes (str ++ ([0] ++ zeros)) str.dropLast.length [0]
      = .ok (str.dropLast ++ [0] ++ ([0] ++ zeros)) := by
    rw [hsend]
    refine writeBytes_append ?_
    exact Nat.le_add_left 1 _
  rw [hwrite]
  show readString (str.dropLast ++ [0] ++ ([0] ++ zeros)) = _
  rw [List.append_assoc]
  exact (readString_append_iff hnul').mpr rfl

end Buffers

end BeEasy.EpollClient
